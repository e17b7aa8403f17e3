import Xair.Types

/-!
# Modules

The records of `xair.c`: values, operations, terminators, blocks and the module
that owns them.  A growable array is a list whose length is the C count; the
capacity is left out because allocation is taken to succeed, and so are the
in-place shrinks of `xair_module_freeze`.

An array read that the C code does not guard goes through `valueRec`, `opRec`
or `blockRec`, which return a default record past the end.  The representation
invariant (`Invariant.lean`) is what keeps these reads inside the arrays.
-/

namespace Xair

/-- A NUL-terminated name, as its bytes before the NUL. -/
abbrev Name := List UInt8

/-- `XAIR_NAME_LEN`. -/
def nameLen : Nat := 32

/-- `strcmp`: the bytes are compared as unsigned characters. -/
def strcmp : Name → Name → Ordering
  | [], [] => .eq
  | [], _ :: _ => .lt
  | _ :: _, [] => .gt
  | a :: s, b :: t => if a = b then strcmp s t else if a < b then .lt else .gt

/-- The decimal digits of `%u`. -/
def decimal (n : Nat) : Name := (Nat.toDigits 10 n).map fun c => UInt8.ofNat c.toNat

/-- The lower-case digits of `%llx`. -/
def hexadecimal (n : Nat) : Name := (Nat.toDigits 16 n).map fun c => UInt8.ofNat c.toNat

/-- A string literal as a name. -/
def literalName (s : String) : Name := s.toList.map fun c => UInt8.ofNat c.toNat

/-- `copy_name`: the caller's name, or `prefix` and the id; both cut to fit. -/
def copyName (src : Option Name) (pre : Name) (id : Nat) : Name :=
  match src with
  | some (c :: s) => (c :: s).take (nameLen - 1)
  | _ => (pre ++ decimal id).take (nameLen - 1)

/-- `xair_value_rec`.  `op` is `none` for `XAIR_INVALID_ID`. -/
structure ValueRec where
  type : Ty
  block : Nat
  op : Option Nat
  name : Name
  deriving DecidableEq, Repr

/-- `xair_op_rec`.  `src` holds the `src_count` sources in use. -/
structure OpRec where
  opcode : Opcode
  dst : Nat
  src : List Nat
  endian : Endian
  imm : Word
  deriving DecidableEq, Repr

/-- `op->src[i]`. -/
def OpRec.srcAt (op : OpRec) (i : Nat) : Nat := op.src.getD i invalidId

/-- `xair_term_kind`. -/
inductive TermKind
  | none | jump | cbranch | ret | trap | fault
  deriving DecidableEq, Repr

/-- `xair_term_rec`. -/
structure TermRec where
  kind : TermKind
  condition : Nat
  trueTarget : Nat
  falseTarget : Nat
  trueArgOffset : Nat
  trueArgCount : Nat
  falseArgOffset : Nat
  falseArgCount : Nat
  code : Nat
  deriving DecidableEq, Repr

/-- The zeroed terminator with its ids invalid. -/
def TermRec.empty (kind : TermKind) : TermRec :=
  ⟨kind, invalidId, invalidId, invalidId, 0, 0, 0, 0, 0⟩

/-- `xair_block_rec`. -/
structure BlockRec where
  name : Name
  params : List Nat
  ops : List Nat
  term : TermRec
  deriving DecidableEq, Repr

/-- `xair_value_number_entry`; an unused slot of the table is `none`. -/
structure ValueNumberEntry where
  hash : Word
  value : Nat
  deriving DecidableEq, Repr

/-- `xair_value_numbering_stats` as the module keeps it. -/
structure ValueNumberingStats where
  created : Nat
  reused : Nat
  collisions : Nat
  deriving DecidableEq, Repr

/-- `struct xair_module`. -/
structure Module where
  values : List ValueRec
  ops : List OpRec
  blocks : List BlockRec
  termArgs : List Nat
  valueNumbers : List (Option ValueNumberEntry)
  valueNumberCount : Nat
  stats : ValueNumberingStats
  frozen : Bool
  deriving DecidableEq, Repr

namespace Module

/-- `xair_module_create`. -/
def create : Module := ⟨[], [], [], [], [], 0, ⟨0, 0, 0⟩, false⟩

def defaultValue : ValueRec := ⟨⟨.invalid, 0, 0⟩, invalidId, none, []⟩
def defaultOp : OpRec := ⟨.constU64, invalidId, [], .le, 0⟩
def defaultBlock : BlockRec := ⟨[], [], [], TermRec.empty .none⟩

def valueRec (m : Module) (v : Nat) : ValueRec := m.values.getD v defaultValue
def opRec (m : Module) (o : Nat) : OpRec := m.ops.getD o defaultOp
def blockRec (m : Module) (b : Nat) : BlockRec := m.blocks.getD b defaultBlock

/-- `module->values[value].type`. -/
def valueType (m : Module) (v : Nat) : Ty := (m.valueRec v).type

/-- `valid_block`. -/
def validBlock (m : Module) (b : Nat) : Bool := decide (b < m.blocks.length)

/-- `valid_value`. -/
def validValue (m : Module) (v : Nat) : Bool := decide (v < m.values.length)

/-- The operation that defines `v`, when its id is a valid one. -/
def valueOp (m : Module) (v : Nat) : Option OpRec :=
  match (m.valueRec v).op with
  | some o => m.ops[o]?
  | none => none

/-- `value_is_global_const`. -/
def valueIsGlobalConst (m : Module) (v : Nat) : Bool :=
  m.validValue v &&
    match m.valueOp v with
    | some op => op.opcode == .constU64
    | none => false

/-- `term_args_const`: the argument slice of one edge. -/
def termArgsConst (m : Module) (t : TermRec) (falseArgs : Bool) : List Nat :=
  if falseArgs then (m.termArgs.drop t.falseArgOffset).take t.falseArgCount
  else (m.termArgs.drop t.trueArgOffset).take t.trueArgCount

/-- Replace one block record. -/
def setBlock (m : Module) (b : Nat) (bb : BlockRec) : Module :=
  { m with blocks := m.blocks.set b bb }

/-- Replace one operation record. -/
def setOp (m : Module) (o : Nat) (op : OpRec) : Module :=
  { m with ops := m.ops.set o op }

end Module

/-- A map from value ids to a bit, as the verifier and the liveness pass keep. -/
abbrev ValueSet := Nat → Bool

/-- `set[v] = 1`. -/
def ValueSet.mark (s : ValueSet) (v : Nat) : ValueSet := fun u => u == v || s u

/-- No bit set. -/
def ValueSet.empty : ValueSet := fun _ => false

@[simp] theorem ValueSet.mark_apply (s : ValueSet) (v u : Nat) :
    s.mark v u = (u == v || s u) := rfl

@[simp] theorem ValueSet.empty_apply (u : Nat) : ValueSet.empty u = false := rfl

/-- `value_is_available`. -/
def Module.valueIsAvailable (m : Module) (available : ValueSet) (v : Nat) : Bool :=
  m.validValue v && (available v || m.valueIsGlobalConst v)

end Xair
