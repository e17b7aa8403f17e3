import Xair.ValueNumber

/-!
# The builder API

`xair_block_create`, `xair_block_add_param`, the `xair_build_*` calls, the
`xair_set_*` terminators and `xair_module_freeze`.

A call returns the module it leaves behind together with a status or an id.  The
module is returned on failure as well: a failing call can leave effects, such as
the true arguments that `xair_set_cbranch` has appended before its false
arguments are refused.  Output pointers are taken to be non-null.
-/

namespace Xair

/-- A pointer and a count: a caller's argument array, which may be null. -/
inductive ArgArray
  | null (count : Nat)
  | array (ids : List Nat)
  deriving DecidableEq, Repr

def ArgArray.count : ArgArray → Nat
  | .null count => count
  | .array ids => ids.length

/-- `append_term_args`: the offset of the appended slice. -/
def appendTermArgs (m : Module) (args : ArgArray) : Module × Except Status Nat :=
  if args.count = 0 then (m, .ok m.termArgs.length)
  else
    match args with
    | .null _ => (m, .error .errBadArg)
    | .array ids => ({ m with termArgs := m.termArgs ++ ids }, .ok m.termArgs.length)

/-- `add_value`. -/
def addValue (m : Module) (block : Nat) (type : Ty) (name : Option Name) :
    Module × Except Status Nat :=
  if m.frozen || !m.validBlock block || !type.isValueType then (m, .error .errBadArg)
  else if uint32Max ≤ m.values.length then (m, .error .errRange)
  else
    let id := m.values.length
    ({ m with values := m.values ++ [⟨type, block, none, copyName name [118] id⟩] }, .ok id)

/-- `append_op`, on the block record. -/
def BlockRec.appendOp (bb : BlockRec) (o : Nat) : BlockRec := { bb with ops := bb.ops ++ [o] }

/-- `append_param`, on the block record. -/
def BlockRec.appendParam (bb : BlockRec) (v : Nat) : BlockRec :=
  { bb with params := bb.params ++ [v] }

/-- The tail of `add_op` once the value `v` exists: record the operation, link
the value to it and list it in its block. -/
def appendOpRec (m : Module) (k : OpKey) (v : Nat) : Module :=
  let o := m.ops.length
  { m with
    ops := m.ops ++ [⟨k.opcode, v, k.srcs, k.endian, k.imm⟩]
    values := m.values.set v { m.valueRec v with op := some o }
    blocks := m.blocks.set k.block ((m.blockRec k.block).appendOp o) }

/-- `add_op`. -/
def addOp (m : Module) (k : OpKey) (name : Option Name) : Module × Except Status Nat :=
  if m.frozen || !m.validBlock k.block || decide (3 < k.srcs.length) then (m, .error .errBadArg)
  else if (m.blockRec k.block).term.kind ≠ .none then (m, .error .errBadArg)
  else if uint32Max ≤ m.ops.length then (m, .error .errRange)
  else
    match valueNumberLookup m (valueNumberHash k) k with
    | (m, some v) => (m, .ok v)
    | (m, none) =>
      match addValue (valueNumberPrepareInsert m) k.block k.type name with
      | (m, .error e) => (m, .error e)
      | (m, .ok v) => (valueNumberInsert (appendOpRec m k v) (valueNumberHash k) v, .ok v)

/-- `xair_block_create`. -/
def blockCreate (m : Module) (name : Option Name) : Module × Except Status Nat :=
  if m.frozen then (m, .error .errBadArg)
  else if uint32Max ≤ m.blocks.length then (m, .error .errRange)
  else
    let id := m.blocks.length
    ({ m with blocks := m.blocks ++ [⟨copyName name [98, 98] id, [], [], TermRec.empty .none⟩] },
      .ok id)

/-- `xair_block_add_param`. -/
def blockAddParam (m : Module) (block : Nat) (type : Ty) (name : Option Name) :
    Module × Except Status Nat :=
  if !m.validBlock block || !type.isValueType then (m, .error .errBadArg)
  else if (m.blockRec block).term.kind ≠ .none then (m, .error .errBadArg)
  else
    match addValue m block type name with
    | (m, .error e) => (m, .error e)
    | (m, .ok v) => (m.setBlock block ((m.blockRec block).appendParam v), .ok v)

/-- `xair_build_const_u64`. -/
def buildConstU64 (m : Module) (block : Nat) (type : Ty) (value : Word) (name : Option Name) :
    Module × Except Status Nat :=
  if !(type.kind == .int || type.kind == .addr) || decide (64 < type.bits) then
    (m, .error .errBadArg)
  else addOp m ⟨block, .constU64, type, [], value, .le⟩ name

/-- `xair_build_unary`. -/
def buildUnary (m : Module) (block : Nat) (opcode : Opcode) (type : Ty) (src : Nat)
    (name : Option Name) : Module × Except Status Nat :=
  if !m.validValue src then (m, .error .errBadArg)
  else addOp m ⟨block, opcode, type, [src], 0#64, .le⟩ name

/-- `xair_build_binary`. -/
def buildBinary (m : Module) (block : Nat) (opcode : Opcode) (type : Ty) (lhs rhs : Nat)
    (name : Option Name) : Module × Except Status Nat :=
  if !m.validValue lhs || !m.validValue rhs then (m, .error .errBadArg)
  else addOp m ⟨block, opcode, type, [lhs, rhs], 0#64, .le⟩ name

/-- `xair_build_load`. -/
def buildLoad (m : Module) (block : Nat) (type : Ty) (memory address : Nat) (endian : Endian)
    (name : Option Name) : Module × Except Status Nat :=
  if !m.validValue memory || !m.validValue address then (m, .error .errBadArg)
  else addOp m ⟨block, .load, type, [memory, address], 0#64, endian⟩ name

/-- `xair_build_store`. -/
def buildStore (m : Module) (block memory address data : Nat) (endian : Endian)
    (name : Option Name) : Module × Except Status Nat :=
  if !m.validValue memory || !m.validValue address || !m.validValue data then
    (m, .error .errBadArg)
  else addOp m ⟨block, .store, m.valueType memory, [memory, address, data], 0#64, endian⟩ name

/-! ### Terminators -/

/-- The guard of every `xair_set_*` call: an open block of a module that is not
frozen. -/
def Module.isOpen (m : Module) (block : Nat) : Bool :=
  !m.frozen && m.validBlock block && (m.blockRec block).term.kind == .none

/-- `set_term`. -/
def setTerm (m : Module) (block : Nat) (term : TermRec) : Module × Except Status Unit :=
  if !m.isOpen block then (m, .error .errBadArg)
  else (m.setBlock block { m.blockRec block with term := term }, .ok ())

/-- `xair_set_jump`. -/
def setJump (m : Module) (block target : Nat) (args : ArgArray) : Module × Except Status Unit :=
  if !m.isOpen block || !m.validBlock target then (m, .error .errBadArg)
  else
    match appendTermArgs m args with
    | (m, .error e) => (m, .error e)
    | (m, .ok offset) =>
      setTerm m block { TermRec.empty .jump with
        trueTarget := target, trueArgOffset := offset, trueArgCount := args.count }

/-- `xair_set_cbranch`. -/
def setCbranch (m : Module) (block condition trueTarget : Nat) (trueArgs : ArgArray)
    (falseTarget : Nat) (falseArgs : ArgArray) : Module × Except Status Unit :=
  if !m.isOpen block || !m.validValue condition || !m.validBlock trueTarget ||
      !m.validBlock falseTarget then (m, .error .errBadArg)
  else
    match appendTermArgs m trueArgs with
    | (m, .error e) => (m, .error e)
    | (m, .ok trueOffset) =>
      match appendTermArgs m falseArgs with
      | (m, .error e) => (m, .error e)
      | (m, .ok falseOffset) =>
        setTerm m block
          ⟨.cbranch, condition, trueTarget, falseTarget, trueOffset, trueArgs.count,
            falseOffset, falseArgs.count, 0⟩

/-- `xair_set_return`. -/
def setReturn (m : Module) (block : Nat) (values : ArgArray) : Module × Except Status Unit :=
  if !m.isOpen block then (m, .error .errBadArg)
  else
    match appendTermArgs m values with
    | (m, .error e) => (m, .error e)
    | (m, .ok offset) =>
      setTerm m block { TermRec.empty .ret with
        trueArgOffset := offset, trueArgCount := values.count }

/-- `xair_set_trap`. -/
def setTrap (m : Module) (block code : Nat) : Module × Except Status Unit :=
  if !m.isOpen block then (m, .error .errBadArg)
  else setTerm m block { TermRec.empty .trap with code := code }

/-- `xair_set_fault`. -/
def setFault (m : Module) (block code : Nat) : Module × Except Status Unit :=
  if !m.isOpen block then (m, .error .errBadArg)
  else setTerm m block { TermRec.empty .fault with code := code }

/-- `xair_module_freeze`.  The shrinks of `finalize_module_storage` change
capacities only; the value-number table is dropped. -/
def moduleFreeze (m : Module) : Module × Except Status Unit :=
  if m.frozen then (m, .error .errBadArg)
  else ({ valueNumberClear m with frozen := true }, .ok ())

end Xair
