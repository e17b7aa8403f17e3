import Xair.Module
import Mathlib.Data.List.Forall2

/-!
# The verifier

`xair_verify_module` and the checks it is made of.  An error carries the block,
the value and the message that `set_error` writes; its status is always
`XAIR_ERR_VERIFY`.

`verifyModule_ok_iff` at the end of the file says what acceptance means: every
block satisfies `BlockOk`, whose operation list is checked from the left with
the set of values that are available so far.
-/

namespace Xair

/-- `xair_error`, as `set_error` fills it. -/
structure XairError where
  block : Nat
  value : Nat
  message : String
  deriving DecidableEq, Repr

/-- `set_error`. -/
def setError {α : Type} (block value : Nat) (message : String) : Except XairError α :=
  .error ⟨block, value, message⟩

/-- A check that fails with a message about the operation's destination. -/
def require (cond : Bool) (block value : Nat) (message : String) : Except XairError Unit :=
  if cond then .ok () else setError block value message

@[simp] theorem require_ok_iff {c : Bool} {b v : Nat} {msg : String} {u : Unit} :
    require c b v msg = .ok u ↔ c = true := by
  cases c <;> simp [require, setError]

@[simp] theorem setError_eq_ok {α : Type} {b v : Nat} {msg : String} {a : α} :
    setError b v msg = .ok a ↔ False := by
  simp [setError]

@[simp] theorem ite_setError_eq_ok {α : Type} {p : Prop} [Decidable p] {b v : Nat}
    {msg : String} {x : Except XairError α} {a : α} :
    (if p then setError b v msg else x) = .ok a ↔ ¬ p ∧ x = .ok a := by
  by_cases hp : p <;> simp [hp]

@[simp] theorem ite_eq_ok_else_setError {α : Type} {p : Prop} [Decidable p] {b v : Nat}
    {msg : String} {x : Except XairError α} {a : α} :
    (if p then x else setError b v msg) = .ok a ↔ p ∧ x = .ok a := by
  by_cases hp : p <;> simp [hp]

/-- `verify_binary_op`. -/
def verifyBinaryOp (m : Module) (op : OpRec) (block : Nat) : Except XairError Unit :=
  let out := m.valueType op.dst
  let lhs := m.valueType (op.srcAt 0)
  let rhs := m.valueType (op.srcAt 1)
  match op.opcode with
  | .add | .sub | .mul | .and | .or | .xor =>
    require (lhs == rhs && lhs.isInt && out == lhs) block op.dst
      (op.opcode.name ++ " requires matching integer operands")
  | .shl | .lshr | .ashr =>
    require (lhs.isInt && rhs.isInt && out == lhs) block op.dst
      (op.opcode.name ++ " requires integer operands and lhs result type")
  | .eq | .ne | .ult | .ule =>
    require (lhs == rhs && (lhs.isInt || lhs.isAddr) && out.isI1) block op.dst
      (op.opcode.name ++ " requires matching int or addr operands and i1 result")
  | .slt | .sle =>
    require (lhs == rhs && lhs.isInt && out.isI1) block op.dst
      (op.opcode.name ++ " requires matching integer operands and i1 result")
  | .concat =>
    require (lhs.isInt && rhs.isInt && out.isInt && out.bits == (lhs.bits + rhs.bits) % 65536)
      block op.dst "concat result width must equal input width sum"
  | .addrAdd | .addrSub =>
    require (lhs.isAddr && rhs.isInt && lhs.bits == rhs.bits && out == lhs) block op.dst
      (op.opcode.name ++ " requires addrN, iN -> addrN")
  | .flagsAdd | .flagsSub | .flagsShl =>
    require (lhs == rhs && lhs.isInt && out.isFlags) block op.dst
      (op.opcode.name ++ " requires matching integer operands and flags result")
  | _ => setError block op.dst "opcode is not a binary operation"

/-- `verify_unary_op`. -/
def verifyUnaryOp (m : Module) (op : OpRec) (block : Nat) : Except XairError Unit :=
  let out := m.valueType op.dst
  let src := m.valueType (op.srcAt 0)
  match op.opcode with
  | .zext | .sext =>
    require (src.isInt && out.isInt && decide (src.bits < out.bits)) block op.dst
      (op.opcode.name ++ " requires widening integer result")
  | .trunc =>
    require (src.isInt && out.isInt && decide (out.bits < src.bits)) block op.dst
      "trunc requires narrowing integer result"
  | .intToAddr =>
    require (src.isInt && out.isAddr && src.bits == out.bits) block op.dst
      "int_to_addr requires iN -> addrN"
  | .addrToInt =>
    require (src.isAddr && out.isInt && src.bits == out.bits) block op.dst
      "addr_to_int requires addrN -> iN"
  | .flagsLogic =>
    require (src.isInt && out.isFlags) block op.dst
      "flags_logic requires integer input and flags result"
  | .flagZf | .flagCf | .flagOf | .flagSf | .flagPf | .flagAf =>
    require (src.isFlags && out.isI1) block op.dst
      (op.opcode.name ++ " requires flags input and i1 result")
  | _ => setError block op.dst "opcode is not a unary operation"

/-- `verify_memory_op`.  The endianness byte only ever holds one of the two
`xair_endian` values, so its check has no counterpart here. -/
def verifyMemoryOp (m : Module) (op : OpRec) (block : Nat) : Except XairError Unit :=
  let out := m.valueType op.dst
  let mem := m.valueType (op.srcAt 0)
  let addr := m.valueType (op.srcAt 1)
  if !(mem.isMem && addr.isAddr && mem.bits == addr.bits) then
    setError block op.dst "memory operation requires mem<space,N> and addrN"
  else
    match op.opcode with
    | .load =>
      require (out.isValueType && !out.isMem) block op.dst
        "load result must be a non-memory value type"
    | .store =>
      let data := m.valueType (op.srcAt 2)
      require (out == mem && data.isValueType && !data.isMem) block op.dst
        "store result must be the input memory type and data must be non-memory"
    | _ => setError block op.dst "opcode is not a memory operation"

/-- `verify_op`. -/
def verifyOp (m : Module) (op : OpRec) (block : Nat) : Except XairError Unit :=
  if !m.validValue op.dst then
    setError block invalidId "operation has invalid destination"
  else
    let out := m.valueType op.dst
    if !out.isValueType then
      setError block op.dst "operation destination has invalid type"
    else
      match op.opcode with
      | .constU64 =>
        require (op.src.length == 0 && (out.isInt || out.isAddr) && decide (out.bits ≤ 64))
          block op.dst "const requires iN/addrN result up to 64 bits"
      | .zext | .sext | .trunc | .intToAddr | .addrToInt | .flagsLogic
      | .flagZf | .flagCf | .flagOf | .flagSf | .flagPf | .flagAf =>
        if op.src.length ≠ 1 then
          setError block op.dst "unary operation has wrong source count"
        else verifyUnaryOp m op block
      | .load =>
        if op.src.length ≠ 2 then setError block op.dst "load has wrong source count"
        else verifyMemoryOp m op block
      | .store =>
        if op.src.length ≠ 3 then setError block op.dst "store has wrong source count"
        else verifyMemoryOp m op block
      | _ =>
        if op.src.length ≠ 2 then
          setError block op.dst "binary operation has wrong source count"
        else verifyBinaryOp m op block

/-- The argument loop of `verify_target_args`. -/
def verifyArgs (m : Module) (srcBlock : Nat) (available : ValueSet) :
    List Nat → List Nat → Except XairError Unit
  | arg :: args, param :: params =>
    if !m.valueIsAvailable available arg then
      setError srcBlock arg "terminator argument is not available in source block"
    else if m.valueType arg ≠ m.valueType param then
      setError srcBlock arg "terminator argument type does not match target parameter"
    else verifyArgs m srcBlock available args params
  | _, _ => .ok ()

/-- `verify_target_args`. -/
def verifyTargetArgs (m : Module) (srcBlock : Nat) (available : ValueSet) (target : Nat)
    (args : List Nat) : Except XairError Unit :=
  if !m.validBlock target then setError srcBlock invalidId "terminator target is invalid"
  else if (m.blockRec target).params.length ≠ args.length then
    setError srcBlock invalidId "terminator argument count does not match target parameters"
  else verifyArgs m srcBlock available args (m.blockRec target).params

/-- The loop over the returned values. -/
def verifyReturnValues (m : Module) (block : Nat) (available : ValueSet) :
    List Nat → Except XairError Unit
  | [] => .ok ()
  | value :: values =>
    if !m.valueIsAvailable available value then
      setError block value "return value is not available in source block"
    else verifyReturnValues m block available values

/-- `verify_term`. -/
def verifyTerm (m : Module) (block : Nat) (available : ValueSet) : Except XairError Unit :=
  let term := (m.blockRec block).term
  match term.kind with
  | .none => setError block invalidId "block has no terminator"
  | .jump =>
    verifyTargetArgs m block available term.trueTarget (m.termArgsConst term false)
  | .cbranch =>
    if !(m.valueIsAvailable available term.condition && (m.valueType term.condition).isI1) then
      setError block term.condition "conditional branch requires available i1 condition"
    else
      match verifyTargetArgs m block available term.trueTarget (m.termArgsConst term false) with
      | .error e => .error e
      | .ok () =>
        verifyTargetArgs m block available term.falseTarget (m.termArgsConst term true)
  | .ret => verifyReturnValues m block available (m.termArgsConst term false)
  | .trap | .fault => .ok ()

/-- The loop over the parameters of a block: each becomes available. -/
def verifyParams (m : Module) (block : Nat) : List Nat → ValueSet → Except XairError ValueSet
  | [], available => .ok available
  | value :: values, available =>
    if !m.validValue value || (m.valueRec value).block != block ||
        !(m.valueType value).isValueType then
      setError block value "block parameter is invalid"
    else verifyParams m block values (available.mark value)

/-- The source loop of one operation. -/
def verifySources (m : Module) (block : Nat) (available : ValueSet) :
    List Nat → Except XairError Unit
  | [] => .ok ()
  | src :: srcs =>
    if !m.valueIsAvailable available src then
      setError block src "operation source is not available in block"
    else verifySources m block available srcs

/-- The loop over the operations of a block. -/
def verifyOps (m : Module) (block : Nat) : List Nat → ValueSet → Except XairError ValueSet
  | [], available => .ok available
  | o :: os, available =>
    if m.ops.length ≤ o then setError block invalidId "block operation id is invalid"
    else
      let op := m.opRec o
      if !m.validValue op.dst || (m.valueRec op.dst).block != block ||
          (m.valueRec op.dst).op != some o then
        setError block op.dst "operation destination is inconsistent"
      else
        match verifySources m block available op.src with
        | .error e => .error e
        | .ok () =>
          match verifyOp m op block with
          | .error e => .error e
          | .ok () => verifyOps m block os (available.mark op.dst)

/-- One round of the block loop. -/
def verifyBlock (m : Module) (block : Nat) : Except XairError Unit :=
  match verifyParams m block (m.blockRec block).params ValueSet.empty with
  | .error e => .error e
  | .ok available =>
    match verifyOps m block (m.blockRec block).ops available with
    | .error e => .error e
    | .ok available => verifyTerm m block available

/-- The block loop, from `block` with `n` blocks to go. -/
def verifyBlocks (m : Module) : Nat → Nat → Except XairError Unit
  | 0, _ => .ok ()
  | n + 1, block =>
    match verifyBlock m block with
    | .error e => .error e
    | .ok () => verifyBlocks m n (block + 1)

/-- `xair_verify_module`. -/
def verifyModule (m : Module) : Except XairError Unit := verifyBlocks m m.blocks.length 0

/-! ### The type rules -/

/-- The type rule of an opcode: the destination type and the source types it
accepts. -/
def typeRule (opcode : Opcode) (out : Ty) (srcs : List Ty) : Bool :=
  match opcode, srcs with
  | .constU64, [] => (out.isInt || out.isAddr) && decide (out.bits ≤ 64)
  | .add, [l, r] | .sub, [l, r] | .mul, [l, r] | .and, [l, r] | .or, [l, r] | .xor, [l, r] =>
    l == r && l.isInt && out == l
  | .shl, [l, r] | .lshr, [l, r] | .ashr, [l, r] => l.isInt && r.isInt && out == l
  | .eq, [l, r] | .ne, [l, r] | .ult, [l, r] | .ule, [l, r] =>
    l == r && (l.isInt || l.isAddr) && out.isI1
  | .slt, [l, r] | .sle, [l, r] => l == r && l.isInt && out.isI1
  | .concat, [l, r] =>
    l.isInt && r.isInt && out.isInt && out.bits == (l.bits + r.bits) % 65536
  | .addrAdd, [l, r] | .addrSub, [l, r] =>
    l.isAddr && r.isInt && l.bits == r.bits && out == l
  | .flagsAdd, [l, r] | .flagsSub, [l, r] | .flagsShl, [l, r] =>
    l == r && l.isInt && out.isFlags
  | .zext, [s] | .sext, [s] => s.isInt && out.isInt && decide (s.bits < out.bits)
  | .trunc, [s] => s.isInt && out.isInt && decide (out.bits < s.bits)
  | .intToAddr, [s] => s.isInt && out.isAddr && s.bits == out.bits
  | .addrToInt, [s] => s.isAddr && out.isInt && s.bits == out.bits
  | .flagsLogic, [s] => s.isInt && out.isFlags
  | .flagZf, [s] | .flagCf, [s] | .flagOf, [s] | .flagSf, [s] | .flagPf, [s] | .flagAf, [s] =>
    s.isFlags && out.isI1
  | .load, [mem, addr] =>
    mem.isMem && addr.isAddr && mem.bits == addr.bits && (out.isValueType && !out.isMem)
  | .store, [mem, addr, data] =>
    mem.isMem && addr.isAddr && mem.bits == addr.bits &&
      (out == mem && data.isValueType && !data.isMem)
  | _, _ => false

/-- `verify_op` accepts exactly the operations that meet their type rule. -/
theorem verifyOp_ok_iff {m : Module} {op : OpRec} {b : Nat} :
    verifyOp m op b = .ok () ↔ m.validValue op.dst = true ∧
      (m.valueType op.dst).isValueType = true ∧
      typeRule op.opcode (m.valueType op.dst) (op.src.map m.valueType) = true := by
  obtain ⟨opcode, dst, src, endian, imm⟩ := op
  simp only [verifyOp]
  by_cases hd : m.validValue dst = true
  · by_cases ht : (m.valueType dst).isValueType = true
    · simp only [hd, ht, Bool.not_true, Bool.false_eq_true, if_false, true_and]
      -- the opcode picks the check, the number of sources decides whether it is reached
      match src with
      | [] => cases opcode <;> simp [typeRule]
      | [s] => cases opcode <;> simp [verifyUnaryOp, typeRule, OpRec.srcAt]
      | [l, r] =>
        cases opcode <;> simp [verifyBinaryOp, verifyMemoryOp, typeRule, OpRec.srcAt, and_assoc]
      | [a, b, c] => cases opcode <;> simp [verifyMemoryOp, typeRule, OpRec.srcAt, and_assoc]
      | a :: b :: c :: d :: t => cases opcode <;> simp [typeRule]
    · simp [hd, ht]
  · simp [hd]

/-! ### What acceptance means -/

/-- The values marked after the parameters `vs` and the destinations `vs`. -/
def ValueSet.markAll (s : ValueSet) : List Nat → ValueSet
  | [] => s
  | v :: vs => (s.mark v).markAll vs

theorem ValueSet.markAll_apply (vs : List Nat) (s : ValueSet) (u : Nat) :
    s.markAll vs u = (decide (u ∈ vs) || s u) := by
  induction vs generalizing s with
  | nil => simp [markAll]
  | cons v vs ih =>
    rw [markAll, ih, mark_apply]
    by_cases h1 : u = v <;> by_cases h2 : u ∈ vs <;> simp [h1, h2]

theorem ValueSet.markAll_append (s : ValueSet) (vs ws : List Nat) :
    s.markAll (vs ++ ws) = (s.markAll vs).markAll ws := by
  induction vs generalizing s with
  | nil => rfl
  | cons v vs ih => exact ih _

/-- The destinations of a list of operations. -/
def Module.dsts (m : Module) (os : List Nat) : List Nat := os.map fun o => (m.opRec o).dst

/-- What the verifier asks of operation `o` of block `b` when `available` holds
before it. -/
structure OpOk (m : Module) (b : Nat) (available : ValueSet) (o : Nat) : Prop where
  lt : o < m.ops.length
  dst_lt : (m.opRec o).dst < m.values.length
  dst_block : (m.valueRec (m.opRec o).dst).block = b
  dst_op : (m.valueRec (m.opRec o).dst).op = some o
  sources : ∀ s ∈ (m.opRec o).src, m.valueIsAvailable available s = true
  out_type : (m.valueType (m.opRec o).dst).isValueType = true
  typed : typeRule (m.opRec o).opcode (m.valueType (m.opRec o).dst)
    ((m.opRec o).src.map m.valueType) = true

/-- Every operation of the list is in order, the later ones with the earlier
destinations available. -/
def OpsOk (m : Module) (b : Nat) : List Nat → ValueSet → Prop
  | [], _ => True
  | o :: os, available => OpOk m b available o ∧ OpsOk m b os (available.mark (m.opRec o).dst)

/-- What the verifier asks of an edge: each argument is available and has the
type of the target's parameter in the same position. -/
structure EdgeOk (m : Module) (available : ValueSet) (target : Nat) (args : List Nat) : Prop where
  target_lt : target < m.blocks.length
  args_ok : List.Forall₂
    (fun arg param => m.valueIsAvailable available arg = true ∧
      m.valueType arg = m.valueType param) args (m.blockRec target).params

/-- What the verifier asks of a terminator. -/
def TermOk (m : Module) (t : TermRec) (available : ValueSet) : Prop :=
  match t.kind with
  | .none => False
  | .jump => EdgeOk m available t.trueTarget (m.termArgsConst t false)
  | .cbranch =>
    m.valueIsAvailable available t.condition = true ∧ (m.valueType t.condition).isI1 = true ∧
      EdgeOk m available t.trueTarget (m.termArgsConst t false) ∧
      EdgeOk m available t.falseTarget (m.termArgsConst t true)
  | .ret => ∀ v ∈ m.termArgsConst t false, m.valueIsAvailable available v = true
  | .trap => True
  | .fault => True

/-- The values available after the whole block. -/
def Module.availableAtEnd (m : Module) (b : Nat) : ValueSet :=
  (ValueSet.empty.markAll (m.blockRec b).params).markAll (m.dsts (m.blockRec b).ops)

/-- The values available before the operations of a block. -/
def Module.availableAtStart (m : Module) (b : Nat) : ValueSet :=
  ValueSet.empty.markAll (m.blockRec b).params

/-- What the verifier asks of a block. -/
structure BlockOk (m : Module) (b : Nat) : Prop where
  params : ∀ v ∈ (m.blockRec b).params, v < m.values.length ∧ (m.valueRec v).block = b ∧
    (m.valueType v).isValueType = true
  ops : OpsOk m b (m.blockRec b).ops (m.availableAtStart b)
  term : TermOk m (m.blockRec b).term (m.availableAtEnd b)

/-! ### Acceptance, loop by loop -/

theorem verifyParams_ok_iff {m : Module} {b : Nat} (vs : List Nat) (av av' : ValueSet) :
    verifyParams m b vs av = .ok av' ↔
      (∀ v ∈ vs, v < m.values.length ∧ (m.valueRec v).block = b ∧
        (m.valueType v).isValueType = true) ∧ av' = av.markAll vs := by
  induction vs generalizing av with
  | nil => simp only [verifyParams, ValueSet.markAll, Except.ok.injEq, List.not_mem_nil]; tauto
  | cons v vs ih =>
    simp only [verifyParams, ite_setError_eq_ok, ih, ValueSet.markAll, List.forall_mem_cons]
    simp [Module.validValue, and_assoc]

theorem verifySources_ok_iff {m : Module} {b : Nat} {av : ValueSet} (ss : List Nat) :
    verifySources m b av ss = .ok () ↔ ∀ s ∈ ss, m.valueIsAvailable av s = true := by
  induction ss with
  | nil => simp [verifySources]
  | cons s ss ih => simp [verifySources, ih]

theorem verifyOps_ok_iff {m : Module} {b : Nat} (os : List Nat) (av av' : ValueSet) :
    verifyOps m b os av = .ok av' ↔ OpsOk m b os av ∧ av' = av.markAll (m.dsts os) := by
  induction os generalizing av with
  | nil =>
    simp only [verifyOps, OpsOk, Module.dsts, List.map_nil, ValueSet.markAll, Except.ok.injEq]; tauto
  | cons o os ih =>
    have hhead : OpOk m b av o ↔ o < m.ops.length ∧
        (m.validValue (m.opRec o).dst = true ∧ (m.valueRec (m.opRec o).dst).block = b ∧
          (m.valueRec (m.opRec o).dst).op = some o) ∧
        verifySources m b av (m.opRec o).src = .ok () ∧ verifyOp m (m.opRec o) b = .ok () := by
      rw [verifySources_ok_iff, verifyOp_ok_iff]
      simp only [Module.validValue, decide_eq_true_eq]
      constructor
      · rintro ⟨h1, h2, h3, h4, h5, h6, h7⟩
        exact ⟨h1, ⟨h2, h3, h4⟩, h5, h2, h6, h7⟩
      · rintro ⟨h1, ⟨h2, h3, h4⟩, h5, -, h6, h7⟩
        exact ⟨h1, h2, h3, h4, h5, h6, h7⟩
    rw [OpsOk, hhead, verifyOps]
    simp only [ite_setError_eq_ok, Module.dsts, List.map_cons, ValueSet.markAll, not_le]
    cases verifySources m b av (m.opRec o).src with
    | error e => simp
    | ok _ =>
      cases verifyOp m (m.opRec o) b with
      | error e => simp
      | ok _ => simp [ih, Module.dsts, and_assoc]

theorem verifyArgs_ok_iff {m : Module} {b : Nat} {av : ValueSet} (args params : List Nat)
    (hlen : params.length = args.length) :
    verifyArgs m b av args params = .ok () ↔ List.Forall₂
      (fun arg param => m.valueIsAvailable av arg = true ∧
        m.valueType arg = m.valueType param) args params := by
  induction args generalizing params with
  | nil => cases params <;> simp_all [verifyArgs]
  | cons arg args ih =>
    cases params with
    | nil => simp at hlen
    | cons param params =>
      have hlen' : params.length = args.length := by simpa using hlen
      simp [verifyArgs, ih params hlen', and_assoc]

theorem verifyTargetArgs_ok_iff {m : Module} {b : Nat} {av : ValueSet} {target : Nat}
    {args : List Nat} :
    verifyTargetArgs m b av target args = .ok () ↔ EdgeOk m av target args := by
  rw [verifyTargetArgs]
  simp only [ite_setError_eq_ok, Module.validBlock, Bool.not_eq_true', decide_eq_false_iff_not,
    not_not]
  constructor
  · rintro ⟨h1, h2, h3⟩
    exact ⟨h1, (verifyArgs_ok_iff _ _ h2).mp h3⟩
  · rintro ⟨h1, h2⟩
    exact ⟨h1, h2.length_eq.symm, (verifyArgs_ok_iff _ _ h2.length_eq.symm).mpr h2⟩

theorem verifyReturnValues_ok_iff {m : Module} {b : Nat} {av : ValueSet} (vs : List Nat) :
    verifyReturnValues m b av vs = .ok () ↔ ∀ v ∈ vs, m.valueIsAvailable av v = true := by
  induction vs with
  | nil => simp [verifyReturnValues]
  | cons v vs ih => simp [verifyReturnValues, ih]

theorem verifyTerm_ok_iff {m : Module} {b : Nat} {av : ValueSet} :
    verifyTerm m b av = .ok () ↔ TermOk m (m.blockRec b).term av := by
  rw [verifyTerm, TermOk]
  cases (m.blockRec b).term.kind with
  | none => simp
  | jump => exact verifyTargetArgs_ok_iff
  | cbranch =>
    simp only [ite_setError_eq_ok, ← verifyTargetArgs_ok_iff (b := b)]
    cases verifyTargetArgs m b av (m.blockRec b).term.trueTarget
      (m.termArgsConst (m.blockRec b).term false) <;> simp [and_assoc]
  | ret => exact verifyReturnValues_ok_iff _
  | trap => simp
  | fault => simp

theorem verifyBlock_ok_iff {m : Module} {b : Nat} : verifyBlock m b = .ok () ↔ BlockOk m b := by
  have hp := verifyParams_ok_iff (m := m) (b := b) (m.blockRec b).params ValueSet.empty
  have ho := verifyOps_ok_iff (m := m) (b := b) (m.blockRec b).ops (m.availableAtStart b)
  constructor
  · intro h
    rw [verifyBlock] at h
    split at h
    · cases h
    · next av hav =>
      obtain ⟨hps, rfl⟩ := (hp av).mp hav
      split at h
      · cases h
      · next av' hav' =>
        obtain ⟨hos, rfl⟩ := (ho av').mp hav'
        exact ⟨hps, hos, verifyTerm_ok_iff.mp h⟩
  · rintro ⟨hps, hos, ht⟩
    have hos' := (ho _).mpr ⟨hos, rfl⟩
    unfold Module.availableAtStart at hos'
    rw [verifyBlock, (hp _).mpr ⟨hps, rfl⟩]
    simp only [hos']
    exact verifyTerm_ok_iff.mpr ht

theorem verifyBlocks_ok_iff {m : Module} (n b : Nat) :
    verifyBlocks m n b = .ok () ↔ ∀ b', b ≤ b' → b' < b + n → BlockOk m b' := by
  induction n generalizing b with
  | zero => simp only [verifyBlocks, true_iff]; omega
  | succ n ih =>
    rw [verifyBlocks]
    cases hb : verifyBlock m b with
    | error e =>
      refine ⟨fun h => by simp at h, fun h => ?_⟩
      rw [verifyBlock_ok_iff.mpr (h b (by omega) (by omega))] at hb
      simp at hb
    | ok _ =>
      rw [ih]
      constructor
      · intro h b' h1 h2
        rcases Nat.eq_or_lt_of_le h1 with rfl | h1
        · exact verifyBlock_ok_iff.mp hb
        · exact h b' h1 (by omega)
      · intro h b' h1 h2
        exact h b' (by omega) (by omega)

/-- The module passes `xair_verify_module`. -/
def Module.Verified (m : Module) : Prop := verifyModule m = .ok ()

instance (m : Module) : Decidable m.Verified :=
  decidable_of_iff ((verifyModule m).toBool = true) (by
    unfold Module.Verified
    cases verifyModule m <;> simp [Except.toBool])

/-- **Acceptance.**  The verifier accepts a module when every block is in order. -/
theorem verifyModule_ok_iff {m : Module} :
    m.Verified ↔ ∀ b < m.blocks.length, BlockOk m b := by
  rw [Module.Verified, verifyModule, verifyBlocks_ok_iff]
  constructor
  · intro h b hb
    exact h b (by omega) (by omega)
  · intro h b _ hb
    exact h b (by omega)

end Xair
