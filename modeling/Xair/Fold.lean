import Xair.Module

/-!
# Local canonicalization

`fold_constant_op`, `compute_flag_extract`, `compare_value_order` and the loop
`canonicalize_local_ops` that folds each operation and puts the operands of
commutative ones in order.
-/

namespace Xair

/-- `const_u64_value`. -/
def constU64Value (m : Module) (v : Nat) : Option Word :=
  if !m.validValue v then none
  else if ((m.valueType v).kind ≠ .int ∧ (m.valueType v).kind ≠ .addr) ∨
      64 < (m.valueType v).bits then none
  else
    match m.valueOp v with
    | none => none
    | some op =>
      if op.opcode ≠ .constU64 then none else some (truncateToType op.imm (m.valueType v))

/-- `fold_to_const`. -/
def foldToConst (op : OpRec) (value : Word) (type : Ty) : OpRec :=
  { op with opcode := .constU64, src := [], endian := .le, imm := truncateToType value type }

/-- The flag bit that `compute_flag_extract` computes from two constant operands
of `bits` bits: the body of the function after its operand checks. -/
def flagExtractValue (summary extract : Opcode) (bits : Nat) (lhs rhs : Word) : Option Word :=
  let mask := maskForBits bits
  let sign := signBitForBits bits
  let lhs := lhs &&& mask
  let rhs := rhs &&& mask
  if summary = .flagsShl ∧ (rhs = 0#64 ∨ bits ≤ rhs.toNat) then none
  else
    let result :=
      match summary with
      | .flagsAdd => (lhs + rhs) &&& mask
      | .flagsSub => (lhs - rhs) &&& mask
      | .flagsShl => (lhs <<< rhs.toNat) &&& mask
      | _ => lhs
    let lhsSign := lhs &&& sign != 0#64
    let rhsSign := rhs &&& sign != 0#64
    let resultSign := result &&& sign != 0#64
    match extract with
    | .flagZf => some (boolU64 (result == 0#64))
    | .flagCf =>
      match summary with
      | .flagsLogic => some 0#64
      | .flagsShl => some ((lhs >>> (bits - rhs.toNat)) &&& 1#64)
      | .flagsAdd => some (boolU64 (decide (result < lhs)))
      | _ => some (boolU64 (decide (lhs < rhs)))
    | .flagOf =>
      match summary with
      | .flagsLogic => some 0#64
      | .flagsShl =>
        if rhs ≠ 1#64 then none
        else some (boolU64 (resultSign != ((lhs >>> (bits - rhs.toNat)) &&& 1#64 != 0#64)))
      | .flagsAdd => some (boolU64 (lhsSign == rhsSign && resultSign != lhsSign))
      | _ => some (boolU64 (lhsSign != rhsSign && resultSign != lhsSign))
    | .flagSf => some (boolU64 resultSign)
    | .flagPf => some (boolU64 (evenParity8 result))
    | .flagAf =>
      match summary with
      | .flagsLogic | .flagsShl => some 0#64
      | _ => some (boolU64 ((lhs ^^^ rhs ^^^ result) &&& 0x10#64 != 0#64))
    | _ => none

/-- `compute_flag_extract`. -/
def computeFlagExtract (m : Module) (extract : Opcode) (flagsValue : Nat) : Option Word :=
  if !m.validValue flagsValue then none
  else
    match m.valueOp flagsValue with
    | none => none
    | some flagsOp =>
      if flagsOp.opcode ≠ .flagsAdd ∧ flagsOp.opcode ≠ .flagsSub ∧
          flagsOp.opcode ≠ .flagsLogic ∧ flagsOp.opcode ≠ .flagsShl then none
      else
        match constU64Value m (flagsOp.srcAt 0) with
        | none => none
        | some lhs =>
          match (if flagsOp.opcode ≠ .flagsLogic then constU64Value m (flagsOp.srcAt 1)
            else some 0#64) with
          | none => none
          | some rhs =>
            let operandType := m.valueType (flagsOp.srcAt 0)
            if !operandType.isInt || decide (64 < operandType.bits) then none
            else flagExtractValue flagsOp.opcode extract operandType.bits lhs rhs

/-- The two constant operands of a binary operation. -/
def constPair (m : Module) (op : OpRec) : Option (Word × Word) :=
  match constU64Value m (op.srcAt 0), constU64Value m (op.srcAt 1) with
  | some lhs, some rhs => some (lhs, rhs)
  | _, _ => none

/-- `fold_constant_op`: the constant that replaces `op`, when it folds. -/
def foldConstantOp (m : Module) (op : OpRec) : Option OpRec :=
  let out := m.valueType op.dst
  match op.opcode with
  | .add | .sub | .mul | .and | .or | .xor =>
    if !out.isInt || decide (64 < out.bits) then none
    else
      match constPair m op with
      | none => none
      | some (lhs, rhs) =>
        let folded :=
          match op.opcode with
          | .add => lhs + rhs
          | .sub => lhs - rhs
          | .mul => lhs * rhs
          | .and => lhs &&& rhs
          | .or => lhs ||| rhs
          | _ => lhs ^^^ rhs
        some (foldToConst op folded out)
  | .shl | .lshr | .ashr =>
    if !out.isInt || decide (64 < out.bits) then none
    else
      match constPair m op with
      | none => none
      | some (lhs, shift) =>
        if out.bits ≤ shift.toNat then none
        else
          let lhs := lhs &&& maskForBits out.bits
          let folded :=
            match op.opcode with
            | .shl => lhs <<< shift.toNat
            | .lshr => lhs >>> shift.toNat
            | _ =>
              if shift = 0#64 then lhs
              else if lhs &&& signBitForBits out.bits ≠ 0#64 then
                (lhs >>> shift.toNat) ||| (maskForBits out.bits <<< (out.bits - shift.toNat))
              else lhs >>> shift.toNat
          some (foldToConst op folded out)
  | .eq | .ne | .ult | .ule | .slt | .sle =>
    match constPair m op with
    | none => none
    | some (lhs, rhs) =>
      let bits := (m.valueType (op.srcAt 0)).bits
      if 64 < bits then none
      else
        let lhs := lhs &&& maskForBits bits
        let rhs := rhs &&& maskForBits bits
        let folded :=
          match op.opcode with
          | .eq => boolU64 (lhs == rhs)
          | .ne => boolU64 (lhs != rhs)
          | .ult => boolU64 (decide (lhs < rhs))
          | .ule => boolU64 (decide (lhs ≤ rhs))
          | .slt => boolU64 (signedLessU64 lhs rhs bits)
          | _ => boolU64 (signedLessU64 lhs rhs bits || lhs == rhs)
        some (foldToConst op folded out)
  | .zext | .sext | .trunc =>
    if !out.isInt || decide (64 < out.bits) then none
    else
      match constU64Value m (op.srcAt 0) with
      | none => none
      | some lhs =>
        let bits := (m.valueType (op.srcAt 0)).bits
        let folded :=
          if op.opcode = .sext ∧ lhs &&& signBitForBits bits ≠ 0#64 then
            lhs ||| ~~~(maskForBits bits)
          else lhs
        some (foldToConst op folded out)
  | .intToAddr | .addrToInt =>
    if !(out.isInt || out.isAddr) || decide (64 < out.bits) then none
    else
      match constU64Value m (op.srcAt 0) with
      | none => none
      | some lhs => some (foldToConst op lhs out)
  | .concat =>
    if !out.isInt || decide (64 < out.bits) then none
    else
      match constPair m op with
      | none => none
      | some (lhs, rhs) =>
        some (foldToConst op ((lhs <<< (m.valueType (op.srcAt 1)).bits) ||| rhs) out)
  | .addrAdd | .addrSub =>
    if !out.isAddr || decide (64 < out.bits) then none
    else
      match constPair m op with
      | none => none
      | some (lhs, rhs) =>
        some (foldToConst op (if op.opcode = .addrAdd then lhs + rhs else lhs - rhs) out)
  | .flagZf | .flagCf | .flagOf | .flagSf | .flagPf | .flagAf =>
    match computeFlagExtract m op.opcode (op.srcAt 0) with
    | none => none
    | some folded => some (foldToConst op folded out)
  | _ => none

/-- `op_is_commutative`. -/
def opIsCommutative : Opcode → Bool
  | .add | .mul | .and | .or | .xor | .eq | .ne | .flagsAdd => true
  | _ => false

/-- `compare_value_order`.  The sign of the C result is an `Ordering`. -/
def compareValueOrder (m : Module) (lhs rhs : Nat) : Ordering :=
  let lhsConst := constU64Value m lhs
  let rhsConst := constU64Value m rhs
  if lhsConst.isSome ≠ rhsConst.isSome then (if lhsConst.isSome then .gt else .lt)
  else
    let lhsType := m.valueType lhs
    let rhsType := m.valueType rhs
    if lhsType.kind ≠ rhsType.kind then
      (if lhsType.kind.code < rhsType.kind.code then .lt else .gt)
    else if lhsType.bits ≠ rhsType.bits then (if lhsType.bits < rhsType.bits then .lt else .gt)
    else if lhsType.aux ≠ rhsType.aux then (if lhsType.aux < rhsType.aux then .lt else .gt)
    else if lhsConst ≠ rhsConst then
      (if lhsConst.getD 0 < rhsConst.getD 0 then .lt else .gt)
    else
      match strcmp (m.valueRec lhs).name (m.valueRec rhs).name with
      | .eq => if lhs = rhs then .eq else if lhs < rhs then .lt else .gt
      | order => order

/-- `xair_canonicalize_stats`, the counters that the passes change. -/
structure LocalStats where
  constantsFolded : Nat
  operandsReordered : Nat
  deriving DecidableEq, Repr

/-- The operand swap of one operation, when it is due. -/
def reorderOperands (m : Module) (op : OpRec) : Option OpRec :=
  if op.src.length = 2 ∧ opIsCommutative op.opcode = true ∧
      compareValueOrder m (op.srcAt 0) (op.srcAt 1) = .gt then
    some { op with src := [op.srcAt 1, op.srcAt 0] }
  else none

/-- The folding half of one round of the loop. -/
def foldLocalOp (m : Module) (o : Nat) (stats : LocalStats) : Module × LocalStats :=
  match foldConstantOp m (m.opRec o) with
  | some op => (m.setOp o op, { stats with constantsFolded := stats.constantsFolded + 1 })
  | none => (m, stats)

/-- The reordering half.  A folded operation has no sources left, so it is never
reordered as well. -/
def reorderLocalOp (m : Module) (o : Nat) (stats : LocalStats) : Module × LocalStats :=
  match reorderOperands m (m.opRec o) with
  | some op => (m.setOp o op, { stats with operandsReordered := stats.operandsReordered + 1 })
  | none => (m, stats)

/-- One round of the loop of `canonicalize_local_ops`. -/
def canonicalizeLocalOp (m : Module) (o : Nat) (stats : LocalStats) : Module × LocalStats :=
  reorderLocalOp (foldLocalOp m o stats).1 o (foldLocalOp m o stats).2

/-- The loop from operation `o` with `n` operations to go. -/
def canonicalizeLocalOpsFrom : Nat → Nat → Module → LocalStats → Module × LocalStats
  | 0, _, m, stats => (m, stats)
  | n + 1, o, m, stats =>
    canonicalizeLocalOpsFrom n (o + 1) (canonicalizeLocalOp m o stats).1
      (canonicalizeLocalOp m o stats).2

/-- `canonicalize_local_ops`. -/
def canonicalizeLocalOps (m : Module) : Module × LocalStats :=
  canonicalizeLocalOpsFrom m.ops.length 0 m ⟨0, 0⟩

end Xair
