import Xair.Canonicalize
import Xair.Simulation
import Xair.Traced

/-!
# The shifts of the evaluators

The evaluators once more, each with a trace of the shifts of 64-bit words that it makes and of
its calls of `sign_bit_for_bits`.  Without the trace they are the functions they stand for
(`value_canonicalizeModule`, `value_execRun`).

An amount is the integer that the code's operands are: a difference that would wrap is negative.
`truncate_to_type` shifts nothing itself.
-/

namespace Xair

/-- A shift of a 64-bit word, or a call of `sign_bit_for_bits`. -/
inductive ShiftEvent
  | shift (amount : Int)
  | signBit (bits : Nat)
  deriving DecidableEq, Repr

/-- The amount is in range, and the width is one that has a sign bit. -/
def ShiftEvent.InRange : ShiftEvent → Prop
  | .shift amount => 0 ≤ amount ∧ amount ≤ 63
  | .signBit bits => 1 ≤ bits ∧ bits ≤ 64

namespace Shifts

open Traced

/-- `w << amount`. -/
def shl (w : Word) (amount : Int) : Traced ShiftEvent Word := do
  event (.shift amount)
  pure (w <<< amount.toNat)

/-- `w >> amount`. -/
def shr (w : Word) (amount : Int) : Traced ShiftEvent Word := do
  event (.shift amount)
  pure (w >>> amount.toNat)

/-! ### Word arithmetic -/

/-- `mask_for_bits`. -/
def maskForBits (bits : Nat) : Traced ShiftEvent Word :=
  if 64 ≤ bits then pure (BitVec.allOnes 64)
  else do return (← shl 1#64 bits) - 1#64

/-- `sign_bit_for_bits`. -/
def signBitForBits (bits : Nat) : Traced ShiftEvent Word := do
  event (.signBit bits)
  if bits = 64 then shl 1#64 63 else shl 1#64 (bits - 1)

/-- `signed_less_u64`. -/
def signedLessU64 (lhs rhs : Word) (bits : Nat) : Traced ShiftEvent Bool := do
  let sign ← signBitForBits bits
  let mask ← maskForBits bits
  let lhs := lhs &&& mask
  let rhs := rhs &&& mask
  let lhsNegative := lhs &&& sign != 0#64
  let rhsNegative := rhs &&& sign != 0#64
  pure (if lhsNegative != rhsNegative then lhsNegative else decide (lhs < rhs))

section Words

variable {bits : Nat}

@[simp] theorem value_shl (w : Word) (n : Int) : (shl w n).value = w <<< n.toNat := rfl

@[simp] theorem value_shr (w : Word) (n : Int) : (shr w n).value = w >>> n.toNat := rfl

@[simp] theorem value_maskForBits (bits : Nat) :
    (maskForBits bits).value = Xair.maskForBits bits := by
  simp [maskForBits, Xair.maskForBits]

@[simp] theorem value_signBitForBits (bits : Nat) :
    (signBitForBits bits).value = Xair.signBitForBits bits := by
  have hsub : ((bits : Int) - 1).toNat = bits - 1 := by omega
  simp [signBitForBits, Xair.signBitForBits, hsub]

@[simp] theorem value_signedLessU64 (lhs rhs : Word) (bits : Nat) :
    (signedLessU64 lhs rhs bits).value = Xair.signedLessU64 lhs rhs bits := by
  simp [signedLessU64, Xair.signedLessU64]

end Words

/-! ### The executor -/

/-- `exec_logic_flags`. -/
def execLogicFlags (result : Word) (bits : Nat) : Traced ShiftEvent Word := do
  let result := result &&& (← maskForBits bits)
  let packed := orFlag 0#64 execFlagZf (result == 0#64)
  let packed := orFlag packed execFlagSf (result &&& (← signBitForBits bits) != 0#64)
  return orFlag packed execFlagPf (evenParity8 result)

/-- `exec_flags`. -/
def execFlags (opcode : Opcode) (lhs rhs : Word) (bits : Nat) : Traced ShiftEvent Word := do
  let mask ← maskForBits bits
  let sign ← signBitForBits bits
  let lhs := lhs &&& mask
  let rhs := rhs &&& mask
  let result := if opcode = .flagsAdd then (lhs + rhs) &&& mask else (lhs - rhs) &&& mask
  let lhsSign := lhs &&& sign != 0#64
  let rhsSign := rhs &&& sign != 0#64
  let resultSign := result &&& sign != 0#64
  let packed := orFlag 0#64 execFlagZf (result == 0#64)
  let packed := orFlag packed execFlagCf
    (if opcode = .flagsAdd then decide (result < lhs) else decide (lhs < rhs))
  let packed := orFlag packed execFlagOf
    (if opcode = .flagsAdd then lhsSign == rhsSign && resultSign != lhsSign
      else lhsSign != rhsSign && resultSign != lhsSign)
  let packed := orFlag packed execFlagSf resultSign
  let packed := orFlag packed execFlagPf (evenParity8 result)
  return orFlag packed execFlagAf ((lhs ^^^ rhs ^^^ result) &&& 0x10#64 != 0#64)

/-- `exec_shift_left_flags`.  The second call of `sign_bit_for_bits` is behind the `&&`. -/
def execShiftLeftFlags (lhs shift : Word) (bits : Nat) : Traced ShiftEvent Word := do
  let mask ← maskForBits bits
  let lhs := lhs &&& mask
  let result := (← shl lhs shift.toNat) &&& mask
  let cf := (← shr lhs (bits - shift.toNat)) &&& 1#64
  let packed := orFlag 0#64 execFlagZf (result == 0#64)
  let packed := orFlag packed execFlagSf (result &&& (← signBitForBits bits) != 0#64)
  let packed := orFlag packed execFlagPf (evenParity8 result)
  let packed := orFlag packed execFlagCf (cf != 0#64)
  if shift = 1#64 then do
    let sign ← signBitForBits bits
    return orFlag packed execFlagOf ((result &&& sign != 0#64) != (cf != 0#64))
  else return packed

/-- `exec_binary_op`. -/
def execBinaryOp (opcode : Opcode) (out : Ty) (lhs rhs : ExecValue) :
    Traced ShiftEvent (Except Status ExecValue) :=
  if !execScalarU64Type lhs.type || decide (64 < lhs.type.bits) || decide (64 < rhs.type.bits) then
    pure (.error .errUnsupported)
  else do
    let bits := lhs.type.bits
    let mask ← maskForBits bits
    let l := lhs.lo &&& mask
    let r := rhs.lo &&& (← maskForBits rhs.type.bits)
    let define (result : Word) : Except Status ExecValue := .ok (execValueMake out result 0#64)
    match opcode with
    | .add => return define (l + r)
    | .sub => return define (l - r)
    | .mul => return define (l * r)
    | .and => return define (l &&& r)
    | .or => return define (l ||| r)
    | .xor => return define (l ^^^ r)
    | .shl =>
      if bits ≤ r.toNat then return .error .errUnsupported else return define (← shl l r.toNat)
    | .lshr =>
      if bits ≤ r.toNat then return .error .errUnsupported else return define (← shr l r.toNat)
    | .ashr =>
      if bits ≤ r.toNat then return .error .errUnsupported
      else if r = 0#64 then return define l
      else do
        let sign ← signBitForBits bits
        if l &&& sign ≠ 0#64 then
          return define ((← shr l r.toNat) ||| (← shl mask (bits - r.toNat)))
        else return define (← shr l r.toNat)
    | .eq => return define (boolU64 (l == r))
    | .ne => return define (boolU64 (l != r))
    | .ult => return define (boolU64 (decide (l < r)))
    | .ule => return define (boolU64 (decide (l ≤ r)))
    | .slt => return define (boolU64 (← signedLessU64 l r bits))
    | .sle => return define (boolU64 ((← signedLessU64 l r bits) || l == r))
    | .concat =>
      if !out.isInt || decide (64 < out.bits) || decide (64 ≤ rhs.type.bits) then
        return .error .errUnsupported
      else return define ((← shl l rhs.type.bits) ||| r)
    | .addrAdd => return define (l + r)
    | .addrSub => return define (l - r)
    | .flagsAdd | .flagsSub =>
      if !lhs.type.isInt then return .error .errUnsupported
      else return define (← execFlags opcode l r bits)
    | .flagsShl =>
      if !lhs.type.isInt || !rhs.type.isInt || r == 0#64 || decide (bits ≤ r.toNat) then
        return .error .errUnsupported
      else return define (← execShiftLeftFlags l r bits)
    | _ => return .error .errUnsupported

/-- `exec_unary_op`. -/
def execUnaryOp (opcode : Opcode) (out : Ty) (src : ExecValue) :
    Traced ShiftEvent (Except Status ExecValue) :=
  let define (result : Word) : Except Status ExecValue := .ok (execValueMake out result 0#64)
  match opcode with
  | .flagsLogic =>
    if !out.isFlags || !src.type.isInt || decide (64 < src.type.bits) then
      return .error .errUnsupported
    else return define (← execLogicFlags src.lo src.type.bits)
  | .sext =>
    if !execScalarU64Type out || !execScalarU64Type src.type then return .error .errUnsupported
    else do
      let sign ← signBitForBits src.type.bits
      if src.lo &&& sign ≠ 0#64 then
        return define (src.lo ||| ~~~(← maskForBits src.type.bits))
      else return define src.lo
  -- the other operations shift nothing
  | _ => pure (Xair.execUnaryOp opcode out src)

section Exec

variable {bits : Nat}

@[simp] theorem value_execLogicFlags (result : Word) (bits : Nat) :
    (execLogicFlags result bits).value = Xair.execLogicFlags result bits := by
  simp [execLogicFlags, Xair.execLogicFlags]

@[simp] theorem value_execFlags (opcode : Opcode) (lhs rhs : Word) (bits : Nat) :
    (execFlags opcode lhs rhs bits).value = Xair.execFlags opcode lhs rhs bits := by
  simp [execFlags, Xair.execFlags]

@[simp] theorem value_execShiftLeftFlags (lhs shift : Word) (bits : Nat) :
    (execShiftLeftFlags lhs shift bits).value = Xair.execShiftLeftFlags lhs shift bits := by
  have hfalse : ∀ packed flag, orFlag packed flag false = packed := fun _ _ => rfl
  by_cases h : shift = 1#64
  · simp [execShiftLeftFlags, Xair.execShiftLeftFlags, h]
  · have hne : (shift == 1#64) = false := beq_false_of_ne h
    simp [execShiftLeftFlags, Xair.execShiftLeftFlags, h, hne, hfalse]

theorem value_execBinaryOp (opcode : Opcode) (out : Ty) (lhs rhs : ExecValue) :
    (execBinaryOp opcode out lhs rhs).value = Xair.execBinaryOp opcode out lhs rhs := by
  unfold execBinaryOp Xair.execBinaryOp
  rw [value_ite]
  split
  · rfl
  · cases opcode <;> simp

theorem value_execUnaryOp (opcode : Opcode) (out : Ty) (src : ExecValue) :
    (execUnaryOp opcode out src).value = Xair.execUnaryOp opcode out src := by
  cases opcode <;> simp [execUnaryOp, Xair.execUnaryOp]

end Exec

/-! ### Runs -/

/-- `exec_op` up to the write of its destination.  The byte loops of loads and stores are not
traced. -/
def execOpValue (out : Ty) (read : Nat → Except Status ExecValue) (mem : ExecMemory)
    (op : OpRec) : Traced ShiftEvent (Except Status (ExecValue × ExecMemory)) :=
  if op.opcode = .constU64 ∨ op.opcode = .load ∨ op.opcode = .store then
    pure (Xair.execOpValue out read mem op)
  else if op.src.length = 1 then
    match read (op.srcAt 0) with
    | .error e => pure (.error e)
    | .ok src => do return (← execUnaryOp op.opcode out src).map (·, mem)
  else if op.src.length = 2 then
    match read (op.srcAt 0) with
    | .error e => pure (.error e)
    | .ok lhs =>
      match read (op.srcAt 1) with
      | .error e => pure (.error e)
      | .ok rhs => do return (← execBinaryOp op.opcode out lhs rhs).map (·, mem)
  else pure (.error .errUnsupported)

/-- `exec_op`. -/
def execOp (m : Module) (s : ExecState) (op : OpRec) : Traced ShiftEvent (Status × ExecState) := do
  match ← execOpValue (m.valueType op.dst) (execReadValue m s) s.mem op with
  | .error e => return (e, s)
  | .ok (x, mem) => return execDefineValue m { s with mem := mem } op.dst x

/-- The executor on a state and the events so far. -/
def execInterp (m : Module) : Interp (ExecState × List ShiftEvent) where
  op t op := ((execOp m t.1 op).value.1, (execOp m t.1 op).value.2, t.2 ++ (execOp m t.1 op).trace)
  read t v := execReadValue m t.1 v
  transfer t target args :=
    ((execTransferArgs m t.1 target args).1, (execTransferArgs m t.1 target args).2, t.2)

/-- `xair_exec_run`. -/
def execRun (m : Module) (entry : Nat) (s : ExecState) (limit : Nat) :
    Traced ShiftEvent (RunResult × ExecState) :=
  if s.valueCount ≠ m.values.length ∨ m.validBlock entry = false then pure (.error .errBadArg, s)
  else
    let r := interpRun (execInterp m) m limit entry (s, [])
    ⟨(r.1, r.2.1), r.2.2⟩

section Run

variable {m : Module} {s : ExecState}

theorem value_execOpValue (out : Ty) (read : Nat → Except Status ExecValue) (mem : ExecMemory)
    (op : OpRec) : (execOpValue out read mem op).value = Xair.execOpValue out read mem op := by
  unfold execOpValue
  rw [value_ite]
  split
  · rfl
  · next h =>
    rw [not_or] at h
    rw [Xair.execOpValue, if_neg h.1, if_neg h.2, value_ite]
    split
    · cases read (op.srcAt 0) with
      | error e => rfl
      | ok src => simp [value_execUnaryOp]
    · rw [value_ite]
      split
      · cases read (op.srcAt 0) with
        | error e => rfl
        | ok lhs =>
          cases read (op.srcAt 1) with
          | error e => rfl
          | ok rhs => simp [value_execBinaryOp]
      · rfl

theorem value_execOp (m : Module) (s : ExecState) (op : OpRec) :
    (execOp m s op).value = Xair.execOp m s op := by
  rw [execOp, Xair.execOp, value_bind, value_execOpValue]
  cases Xair.execOpValue (m.valueType op.dst) (execReadValue m s) s.mem op <;> rfl

/-- The run is that of the executor. -/
theorem value_execRun (m : Module) (entry : Nat) (s : ExecState) (limit : Nat) :
    (execRun m entry s limit).value = Xair.execRun m entry s limit := by
  rw [execRun, Xair.execRun, value_ite]
  split
  · rfl
  · obtain ⟨h1, h2⟩ := interpRun_map (I := Xair.execInterp m) (J := execInterp m) (m := m)
      (f := Prod.fst) (fun t op => (value_execOp m t.1 op).symm) (fun _ => rfl)
      (fun _ _ _ => rfl) limit entry (s, [])
    exact (Prod.ext h1 h2).symm

end Run

/-! ### Canonicalization -/

/-- The result that the flags of a summary are about. -/
def flagResult (summary : Opcode) (mask lhs rhs : Word) : Traced ShiftEvent Word :=
  match summary with
  | .flagsAdd => pure ((lhs + rhs) &&& mask)
  | .flagsSub => pure ((lhs - rhs) &&& mask)
  | .flagsShl => do return (← shl lhs rhs.toNat) &&& mask
  | _ => pure lhs

/-- `compute_flag_extract` after its operand checks. -/
def flagExtractValue (summary extract : Opcode) (bits : Nat) (lhs rhs : Word) :
    Traced ShiftEvent (Option Word) := do
  let mask ← maskForBits bits
  let sign ← signBitForBits bits
  let lhs := lhs &&& mask
  let rhs := rhs &&& mask
  if summary = .flagsShl ∧ (rhs = 0#64 ∨ bits ≤ rhs.toNat) then return none
  else do
    let result ← flagResult summary mask lhs rhs
    let lhsSign := lhs &&& sign != 0#64
    let rhsSign := rhs &&& sign != 0#64
    let resultSign := result &&& sign != 0#64
    match extract with
    | .flagZf => return some (boolU64 (result == 0#64))
    | .flagCf =>
      match summary with
      | .flagsLogic => return some 0#64
      | .flagsShl => return some ((← shr lhs (bits - rhs.toNat)) &&& 1#64)
      | .flagsAdd => return some (boolU64 (decide (result < lhs)))
      | _ => return some (boolU64 (decide (lhs < rhs)))
    | .flagOf =>
      match summary with
      | .flagsLogic => return some 0#64
      | .flagsShl =>
        if rhs ≠ 1#64 then return none
        else do
          let last := (← shr lhs (bits - rhs.toNat)) &&& 1#64
          return some (boolU64 (resultSign != (last != 0#64)))
      | .flagsAdd => return some (boolU64 (lhsSign == rhsSign && resultSign != lhsSign))
      | _ => return some (boolU64 (lhsSign != rhsSign && resultSign != lhsSign))
    | .flagSf => return some (boolU64 resultSign)
    | .flagPf => return some (boolU64 (evenParity8 result))
    | .flagAf =>
      match summary with
      | .flagsLogic | .flagsShl => return some 0#64
      | _ => return some (boolU64 ((lhs ^^^ rhs ^^^ result) &&& 0x10#64 != 0#64))
    | _ => return none

/-- `compute_flag_extract`. -/
def computeFlagExtract (m : Module) (extract : Opcode) (flagsValue : Nat) :
    Traced ShiftEvent (Option Word) :=
  if !m.validValue flagsValue then pure none
  else
    match m.valueOp flagsValue with
    | none => pure none
    | some flagsOp =>
      if flagsOp.opcode ≠ .flagsAdd ∧ flagsOp.opcode ≠ .flagsSub ∧
          flagsOp.opcode ≠ .flagsLogic ∧ flagsOp.opcode ≠ .flagsShl then pure none
      else
        match constU64Value m (flagsOp.srcAt 0) with
        | none => pure none
        | some lhs =>
          match (if flagsOp.opcode ≠ .flagsLogic then constU64Value m (flagsOp.srcAt 1)
            else some 0#64) with
          | none => pure none
          | some rhs =>
            let operandType := m.valueType (flagsOp.srcAt 0)
            if !operandType.isInt || decide (64 < operandType.bits) then pure none
            else flagExtractValue flagsOp.opcode extract operandType.bits lhs rhs

/-- The word that `fold_constant_op` computes for a shift. -/
def shiftWord (opcode : Opcode) (bits : Nat) (lhs shift : Word) : Traced ShiftEvent Word := do
  let lhs := lhs &&& (← maskForBits bits)
  match opcode with
  | .shl => shl lhs shift.toNat
  | .lshr => shr lhs shift.toNat
  | _ =>
    if shift = 0#64 then return lhs
    else do
      let sign ← signBitForBits bits
      if lhs &&& sign ≠ 0#64 then
        return (← shr lhs shift.toNat) ||| (← shl (← maskForBits bits) (bits - shift.toNat))
      else shr lhs shift.toNat

/-- The word for a comparison. -/
def compareWord (opcode : Opcode) (bits : Nat) (lhs rhs : Word) : Traced ShiftEvent Word := do
  let lhs := lhs &&& (← maskForBits bits)
  let rhs := rhs &&& (← maskForBits bits)
  match opcode with
  | .eq => return boolU64 (lhs == rhs)
  | .ne => return boolU64 (lhs != rhs)
  | .ult => return boolU64 (decide (lhs < rhs))
  | .ule => return boolU64 (decide (lhs ≤ rhs))
  | .slt => return boolU64 (← signedLessU64 lhs rhs bits)
  | _ => return boolU64 ((← signedLessU64 lhs rhs bits) || lhs == rhs)

/-- The word for an extension or a truncation. -/
def extendWord (opcode : Opcode) (bits : Nat) (lhs : Word) : Traced ShiftEvent Word :=
  if opcode = .sext then do
    let sign ← signBitForBits bits
    if lhs &&& sign ≠ 0#64 then return lhs ||| ~~~(← maskForBits bits) else return lhs
  else pure lhs

/-- `fold_constant_op`. -/
def foldConstantOp (m : Module) (op : OpRec) : Traced ShiftEvent (Option OpRec) :=
  let out := m.valueType op.dst
  match op.opcode with
  | .shl | .lshr | .ashr =>
    if !out.isInt || decide (64 < out.bits) then pure none
    else
      match constPair m op with
      | none => pure none
      | some (lhs, shift) =>
        if out.bits ≤ shift.toNat then pure none
        else do return some (foldToConst op (← shiftWord op.opcode out.bits lhs shift) out)
  | .eq | .ne | .ult | .ule | .slt | .sle =>
    match constPair m op with
    | none => pure none
    | some (lhs, rhs) =>
      let bits := (m.valueType (op.srcAt 0)).bits
      if 64 < bits then pure none
      else do return some (foldToConst op (← compareWord op.opcode bits lhs rhs) out)
  | .zext | .sext | .trunc =>
    if !out.isInt || decide (64 < out.bits) then pure none
    else
      match constU64Value m (op.srcAt 0) with
      | none => pure none
      | some lhs => do
        let folded ← extendWord op.opcode (m.valueType (op.srcAt 0)).bits lhs
        return some (foldToConst op folded out)
  | .concat =>
    if !out.isInt || decide (64 < out.bits) then pure none
    else
      match constPair m op with
      | none => pure none
      | some (lhs, rhs) => do
        let high ← shl lhs (m.valueType (op.srcAt 1)).bits
        return some (foldToConst op (high ||| rhs) out)
  | .flagZf | .flagCf | .flagOf | .flagSf | .flagPf | .flagAf => do
    match ← computeFlagExtract m op.opcode (op.srcAt 0) with
    | none => return none
    | some folded => return some (foldToConst op folded out)
  -- the other operations shift nothing
  | _ => pure (Xair.foldConstantOp m op)

/-- The folding half of one round of the loop. -/
def foldLocalOp (m : Module) (o : Nat) (stats : LocalStats) :
    Traced ShiftEvent (Module × LocalStats) := do
  match ← foldConstantOp m (m.opRec o) with
  | some op => return (m.setOp o op, { stats with constantsFolded := stats.constantsFolded + 1 })
  | none => return (m, stats)

/-- The loop of `canonicalize_local_ops`; the reordering half of a round shifts nothing. -/
def canonicalizeLocalOpsFrom : Nat → Nat → Module → LocalStats →
    Traced ShiftEvent (Module × LocalStats)
  | 0, _, m, stats => pure (m, stats)
  | n + 1, o, m, stats => do
    let (m, stats) ← foldLocalOp m o stats
    let (m, stats) := reorderLocalOp m o stats
    canonicalizeLocalOpsFrom n (o + 1) m stats

/-- `canonicalize_local_ops`. -/
def canonicalizeLocalOps (m : Module) : Traced ShiftEvent (Module × LocalStats) :=
  canonicalizeLocalOpsFrom m.ops.length 0 m ⟨0, 0⟩

/-- `xair_canonicalize_module`. -/
def canonicalizeModule (m : Module) :
    Traced ShiftEvent (Module × Except Status CanonicalizeStats) :=
  if m.frozen then pure (m, .error .errBadArg)
  else
    match verifyModule m with
    | .error _ => pure (m, .error .errVerify)
    | .ok () => do
      let (m₁, localStats) ← canonicalizeLocalOps (valueNumberClear m)
      let (m₂, deadValues, deadOps) := eliminateDeadValues m₁
      match verifyModule m₂ with
      | .error _ => return (m₂, .error .errVerify)
      | .ok () =>
        return (m₂, .ok
          { valuesBefore := m.values.length
            valuesAfter := m₂.values.length
            operationsBefore := m.ops.length
            operationsAfter := m₂.ops.length
            valueNumberEntriesBefore := m.valueNumberCount
            valueNumberEntriesAfter := m₂.valueNumberCount
            operandsReordered := localStats.operandsReordered
            constantsFolded := localStats.constantsFolded
            deadValuesRemoved := deadValues
            deadOperationsRemoved := deadOps })

section Fold

variable {m : Module}

theorem value_flagExtractValue (summary extract : Opcode) (bits : Nat) (lhs rhs : Word) :
    (flagExtractValue summary extract bits lhs rhs).value =
      Xair.flagExtractValue summary extract bits lhs rhs := by
  have hresult : ∀ mask lhs rhs : Word, (flagResult summary mask lhs rhs).value =
      match summary with
      | .flagsAdd => (lhs + rhs) &&& mask
      | .flagsSub => (lhs - rhs) &&& mask
      | .flagsShl => (lhs <<< rhs.toNat) &&& mask
      | _ => lhs := by
    intro mask lhs rhs
    cases summary <;> rfl
  unfold flagExtractValue Xair.flagExtractValue
  simp only [value_bind, value_maskForBits, value_signBitForBits, value_ite, value_pure, hresult]
  split
  · rfl
  · cases extract
    case flagCf | flagAf => cases summary <;> simp
    case flagOf => cases summary <;> simp
    all_goals rfl

theorem value_computeFlagExtract (m : Module) (extract : Opcode) (v : Nat) :
    (computeFlagExtract m extract v).value = Xair.computeFlagExtract m extract v := by
  unfold computeFlagExtract Xair.computeFlagExtract
  rw [value_ite]
  split
  · rfl
  · cases m.valueOp v with
    | none => rfl
    | some op =>
      dsimp only
      rw [value_ite]
      split
      · rfl
      · cases constU64Value m (op.srcAt 0) with
        | none => rfl
        | some lhs =>
          dsimp only
          cases (if op.opcode ≠ .flagsLogic then constU64Value m (op.srcAt 1) else some 0#64) with
          | none => rfl
          | some rhs =>
            dsimp only
            rw [value_ite, value_flagExtractValue]
            rfl

theorem value_foldConstantOp (m : Module) (op : OpRec) :
    (foldConstantOp m op).value = Xair.foldConstantOp m op := by
  unfold foldConstantOp
  cases hop : op.opcode
  case shl | lshr | ashr =>
    unfold Xair.foldConstantOp
    simp only [hop, value_ite]
    split
    · rfl
    · cases constPair m op with
      | none => rfl
      | some p => simp [shiftWord]
  case eq | ne | ult | ule | slt | sle =>
    unfold Xair.foldConstantOp
    simp only [hop]
    cases constPair m op with
    | none => rfl
    | some p => simp [compareWord]
  case zext | sext | trunc =>
    unfold Xair.foldConstantOp
    simp only [hop, value_ite]
    split
    · rfl
    · cases constU64Value m (op.srcAt 0) with
      | none => rfl
      | some lhs => simp [extendWord]
  case concat =>
    unfold Xair.foldConstantOp
    simp only [hop, value_ite]
    split
    · rfl
    · cases constPair m op with
      | none => rfl
      | some p => simp
  case flagZf | flagCf | flagOf | flagSf | flagPf | flagAf =>
    unfold Xair.foldConstantOp
    simp only [hop, value_bind, value_computeFlagExtract]
    cases Xair.computeFlagExtract m _ (op.srcAt 0) <;> rfl
  all_goals rfl

theorem value_foldLocalOp (m : Module) (o : Nat) (stats : LocalStats) :
    (foldLocalOp m o stats).value = Xair.foldLocalOp m o stats := by
  rw [foldLocalOp, Xair.foldLocalOp, value_bind, value_foldConstantOp]
  cases Xair.foldConstantOp m (m.opRec o) <;> rfl

theorem value_canonicalizeLocalOps (m : Module) :
    (canonicalizeLocalOps m).value = Xair.canonicalizeLocalOps m := by
  have hloop : ∀ (n o : Nat) (m : Module) (stats : LocalStats),
      (canonicalizeLocalOpsFrom n o m stats).value = Xair.canonicalizeLocalOpsFrom n o m stats := by
    intro n
    induction n with
    | zero => exact fun _ _ _ => rfl
    | succ n ih =>
      intro o m stats
      rw [canonicalizeLocalOpsFrom, value_bind, value_foldLocalOp]
      exact ih (o + 1) _ _
  exact hloop _ 0 m _

/-- Canonicalization is that of the module. -/
theorem value_canonicalizeModule (m : Module) :
    (canonicalizeModule m).value = Xair.canonicalizeModule m := by
  rw [canonicalizeModule, Xair.canonicalizeModule, value_ite]
  split
  · rfl
  · cases verifyModule m with
    | error e => rfl
    | ok u =>
      simp only [value_bind, value_canonicalizeLocalOps]
      cases verifyModule (eliminateDeadValues (Xair.canonicalizeLocalOps (valueNumberClear m)).1).1 <;>
        rfl

end Fold

end Shifts

end Xair
