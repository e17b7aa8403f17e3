import Xair.LocalSound
import Xair.Shifts
import Xair.StaleValues

/-!
# No shift is out of range

The amounts on the traces of the evaluators are those of a 64-bit word (`shifts_inRange`).  A
width that is shifted by is that of a valid type; the folding of a concatenation relies on the
verifier, which has added up the widths of its operands.
-/

namespace Xair

namespace Shifts

open Traced

/-! ### Word arithmetic -/

section Words

variable {bits : Nat}

theorem all_shl {w : Word} {n : Int} (h0 : 0 ≤ n) (h63 : n ≤ 63) :
    (shl w n).All ShiftEvent.InRange :=
  (all_event (P := ShiftEvent.InRange) (e := .shift n) ⟨h0, h63⟩).bind (all_pure _)

theorem all_shr {w : Word} {n : Int} (h0 : 0 ≤ n) (h63 : n ≤ 63) :
    (shr w n).All ShiftEvent.InRange :=
  (all_event (P := ShiftEvent.InRange) (e := .shift n) ⟨h0, h63⟩).bind (all_pure _)

/-- `mask_for_bits` shifts in range, for every width. -/
theorem all_maskForBits (bits : Nat) : (maskForBits bits).All ShiftEvent.InRange :=
  all_ite (fun _ => all_pure _) fun h => (all_shl (by omega) (by omega)).bind (all_pure _)

theorem all_signBitForBits (h1 : 1 ≤ bits) (h64 : bits ≤ 64) :
    (signBitForBits bits).All ShiftEvent.InRange := by
  refine (all_event (P := ShiftEvent.InRange) (e := .signBit bits) ⟨h1, h64⟩).bind ?_
  exact all_ite (fun _ => all_shl (by omega) (by omega)) fun h => all_shl (by omega) (by omega)

theorem all_signedLessU64 (lhs rhs : Word) (h1 : 1 ≤ bits) (h64 : bits ≤ 64) :
    (signedLessU64 lhs rhs bits).All ShiftEvent.InRange :=
  (all_signBitForBits h1 h64).bind ((all_maskForBits bits).bind (all_pure _))

end Words

/-! ### The executor -/

section Exec

variable {bits : Nat}

theorem all_execLogicFlags (result : Word) (h1 : 1 ≤ bits) (h64 : bits ≤ 64) :
    (execLogicFlags result bits).All ShiftEvent.InRange :=
  (all_maskForBits bits).bind ((all_signBitForBits h1 h64).bind (all_pure _))

theorem all_execFlags (opcode : Opcode) (lhs rhs : Word) (h1 : 1 ≤ bits) (h64 : bits ≤ 64) :
    (execFlags opcode lhs rhs bits).All ShiftEvent.InRange :=
  (all_maskForBits bits).bind ((all_signBitForBits h1 h64).bind (all_pure _))

/-- The caller has tested the amount. -/
theorem all_execShiftLeftFlags (lhs : Word) {shift : Word} (h0 : shift ≠ 0#64)
    (hlt : shift.toNat < bits) (h64 : bits ≤ 64) :
    (execShiftLeftFlags lhs shift bits).All ShiftEvent.InRange := by
  have hpos : 0 < shift.toNat := Nat.pos_of_ne_zero fun h => h0 (BitVec.eq_of_toNat_eq h)
  have hsign : (signBitForBits bits).All ShiftEvent.InRange :=
    all_signBitForBits (by omega) h64
  refine (all_maskForBits bits).bind ((all_shl (by omega) (by omega)).bind
    ((all_shr (by omega) (by omega)).bind (hsign.bind ?_)))
  exact all_ite (fun _ => hsign.bind (all_pure _)) fun _ => all_pure _

/-- `exec_binary_op` on a left operand of a valid type. -/
theorem all_execBinaryOp (opcode : Opcode) (out : Ty) {lhs : ExecValue} (rhs : ExecValue)
    (h1 : lhs.type.isInt = true ∨ lhs.type.isAddr = true → 1 ≤ lhs.type.bits) :
    (execBinaryOp opcode out lhs rhs).All ShiftEvent.InRange := by
  unfold execBinaryOp
  refine all_ite (fun _ => all_pure _) fun h => ?_
  simp only [Bool.or_eq_true, Bool.not_eq_true', decide_eq_true_eq, not_or, Bool.not_eq_false,
    not_lt, execScalarU64Type, Bool.and_eq_true] at h
  obtain ⟨⟨⟨hkind, h64⟩, -⟩, hr64⟩ := h
  have h1 := h1 hkind
  refine (all_maskForBits _).bind ((all_maskForBits _).bind ?_)
  cases opcode
  case shl =>
    exact all_ite (fun _ => all_pure _) fun h => (all_shl (by omega) (by omega)).bind (all_pure _)
  case lshr =>
    exact all_ite (fun _ => all_pure _) fun h => (all_shr (by omega) (by omega)).bind (all_pure _)
  case ashr =>
    refine all_ite (fun _ => all_pure _) fun h => all_ite (fun _ => all_pure _) fun h0 => ?_
    have hpos := Nat.pos_of_ne_zero fun h => h0 (BitVec.eq_of_toNat_eq h)
    refine (all_signBitForBits h1 h64).bind (all_ite (fun _ => ?_) fun _ => ?_)
    · exact (all_shr (by omega) (by omega)).bind ((all_shl (by omega) (by omega)).bind (all_pure _))
    · exact (all_shr (by omega) (by omega)).bind (all_pure _)
  case slt => exact (all_signedLessU64 _ _ h1 h64).bind (all_pure _)
  case sle => exact (all_signedLessU64 _ _ h1 h64).bind (all_pure _)
  case concat =>
    refine all_ite (fun _ => all_pure _) fun h => ?_
    simp only [Bool.or_eq_true, decide_eq_true_eq, not_or, not_le] at h
    exact (all_shl (by omega) (by omega)).bind (all_pure _)
  case flagsAdd | flagsSub =>
    exact all_ite (fun _ => all_pure _) fun _ => (all_execFlags _ _ _ h1 h64).bind (all_pure _)
  case flagsShl =>
    refine all_ite (fun _ => all_pure _) fun h => ?_
    simp only [Bool.or_eq_true, decide_eq_true_eq, not_or, not_le, beq_iff_eq] at h
    exact (all_execShiftLeftFlags _ h.1.2 h.2 h64).bind (all_pure _)
  all_goals exact all_pure _

/-- `exec_unary_op` on an operand of a valid type. -/
theorem all_execUnaryOp (opcode : Opcode) (out : Ty) {src : ExecValue}
    (h1 : src.type.isInt = true ∨ src.type.isAddr = true → 1 ≤ src.type.bits) :
    (execUnaryOp opcode out src).All ShiftEvent.InRange := by
  cases opcode
  case flagsLogic =>
    refine all_ite (fun _ => all_pure _) fun h => ?_
    simp only [Bool.or_eq_true, Bool.not_eq_true', decide_eq_true_eq, not_or, Bool.not_eq_false,
      not_lt] at h
    exact (all_execLogicFlags _ (h1 (.inl h.1.2)) h.2).bind (all_pure _)
  case sext =>
    refine all_ite (fun _ => all_pure _) fun h => ?_
    simp only [Bool.or_eq_true, Bool.not_eq_true', not_or, Bool.not_eq_false, execScalarU64Type,
      Bool.and_eq_true, decide_eq_true_eq] at h
    refine (all_signBitForBits (h1 h.2.1) h.2.2).bind (all_ite (fun _ => ?_) fun _ => all_pure _)
    exact (all_maskForBits _).bind (all_pure _)
  all_goals exact all_pure _

end Exec

/-! ### Runs -/

section Run

variable {m : Module} {s : ExecState}

/-- A valid integer or address type has a width. -/
theorem bits_pos_of_valid {t : Ty} (ht : t.isValueType = true)
    (hk : t.isInt = true ∨ t.isAddr = true) : 1 ≤ t.bits := by
  simp only [Ty.isInt, Ty.isAddr, beq_iff_eq] at hk
  rcases hk with hk | hk <;>
    simp [Ty.isValueType, Ty.isValid, hk, validIntBits, validAddrBits] at ht <;> omega

/-- A defined slot has the type of its value. -/
def Typed (m : Module) (s : ExecState) : Prop :=
  ∀ v < m.values.length, s.defined v = true → (s.values v).type = m.valueType v

theorem Typed.define (h : Typed m s) (v : Nat) (x : ExecValue) :
    Typed m (execDefineValue m s v x).2 := by
  unfold execDefineValue
  split
  · exact h
  · split
    · exact h
    · next htype =>
      intro u hu hdef
      by_cases huv : u = v
      · subst huv
        simpa using (not_not.mp htype).symm
      · simp only [if_neg huv] at hdef ⊢
        exact h u hu hdef

theorem Typed.execOp (h : Typed m s) (op : OpRec) : Typed m (Xair.execOp m s op).2 := by
  unfold Xair.execOp
  split
  · exact h
  · next x mem _ =>
    have hmem : Typed m { s with mem := mem } := h
    exact hmem.define op.dst x

theorem Typed.transfer (h : Typed m s) (target : Nat) (args : List Nat) :
    Typed m (execTransferArgs m s target args).2 := by
  have hall : ∀ (vs : List Nat) (xs : List ExecValue) (s : ExecState), Typed m s →
      Typed m (execDefineAll m s vs xs).2 := by
    intro vs
    induction vs with
    | nil => exact fun _ _ hs => hs
    | cons v vs ih =>
      intro xs s hs
      cases xs with
      | nil => exact hs
      | cons x xs =>
        have hdef := hs.define v x
        rw [execDefineAll]
        rcases hr : execDefineValue m s v x with ⟨e, s'⟩
        rw [hr] at hdef
        cases e
        case ok => exact ih xs s' hdef
        all_goals exact hdef
  unfold execTransferArgs
  split
  · exact h
  · split
    · exact h
    · split
      · exact h
      · exact hall _ _ _ h

/-- An integer or an address that is read has a width. -/
theorem Typed.bits_pos (hwf : m.WF) (h : Typed m s) {v : Nat} {x : ExecValue}
    (hx : execReadValue m s v = .ok x) (hk : x.type.isInt = true ∨ x.type.isAddr = true) :
    1 ≤ x.type.bits := by
  have htype : v < m.values.length ∧ x.type = m.valueType v := by
    unfold execReadValue at hx
    split at hx
    · cases hx
    · next hslot =>
      simp only [execSlotOk, Bool.not_eq_true', Bool.not_eq_false, Bool.and_eq_true,
        decide_eq_true_eq] at hslot
      refine ⟨hslot.2, ?_⟩
      split at hx
      · split at hx
        · cases hx
          rw [Module.constValue]
          split <;> rfl
        · cases hx
      · next hdef =>
        cases hx
        exact h v hslot.2 (by simpa using hdef)
  exact bits_pos_of_valid (htype.2 ▸ hwf.value_type v htype.1) hk

theorem all_execOp (hwf : m.WF) (h : Typed m s) (op : OpRec) :
    (Shifts.execOp m s op).All ShiftEvent.InRange := by
  have hvalue : (execOpValue (m.valueType op.dst) (execReadValue m s) s.mem op).All
      ShiftEvent.InRange := by
    unfold execOpValue
    refine all_ite (fun _ => all_pure _) fun _ => all_ite (fun _ => ?_) fun _ =>
      all_ite (fun _ => ?_) fun _ => all_pure _
    · cases h0 : execReadValue m s (op.srcAt 0) with
      | error e => exact all_pure _
      | ok src => exact (all_execUnaryOp _ _ (h.bits_pos hwf h0)).bind (all_pure _)
    · cases h0 : execReadValue m s (op.srcAt 0) with
      | error e => exact all_pure _
      | ok lhs =>
        cases execReadValue m s (op.srcAt 1) with
        | error e => exact all_pure _
        | ok rhs => exact (all_execBinaryOp _ _ rhs (h.bits_pos hwf h0)).bind (all_pure _)
  refine hvalue.bind ?_
  split <;> exact all_pure _

theorem all_execRun (hwf : m.WF) (h : Typed m s) (entry limit : Nat) :
    (Shifts.execRun m entry s limit).All ShiftEvent.InRange := by
  unfold Shifts.execRun
  refine all_ite (fun _ => all_pure _) fun _ => ?_
  have hkeep : Typed m (interpRun (execInterp m) m limit entry (s, [])).2.1 ∧
      ∀ e ∈ (interpRun (execInterp m) m limit entry (s, [])).2.2, e.InRange := by
    refine interpRun_keeps (Q := fun t : ExecState × List ShiftEvent =>
      Typed m t.1 ∧ ∀ e ∈ t.2, e.InRange) ?_ ?_ limit entry
      ⟨h, fun e he => absurd he List.not_mem_nil⟩
    · rintro ⟨s, es⟩ op ⟨hs, hes⟩
      refine ⟨?_, fun e he => (List.mem_append.mp he).elim (hes e) (all_execOp hwf hs op e)⟩
      show Typed m (Shifts.execOp m s op).value.2
      rw [value_execOp]
      exact hs.execOp op
    · rintro ⟨s, es⟩ target args ⟨hs, hes⟩
      exact ⟨hs.transfer target args, hes⟩
  exact hkeep.2

end Run

/-! ### Canonicalization -/

section Fold

variable {m : Module}

/-- A constant operand has a width of a word. -/
theorem bits_of_constIs (hwf : m.WF) {v : Nat} {w : Word} (h : ConstIs m v w) :
    1 ≤ (m.valueType v).bits ∧ (m.valueType v).bits ≤ 64 := by
  refine ⟨bits_pos_of_valid (hwf.value_type v (valueIsGlobalConst_lt h.isConst)) ?_, h.bits_le⟩
  simpa [Ty.isInt, Ty.isAddr] using (execScalarU64Type_iff.mp h.scalar).1

theorem all_flagExtractValue (summary extract : Opcode) {bits : Nat} (lhs rhs : Word)
    (h1 : 1 ≤ bits) (h64 : bits ≤ 64) :
    (flagExtractValue summary extract bits lhs rhs).All ShiftEvent.InRange := by
  refine (all_maskForBits bits).bind ((all_signBitForBits h1 h64).bind
    (all_ite (fun _ => all_pure _) fun h => ?_))
  -- the amount of a shift has been tested
  have hrange : summary = .flagsShl → 0 < (rhs &&& (maskForBits bits).value).toNat ∧
      (rhs &&& (maskForBits bits).value).toNat < bits := by
    rintro rfl
    simp only [true_and, not_or, not_le] at h
    exact ⟨Nat.pos_of_ne_zero fun h0 => h.1 (BitVec.eq_of_toNat_eq h0), h.2⟩
  have hresult : (flagResult summary (maskForBits bits).value (lhs &&& (maskForBits bits).value)
      (rhs &&& (maskForBits bits).value)).All ShiftEvent.InRange := by
    cases summary
    case flagsShl =>
      have hlt := (hrange rfl).2
      exact (all_shl (by omega) (by omega)).bind (all_pure _)
    all_goals exact all_pure _
  refine hresult.bind ?_
  cases extract
  case flagCf =>
    cases summary
    case flagsShl =>
      have hlt := hrange rfl
      exact (all_shr (by omega) (by omega)).bind (all_pure _)
    all_goals exact all_pure _
  case flagOf =>
    cases summary
    case flagsShl =>
      have hlt := hrange rfl
      exact all_ite (fun _ => all_pure _) fun _ => (all_shr (by omega) (by omega)).bind (all_pure _)
    all_goals exact all_pure _
  case flagAf => cases summary <;> exact all_pure _
  all_goals exact all_pure _

theorem all_computeFlagExtract (hwf : m.WF) (extract : Opcode) (v : Nat) :
    (computeFlagExtract m extract v).All ShiftEvent.InRange := by
  refine all_ite (fun _ => all_pure _) fun _ => ?_
  cases m.valueOp v with
  | none => exact all_pure _
  | some op =>
    refine all_ite (fun _ => all_pure _) fun _ => ?_
    cases hl : constU64Value m (op.srcAt 0) with
    | none => exact all_pure _
    | some lhs =>
      dsimp only
      cases (if op.opcode ≠ .flagsLogic then constU64Value m (op.srcAt 1) else some 0#64) with
      | none => exact all_pure _
      | some rhs =>
        obtain ⟨h1, h64⟩ := bits_of_constIs hwf (constU64Value_some hl)
        exact all_ite (fun _ => all_pure _) fun _ => all_flagExtractValue _ _ lhs rhs h1 h64

theorem all_shiftWord (opcode : Opcode) {bits : Nat} (lhs : Word) {shift : Word} (h1 : 1 ≤ bits)
    (h64 : bits ≤ 64) (hlt : shift.toNat < bits) :
    (shiftWord opcode bits lhs shift).All ShiftEvent.InRange := by
  refine (all_maskForBits bits).bind ?_
  cases opcode
  case shl => exact all_shl (by omega) (by omega)
  case lshr => exact all_shr (by omega) (by omega)
  all_goals
    refine all_ite (fun _ => all_pure _) fun h0 => ?_
    have hpos := Nat.pos_of_ne_zero fun h => h0 (BitVec.eq_of_toNat_eq h)
    refine (all_signBitForBits h1 h64).bind (all_ite (fun _ => ?_) fun _ => ?_)
    · exact (all_shr (by omega) (by omega)).bind
        ((all_maskForBits _).bind ((all_shl (by omega) (by omega)).bind (all_pure _)))
    · exact all_shr (by omega) (by omega)

theorem all_compareWord (opcode : Opcode) {bits : Nat} (lhs rhs : Word) (h1 : 1 ≤ bits)
    (h64 : bits ≤ 64) : (compareWord opcode bits lhs rhs).All ShiftEvent.InRange := by
  refine (all_maskForBits bits).bind ((all_maskForBits bits).bind ?_)
  cases opcode
  case eq | ne | ult | ule => exact all_pure _
  all_goals exact (all_signedLessU64 _ _ h1 h64).bind (all_pure _)

theorem all_extendWord (opcode : Opcode) {bits : Nat} (lhs : Word) (h1 : 1 ≤ bits)
    (h64 : bits ≤ 64) : (extendWord opcode bits lhs).All ShiftEvent.InRange := by
  refine all_ite (fun _ => (all_signBitForBits h1 h64).bind ?_) fun _ => all_pure _
  exact all_ite (fun _ => (all_maskForBits bits).bind (all_pure _)) fun _ => all_pure _

/-- The widths of a concatenation add up. -/
theorem concat_bits {op : OpRec} (hop : op.opcode = .concat)
    (ht : typeRule op.opcode (m.valueType op.dst) (op.src.map m.valueType) = true) :
    (m.valueType op.dst).bits =
      ((m.valueType (op.srcAt 0)).bits + (m.valueType (op.srcAt 1)).bits) % 65536 := by
  have hlen := typeRule_length ht
  rw [List.length_map, hop] at hlen
  obtain ⟨a, b, hab⟩ := List.length_eq_two.mp hlen
  rw [hop, hab] at ht
  simp only [List.map_cons, List.map_nil, typeRule, Bool.and_eq_true, beq_iff_eq] at ht
  simpa [OpRec.srcAt, hab] using ht.2

/-- `fold_constant_op` on an operation that the verifier has accepted. -/
theorem all_foldConstantOp (hwf : m.WF) {op : OpRec} (hdst : op.dst < m.values.length)
    (ht : typeRule op.opcode (m.valueType op.dst) (op.src.map m.valueType) = true) :
    (foldConstantOp m op).All ShiftEvent.InRange := by
  unfold foldConstantOp
  cases hop : op.opcode
  case shl | lshr | ashr =>
    refine all_ite (fun _ => all_pure _) fun h => ?_
    simp only [Bool.or_eq_true, Bool.not_eq_true', Bool.not_eq_false, decide_eq_true_eq, not_or,
      not_lt] at h
    have h1 := bits_pos_of_valid (hwf.value_type _ hdst) (.inl h.1)
    cases constPair m op with
    | none => exact all_pure _
    | some p =>
      exact all_ite (fun _ => all_pure _) fun hlt =>
        (all_shiftWord _ _ h1 h.2 (Nat.lt_of_not_le hlt)).bind (all_pure _)
  case eq | ne | ult | ule | slt | sle =>
    cases hp : constPair m op with
    | none => exact all_pure _
    | some p =>
      obtain ⟨h1, h64⟩ := bits_of_constIs hwf (constPair_some hp).1
      exact all_ite (fun _ => all_pure _) fun _ => (all_compareWord _ _ _ h1 h64).bind (all_pure _)
  case zext | sext | trunc =>
    refine all_ite (fun _ => all_pure _) fun _ => ?_
    cases hl : constU64Value m (op.srcAt 0) with
    | none => exact all_pure _
    | some lhs =>
      obtain ⟨h1, h64⟩ := bits_of_constIs hwf (constU64Value_some hl)
      exact (all_extendWord _ _ h1 h64).bind (all_pure _)
  case concat =>
    refine all_ite (fun _ => all_pure _) fun h => ?_
    simp only [Bool.or_eq_true, decide_eq_true_eq, not_or, not_lt] at h
    cases hp : constPair m op with
    | none => exact all_pure _
    | some p =>
      -- the left operand has a bit, so the right one does not fill the word
      have hbits := concat_bits hop ht
      obtain ⟨hl1, hl64⟩ := bits_of_constIs hwf (constPair_some hp).1
      obtain ⟨hr1, hr64⟩ := bits_of_constIs hwf (constPair_some hp).2
      exact (all_shl (by omega) (by omega)).bind (all_pure _)
  case flagZf | flagCf | flagOf | flagSf | flagPf | flagAf =>
    refine (all_computeFlagExtract hwf _ _).bind ?_
    split <;> exact all_pure _
  all_goals exact all_pure _

/-- The local pass shifts in range. -/
theorem all_canonicalizeLocalOps (hwf : m.WF) (hver : m.Verified) :
    (canonicalizeLocalOps m).All ShiftEvent.InRange := by
  have hloop : ∀ (n o : Nat) (m : Module) (stats : LocalStats), m.WF → m.Verified →
      o + n = m.ops.length →
      (canonicalizeLocalOpsFrom n o m stats).All ShiftEvent.InRange := by
    intro n
    induction n with
    | zero => exact fun _ _ _ _ _ _ => all_pure _
    | succ n ih =>
      intro o m stats hwf hver hlen
      have ho : o < m.ops.length := by omega
      have hfold : (foldLocalOp m o stats).All ShiftEvent.InRange := by
        refine (all_foldConstantOp hwf (hwf.op_dst o ho).1 (typed_of_verified hwf hver o ho)).bind ?_
        split <;> exact all_pure _
      refine hfold.bind ?_
      rw [value_foldLocalOp]
      obtain ⟨hsteps, hops⟩ := localSteps_canonicalizeLocalOp ho stats
      have hkept := localSteps_induct (P := fun m => m.WF ∧ m.Verified)
        (fun _ _ h hs => ⟨wf_localStep h.1 hs, verified_localStep h.1 h.2 hs⟩) hsteps ⟨hwf, hver⟩
      have hlen' : o + 1 + n = (canonicalizeLocalOp m o stats).1.ops.length := by omega
      exact ih (o + 1) _ _ hkept.1 hkept.2 hlen'
  exact hloop _ 0 m _ hwf hver (by omega)

/-- Canonicalization shifts in range. -/
theorem all_canonicalizeModule (hwf : m.WF) :
    (canonicalizeModule m).All ShiftEvent.InRange := by
  refine all_ite (fun _ => all_pure _) fun _ => ?_
  cases hver : verifyModule m with
  | error e => exact all_pure _
  | ok u =>
    have hc := sameCore_valueNumberClear m
    refine (all_canonicalizeLocalOps (hwf.congr hc) (verified_congr hwf hc hver)).bind ?_
    dsimp only
    split <;> exact all_pure _

end Fold

end Shifts

/-- **No evaluator shifts out of range.**  `mask_for_bits` never does; canonicalization and every
run of the executor, as evaluated with a trace of their shifts, are what they are without it, and
every amount on the trace is one of 0 to 63, every width of a sign bit one of 1 to 64. -/
theorem shifts_inRange {m : Module} (h : m.Reachable) :
    (∀ bits, (Shifts.maskForBits bits).value = maskForBits bits ∧
      (Shifts.maskForBits bits).All ShiftEvent.InRange) ∧
    ((Shifts.canonicalizeModule m).value = canonicalizeModule m ∧
      (Shifts.canonicalizeModule m).All ShiftEvent.InRange) ∧
    ∀ s : ExecState, s.Reachable m → ∀ entry limit,
      (Shifts.execRun m entry s limit).value = execRun m entry s limit ∧
      (Shifts.execRun m entry s limit).All ShiftEvent.InRange := by
  have hwf := wf_reachable h
  refine ⟨fun bits => ⟨Shifts.value_maskForBits bits, Shifts.all_maskForBits bits⟩,
    ⟨Shifts.value_canonicalizeModule m, Shifts.all_canonicalizeModule hwf⟩,
    fun s hs entry limit => ⟨Shifts.value_execRun m entry s limit, ?_⟩⟩
  exact Shifts.all_execRun hwf (hs.ok hwf).typed entry limit

/-- A concatenation of two words of 32 bits. -/
theorem shifts_inRange_concat :
    (Shifts.canonicalizeModule (runCalls Module.create
      [.blockCreate none, .buildConstU64 0 (typeI 32) 1#64 none,
        .buildConstU64 0 (typeI 32) 2#64 none, .buildBinary 0 .concat (typeI 64) 0 1 none,
        .setReturn 0 (.array [2])])).All ShiftEvent.InRange :=
  (shifts_inRange ⟨_, rfl⟩).2.1.2

end Xair
