import Xair.LocalPass
import Xair.Reference

/-!
# Folding computes what the executor computes

An operation that `fold_constant_op` replaces by a constant would have evaluated
to that constant (`foldConstantOp_sound`).  The arithmetic cases compare two
expressions on words; a flag extract looks through the flag summary it reads, so
its case needs to know that the summary was computed from the same constants
(`Computed`).  Exchanging the operands of a commutative operation changes
nothing (`execOpValue_swap`).
-/

namespace Xair

/-! ### Constants -/

/-- What `const_u64_value` answers is what reading the constant answers. -/
structure ConstIs (m : Module) (v : Nat) (w : Word) : Prop where
  isConst : m.valueIsGlobalConst v = true
  scalar : execScalarU64Type (m.valueType v) = true
  value : m.constValue v = ⟨m.valueType v, w, 0#64⟩
  masked : w &&& maskForBits (m.valueType v).bits = w

theorem ConstIs.bits_le {m : Module} {v : Nat} {w : Word} (h : ConstIs m v w) :
    (m.valueType v).bits ≤ 64 :=
  (execScalarU64Type_iff.mp h.scalar).2

theorem constU64Value_some {m : Module} {v : Nat} {w : Word} (h : constU64Value m v = some w) :
    ConstIs m v w := by
  unfold constU64Value at h
  split at h
  · cases h
  · next hv =>
    split at h
    · cases h
    · next ht =>
      have hkind : (m.valueType v).kind = .int ∨ (m.valueType v).kind = .addr := by
        by_contra hn
        exact ht (.inl (not_or.mp hn))
      have hbits : (m.valueType v).bits ≤ 64 := by
        by_contra hn
        exact ht (.inr (by omega))
      cases hop : m.valueOp v with
      | none => rw [hop] at h; cases h
      | some op =>
        rw [hop] at h
        simp only [ne_eq, ite_not, Option.ite_none_right_eq_some, Option.some.injEq] at h
        obtain ⟨hc, hw⟩ := h
        have hn : ¬ ((m.valueType v).kind ≠ .int ∧ (m.valueType v).kind ≠ .addr) := by tauto
        refine ⟨?_, execScalarU64Type_iff.mpr ⟨hkind, hbits⟩, ?_, ?_⟩
        · simp [Module.valueIsGlobalConst, hop, hc, by simpa using hv]
        · simp [Module.constValue, hop, execValueMake, hw]
        · rw [← hw, truncateToType, if_neg hn, BitVec.and_assoc, BitVec.and_self]

theorem constPair_some {m : Module} {op : OpRec} {l r : Word} (h : constPair m op = some (l, r)) :
    ConstIs m (op.srcAt 0) l ∧ ConstIs m (op.srcAt 1) r := by
  unfold constPair at h
  split at h
  · next hl hr =>
    cases h
    exact ⟨constU64Value_some hl, constU64Value_some hr⟩
  · cases h

/-! ### Flag words -/

theorem orFlag_and_self (packed flag : Word) (c : Bool) :
    orFlag packed flag c &&& flag = if c then flag else packed &&& flag := by
  cases c
  · rfl
  · ext i
    simp only [orFlag, if_true, BitVec.getElem_and, BitVec.getElem_or]
    cases flag[i] <;> simp

theorem ite_flag_ne_zero {flag : Word} (hf : flag ≠ 0#64) (c : Bool) :
    ((if c = true then flag else 0#64) != 0#64) = c := by
  cases c <;> simp [hf]

theorem orFlag_and_other {packed flag f : Word} (h : flag &&& f = 0#64) (c : Bool) :
    orFlag packed flag c &&& f = packed &&& f := by
  cases c
  · rfl
  · simp [orFlag, BitVec.and_or_distrib_right, h]

/-- The flag that an extract tests. -/
def Opcode.flagBit : Opcode → Option Word
  | .flagZf => some execFlagZf
  | .flagCf => some execFlagCf
  | .flagOf => some execFlagOf
  | .flagSf => some execFlagSf
  | .flagPf => some execFlagPf
  | .flagAf => some execFlagAf
  | _ => none

theorem execUnaryOp_flagBit {extract : Opcode} {flag : Word} (h : extract.flagBit = some flag)
    (out : Ty) (src : ExecValue) : execUnaryOp extract out src =
      .ok (execValueMake out (boolU64 (src.lo &&& flag != 0#64)) 0#64) := by
  cases extract <;> simp only [Opcode.flagBit, Option.some.injEq, reduceCtorEq] at h <;> subst h <;> rfl

/-- The word a flag summary packs. -/
def packedFlags (summary : Opcode) (bits : Nat) (lhs rhs : Word) : Word :=
  match summary with
  | .flagsLogic => execLogicFlags lhs bits
  | .flagsShl => execShiftLeftFlags lhs rhs bits
  | _ => execFlags summary lhs rhs bits

theorem boolU64_and_one (w : Word) : boolU64 (w &&& 1#64 != 0#64) = w &&& 1#64 := by
  have h : w &&& 1#64 = 0#64 ∨ w &&& 1#64 = 1#64 := by
    have : (w &&& 1#64).toNat < 2 := by
      rw [BitVec.toNat_and]
      exact lt_of_le_of_lt Nat.and_le_right (by decide)
    rcases Nat.lt_succ_iff_lt_or_eq.mp this with h | h
    · exact .inl (BitVec.eq_of_toNat_eq (by simpa using h))
    · exact .inr (BitVec.eq_of_toNat_eq (by simpa using h))
  rcases h with h | h <;> rw [h] <;> rfl

/-- **A folded flag is the flag in the summary.** -/
theorem flagExtractValue_eq {summary extract : Opcode} {bits : Nat} {lhs rhs w : Word}
    (hr : rhs &&& maskForBits bits = rhs)
    (hs : summary = .flagsAdd ∨ summary = .flagsSub ∨ summary = .flagsLogic ∨ summary = .flagsShl)
    (h : flagExtractValue summary extract bits lhs rhs = some w) :
    ∃ flag, extract.flagBit = some flag ∧
      w = boolU64 (packedFlags summary bits lhs rhs &&& flag != 0#64) := by
  unfold flagExtractValue at h
  simp only [hr] at h
  split at h
  · cases h
  · rcases hs with rfl | rfl | rfl | rfl <;> cases extract <;>
      simp only [Option.some.injEq, reduceCtorEq, Option.ite_none_left_eq_some] at h <;>
      refine ⟨_, rfl, ?_⟩ <;>
      simp (disch := decide) only [packedFlags, execFlags, execLogicFlags, execShiftLeftFlags, hr,
        orFlag_and_self, orFlag_and_other, BitVec.zero_and, ite_flag_ne_zero, if_true, if_false,
        bne_self_eq_false, reduceCtorEq] <;>
      first
        | exact h.symm
        | rw [boolU64_and_one, h]
        | rw [← h.2, not_not.mp h.1, beq_self_eq_true, Bool.true_and]

/-! ### Evaluation on constants -/

/-- The number of sources of an opcode. -/
def Opcode.arity : Opcode → Nat
  | .constU64 => 0
  | .zext | .sext | .trunc | .intToAddr | .addrToInt | .flagsLogic
  | .flagZf | .flagCf | .flagOf | .flagSf | .flagPf | .flagAf => 1
  | .store => 3
  | _ => 2

theorem typeRule_length {opcode : Opcode} {out : Ty} {srcs : List Ty}
    (h : typeRule opcode out srcs = true) : srcs.length = opcode.arity := by
  match srcs with
  | [] =>
    cases opcode <;> simp [typeRule] at h
    rfl
  | [_] => cases opcode <;> simp [typeRule] at h <;> rfl
  | [_, _] => cases opcode <;> simp [typeRule] at h <;> rfl
  | [_, _, _] =>
    cases opcode <;> simp [typeRule] at h
    rfl
  | _ :: _ :: _ :: _ :: _ => cases opcode <;> simp [typeRule] at h

section Evaluation

variable {m : Module} {op : OpRec} {out : Ty} {read : Nat → Except Status ExecValue}
  {mem : ExecMemory} {x y : ExecValue}

theorem execOpValue_unary (harity : op.opcode.arity = 1) (hlen : op.src.length = 1)
    (h0 : read (op.srcAt 0) = .ok x) :
    execOpValue out read mem op = (execUnaryOp op.opcode out x).map (·, mem) := by
  have hne : op.opcode ≠ .constU64 ∧ ¬ (op.opcode = .load ∨ op.opcode = .store) := by
    refine ⟨?_, ?_⟩
    · intro hc; rw [hc] at harity; cases harity
    · rintro (hc | hc) <;> rw [hc] at harity <;> cases harity
  rw [execOpValue, if_neg hne.1, if_neg hne.2, if_pos hlen, h0]

theorem execOpValue_binary (harity : op.opcode.arity = 2) (hload : op.opcode ≠ .load)
    (hlen : op.src.length = 2) (h0 : read (op.srcAt 0) = .ok x) (h1 : read (op.srcAt 1) = .ok y) :
    execOpValue out read mem op = (execBinaryOp op.opcode out x y).map (·, mem) := by
  have hne : op.opcode ≠ .constU64 ∧ ¬ (op.opcode = .load ∨ op.opcode = .store) := by
    refine ⟨?_, ?_⟩
    · intro hc; rw [hc] at harity; cases harity
    · rintro (hc | hc)
      · exact hload hc
      · rw [hc] at harity; cases harity
  rw [execOpValue, if_neg hne.1, if_neg hne.2, if_neg (by omega), if_pos hlen, h0, h1]

end Evaluation

theorem execValueMake_truncate (t : Ty) (w hi : Word) :
    execValueMake t (truncateToType w t) hi = execValueMake t w hi := by
  simp [execValueMake]

theorem Ty.one_le_bits {t : Ty} (hv : t.isValid = true) (hi : t.isInt = true) : 1 ≤ t.bits := by
  simp only [Ty.isInt, beq_iff_eq] at hi
  simp only [Ty.isValid, hi, validIntBits, Bool.and_eq_true, Bool.or_eq_true, beq_iff_eq] at hv
  omega

/-- A binary operation folds only when both operands are constants. -/
theorem constPair_of_fold {m : Module} {op op' : OpRec} (h : foldConstantOp m op = some op')
    (harity : op.opcode.arity = 2) : ∃ l r, constPair m op = some (l, r) := by
  cases hp : constPair m op with
  | some p => exact ⟨p.1, p.2, rfl⟩
  | none =>
    unfold foldConstantOp at h
    cases hop : op.opcode <;> rw [hop] at harity <;> (try cases harity) <;>
      simp [hop, hp] at h

/-- What a folded binary operation computes from its two constants. -/
theorem execBinaryOp_fold {m : Module} {op op' : OpRec} {l r : Word}
    (h : foldConstantOp m op = some op') (hp : constPair m op = some (l, r))
    (harity : op.opcode.arity = 2)
    (htyped : typeRule op.opcode (m.valueType op.dst) (op.src.map m.valueType) = true)
    (hvalid : ∀ s ∈ op.src, (m.valueType s).isValid = true) :
    execBinaryOp op.opcode (m.valueType op.dst) ⟨m.valueType (op.srcAt 0), l, 0#64⟩
      ⟨m.valueType (op.srcAt 1), r, 0#64⟩ =
        .ok (execValueMake (m.valueType op.dst) op'.imm 0#64) := by
  have hlen : op.src.length = 2 := by
    rw [← harity, ← typeRule_length htyped, List.length_map]
  have hsrc : op.src = [op.srcAt 0, op.srcAt 1] := by
    obtain ⟨a, b, hab⟩ := List.length_eq_two.mp hlen
    simp [OpRec.srcAt, hab]
  have hv0 := hvalid (op.srcAt 0) (OpRec.srcAt_mem (by omega))
  rw [hsrc] at htyped
  obtain ⟨hl, hr⟩ := constPair_some hp
  have hb0 : ¬ 64 < (m.valueType (op.srcAt 0)).bits := hl.bits_le.not_gt
  have hb1 : ¬ 64 < (m.valueType (op.srcAt 1)).bits := hr.bits_le.not_gt
  unfold foldConstantOp at h
  simp only [hp] at h
  cases hop : op.opcode <;> rw [hop] at harity <;> (try cases harity) <;>
    simp only [hop, typeRule, List.map_cons, List.map_nil, Bool.and_eq_true, beq_iff_eq] at h htyped <;>
    (try cases h) <;> (split at h <;> try cases h) <;>
    -- the executor's guard and masks vanish on constants
    simp only [execBinaryOp, hl.scalar, hb0, hb1, hl.masked, hr.masked, decide_false, Bool.not_true,
      Bool.or_self, Bool.false_eq_true, if_false, foldToConst, execValueMake_truncate]
  case shl.refl.isFalse | lshr.refl.isFalse | ashr.refl.isFalse =>
    simp only [htyped.2, hl.masked] at h ⊢
    split at h
    · cases h
    · next hs =>
      cases h
      rw [if_neg hs]
      simp only [foldToConst, execValueMake_truncate, apply_ite Except.ok,
        apply_ite fun w => execValueMake (m.valueType (op.srcAt 0)) w 0#64]
  case concat.refl.isFalse.refl =>
    -- the left operand has at least one bit, so the right one has fewer than 64
    have h1 := Ty.one_le_bits hv0 htyped.1.1.1
    have h2 : ¬ 64 ≤ (m.valueType (op.srcAt 1)).bits := by
      rename_i hg
      simp only [Bool.or_eq_true, decide_eq_true_eq, not_or] at hg
      omega
    simp_all
  case addrAdd.refl.isFalse.refl => rfl
  case addrSub.refl.isFalse.refl => rfl
  all_goals
    -- the comparisons: both operands have the width of the first
    have hm : r &&& maskForBits (m.valueType (op.srcAt 0)).bits = r := by
      rw [htyped.1.1]
      exact hr.masked
    rw [hm]

/-- A conversion folds only when its operand is a constant. -/
theorem constU64Value_of_fold {m : Module} {op op' : OpRec} (h : foldConstantOp m op = some op')
    (harity : op.opcode.arity = 1) (hflag : op.opcode.flagBit = none) :
    ∃ w, constU64Value m (op.srcAt 0) = some w := by
  cases hw : constU64Value m (op.srcAt 0) with
  | some w => exact ⟨w, rfl⟩
  | none =>
    unfold foldConstantOp at h
    cases hop : op.opcode <;> rw [hop] at harity hflag <;> (try cases harity) <;>
      (try cases hflag) <;> simp [hop, hw] at h

/-- What a folded conversion computes from its constant. -/
theorem execUnaryOp_fold {m : Module} {op op' : OpRec} {w : Word}
    (h : foldConstantOp m op = some op') (hw : constU64Value m (op.srcAt 0) = some w)
    (harity : op.opcode.arity = 1) (hflag : op.opcode.flagBit = none) :
    execUnaryOp op.opcode (m.valueType op.dst) ⟨m.valueType (op.srcAt 0), w, 0#64⟩ =
      .ok (execValueMake (m.valueType op.dst) op'.imm 0#64) := by
  have hc := constU64Value_some hw
  unfold foldConstantOp at h
  simp only [hw] at h
  cases hop : op.opcode <;> rw [hop] at harity hflag <;> (try cases harity) <;> (try cases hflag) <;>
    simp only [hop] at h <;> (try cases h) <;> (split at h <;> try cases h) <;>
    rename_i hg <;>
    simp only [Bool.or_eq_true, Bool.not_eq_true', decide_eq_true_eq, not_or, Bool.not_eq_false,
      not_lt] at hg
  all_goals
    have hout : execScalarU64Type (m.valueType op.dst) = true := by
      simp [execScalarU64Type, hg]
    simp only [execUnaryOp, hout, hc.scalar, Bool.not_true, Bool.or_self, Bool.false_eq_true,
      if_false, foldToConst, execValueMake_truncate, reduceCtorEq, false_and, true_and,
      apply_ite Except.ok, apply_ite fun w => execValueMake (m.valueType op.dst) w 0#64]

/-! ### Flag extracts -/

/-- `x` is what the operation of `v` computes, if that operation has only constant
sources. -/
def Module.Computed (m : Module) (v : Nat) (x : ExecValue) : Prop :=
  ∀ op mem, m.valueOp v = some op → ¬ op.opcode.isMemoryOp →
    (∀ s ∈ op.src, m.valueIsGlobalConst s = true) →
    execOpValue (m.valueType v) (fun u => .ok (m.constValue u)) mem op = .ok (x, mem)

/-- Every operation meets its type rule. -/
def Module.Typed (m : Module) : Prop :=
  ∀ o < m.ops.length,
    typeRule (m.opRec o).opcode (m.valueType (m.opRec o).dst) ((m.opRec o).src.map m.valueType) = true

theorem truncateToType_flags {t : Ty} (h : t.isFlags = true) (w : Word) :
    truncateToType w t = w := by
  simp only [Ty.isFlags, beq_iff_eq] at h
  simp [truncateToType, h]

theorem flags_operands {m : Module} {op : OpRec} {out : Ty}
    (hc : op.opcode = .flagsAdd ∨ op.opcode = .flagsSub ∨ op.opcode = .flagsShl)
    (htyped : typeRule op.opcode out (op.src.map m.valueType) = true) :
    m.valueType (op.srcAt 0) = m.valueType (op.srcAt 1) := by
  have hlen := typeRule_length htyped
  rw [List.length_map] at hlen
  have har : op.opcode.arity = 2 := by rcases hc with h | h | h <;> rw [h] <;> rfl
  obtain ⟨a, b, hab⟩ := List.length_eq_two.mp (hlen.trans har)
  rw [hab] at htyped
  rcases hc with hc | hc | hc <;>
    simp only [hc, List.map_cons, List.map_nil, typeRule, Bool.and_eq_true, beq_iff_eq] at htyped <;>
    simpa [OpRec.srcAt, hab] using htyped.1.1

theorem computed_flags {m : Module} {v : Nat} {x : ExecValue} (hx : m.Computed v x) {op : OpRec}
    (hop : m.valueOp v = some op)
    (htyped : typeRule op.opcode (m.valueType v) (op.src.map m.valueType) = true) {l r : Word}
    (hl : ConstIs m (op.srcAt 0) l)
    (hs : (op.opcode = .flagsLogic ∧ r = 0#64) ∨
      ((op.opcode = .flagsAdd ∨ op.opcode = .flagsSub ∨ op.opcode = .flagsShl) ∧
        ConstIs m (op.srcAt 1) r)) :
    x.lo = packedFlags op.opcode (m.valueType (op.srcAt 0)).bits l r := by
  have hmem : ¬ op.opcode.isMemoryOp := by
    rintro (h | h) <;> simp [h] at hs
  have hlen := typeRule_length htyped
  rw [List.length_map] at hlen
  have hb0 : ¬ 64 < (m.valueType (op.srcAt 0)).bits := hl.bits_le.not_gt
  rcases hs with ⟨hc, rfl⟩ | ⟨hc, hr⟩
  · -- one source
    obtain ⟨a, ha⟩ := List.length_eq_one_iff.mp (hc ▸ hlen)
    have h0 : op.srcAt 0 = a := by simp [OpRec.srcAt, ha]
    have hv := hx op ⟨[], 0#64⟩ hop hmem fun s hs => by
      rw [ha, List.mem_singleton] at hs
      rw [hs, ← h0]
      exact hl.isConst
    rw [execOpValue_unary (by rw [hc]; rfl) (by rw [ha]; rfl) rfl, hl.value] at hv
    rw [hc, ha] at htyped
    simp only [List.map_cons, List.map_nil, typeRule, Bool.and_eq_true, ← h0] at htyped
    simp only [hc, execUnaryOp, htyped, hb0, decide_false, Bool.not_true, Bool.or_self,
      Bool.false_eq_true, if_false, Except.map, Except.ok.injEq, Prod.mk.injEq, and_true] at hv
    rw [← hv, hc]
    exact truncateToType_flags htyped.2 _
  · -- two sources of one type
    have har : op.opcode.arity = 2 := by rcases hc with h | h | h <;> rw [h] <;> rfl
    rw [har] at hlen
    obtain ⟨a, b, hab⟩ := List.length_eq_two.mp hlen
    have h0 : op.srcAt 0 = a := by simp [OpRec.srcAt, hab]
    have h1 : op.srcAt 1 = b := by simp [OpRec.srcAt, hab]
    have hv := hx op ⟨[], 0#64⟩ hop hmem fun s hs => by
      rw [hab] at hs
      rcases List.mem_pair.mp hs with rfl | rfl
      · exact h0 ▸ hl.isConst
      · exact h1 ▸ hr.isConst
    have hload : op.opcode ≠ .load := fun h => hmem (.inl h)
    rw [execOpValue_binary har hload (by omega) rfl rfl, hl.value, hr.value] at hv
    have hb1 : ¬ 64 < (m.valueType (op.srcAt 1)).bits := hr.bits_le.not_gt
    rw [hab] at htyped
    simp only [List.map_cons, List.map_nil, ← h0, ← h1] at htyped
    rcases hc with hc | hc | hc <;>
      simp only [hc, typeRule, Bool.and_eq_true, beq_iff_eq] at htyped <;>
      simp only [hc, execBinaryOp, hl.scalar, hb0, hb1, hl.masked, hr.masked, htyped.1.2,
        decide_false, Bool.not_true, Bool.or_self, Bool.false_eq_true, if_false] at hv
    · simp only [Except.map, Except.ok.injEq, Prod.mk.injEq, and_true] at hv
      rw [← hv, hc]
      exact truncateToType_flags htyped.2 _
    · simp only [Except.map, Except.ok.injEq, Prod.mk.injEq, and_true] at hv
      rw [← hv, hc]
      exact truncateToType_flags htyped.2 _
    · split at hv
      · cases hv
      · simp only [Except.map, Except.ok.injEq, Prod.mk.injEq, and_true] at hv
        rw [← hv, hc]
        exact truncateToType_flags htyped.2 _

/-- A flag that folds belongs to a summary of constants. -/
theorem computeFlagExtract_some {m : Module} {extract : Opcode} {v : Nat} {w : Word}
    (h : computeFlagExtract m extract v = some w) :
    ∃ op l r, m.valueOp v = some op ∧ ConstIs m (op.srcAt 0) l ∧
      ((op.opcode = .flagsLogic ∧ r = 0#64) ∨
        ((op.opcode = .flagsAdd ∨ op.opcode = .flagsSub ∨ op.opcode = .flagsShl) ∧
          ConstIs m (op.srcAt 1) r)) ∧
      (m.valueType (op.srcAt 0)).isInt = true ∧
      flagExtractValue op.opcode extract (m.valueType (op.srcAt 0)).bits l r = some w := by
  unfold computeFlagExtract at h
  split at h
  · cases h
  split at h
  · cases h
  next op hop =>
    split at h
    · cases h
    next hs =>
      split at h
      · cases h
      next l hl =>
        split at h
        · cases h
        next r hr =>
          dsimp only at h
          split at h
          · cases h
          next hg =>
            simp only [Bool.or_eq_true, Bool.not_eq_true', decide_eq_true_eq, not_or,
              Bool.not_eq_false] at hg
            refine ⟨op, l, r, hop, constU64Value_some hl, ?_, hg.1, h⟩
            by_cases hlogic : op.opcode = .flagsLogic
            · rw [if_neg (not_not.mpr hlogic)] at hr
              cases hr
              exact .inl ⟨hlogic, rfl⟩
            · rw [if_pos hlogic] at hr
              exact .inr ⟨by tauto, constU64Value_some hr⟩

/-- The second operand of a summary of constants is masked. -/
theorem summary_mask {m : Module} {op : OpRec} {out : Ty} {r : Word}
    (h : (op.opcode = .flagsLogic ∧ r = 0#64) ∨
      ((op.opcode = .flagsAdd ∨ op.opcode = .flagsSub ∨ op.opcode = .flagsShl) ∧
        ConstIs m (op.srcAt 1) r))
    (ht : typeRule op.opcode out (op.src.map m.valueType) = true) :
    r &&& maskForBits (m.valueType (op.srcAt 0)).bits = r := by
  rcases h with ⟨-, rfl⟩ | ⟨hc, hr⟩
  · exact BitVec.zero_and
  · rw [flags_operands hc ht]
    exact hr.masked

/-- **An extract of a flag of constants** reads the flag that folding computes. -/
theorem execUnaryOp_extract {m : Module} {extract : Opcode} {v : Nat} {w : Word}
    (h : computeFlagExtract m extract v = some w) {x : ExecValue} (hx : m.Computed v x)
    (htyped : ∀ op, m.valueOp v = some op →
      typeRule op.opcode (m.valueType v) (op.src.map m.valueType) = true) (out : Ty) :
    execUnaryOp extract out x = .ok (execValueMake out w 0#64) := by
  obtain ⟨op, l, r, hop, hl, hcases, -, hw⟩ := computeFlagExtract_some h
  have ht := htyped op hop
  have hmask := summary_mask hcases ht
  obtain ⟨flag, hflag, hw⟩ := flagExtractValue_eq hmask (by tauto) hw
  rw [execUnaryOp_flagBit hflag, computed_flags hx hop ht hl hcases, ← hw]

/-- A folded extract is the constant that the flag computation answers. -/
theorem computeFlagExtract_of_fold {m : Module} {op op' : OpRec} {flag : Word}
    (h : foldConstantOp m op = some op') (hflag : op.opcode.flagBit = some flag) :
    ∃ w, computeFlagExtract m op.opcode (op.srcAt 0) = some w ∧
      op' = foldToConst op w (m.valueType op.dst) := by
  unfold foldConstantOp at h
  cases hw : computeFlagExtract m op.opcode (op.srcAt 0) <;>
    cases hop : op.opcode <;> rw [hop] at hflag hw <;> (try cases hflag) <;>
    simp only [hop, hw] at h <;> cases h
  all_goals exact ⟨_, rfl, rfl⟩

/-! ### Whole operations -/

/-- **Folding is sound.**  Where constants are read as themselves and every source
is what constants compute, a folded operation evaluates to its constant. -/
theorem foldConstantOp_sound {m : Module} (hm : m.Typed) (hwf : m.WF) {o : Nat} {op' : OpRec}
    (ho : o < m.ops.length) (h : foldConstantOp m (m.opRec o) = some op')
    {read : Nat → Except Status ExecValue} (mem : ExecMemory)
    (hconst : ∀ s, m.valueIsGlobalConst s = true → read s = .ok (m.constValue s))
    (hread : ∀ s ∈ (m.opRec o).src, ∃ x, read s = .ok x ∧ m.Computed s x) :
    execOpValue (m.valueType (m.opRec o).dst) read mem (m.opRec o) =
      .ok (execValueMake (m.valueType (m.opRec o).dst) op'.imm 0#64, mem) := by
  have htyped := hm o ho
  have hlen := typeRule_length htyped
  rw [List.length_map] at hlen
  have hvalid : ∀ s ∈ (m.opRec o).src, (m.valueType s).isValid = true := by
    intro s hs
    have := hwf.value_type s (hwf.op_src o ho s hs)
    simp only [Ty.isValueType, Bool.and_eq_true] at this
    exact this.1.1
  have hne := foldConstantOp_opcode h
  have harity : (m.opRec o).opcode.arity = 1 ∨ (m.opRec o).opcode.arity = 2 := by
    cases hop : (m.opRec o).opcode <;> simp [hop, Opcode.isMemoryOp, Opcode.arity] at hne ⊢
  rcases harity with har | har
  · rw [har] at hlen
    obtain ⟨x, hx, hcomp⟩ := hread _ (OpRec.srcAt_mem (i := 0) (by omega))
    rw [execOpValue_unary har hlen hx]
    cases hflag : (m.opRec o).opcode.flagBit with
    | none =>
      obtain ⟨w, hw⟩ := constU64Value_of_fold h har hflag
      have hc := constU64Value_some hw
      obtain rfl : m.constValue _ = x := Except.ok.inj ((hconst _ hc.isConst).symm.trans hx)
      rw [hc.value, execUnaryOp_fold h hw har hflag]
      rfl
    | some flag =>
      obtain ⟨w, hw, rfl⟩ := computeFlagExtract_of_fold h hflag
      rw [execUnaryOp_extract hw hcomp fun op hop => ?_, foldToConst, execValueMake_truncate]
      · rfl
      · -- the flag's operation is an operation of the module, so it is typed
        obtain ⟨p, hp, hpd, rfl⟩ := hwf.valueOp_some hop
        exact hpd ▸ hm p hp
  · rw [har] at hlen
    obtain ⟨l, r, hp⟩ := constPair_of_fold h har
    obtain ⟨hl, hr⟩ := constPair_some hp
    have hload : (m.opRec o).opcode ≠ .load := fun hc => hne.2 (.inl hc)
    rw [execOpValue_binary har hload hlen (hconst _ hl.isConst) (hconst _ hr.isConst), hl.value,
      hr.value, execBinaryOp_fold h hp har htyped hvalid]
    rfl

/-- The carry out of an addition shows on either operand. -/
theorem and_mask_lt_comm {bits : Nat} (hb : bits ≤ 64) {l r : Word}
    (hl : l &&& maskForBits bits = l) (hr : r &&& maskForBits bits = r) :
    ((l + r) &&& maskForBits bits < l) ↔ ((l + r) &&& maskForBits bits < r) := by
  have hlt : l.toNat < 2 ^ bits := by
    rw [← hl, and_maskForBits_toNat hb]
    exact Nat.mod_lt _ (Nat.two_pow_pos _)
  have hrt : r.toNat < 2 ^ bits := by
    rw [← hr, and_maskForBits_toNat hb]
    exact Nat.mod_lt _ (Nat.two_pow_pos _)
  have hpow : 2 ^ bits ∣ 2 ^ 64 := Nat.pow_dvd_pow 2 hb
  rw [BitVec.lt_def, BitVec.lt_def, and_maskForBits_toNat hb, BitVec.toNat_add,
    Nat.mod_mod_of_dvd _ hpow]
  by_cases hc : l.toNat + r.toNat < 2 ^ bits
  · rw [Nat.mod_eq_of_lt hc]
    omega
  · rw [Nat.mod_eq_sub_mod (by omega), Nat.mod_eq_of_lt (by omega)]
    omega

theorem execFlags_comm {bits : Nat} (hb : bits ≤ 64) {l r : Word}
    (hl : l &&& maskForBits bits = l) (hr : r &&& maskForBits bits = r) :
    execFlags .flagsAdd l r bits = execFlags .flagsAdd r l bits := by
  unfold execFlags
  simp only [hl, hr, if_true, BitVec.add_comm r l, BitVec.xor_comm r l]
  rw [decide_eq_decide.mpr (and_mask_lt_comm hb hl hr)]
  congr 4
  cases l &&& signBitForBits bits != 0#64 <;> cases r &&& signBitForBits bits != 0#64 <;> rfl

/-- Commutative operations compute the same from exchanged operands of one type. -/
theorem execBinaryOp_comm {opcode : Opcode} (h : opIsCommutative opcode = true) (out : Ty)
    {x y : ExecValue} (ht : x.type = y.type) :
    execBinaryOp opcode out x y = execBinaryOp opcode out y x := by
  unfold execBinaryOp
  rw [ht]
  split
  · rfl
  · next hg =>
    have hb : y.type.bits ≤ 64 := by
      simp only [Bool.or_eq_true, decide_eq_true_eq, not_or] at hg
      omega
    have hmask : ∀ w : Word, w &&& maskForBits y.type.bits &&& maskForBits y.type.bits =
        w &&& maskForBits y.type.bits := fun w => by rw [BitVec.and_assoc, BitVec.and_self]
    cases opcode <;> simp only [opIsCommutative, Bool.false_eq_true] at h <;> dsimp only
    · rw [BitVec.add_comm]
    · rw [BitVec.mul_comm]
    · rw [BitVec.and_comm]
    · rw [BitVec.or_comm]
    · rw [BitVec.xor_comm]
    · rw [Bool.beq_comm]
    · rw [bne_comm]
    · rw [execFlags_comm hb (hmask _) (hmask _)]

/-- **Reordering is sound.** -/
theorem execOpValue_swap {m : Module} {op op' : OpRec} {out : Ty}
    (h : reorderOperands m op = some op')
    (htyped : typeRule op.opcode out (op.src.map m.valueType) = true)
    {read : Nat → Except Status ExecValue} (mem : ExecMemory)
    (hread : ∀ s ∈ op.src, ∃ x, read s = .ok x ∧ x.type = m.valueType s) :
    execOpValue out read mem op = execOpValue out read mem op' := by
  obtain ⟨a, b, hab, hc, rfl⟩ := reorderOperands_eq h
  obtain ⟨x, hx, htx⟩ := hread a (by simp [hab])
  obtain ⟨y, hy, hty⟩ := hread b (by simp [hab])
  have har : op.opcode.arity = 2 := by
    cases hop : op.opcode <;> simp [hop, opIsCommutative, Opcode.arity] at hc ⊢
  have hload : op.opcode ≠ .load := by
    intro hop
    simp [hop, opIsCommutative] at hc
  have htype : x.type = y.type := by
    rw [htx, hty]
    rw [hab] at htyped
    cases hop : op.opcode <;> simp [hop, opIsCommutative] at hc <;>
      simp only [hop, typeRule, List.map_cons, List.map_nil, Bool.and_eq_true, beq_iff_eq] at htyped <;>
      exact htyped.1.1
  have h0 : op.srcAt 0 = a := by simp [OpRec.srcAt, hab]
  have h1 : op.srcAt 1 = b := by simp [OpRec.srcAt, hab]
  have hswap : execOpValue out read mem { op with src := [b, a] } =
      (execBinaryOp op.opcode out y x).map (·, mem) :=
    execOpValue_binary har hload rfl hy hx
  rw [execOpValue_binary har hload (by simp [hab]) (h0 ▸ hx) (h1 ▸ hy), hswap,
    execBinaryOp_comm hc out htype]

end Xair
