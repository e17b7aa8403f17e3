import Xair.ScalarExact

/-!
# Flags are exact

A flag summary packs the flags of an operation into a word, from which an extract reads
one.  Carry and overflow are found from wrapped results and sign bits, parity through a
table.  Read back, each flag is what the arithmetic says (`flagSpec`), and where folding
computes a flag it is the one that the executor packs.
-/

namespace Xair

open NarrowWord

/-! ### What the flags are -/

section Spec

variable {n : Nat}

/-- The result that the flags of a summary describe. -/
def flagResult (summary : Opcode) (x y : BitVec n) : BitVec n :=
  match summary with
  | .flagsAdd => x + y
  | .flagsSub => x - y
  | .flagsShl => x <<< y.toNat
  | _ => x

/-- An even number of the low eight bits is set. -/
def evenOnes (z : BitVec n) : Bool := ((List.range 8).countP fun i => z.getLsbD i) % 2 == 0

/-- `CF`: the carry, the borrow, or the last bit shifted out. -/
def flagCarry (summary : Opcode) (x y : BitVec n) : Bool :=
  match summary with
  | .flagsAdd => decide (2 ^ n ≤ x.toNat + y.toNat)
  | .flagsSub => decide (x.toNat < y.toNat)
  | .flagsShl => x.getLsbD (n - y.toNat)
  | _ => false

/-- `OF`: signed overflow; of a shift by one, whether the sign changes. -/
def flagOverflow (summary : Opcode) (x y : BitVec n) : Bool :=
  match summary with
  | .flagsAdd => x.saddOverflow y
  | .flagsSub => x.ssubOverflow y
  | .flagsShl => decide (y.toNat = 1) && ((flagResult summary x y).msb != flagCarry summary x y)
  | _ => false

/-- `AF`: the carry or the borrow out of bit 3. -/
def flagAux (summary : Opcode) (x y : BitVec n) : Bool :=
  match summary with
  | .flagsAdd => decide (2 ^ 4 ≤ x.toNat % 2 ^ 4 + y.toNat % 2 ^ 4)
  | .flagsSub => decide (x.toNat % 2 ^ 4 < y.toNat % 2 ^ 4)
  | _ => false

/-- The flag that an extract reads from a summary. -/
def flagSpec (summary extract : Opcode) (x y : BitVec n) : Bool :=
  match extract with
  | .flagZf => flagResult summary x y == 0
  | .flagSf => (flagResult summary x y).msb
  | .flagPf => evenOnes (flagResult summary x y)
  | .flagCf => flagCarry summary x y
  | .flagOf => flagOverflow summary x y
  | .flagAf => flagAux summary x y
  | _ => false

/-- The flag summaries. -/
def Opcode.isSummary : Opcode → Bool
  | .flagsAdd | .flagsSub | .flagsLogic | .flagsShl => true
  | _ => false

/-- A summary of a shift is defined for amounts between 0 and the width. -/
def summaryDefined (summary : Opcode) (n : Nat) (amount : Nat) : Prop :=
  summary = .flagsShl → 0 < amount ∧ amount < n

end Spec

/-! ### The packed word -/

section Packed

variable {n : Nat}

theorem evenParity8_byte : ∀ b : BitVec 8,
    (0x6996#32 >>> ((b ^^^ (b >>> 4)) &&& 0x0f#8).toNat &&& 1#32 == 0#32) = evenOnes b := by
  decide +kernel

theorem evenParity8_eq (z : BitVec n) :
    evenParity8 (z.setWidth 64) = evenOnes z := by
  have hbyte : ((z.setWidth 64 : Word) &&& 0xff#64).setWidth 8 = z.setWidth 8 := by
    rw [BitVec.setWidth_and, BitVec.setWidth_setWidth_of_le z (by omega : 8 ≤ 64)]
    exact BitVec.and_allOnes
  have hcount : evenOnes (z.setWidth 8) = evenOnes z := by
    unfold evenOnes
    refine congrArg (fun k => k % 2 == 0) (List.countP_congr fun i hi => ?_)
    rw [BitVec.getLsbD_setWidth, decide_eq_true (List.mem_range.mp hi), Bool.true_and]
  unfold evenParity8
  dsimp only
  rw [hbyte, ← hcount]
  exact evenParity8_byte (z.setWidth 8)

theorem mask_add (hn : n ≤ 64) (x y : BitVec n) :
    ((x.setWidth 64 : Word) + y.setWidth 64) &&& maskForBits n = (x + y).setWidth 64 := by
  rw [and_mask_eq hn, BitVec.setWidth_add _ _ hn, setWidth_setWidth hn, setWidth_setWidth hn]

theorem mask_sub (hn : n ≤ 64) (x y : BitVec n) :
    ((x.setWidth 64 : Word) - y.setWidth 64) &&& maskForBits n = (x - y).setWidth 64 := by
  rw [and_mask_eq hn, setWidth_sub hn, setWidth_setWidth hn, setWidth_setWidth hn]

theorem mask_shiftLeft (hn : n ≤ 64) (x : BitVec n) (s : Nat) :
    ((x.setWidth 64 : Word) <<< s) &&& maskForBits n = (x <<< s).setWidth 64 := by
  rw [and_mask_eq hn, setWidth_shiftLeft hn]

/-- The bit of `AF`, tested in the word. -/
theorem xor_and_bit4 (x y z : BitVec n) :
    (((x.setWidth 64 : Word) ^^^ y.setWidth 64 ^^^ z.setWidth 64) &&& 0x10#64 != 0#64) =
      (x ^^^ y ^^^ z).getLsbD 4 := by
  have hbit : (0x10#64 : Word) = BitVec.twoPow 64 4 := by decide
  rw [hbit]
  refine (and_twoPow_ne_zero (by decide) _).trans ?_
  simp only [BitVec.getLsbD_xor, BitVec.getLsbD_setWidth, show (4 < 64) = True by decide,
    decide_true, Bool.true_and]

theorem shiftRight_and_one (hn : n ≤ 64) (x : BitVec n) (s : Nat) :
    (((x.setWidth 64 : Word) >>> s) &&& 1#64 != 0#64) = x.getLsbD s := by
  have hbit : (1#64 : Word) = BitVec.twoPow 64 0 := by decide
  rw [hbit]
  refine (and_twoPow_ne_zero (by decide) _).trans ?_
  rw [BitVec.getLsbD_ushiftRight, BitVec.getLsbD_setWidth, Nat.add_zero]
  by_cases hs : s < 64
  · rw [decide_eq_true hs, Bool.true_and]
  · rw [BitVec.getLsbD_of_ge x s (by omega), Bool.and_false]

/-- **The packed flags are exact.** -/
theorem packedFlags_exact (h8 : 8 ≤ n) (hn : n ≤ 64) {summary extract : Opcode} {flag : Word}
    (hs : summary.isSummary = true) (hf : extract.flagBit = some flag) (x y : BitVec n)
    (hd : summaryDefined summary n y.toNat) :
    (packedFlags summary n (x.setWidth 64) (y.setWidth 64) &&& flag != 0#64) =
      flagSpec summary extract x y := by
  have hy := toNat_setWidth_64 hn y
  have h1 : 1 ≤ n := by omega
  cases summary <;> simp only [Opcode.isSummary, Bool.false_eq_true] at hs <;>
    cases extract <;> simp only [Opcode.flagBit, Option.some.injEq, reduceCtorEq] at hf <;>
    subst hf <;>
    simp (disch := decide) only [packedFlags, execFlags, execLogicFlags, execShiftLeftFlags,
      orFlag_and_self, orFlag_and_other, BitVec.zero_and, ite_flag_ne_zero, if_true, if_false,
      bne_self_eq_false, reduceCtorEq, setWidth_and_mask hn, mask_add hn, mask_sub hn,
      mask_shiftLeft hn, and_signBitForBits h1 hn, hy, setWidth_beq_zero hn, evenParity8_eq,
      xor_and_bit4, shiftRight_and_one hn, flagSpec, flagResult, flagCarry, flagOverflow, flagAux,
      setWidth_lt hn]
  case flagsAdd.flagCf => exact decide_eq_decide.mpr (add_lt_iff x y)
  case flagsAdd.flagOf => exact saddOverflow_iff x y
  case flagsAdd.flagAf => exact carry_of_add x y (by omega)
  case flagsSub.flagCf => exact decide_eq_decide.mpr BitVec.lt_def
  case flagsSub.flagOf => exact ssubOverflow_iff x y
  case flagsSub.flagAf => exact borrow_of_sub x y (by omega)
  case flagsShl.flagOf =>
    have hone : ((y.setWidth 64 : Word) == 1#64) = decide (y.toNat = 1) := by
      rw [Bool.eq_iff_iff, beq_iff_eq, decide_eq_true_eq, ← BitVec.toNat_inj, hy]
      rfl
    rw [hone]

end Packed

/-! ### The two evaluators -/

section Evaluators

variable {n : Nat} {summary : Opcode} {out t : Ty}

theorem flags_out {srcs : List Ty} (hs : summary.isSummary = true)
    (ht : typeRule summary out srcs = true) : out.isFlags = true := by
  have hlen := typeRule_length ht
  cases summary <;> simp only [Opcode.isSummary, Bool.false_eq_true] at hs
  case flagsLogic =>
    obtain ⟨a, rfl⟩ := List.length_eq_one_iff.mp hlen
    simp only [typeRule, Bool.and_eq_true] at ht
    exact ht.2
  all_goals
    obtain ⟨a, b, rfl⟩ := List.length_eq_two.mp hlen
    simp only [typeRule, Bool.and_eq_true] at ht
    exact ht.2

/-- The summary that the executor computes; `flags_logic` has one operand. -/
def execSummary (summary : Opcode) (out : Ty) (l r : ExecValue) : Except Status ExecValue :=
  if summary = .flagsLogic then execUnaryOp .flagsLogic out l else execBinaryOp summary out l r

theorem execSummary_eq (hs : summary.isSummary = true) (ho : out.isFlags = true)
    (ht : t.isInt = true) (hb : t.bits ≤ 64) {l r : Word} (hl : l &&& maskForBits t.bits = l)
    (hr : r &&& maskForBits t.bits = r) :
    execSummary summary out ⟨t, l, 0#64⟩ ⟨t, r, 0#64⟩ =
      if summary = .flagsShl ∧ (r = 0#64 ∨ t.bits ≤ r.toNat) then .error .errUnsupported
      else .ok ⟨out, packedFlags summary t.bits l r, 0#64⟩ := by
  have hscalar : execScalarU64Type t = true := by simp [execScalarU64Type, ht, hb]
  have hmake : ∀ w, execValueMake out w 0#64 = ⟨out, w, 0#64⟩ := fun w => by
    rw [execValueMake, truncateToType_flags ho]
  have hbig : ¬ 64 < t.bits := Nat.not_lt.mpr hb
  cases summary <;> simp only [Opcode.isSummary, Bool.false_eq_true] at hs <;>
    simp only [execSummary, execBinaryOp, execUnaryOp, packedFlags, hscalar, ht, ho, hbig, hl, hr,
      hmake, reduceCtorEq, if_true, if_false, false_and, true_and, decide_false, Bool.not_true,
      Bool.or_self, Bool.false_or, Bool.false_eq_true, Bool.or_eq_true, beq_iff_eq,
      decide_eq_true_eq]

theorem shiftRefused_iff (hn : n ≤ 64) (summary : Opcode) (y : BitVec n) :
    (summary = .flagsShl ∧
      ((y.setWidth 64 : Word) = 0#64 ∨ (typeI n).bits ≤ (y.setWidth 64 : Word).toNat)) ↔
      ¬ summaryDefined summary n y.toNat := by
  unfold summaryDefined
  rw [Classical.not_imp, ← BitVec.toNat_inj, toNat_setWidth_64 hn y]
  refine and_congr_right fun _ => ?_
  show y.toNat = 0 ∨ n ≤ y.toNat ↔ _
  omega

/-- **The executor's flags are exact.** -/
theorem execSummary_exact (h8 : 8 ≤ n) (hn : n ≤ 64) (hs : summary.isSummary = true)
    (ho : out.isFlags = true) (x y : BitVec n) (hd : summaryDefined summary n y.toNat) :
    ∃ s, execSummary summary out (wordValue (typeI n) x) (wordValue (typeI n) y) = .ok s ∧
      ∀ extract flag, extract.flagBit = some flag →
        execUnaryOp extract (typeI 1) s = .ok (boolValue (flagSpec summary extract x y)) := by
  have hrun := execSummary_eq (t := typeI n) hs ho rfl hn (setWidth_and_mask hn x)
    (setWidth_and_mask hn y)
  rw [if_neg (fun h => (shiftRefused_iff hn summary y).mp h hd)] at hrun
  refine ⟨_, hrun, fun extract flag hf => ?_⟩
  rw [execUnaryOp_flagBit hf, ← execValueMake_bool]
  exact congrArg (fun c => Except.ok (execValueMake (typeI 1) (boolU64 c) 0#64))
    (packedFlags_exact h8 hn hs hf x y hd)

/-- A shift by nothing or by the width or more has no flags. -/
theorem execSummary_unsupported (hn : n ≤ 64) (hs : summary.isSummary = true)
    (ho : out.isFlags = true) (x y : BitVec n) (hd : ¬ summaryDefined summary n y.toNat) :
    execSummary summary out (wordValue (typeI n) x) (wordValue (typeI n) y) =
      .error .errUnsupported := by
  have hrun := execSummary_eq (t := typeI n) hs ho rfl hn (setWidth_and_mask hn x)
    (setWidth_and_mask hn y)
  rwa [if_pos ((shiftRefused_iff hn summary y).mpr hd)] at hrun

theorem flagExtractValue_defined {extract : Opcode} {bits : Nat} {l r w : Word}
    (h : flagExtractValue summary extract bits l r = some w) (hr : r &&& maskForBits bits = r) :
    ¬ (summary = .flagsShl ∧ (r = 0#64 ∨ bits ≤ r.toNat)) := by
  intro hc
  unfold flagExtractValue at h
  simp only [hr, if_pos hc] at h
  cases h

/-- **A folded flag is the executor's**, whose summary of the same constants is defined. -/
theorem computeFlagExtract_exact {m : Module} {extract : Opcode} {v : Nat} {w : Word}
    (h : computeFlagExtract m extract v = some w) {f : OpRec} (hf : m.valueOp v = some f)
    (ht : typeRule f.opcode (m.valueType v) (f.src.map m.valueType) = true) :
    ∃ s, execSummary f.opcode (m.valueType v) (m.constValue (f.srcAt 0))
        (m.constValue (f.srcAt 1)) = .ok s ∧
      execUnaryOp extract (typeI 1) s = .ok ⟨typeI 1, w, 0#64⟩ := by
  obtain ⟨f', l, r, hf', hl, hcases, hint, hw⟩ := computeFlagExtract_some h
  obtain rfl : f' = f := Option.some.inj (hf'.symm.trans hf)
  have hs : f'.opcode.isSummary = true := by
    rcases hcases with ⟨hc, -⟩ | ⟨hc | hc | hc, -⟩ <;> rw [hc] <;> rfl
  have hout := flags_out hs ht
  have hmask := summary_mask hcases ht
  -- the constants are read as the operands of one type
  have hrun : execSummary f'.opcode (m.valueType v) (m.constValue (f'.srcAt 0))
      (m.constValue (f'.srcAt 1)) = execSummary f'.opcode (m.valueType v)
        ⟨m.valueType (f'.srcAt 0), l, 0#64⟩ ⟨m.valueType (f'.srcAt 0), r, 0#64⟩ := by
    rw [hl.value]
    rcases hcases with ⟨hc, -⟩ | ⟨hc, hr⟩
    · rw [hc]
      rfl
    · rw [hr.value, flags_operands hc ht]
  rw [execSummary_eq hs hout hint hl.bits_le hl.masked hmask,
    if_neg (flagExtractValue_defined hw hmask)] at hrun
  refine ⟨_, hrun, ?_⟩
  obtain ⟨flag, hflag, rfl⟩ := flagExtractValue_eq hmask (by
    rcases hcases with ⟨hc, -⟩ | ⟨hc | hc | hc, -⟩ <;> simp [hc]) hw
  rw [execUnaryOp_flagBit hflag]
  exact congrArg Except.ok (execValueMake_bool _)

/-- **A folded flag is exact.** -/
theorem computeFlagExtract_spec {m : Module} {extract : Opcode} {v : Nat} {w : Word}
    (h : computeFlagExtract m extract v = some w) {f : OpRec} (hf : m.valueOp v = some f)
    (ht : typeRule f.opcode (m.valueType v) (f.src.map m.valueType) = true)
    (h8 : 8 ≤ (m.valueType (f.srcAt 0)).bits) :
    w = boolU64 (flagSpec f.opcode extract
      ((m.constValue (f.srcAt 0)).lo.setWidth (m.valueType (f.srcAt 0)).bits)
      ((m.constValue (f.srcAt 1)).lo.setWidth (m.valueType (f.srcAt 0)).bits)) := by
  obtain ⟨f', l, r, hf', hl, hcases, -, hw⟩ := computeFlagExtract_some h
  obtain rfl : f' = f := Option.some.inj (hf'.symm.trans hf)
  have hs : f'.opcode.isSummary = true := by
    rcases hcases with ⟨hc, -⟩ | ⟨hc | hc | hc, -⟩ <;> rw [hc] <;> rfl
  have hmask := summary_mask hcases ht
  have hdef := flagExtractValue_defined hw hmask
  obtain ⟨flag, hflag, rfl⟩ := flagExtractValue_eq hmask (by
    rcases hcases with ⟨hc, -⟩ | ⟨hc | hc | hc, -⟩ <;> simp [hc]) hw
  have hl' := and_mask_eq hl.bits_le l
  have hr' := and_mask_eq hl.bits_le r
  rw [hl.masked] at hl'
  rw [hmask] at hr'
  have hrn := toNat_setWidth_64 hl.bits_le (r.setWidth (m.valueType (f'.srcAt 0)).bits)
  rw [← hr'] at hrn
  have hd : summaryDefined f'.opcode (m.valueType (f'.srcAt 0)).bits
      (r.setWidth (m.valueType (f'.srcAt 0)).bits).toNat := by
    intro hshl
    rw [← hrn]
    have hne : r ≠ 0#64 := fun h0 => hdef ⟨hshl, .inl h0⟩
    have hlt : ¬ (m.valueType (f'.srcAt 0)).bits ≤ r.toNat := fun hle => hdef ⟨hshl, .inr hle⟩
    rw [ne_eq, ← BitVec.toNat_inj] at hne
    exact ⟨Nat.pos_of_ne_zero hne, Nat.not_le.mp hlt⟩
  have hexact := packedFlags_exact h8 hl.bits_le hs hflag
    (l.setWidth (m.valueType (f'.srcAt 0)).bits) (r.setWidth (m.valueType (f'.srcAt 0)).bits) hd
  rw [← hl', ← hr'] at hexact
  rw [hexact, hl.value]
  rcases hcases with ⟨hc, -⟩ | ⟨hc, hr⟩
  · -- the flags of a logical result have one operand
    rw [hc]
    cases extract <;> rfl
  · rw [hr.value]

end Evaluators

/-- **Flags are exact**: the executor's are the arithmetic ones, a summary without flags is
refused, and what folding computes is the executor's. -/
theorem flags_exact :
    (∀ (n : Nat), 8 ≤ n → n ≤ 64 → ∀ (summary : Opcode) (out : Ty) (x y : BitVec n),
      summary.isSummary = true → out.isFlags = true →
      (summaryDefined summary n y.toNat →
        ∃ s, execSummary summary out (wordValue (typeI n) x) (wordValue (typeI n) y) = .ok s ∧
          ∀ extract flag, extract.flagBit = some flag →
            execUnaryOp extract (typeI 1) s = .ok (boolValue (flagSpec summary extract x y))) ∧
      (¬ summaryDefined summary n y.toNat →
        execSummary summary out (wordValue (typeI n) x) (wordValue (typeI n) y) =
          .error .errUnsupported)) ∧
    ∀ (m : Module) (extract : Opcode) (v : Nat) (f : OpRec), m.valueOp v = some f →
      typeRule f.opcode (m.valueType v) (f.src.map m.valueType) = true →
      (∀ w, computeFlagExtract m extract v = some w →
        (∃ s, execSummary f.opcode (m.valueType v) (m.constValue (f.srcAt 0))
            (m.constValue (f.srcAt 1)) = .ok s ∧
          execUnaryOp extract (typeI 1) s = .ok ⟨typeI 1, w, 0#64⟩) ∧
        (8 ≤ (m.valueType (f.srcAt 0)).bits → w = boolU64 (flagSpec f.opcode extract
          ((m.constValue (f.srcAt 0)).lo.setWidth (m.valueType (f.srcAt 0)).bits)
          ((m.constValue (f.srcAt 1)).lo.setWidth (m.valueType (f.srcAt 0)).bits)))) ∧
      (execSummary f.opcode (m.valueType v) (m.constValue (f.srcAt 0))
          (m.constValue (f.srcAt 1)) = .error .errUnsupported →
        computeFlagExtract m extract v = none) := by
  refine ⟨fun n h8 hn summary out x y hs ho => ⟨execSummary_exact h8 hn hs ho x y,
    execSummary_unsupported hn hs ho x y⟩, fun m extract v f hf ht => ⟨fun w h =>
    ⟨computeFlagExtract_exact h hf ht, computeFlagExtract_spec h hf ht⟩, fun herr => ?_⟩⟩
  cases hw : computeFlagExtract m extract v with
  | none => rfl
  | some w =>
    obtain ⟨s, hs, -⟩ := computeFlagExtract_exact hw hf ht
    rw [herr] at hs
    cases hs

end Xair
