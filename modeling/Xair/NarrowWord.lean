import Mathlib.Data.BitVec

/-!
# Narrow words in wide registers

A word of `n` bits that is kept in a register of `w ≥ n` bits: how the operations of the
register act on the word.  The signed operations are composed of unsigned ones and of
tests of the sign bit, as programs without narrow types compose them, and the carries
and overflows are read from wrapped results.
-/

namespace NarrowWord

variable {n k v w : Nat}

/-! ### Shifts, extensions and concatenation -/

theorem setWidth_setWidth (hn : n ≤ w) (x : BitVec n) : (x.setWidth w).setWidth n = x := by
  rw [BitVec.setWidth_setWidth_of_le _ hn, BitVec.setWidth_eq]

theorem setWidth_shiftLeft (hn : n ≤ w) (x : BitVec n) (s : Nat) :
    (x.setWidth w <<< s).setWidth n = x <<< s := by
  ext i hi
  have hw : i < w := by omega
  simp only [BitVec.getElem_setWidth, BitVec.getLsbD_shiftLeft, BitVec.getElem_shiftLeft,
    BitVec.getLsbD_setWidth, hw, decide_true, Bool.true_and]
  by_cases hs : i < s
  · simp [hs]
  · have h : i - s < w ∧ i - s < n := by omega
    simp [hs, h]

theorem setWidth_ushiftRight (hn : n ≤ w) (x : BitVec n) (s : Nat) :
    (x.setWidth w >>> s).setWidth n = x >>> s := by
  ext i hi
  simp only [BitVec.getElem_setWidth, BitVec.getLsbD_ushiftRight, BitVec.getElem_ushiftRight,
    BitVec.getLsbD_setWidth]
  by_cases hs : s + i < n
  · simp [show s + i < w by omega]
  · rw [BitVec.getLsbD_of_ge x _ (by omega), Bool.and_false]

/-- The sign is shifted in by ones above the shifted word. -/
theorem setWidth_sshiftRight (hn : n ≤ w) (x : BitVec n) {s : Nat} (hs : s ≤ n)
    (hx : x.msb = true) :
    (x.setWidth w >>> s ||| (BitVec.allOnes n).setWidth w <<< (n - s)).setWidth n =
      x.sshiftRight s := by
  ext i hi
  rw [BitVec.setWidth_or, setWidth_ushiftRight hn, setWidth_shiftLeft hn, BitVec.getElem_or,
    BitVec.getElem_ushiftRight, BitVec.getElem_shiftLeft, BitVec.getElem_sshiftRight, hx]
  by_cases h : s + i < n
  · simp [h, show i < n - s by omega]
  · rw [BitVec.getLsbD_of_ge x _ (by omega)]
    simp [h, show ¬ i < n - s by omega]

/-- The sign is extended by ones above the word. -/
theorem setWidth_signExtend (hv : v ≤ w) (x : BitVec n) (hx : x.msb = true) :
    (x.setWidth w ||| ~~~(BitVec.allOnes n).setWidth w).setWidth v = x.signExtend v := by
  ext i hi
  have hw : i < w := by omega
  simp only [BitVec.getElem_setWidth, BitVec.getLsbD_or, BitVec.getLsbD_not,
    BitVec.getLsbD_setWidth, BitVec.getLsbD_allOnes, BitVec.getElem_signExtend, hx, hw,
    decide_true, Bool.true_and]
  by_cases h : i < n <;> simp [h]

theorem setWidth_append (h : n + k ≤ w) (x : BitVec n) (y : BitVec k) :
    (x.setWidth w <<< k ||| y.setWidth w).setWidth (n + k) = x ++ y := by
  ext i hi
  have hw : i < w := by omega
  simp only [BitVec.getElem_setWidth, BitVec.getLsbD_or, BitVec.getLsbD_shiftLeft,
    BitVec.getLsbD_setWidth, BitVec.getElem_append, hw, decide_true, Bool.true_and]
  by_cases hk : i < k
  · simp [hk]
  · rw [BitVec.getLsbD_of_ge y _ (by omega)]
    simp [hk, show i - k < w by omega, BitVec.getLsbD_eq_getElem (show i - k < n by omega)]

/-! ### Comparison -/

theorem setWidth_lt (hn : n ≤ w) (x y : BitVec n) : x.setWidth w < y.setWidth w ↔ x < y := by
  rw [BitVec.lt_def, BitVec.lt_def, BitVec.toNat_setWidth_of_le hn, BitVec.toNat_setWidth_of_le hn]

theorem setWidth_le (hn : n ≤ w) (x y : BitVec n) : x.setWidth w ≤ y.setWidth w ↔ x ≤ y := by
  rw [BitVec.le_def, BitVec.le_def, BitVec.toNat_setWidth_of_le hn, BitVec.toNat_setWidth_of_le hn]

theorem setWidth_beq (hn : n ≤ w) (x y : BitVec n) : (x.setWidth w == y.setWidth w) = (x == y) := by
  rw [Bool.eq_iff_iff, beq_iff_eq, beq_iff_eq]
  refine ⟨fun h => ?_, fun h => by rw [h]⟩
  rw [← setWidth_setWidth hn x, h, setWidth_setWidth hn y]

theorem and_twoPow_ne_zero {i : Nat} (hi : i < w) (x : BitVec w) :
    (x &&& BitVec.twoPow w i != 0) = x.getLsbD i := by
  rw [BitVec.and_twoPow]
  cases x.getLsbD i with
  | false => simp
  | true =>
    have hne : BitVec.twoPow w i ≠ 0 := fun h => by
      have hb := congrArg (fun z : BitVec w => z.getLsbD i) h
      simp [hi] at hb
    simpa using hne

theorem and_signBit (h1 : 1 ≤ n) (hn : n ≤ w) (x : BitVec n) :
    (x.setWidth w &&& BitVec.twoPow w (n - 1) != 0) = x.msb := by
  rw [and_twoPow_ne_zero (by omega), BitVec.getLsbD_setWidth, BitVec.msb_eq_getLsbD_last]
  simp [show n - 1 < w by omega]

theorem slt_eq (x y : BitVec n) :
    x.slt y = if (x.msb != y.msb) = true then x.msb else decide (x < y) := by
  by_cases h : x.msb = y.msb
  · rw [BitVec.slt_eq_ult_of_msb_eq h, h, bne_self_eq_false]
    rfl
  · rw [BitVec.slt_eq_not_ult_of_msb_neq h, BitVec.ult_eq_msb_of_msb_neq h]
    cases hx : x.msb <;> cases hy : y.msb <;> simp_all

/-! ### Carries and overflows -/

/-- A sum has wrapped when it is below a summand. -/
theorem add_lt_iff (x y : BitVec n) : x + y < x ↔ 2 ^ n ≤ x.toNat + y.toNat := by
  have hx := x.isLt
  have hy := y.isLt
  rw [BitVec.lt_def, BitVec.toNat_add]
  by_cases h : x.toNat + y.toNat < 2 ^ n
  · rw [Nat.mod_eq_of_lt h]
    omega
  · rw [Nat.mod_eq_sub_mod (by omega), Nat.mod_eq_of_lt (by omega)]
    omega

/-- The bits that a sum does not explain are its carries. -/
theorem carry_of_add (x y : BitVec n) {i : Nat} (hi : i < n) :
    (x ^^^ y ^^^ (x + y)).getLsbD i = decide (2 ^ i ≤ x.toNat % 2 ^ i + y.toNat % 2 ^ i) := by
  have hcarry : BitVec.carry i x y false = decide (2 ^ i ≤ x.toNat % 2 ^ i + y.toNat % 2 ^ i) := rfl
  rw [BitVec.getLsbD_xor, BitVec.getLsbD_xor, BitVec.getLsbD_add hi, hcarry]
  cases x.getLsbD i <;> cases y.getLsbD i <;> simp

/-- The bits that a difference does not explain are its borrows. -/
theorem borrow_of_sub (x y : BitVec n) {i : Nat} (hi : i < n) :
    (x ^^^ y ^^^ (x - y)).getLsbD i = decide (x.toNat % 2 ^ i < y.toNat % 2 ^ i) := by
  -- `x` is the sum of the difference and `y`, with the same carries
  have hadd := carry_of_add (x - y) y hi
  rw [BitVec.sub_add_cancel, BitVec.xor_comm (x - y ^^^ y), BitVec.xor_comm (x - y),
    ← BitVec.xor_assoc] at hadd
  rw [hadd, decide_eq_decide]
  have hpow : 2 ^ i ∣ 2 ^ n := Nat.pow_dvd_pow 2 (by omega)
  have hx : x.toNat % 2 ^ i = ((x - y).toNat % 2 ^ i + y.toNat % 2 ^ i) % 2 ^ i := by
    rw [← Nat.add_mod, ← Nat.mod_mod_of_dvd ((x - y).toNat + y.toNat) hpow, ← BitVec.toNat_add,
      BitVec.sub_add_cancel]
  have hy := Nat.mod_lt y.toNat (Nat.two_pow_pos i)
  have hd := Nat.mod_lt (x - y).toNat (Nat.two_pow_pos i)
  generalize (x - y).toNat % 2 ^ i = d at hx hd ⊢
  generalize y.toNat % 2 ^ i = b at hx hy ⊢
  rw [hx]
  by_cases h : d + b < 2 ^ i
  · rw [Nat.mod_eq_of_lt h]
    omega
  · rw [Nat.mod_eq_sub_mod (by omega), Nat.mod_eq_of_lt (by omega)]
    omega

/-- A signed sum overflows when its sign is not the common sign of the summands. -/
theorem saddOverflow_iff (x y : BitVec n) :
    ((x.msb == y.msb) && ((x + y).msb != x.msb)) = BitVec.saddOverflow x y :=
  (BitVec.saddOverflow_eq x y).symm

/-- A signed difference overflows when the signs differ and its sign is not the first one. -/
theorem ssubOverflow_iff (x y : BitVec n) :
    ((x.msb != y.msb) && ((x - y).msb != x.msb)) = BitVec.ssubOverflow x y := by
  rw [BitVec.ssubOverflow_eq]
  cases x.msb <;> cases y.msb <;> cases (x - y).msb <;> rfl

end NarrowWord
