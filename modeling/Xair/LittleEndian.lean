import Mathlib.Data.BitVec
import Mathlib.Tactic.Common

/-!
# Little-endian words

A word is assembled from its bytes, the lowest first, and taken apart into them.
Taking apart and assembling again is the identity (`le32_bytes`, `le64_halves`).
-/

namespace LittleEndian

/-- Four bytes, the lowest first. -/
def le32 (p0 p1 p2 p3 : BitVec 8) : BitVec 32 :=
  p0.setWidth 32 ||| p1.setWidth 32 <<< 8 ||| p2.setWidth 32 <<< 16 ||| p3.setWidth 32 <<< 24

/-- Two bytes, the lowest first. -/
def le16 (p0 p1 : BitVec 8) : BitVec 16 := p0.setWidth 16 ||| p1.setWidth 16 <<< 8

/-- Two words of four bytes, the lower first. -/
def le64 (lo hi : BitVec 32) : BitVec 64 := lo.setWidth 64 ||| hi.setWidth 64 <<< 32

/-- Byte `i` of a word. -/
def byteAt {w : Nat} (d : BitVec w) (i : Nat) : BitVec 8 := d.extractLsb' (8 * i) 8

/-- The bytes of a word of four bytes. -/
def bytes32 (d : BitVec 32) : List (BitVec 8) := [byteAt d 0, byteAt d 1, byteAt d 2, byteAt d 3]

/-- The lower and the upper half of a word of eight bytes. -/
def low32 (d : BitVec 64) : BitVec 32 := d.extractLsb' 0 32
def high32 (d : BitVec 64) : BitVec 32 := d.extractLsb' 32 32

/-- The bytes of a word of eight bytes. -/
def bytes64 (d : BitVec 64) : List (BitVec 8) := bytes32 (low32 d) ++ bytes32 (high32 d)

@[simp] theorem length_bytes32 (d : BitVec 32) : (bytes32 d).length = 4 := rfl

@[simp] theorem length_bytes64 (d : BitVec 64) : (bytes64 d).length = 8 := rfl

theorem le32_bytes (d : BitVec 32) :
    le32 (byteAt d 0) (byteAt d 1) (byteAt d 2) (byteAt d 3) = d := by
  apply BitVec.eq_of_getLsbD_eq
  intro i hi
  simp only [le32, byteAt, BitVec.getLsbD_or, BitVec.getLsbD_shiftLeft, BitVec.getLsbD_setWidth,
    BitVec.getLsbD_extractLsb', hi, decide_true, Bool.true_and]
  by_cases h1 : i < 8
  · simp [h1, show i < 16 by omega, show i < 24 by omega]
  by_cases h2 : i < 16
  · simp [h1, h2, show i < 24 by omega, show i - 8 < 8 by omega, show i - 8 < 32 by omega,
      show 8 + (i - 8) = i by omega]
  by_cases h3 : i < 24
  · simp [h1, h2, h3, show ¬ i - 8 < 8 by omega, show i - 16 < 8 by omega,
      show i - 16 < 32 by omega, show 16 + (i - 16) = i by omega]
  · simp [h1, h2, h3, show ¬ i - 8 < 8 by omega, show ¬ i - 16 < 8 by omega,
      show i - 24 < 8 by omega, show i - 24 < 32 by omega, show 24 + (i - 24) = i by omega]

theorem le64_halves (d : BitVec 64) : le64 (low32 d) (high32 d) = d := by
  apply BitVec.eq_of_getLsbD_eq
  intro i hi
  simp only [le64, low32, high32, BitVec.getLsbD_or, BitVec.getLsbD_shiftLeft,
    BitVec.getLsbD_setWidth, BitVec.getLsbD_extractLsb', hi, decide_true, Bool.true_and]
  by_cases h1 : i < 32
  · simp [h1]
  · simp [h1, show i - 32 < 32 by omega, show i - 32 < 64 by omega, show 32 + (i - 32) = i by omega]

/-! ### Assembling and taking apart -/

theorem byteAt_le32 (p0 p1 p2 p3 : BitVec 8) :
    byteAt (le32 p0 p1 p2 p3) 0 = p0 ∧ byteAt (le32 p0 p1 p2 p3) 1 = p1 ∧
      byteAt (le32 p0 p1 p2 p3) 2 = p2 ∧ byteAt (le32 p0 p1 p2 p3) 3 = p3 := by
  have out : ∀ (p : BitVec 8) {j : Nat}, 8 ≤ j → p.getLsbD j = false :=
    fun p {j} h => p.getLsbD_of_ge j h
  refine ⟨?_, ?_, ?_, ?_⟩ <;> apply BitVec.eq_of_getLsbD_eq <;> intro i hi
  · simp [byteAt, le32, hi, show i < 16 by omega, show i < 24 by omega, show i < 32 by omega]
  · simp [byteAt, le32, hi, show 8 + i < 16 by omega, show 8 + i < 24 by omega,
      show 8 + i < 32 by omega]
  · simp [byteAt, le32, hi, show 16 + i < 24 by omega, show 16 + i < 32 by omega,
      out p0 (show 8 ≤ 16 + i by omega), out p1 (show 8 ≤ 16 + i - 8 by omega)]
  · simp [byteAt, le32, hi, show 24 + i < 32 by omega, out p0 (show 8 ≤ 24 + i by omega),
      out p1 (show 8 ≤ 24 + i - 8 by omega), out p2 (show 8 ≤ 24 + i - 16 by omega)]

theorem bytes32_le32 (p0 p1 p2 p3 : BitVec 8) : bytes32 (le32 p0 p1 p2 p3) = [p0, p1, p2, p3] := by
  obtain ⟨h0, h1, h2, h3⟩ := byteAt_le32 p0 p1 p2 p3
  rw [bytes32, h0, h1, h2, h3]

theorem low32_le64 (lo hi : BitVec 32) : low32 (le64 lo hi) = lo := by
  apply BitVec.eq_of_getLsbD_eq
  intro i h
  simp [low32, le64, h, show i < 64 by omega]

theorem high32_le64 (lo hi : BitVec 32) : high32 (le64 lo hi) = hi := by
  apply BitVec.eq_of_getLsbD_eq
  intro i h
  simp [high32, le64, h, show 32 + i < 64 by omega]

/-! ### As numbers -/

/-- The number whose digits to the base 256 are the bytes, the lowest first. -/
def leNat : List (BitVec 8) → Nat
  | [] => 0
  | b :: bs => b.toNat + 256 * leNat bs

/-- A number with a second one above its bits. -/
theorem toNat_or_shiftLeft {w k : Nat} (a b : BitVec w) (ha : a.toNat < 2 ^ k)
    (hb : b.toNat * 2 ^ k < 2 ^ w) : (a ||| b <<< k).toNat = a.toNat + 2 ^ k * b.toNat := by
  rw [BitVec.toNat_or, BitVec.toNat_shiftLeft, Nat.shiftLeft_eq, Nat.mod_eq_of_lt hb, Nat.or_comm,
    Nat.mul_comm b.toNat, ← Nat.two_pow_add_eq_or_of_lt ha, Nat.add_comm]

theorem toNat_le16 (p0 p1 : BitVec 8) : (le16 p0 p1).toNat = leNat [p0, p1] := by
  have h0 := p0.isLt
  have h1 := p1.isLt
  have e0 : (p0.setWidth 16).toNat = p0.toNat := by
    rw [BitVec.toNat_setWidth, Nat.mod_eq_of_lt (by omega)]
  have e1 : (p1.setWidth 16).toNat = p1.toNat := by
    rw [BitVec.toNat_setWidth, Nat.mod_eq_of_lt (by omega)]
  rw [le16, toNat_or_shiftLeft _ _ (by omega) (by omega), e0, e1]
  simp only [leNat]
  omega

theorem toNat_le32 (p0 p1 p2 p3 : BitVec 8) :
    (le32 p0 p1 p2 p3).toNat = leNat [p0, p1, p2, p3] := by
  have h0 := p0.isLt
  have h1 := p1.isLt
  have h2 := p2.isLt
  have h3 := p3.isLt
  have e : ∀ p : BitVec 8, (p.setWidth 32).toNat = p.toNat := by
    intro p
    have := p.isLt
    rw [BitVec.toNat_setWidth, Nat.mod_eq_of_lt (by omega)]
  have s1 := toNat_or_shiftLeft (k := 8) (p0.setWidth 32) (p1.setWidth 32)
    (by rw [e]; omega) (by rw [e]; omega)
  rw [e, e] at s1
  have s2 := toNat_or_shiftLeft (k := 16) (p0.setWidth 32 ||| p1.setWidth 32 <<< 8) (p2.setWidth 32)
    (by rw [s1]; omega) (by rw [e]; omega)
  rw [s1, e] at s2
  have s3 := toNat_or_shiftLeft (k := 24)
    (p0.setWidth 32 ||| p1.setWidth 32 <<< 8 ||| p2.setWidth 32 <<< 16) (p3.setWidth 32)
    (by rw [s2]; omega) (by rw [e]; omega)
  rw [s2, e] at s3
  rw [le32, s3]
  simp only [leNat]
  omega

theorem toNat_le64 (lo hi : BitVec 32) : (le64 lo hi).toNat = lo.toNat + 2 ^ 32 * hi.toNat := by
  have h0 := lo.isLt
  have h1 := hi.isLt
  have e : ∀ p : BitVec 32, (p.setWidth 64).toNat = p.toNat := by
    intro p
    have := p.isLt
    rw [BitVec.toNat_setWidth, Nat.mod_eq_of_lt (by omega)]
  rw [le64, toNat_or_shiftLeft _ _ (by rw [e]; omega) (by rw [e]; omega), e, e]

/-! ### Byte by byte -/

theorem getLsbD_byteAt {w : Nat} (d : BitVec w) (k : Nat) {j : Nat} (hj : j < 8) :
    (byteAt d k).getLsbD j = d.getLsbD (8 * k + j) := by
  rw [byteAt, BitVec.getLsbD_extractLsb', decide_eq_true hj, Bool.true_and]

/-- A word is told by its bytes. -/
theorem eq_of_byteAt {n : Nat} {d e : BitVec (8 * n)} (h : ∀ k < n, byteAt d k = byteAt e k) :
    d = e := by
  apply BitVec.eq_of_getLsbD_eq
  intro i hi
  have hk := congrArg (fun b : BitVec 8 => b.getLsbD (i % 8)) (h (i / 8) (by omega))
  simp only [getLsbD_byteAt _ _ (Nat.mod_lt i (by omega)), Nat.div_add_mod] at hk
  exact hk

/-- A byte shifted into a word is the byte at that place. -/
theorem byteAt_or_shiftLeft {n : Nat} (d : BitVec (8 * n)) (b : BitVec 8) (s : Nat) {k : Nat}
    (hk : k < n) :
    byteAt (d ||| b.setWidth (8 * n) <<< (s * 8)) k = byteAt d k ||| if k = s then b else 0#8 := by
  apply BitVec.eq_of_getLsbD_eq
  intro j hj
  rw [getLsbD_byteAt _ _ hj, BitVec.getLsbD_or, BitVec.getLsbD_or, getLsbD_byteAt _ _ hj,
    BitVec.getLsbD_shiftLeft, BitVec.getLsbD_setWidth]
  congr 1
  by_cases hks : k = s
  · have hsub : 8 * k + j - s * 8 = j := by omega
    rw [if_pos hks, hsub, decide_eq_true (by omega), decide_eq_false (by omega),
      decide_eq_true (by omega)]
    rfl
  · rw [if_neg hks, BitVec.getLsbD_zero]
    by_cases hlow : 8 * k + j < s * 8
    · rw [decide_eq_true hlow, Bool.not_true, Bool.and_false, Bool.false_and]
    · rw [BitVec.getLsbD_of_ge b _ (by omega), Bool.and_false, Bool.and_false]

/-- The digits of the number are the bytes. -/
theorem testBit_leNat (bytes : List (BitVec 8)) (j : Nat) :
    (leNat bytes).testBit j = (bytes[j / 8]?.getD 0#8).getLsbD (j % 8) := by
  induction bytes generalizing j with
  | nil => rw [leNat, Nat.zero_testBit, List.getElem?_nil, Option.getD_none, BitVec.getLsbD_zero]
  | cons b bs ih =>
    have hadd : leNat (b :: bs) = 2 ^ 8 * leNat bs + b.toNat := Nat.add_comm _ _
    rw [hadd, Nat.testBit_two_pow_mul_add _ b.isLt]
    by_cases hj : j < 8
    · rw [if_pos hj, Nat.div_eq_of_lt hj, Nat.mod_eq_of_lt hj, List.getElem?_cons_zero,
        Option.getD_some]
      rfl
    · have hdiv : j / 8 = (j - 8) / 8 + 1 := by omega
      have hmod : (j - 8) % 8 = j % 8 := by omega
      rw [if_neg hj, ih, hdiv, hmod, List.getElem?_cons_succ]

theorem byteAt_ofNat_leNat {n k : Nat} (bytes : List (BitVec 8)) (hk : k < n) :
    byteAt (BitVec.ofNat (8 * n) (leNat bytes)) k = bytes[k]?.getD 0#8 := by
  apply BitVec.eq_of_getLsbD_eq
  intro j hj
  have hdiv : (8 * k + j) / 8 = k := by omega
  have hmod : (8 * k + j) % 8 = j := by omega
  rw [getLsbD_byteAt _ _ hj, BitVec.getLsbD_ofNat, testBit_leNat, hdiv, hmod,
    decide_eq_true (by omega), Bool.true_and]

/-- Assembling the bytes of a word again. -/
theorem ofNat_leNat_byteAt {n : Nat} (d : BitVec (8 * n)) :
    BitVec.ofNat (8 * n) (leNat ((List.range n).map (byteAt d))) = d := by
  apply eq_of_byteAt
  intro k hk
  rw [byteAt_ofNat_leNat _ hk, List.getElem?_map, List.getElem?_range hk, Option.map_some,
    Option.getD_some]

/-- The bytes of a field of the number that a word stands for. -/
theorem byteAt_ofNat_field {n : Nat} (d : BitVec (8 * n)) (k m : Nat) {j : Nat} (hj : j < n) :
    byteAt (BitVec.ofNat (8 * n) (d.toNat / 2 ^ (8 * k) % 2 ^ (8 * m))) j =
      if j < m then byteAt d (k + j) else 0#8 := by
  apply BitVec.eq_of_getLsbD_eq
  intro i hi
  rw [getLsbD_byteAt _ _ hi, BitVec.getLsbD_ofNat, Nat.testBit_mod_two_pow, Nat.testBit_div_two_pow,
    decide_eq_true (by omega), Bool.true_and]
  by_cases hm : j < m
  · have hadd : 8 * j + i + 8 * k = 8 * (k + j) + i := by omega
    rw [if_pos hm, getLsbD_byteAt _ _ hi, decide_eq_true (by omega), Bool.true_and, hadd]
    rfl
  · rw [if_neg hm, decide_eq_false (by omega), Bool.false_and, BitVec.getLsbD_zero]

end LittleEndian
