import Mathlib.Data.List.DropRight
import Mathlib.Tactic.IntervalCases

/-!
# Text in C programs

Lines as `fgets` reads them, white space of the "C" locale, fields around a separator, and numbers
as `strtoull` reads them with base 0.  What is written in base 16 is read back
(`strtoull_hexNumber`); a line is read whole when it fits into the buffer (`fgetsLines_cases`).
-/

namespace CText

/-- Characters without the NUL. -/
abbrev Text := List UInt8

/-- `isspace` in the "C" locale. -/
def isSpace (c : UInt8) : Bool := c == 32 || decide (9 ≤ c ∧ c ≤ 13)

/-- The text without white space around it. -/
def strip (text : Text) : Text := (text.dropWhile isSpace).rdropWhile isSpace

/-- The text up to the first `c` and the text after it (`strchr`). -/
def splitAt (c : UInt8) : Text → Option (Text × Text)
  | [] => none
  | x :: xs => if x = c then some ([], xs) else (splitAt c xs).map fun p => (x :: p.1, p.2)

/-! ### Lines -/

/-- The lines that `fgets` reads with room for `room` characters in the current one: a line ends
after a newline, or when there is no more room in a buffer of `size` characters and a NUL. -/
def fgetsFrom (size room : Nat) (line : Text) : Text → List Text
  | [] => if line = [] then [] else [line]
  | c :: cs =>
    if c = 10 ∨ room ≤ 1 then (line ++ [c]) :: fgetsFrom size (size - 1) [] cs
    else fgetsFrom size (room - 1) (line ++ [c]) cs

/-- The lines of a file as `fgets` reads them one after the other. -/
def fgetsLines (size : Nat) (text : Text) : List Text := fgetsFrom size (size - 1) [] text

/-- The C string at the start of a buffer: what stands before the first NUL. -/
def cString (line : Text) : Text := line.takeWhile (· != 0)

/-- A letter, a digit, an underscore or a full stop. -/
def isWordChar (c : UInt8) : Bool :=
  decide (48 ≤ c ∧ c ≤ 57) || decide (65 ≤ c ∧ c ≤ 90) || decide (97 ≤ c ∧ c ≤ 122) || c == 95 ||
    c == 46

/-! ### Numbers -/

/-- The value of a digit or a letter. -/
def digitValue (c : UInt8) : Option Nat :=
  if 48 ≤ c ∧ c ≤ 57 then some (c.toNat - 48)
  else if 97 ≤ c ∧ c ≤ 122 then some (c.toNat - 87)
  else if 65 ≤ c ∧ c ≤ 90 then some (c.toNat - 55)
  else none

/-- Whether the character is a digit of the base. -/
def isDigitOf (base : Nat) (c : UInt8) : Bool := (digitValue c).any (· < base)

/-- The value of the digits in front, after those of `value`, and the text after them. -/
def readDigits (base value : Nat) : Text → Nat × Text
  | [] => (value, [])
  | c :: cs =>
    if isDigitOf base c then readDigits base (value * base + (digitValue c).getD 0) cs
    else (value, c :: cs)

/-- An optional sign; whether it is a minus. -/
def splitSign : Text → Bool × Text
  | [] => (false, [])
  | c :: cs => if c = 45 then (true, cs) else if c = 43 then (false, cs) else (false, c :: cs)

/-- The base that base 0 stands for, and the digits: `0x` before a hexadecimal digit is 16, any
other `0` is 8. -/
def splitBase (text : Text) : Nat × Text :=
  if text.head? = some 48 then
    if (text[1]? = some 120 ∨ text[1]? = some 88) ∧ text[2]?.any (isDigitOf 16) then
      (16, text.drop 2)
    else (8, text)
  else (10, text)

/-- `strtoull` with base 0: the number, or `none` when it is out of range, and the text after it.
There is no result when the text does not start with a number. -/
def strtoull (text : Text) : Option (Option Nat × Text) :=
  let (negative, text) := splitSign (text.dropWhile isSpace)
  let (base, text) := splitBase text
  if text.head?.any (isDigitOf base) then
    let (value, rest) := readDigits base 0 text
    let signed := if negative then (2 ^ 64 - value) % 2 ^ 64 else value
    some (if 2 ^ 64 ≤ value then none else some signed, rest)
  else none

/-! ### Lines that fit -/

section Lines

variable {size room : Nat} {line acc rest : Text}

/-- A line with room for it and its newline. -/
theorem fgetsFrom_line (hnl : (10 : UInt8) ∉ line) (hroom : line.length < room) (acc : Text) :
    fgetsFrom size room acc (line ++ 10 :: rest) =
      (acc ++ line ++ [10]) :: fgetsFrom size (size - 1) [] rest := by
  induction line generalizing room acc with
  | nil => rw [List.nil_append, fgetsFrom, if_pos (.inl rfl), List.append_nil]
  | cons c line ih =>
    rw [List.mem_cons, not_or] at hnl
    rw [List.length_cons] at hroom
    rw [List.cons_append, fgetsFrom, if_neg, ih hnl.2 (by omega)]
    · simp
    · rintro (rfl | hle)
      · exact hnl.1 rfl
      · omega

/-- A line that fills the buffer is cut. -/
theorem fgetsFrom_full (hnl : (10 : UInt8) ∉ line) (hroom : line.length = room) (hpos : 0 < room)
    (acc : Text) : fgetsFrom size room acc (line ++ rest) =
      (acc ++ line) :: fgetsFrom size (size - 1) [] rest := by
  induction line generalizing room acc with
  | nil => exact absurd hroom (Nat.ne_of_lt hpos)
  | cons c line ih =>
    rw [List.mem_cons, not_or] at hnl
    rw [List.length_cons] at hroom
    rw [List.cons_append, fgetsFrom]
    by_cases hlast : room ≤ 1
    · obtain rfl : line = [] := List.eq_nil_of_length_eq_zero (by omega)
      rw [if_pos (.inr hlast), List.nil_append]
    · rw [if_neg, ih hnl.2 (by omega) (by omega)]
      · simp
      · rintro (rfl | hle)
        · exact hnl.1 rfl
        · exact hlast hle

/-- The first line is short enough for its newline, or fills the buffer up to the newline, or is cut
with the rest in the next line. -/
theorem fgetsLines_cases (hnl : (10 : UInt8) ∉ line) (hsize : 1 < size) (rest : Text) :
    (line.length + 1 < size ∧
      fgetsLines size (line ++ 10 :: rest) = (line ++ [10]) :: fgetsLines size rest) ∨
    (line.length + 1 = size ∧
      fgetsLines size (line ++ 10 :: rest) = line :: [10] :: fgetsLines size rest) ∨
    size ≤ line.length ∧ ∃ front back : Text, front ++ back = line ∧ front.length + 1 = size ∧
      fgetsLines size (line ++ 10 :: rest) = front :: fgetsLines size (back ++ 10 :: rest) := by
  by_cases hlt : line.length + 1 < size
  · exact .inl ⟨hlt, fgetsFrom_line hnl (by omega) []⟩
  · by_cases heq : line.length + 1 = size
    · refine .inr (.inl ⟨heq, ?_⟩)
      rw [fgetsLines, fgetsFrom_full hnl (by omega) (by omega), fgetsFrom, if_pos (.inl rfl)]
      rfl
    · refine .inr (.inr ⟨by omega, line.take (size - 1), line.drop (size - 1),
        List.take_append_drop _ _, by rw [List.length_take]; omega, ?_⟩)
      have hfront : (10 : UInt8) ∉ line.take (size - 1) := fun h => hnl (List.mem_of_mem_take h)
      have hcut : fgetsLines size (line.take (size - 1) ++ (line.drop (size - 1) ++ 10 :: rest)) =
          line.take (size - 1) :: fgetsLines size (line.drop (size - 1) ++ 10 :: rest) :=
        fgetsFrom_full hfront (by rw [List.length_take]; omega) (by omega) []
      rw [← List.append_assoc, List.take_append_drop] at hcut
      exact hcut

theorem cString_eq (h : (0 : UInt8) ∉ line) : cString line = line :=
  List.takeWhile_eq_self_iff.mpr fun _ hc => bne_iff_ne.mpr fun h0 => h (h0 ▸ hc)

theorem strip_eq (h : ∀ c ∈ line, isSpace c = false) : strip line = line := by
  have hdrop : line.dropWhile isSpace = line := List.dropWhile_eq_self_iff.mpr fun hl => by
    simp [h _ (List.getElem_mem hl)]
  rw [strip, hdrop, List.rdropWhile_eq_self_iff]
  intro hne
  simp [h _ (List.getLast_mem hne)]

/-- The newline is stripped. -/
theorem strip_newline (h : ∀ c ∈ line, isSpace c = false) : strip (line ++ [10]) = line := by
  cases line with
  | nil => decide
  | cons c line =>
    have hc : isSpace c = false := h c List.mem_cons_self
    have hstrip := strip_eq h
    rw [strip, List.dropWhile_cons_of_neg (by simp [hc])] at hstrip
    rw [strip, List.cons_append, List.dropWhile_cons_of_neg (by simp [hc]), ← List.cons_append,
      List.rdropWhile_concat_pos _ _ _ (by decide), hstrip]

/-- A word character is none of those that a line is cut at. -/
theorem isWordChar_plain {c : UInt8} (h : isWordChar c = true) :
    isSpace c = false ∧ c ≠ 0 ∧ c ≠ 10 ∧ c ≠ 35 ∧ c ≠ 61 := by
  have hall : ∀ n < 256, isWordChar (UInt8.ofNat n) = true → isSpace (UInt8.ofNat n) = false ∧
      UInt8.ofNat n ≠ 0 ∧ UInt8.ofNat n ≠ 10 ∧ UInt8.ofNat n ≠ 35 ∧ UInt8.ofNat n ≠ 61 := by
    decide +kernel
  have hc := hall c.toNat c.toNat_lt
  rw [UInt8.ofNat_toNat] at hc
  exact hc h

theorem splitAt_append {c : UInt8} {key value : Text} (h : c ∉ key) :
    splitAt c (key ++ c :: value) = some (key, value) := by
  induction key with
  | nil => simp [splitAt]
  | cons x key ih =>
    rw [List.mem_cons, not_or] at h
    rw [List.cons_append, splitAt, if_neg (Ne.symm h.1), ih h.2]
    rfl

theorem splitAt_eq_none {c : UInt8} (h : c ∉ line) : splitAt c line = none := by
  induction line with
  | nil => rfl
  | cons x line ih =>
    rw [List.mem_cons, not_or] at h
    rw [splitAt, if_neg (Ne.symm h.1), ih h.2]
    rfl

end Lines

section Numbers

variable {n d base value : Nat} {c : UInt8} {rest text : Text}

/-- The digits of a number in a base up to 16. -/
def digits (base n : Nat) : Text := (Nat.toDigits base n).map fun c => UInt8.ofNat c.toNat

theorem digitValue_digitChar (h : d < 16) :
    digitValue (UInt8.ofNat (Nat.digitChar d).toNat) = some d := by
  interval_cases d <;> decide

theorem digits_of_lt (h : n < base) : digits base n = [UInt8.ofNat (Nat.digitChar n).toNat] := by
  rw [digits, Nat.toDigits_of_lt_base h]
  rfl

theorem digits_of_le (hb : 1 < base) (h : base ≤ n) : digits base n =
    digits base (n / base) ++ [UInt8.ofNat (Nat.digitChar (n % base)).toNat] := by
  rw [digits, Nat.toDigits_of_base_le hb h, List.map_append]
  rfl

theorem digits_ne_nil : digits base n ≠ [] := by
  rw [digits, ne_eq, List.map_eq_nil_iff]
  exact Nat.toDigits_ne_nil

/-- Every character is a digit. -/
theorem isDigitOf_of_mem_digits (hb : 1 < base) (hb' : base ≤ 16) (hc : c ∈ digits base n) :
    isDigitOf base c = true := by
  induction n using Nat.strongRecOn with
  | ind n ih =>
    have hdigit : ∀ d, d < base →
        isDigitOf base (UInt8.ofNat (Nat.digitChar d).toNat) = true := fun d hd => by
      rw [isDigitOf, digitValue_digitChar (Nat.lt_of_lt_of_le hd hb'), Option.any_some]
      exact decide_eq_true hd
    by_cases hn : n < base
    · rw [digits_of_lt hn, List.mem_singleton] at hc
      exact hc ▸ hdigit n hn
    · rw [Nat.not_lt] at hn
      rw [digits_of_le hb hn, List.mem_append, List.mem_singleton] at hc
      rcases hc with hc | rfl
      · exact ih _ (Nat.div_lt_self (by omega) hb) hc
      · exact hdigit _ (Nat.mod_lt _ (by omega))

theorem readDigits_cons (h : digitValue c = some d) (hd : d < base) :
    readDigits base value (c :: rest) = readDigits base (value * base + d) rest := by
  rw [readDigits, if_pos (by rw [isDigitOf, h, Option.any_some]; exact decide_eq_true hd), h]
  rfl

/-- The digits of a number are read to its value. -/
theorem readDigits_digits (hb : 1 < base) (hb' : base ≤ 16) (n value : Nat) (rest : Text) :
    readDigits base value (digits base n ++ rest) =
      readDigits base (value * base ^ (digits base n).length + n) rest := by
  induction n using Nat.strongRecOn generalizing rest with
  | ind n ih =>
    by_cases hn : n < base
    · rw [digits_of_lt hn]
      simpa using readDigits_cons (digitValue_digitChar (Nat.lt_of_lt_of_le hn hb')) hn
    · rw [Nat.not_lt] at hn
      have hmod : n % base < base := Nat.mod_lt _ (by omega)
      rw [digits_of_le hb hn, List.append_assoc, ih _ (Nat.div_lt_self (by omega) hb),
        List.singleton_append, readDigits_cons (digitValue_digitChar (by omega)) hmod,
        List.length_append, List.length_singleton, Nat.pow_succ, Nat.add_mul, Nat.add_assoc,
        Nat.mul_assoc, Nat.div_add_mod' n base]

/-- A number in base 16, with the prefix of C. -/
def hexNumber (n : Nat) : Text := 48 :: 120 :: digits 16 n

theorem digitValue_isSome (h : isDigitOf base c = true) :
    48 ≤ c ∧ c ≤ 57 ∨ 65 ≤ c ∧ c ≤ 90 ∨ 97 ≤ c ∧ c ≤ 122 := by
  unfold isDigitOf digitValue at h
  split at h
  · next h0 => exact .inl h0
  · split at h
    · next h1 => exact .inr (.inr h1)
    · split at h
      · next h2 => exact .inr (.inl h2)
      · cases h

theorem digits_word (hb : 1 < base) (hb' : base ≤ 16) :
    ∀ c ∈ digits base n, isWordChar c = true ∧ c ≠ 46 := by
  intro c hc
  have h := digitValue_isSome (isDigitOf_of_mem_digits hb hb' hc)
  refine ⟨?_, ?_⟩
  · simp only [isWordChar, Bool.or_eq_true, decide_eq_true_eq]
    tauto
  · rintro rfl
    revert h
    decide

theorem hexNumber_word : ∀ c ∈ hexNumber n, isWordChar c = true ∧ c ≠ 46 := by
  intro c hc
  rcases List.mem_cons.mp hc with rfl | hc
  · decide
  · rcases List.mem_cons.mp hc with rfl | hc
    · decide
    · exact digits_word (by decide) (by decide) c hc

theorem length_hexNumber {k : Nat} (hk : 0 < k) (h : n < 16 ^ k) :
    (hexNumber n).length ≤ k + 2 := by
  have hle := (Nat.length_toDigits_le_iff (b := 16) (n := n) (by decide) hk).mpr h
  rw [hexNumber, List.length_cons, List.length_cons, digits, List.length_map]
  omega

/-- **What is written in base 16 is read back.** -/
theorem strtoull_hexNumber (h : n < 2 ^ 64) : strtoull (hexNumber n) = some (some n, []) := by
  have hne : digits 16 n ≠ [] := digits_ne_nil
  obtain ⟨c, cs, hcs⟩ := List.exists_cons_of_ne_nil hne
  have hc : isDigitOf 16 c = true :=
    isDigitOf_of_mem_digits (by decide) (by decide) (n := n) (hcs ▸ List.mem_cons_self)
  have hread : readDigits 16 0 (digits 16 n ++ []) =
      readDigits 16 (0 * 16 ^ (digits 16 n).length + n) [] :=
    readDigits_digits (by decide) (by decide) n 0 []
  rw [List.append_nil, Nat.zero_mul, Nat.zero_add, readDigits, hcs] at hread
  have hspace : (hexNumber n).dropWhile isSpace = hexNumber n :=
    List.dropWhile_cons_of_neg (by decide)
  have hsign : splitSign (hexNumber n) = (false, hexNumber n) := rfl
  have hbase : splitBase (hexNumber n) = (16, c :: cs) := by
    simp [splitBase, hexNumber, hcs, hc]
  rw [strtoull, hspace, hsign]
  dsimp only
  rw [hbase]
  dsimp only
  rw [List.head?_cons, Option.any_some, if_pos hc, hread]
  dsimp only
  rw [if_neg (Nat.not_le.mpr h), if_neg Bool.false_ne_true]

end Numbers

end CText
