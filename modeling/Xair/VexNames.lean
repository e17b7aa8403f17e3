import Xair.Draft
import Xair.Reachable
import Xair.VexBindings

/-!
# The names of VEX operators

The grammar of the operator names that the adapter knows (`NamesBinop`, `NamesUnop`), and the
theorem that `vex_map_binop` and `vex_map_unop` accept exactly the names of the operand's width
(`vexMapBinop_ok_iff`, `vexMapUnop_ok_iff`).  A name is cut in one way only: the text before the
first digit is the operator (`operator_unique`).
-/

namespace Xair

/-! ### Numerals -/

def isDigit (c : UInt8) : Bool := decide (48 ≤ c ∧ c ≤ 57)

/-- The value of decimal digits after those of `value`. -/
def decimalFrom (value : Nat) (digits : Name) : Nat :=
  digits.foldl (fun n c => n * 10 + (c.toNat - 48)) value

/-- Decimal digits, possibly with zeros in front, of a `uint16_t`. -/
structure Numeral (digits : Name) (n : Nat) : Prop where
  nonempty : digits ≠ []
  digit : ∀ c ∈ digits, isDigit c = true
  value : decimalFrom 0 digits = n
  le : n ≤ 65535

section Parse

variable {text digits rest : Name} {n : Nat}

theorem le_decimalFrom (value : Nat) (digits : Name) : value ≤ decimalFrom value digits := by
  induction digits generalizing value with
  | nil => exact Nat.le_refl value
  | cons c digits ih =>
    calc value ≤ value * 10 + (c.toNat - 48) := by omega
      _ ≤ decimalFrom value (c :: digits) := ih _

/-- The loop reads the digits in front, and fails when there is none or when their value is not
that of a `uint16_t`. -/
theorem vexParseDigits_eq {value : Nat} (hv : value ≤ 65535) (sawDigit : Bool) (text : Name) :
    vexParseDigits value sawDigit text =
      if sawDigit = false ∧ text.takeWhile isDigit = [] ∨
          65535 < decimalFrom value (text.takeWhile isDigit) then none
      else some (decimalFrom value (text.takeWhile isDigit), text.dropWhile isDigit) := by
  induction text generalizing value sawDigit with
  | nil => cases sawDigit <;> simp [vexParseDigits, decimalFrom, hv]
  | cons c text ih =>
    rw [vexParseDigits]
    by_cases hc : 48 ≤ c ∧ c ≤ 57
    · have hdigit : isDigit c = true := decide_eq_true hc
      rw [if_pos hc, List.takeWhile_cons_of_pos hdigit, List.dropWhile_cons_of_pos hdigit]
      have hcons : decimalFrom value (c :: text.takeWhile isDigit) =
          decimalFrom (value * 10 + (c.toNat - 48)) (text.takeWhile isDigit) := rfl
      dsimp only
      split
      · next hbig =>
        have hle := le_decimalFrom (value * 10 + (c.toNat - 48)) (text.takeWhile isDigit)
        rw [if_pos (.inr (by omega))]
      · next hsmall =>
        rw [ih (by omega), hcons]
        simp
    · have hdigit : ¬ isDigit c = true := by simpa [isDigit] using hc
      rw [if_neg hc, List.takeWhile_cons_of_neg hdigit, List.dropWhile_cons_of_neg hdigit]
      cases sawDigit <;> simp [decimalFrom, hv]

theorem takeWhile_digits (hd : ∀ c ∈ digits, isDigit c = true)
    (hr : ∀ c ∈ rest.head?, isDigit c = false) :
    (digits ++ rest).takeWhile isDigit = digits ∧ (digits ++ rest).dropWhile isDigit = rest := by
  have hrest : rest.takeWhile isDigit = [] ∧ rest.dropWhile isDigit = rest := by
    cases rest with
    | nil => exact ⟨rfl, rfl⟩
    | cons c rest => simp [hr c rfl]
  rw [List.takeWhile_append_of_pos hd, List.dropWhile_append_of_pos hd, hrest.1, hrest.2,
    List.append_nil]
  exact ⟨rfl, rfl⟩

/-- `vex_parse_u16` reads a numeral up to the first character that is no digit. -/
theorem vexParseU16_some :
    vexParseU16 text = some (n, rest) ↔
      (∀ c ∈ rest.head?, isDigit c = false) ∧
        ∃ digits, Numeral digits n ∧ text = digits ++ rest := by
  rw [vexParseU16, vexParseDigits_eq (Nat.zero_le _)]
  constructor
  · intro h
    split at h
    · cases h
    · next hok =>
      rw [not_or, Nat.not_lt] at hok
      obtain ⟨hne, hle⟩ := hok
      cases h
      refine ⟨fun c hc => ?_, text.takeWhile isDigit, ⟨fun hnil => hne ⟨rfl, hnil⟩, ?_, rfl, hle⟩,
        List.takeWhile_append_dropWhile.symm⟩
      · rw [Option.mem_def] at hc
        simpa [hc] using List.head?_dropWhile_not isDigit text
      · exact fun c hc => List.all_eq_true.mp List.all_takeWhile c hc
  · rintro ⟨hrest, digits, hnum, rfl⟩
    obtain ⟨htake, hdrop⟩ := takeWhile_digits hnum.digit hrest
    rw [htake, hdrop, hnum.value, if_neg]
    rintro (⟨-, hnil⟩ | hbig)
    · exact hnum.nonempty hnil
    · exact absurd hnum.le (by omega)

end Parse

/-! ### The grammar -/

/-- The binary operators: what stands before the width, what stands after it, the opcode. -/
def binopNames : List (String × String × Opcode) :=
  [("Iop_Add", "", .add), ("Iop_Sub", "", .sub), ("Iop_Mul", "", .mul), ("Iop_And", "", .and),
    ("Iop_Or", "", .or), ("Iop_Xor", "", .xor), ("Iop_Shl", "", .shl), ("Iop_Shr", "", .lshr),
    ("Iop_Sar", "", .ashr), ("Iop_CmpEQ", "", .eq), ("Iop_CmpNE", "", .ne),
    ("Iop_CmpLT", "U", .ult), ("Iop_CmpLT", "S", .slt), ("Iop_CmpLE", "U", .ule),
    ("Iop_CmpLE", "S", .sle)]

/-- The text is the name of a binary operator on operands of a width. -/
def NamesBinop (s : Name) (width : Nat) (opcode : Opcode) : Prop :=
  ∃ pre suf digits, (pre, suf, opcode) ∈ binopNames ∧ Numeral digits width ∧
    s = literalName pre ++ (digits ++ literalName suf)

/-- The conversions: what stands between the widths, the opcode, and whether the second width
is the greater one. -/
def unopNames : List (String × Opcode × Bool) :=
  [("Uto", .zext, true), ("Sto", .sext, true), ("to", .trunc, false)]

/-- The text is the name of a conversion from a width to another. -/
def NamesUnop (s : Name) (m n : Nat) (opcode : Opcode) : Prop :=
  ∃ sep widens digits digits', (sep, opcode, widens) ∈ unopNames ∧ Numeral digits m ∧
    Numeral digits' n ∧ (if widens then m < n else n < m) ∧
    s = literalName "Iop_" ++ (digits ++ (literalName sep ++ digits'))

/-- The result type of a binary operator. -/
def binopType (opcode : Opcode) (lhs : Ty) : Ty :=
  match opcode with
  | .eq | .ne | .ult | .ule | .slt | .sle => typeI 1
  | _ => lhs

section Binop

variable {s pre digits rest : Name} {n : Nat}

/-- The operator of a name is the text before the first digit. -/
theorem takeWhile_operator (hpre : ∀ c ∈ pre, isDigit c = false) (hd : Numeral digits n) :
    (pre ++ (digits ++ rest)).takeWhile (fun c => !isDigit c) = pre := by
  rw [List.takeWhile_append_of_pos fun c hc => by rw [hpre c hc]; rfl]
  obtain ⟨c, digits, rfl⟩ := List.exists_cons_of_ne_nil hd.nonempty
  rw [List.cons_append, List.takeWhile_cons_of_neg (by simp [hd.digit c List.mem_cons_self]),
    List.append_nil]

theorem startsWith_iff : vexStartsWith (some s) pre = true ↔ ∃ rest, s = pre ++ rest := by
  rw [vexStartsWith, List.isPrefixOf_iff_prefix]
  exact ⟨fun ⟨rest, h⟩ => ⟨rest, h.symm⟩, fun ⟨rest, h⟩ => ⟨rest, h.symm⟩⟩

theorem vexMatchWidth_some :
    vexMatchWidth s pre = some n ↔ ∃ digits, Numeral digits n ∧ s = pre ++ digits := by
  rw [vexMatchWidth]
  constructor
  · intro h
    split at h
    · next hpre =>
      obtain ⟨text, rfl⟩ := startsWith_iff.mp hpre
      rw [List.drop_left] at h
      split at h
      · next bits hparse =>
        cases h
        obtain ⟨-, digits, hnum, rfl⟩ := vexParseU16_some.mp hparse
        exact ⟨digits, hnum, by rw [List.append_nil]⟩
      · cases h
    · cases h
  · rintro ⟨digits, hnum, rfl⟩
    have hparse : vexParseU16 digits = some (n, []) :=
      vexParseU16_some.mpr ⟨fun c hc => (by cases hc), digits, hnum, (List.append_nil digits).symm⟩
    rw [if_pos (startsWith_iff.mpr ⟨digits, rfl⟩), List.drop_left, hparse]

theorem vexMatchCmp_some {c : UInt8} :
    vexMatchCmp s pre = some (n, c) ↔
      (c = 85 ∨ c = 83) ∧ ∃ digits, Numeral digits n ∧ s = pre ++ (digits ++ [c]) := by
  rw [vexMatchCmp]
  constructor
  · intro h
    split at h
    · next hpre =>
      obtain ⟨text, rfl⟩ := startsWith_iff.mp hpre
      rw [List.drop_left] at h
      split at h
      · next bits d hparse =>
        obtain ⟨-, digits, hnum, rfl⟩ := vexParseU16_some.mp hparse
        split at h
        · next hletter =>
          cases h
          exact ⟨hletter, digits, hnum, rfl⟩
        · cases h
      · cases h
    · cases h
  · rintro ⟨hletter, digits, hnum, rfl⟩
    have hparse : vexParseU16 (digits ++ [c]) = some (n, [c]) := by
      refine vexParseU16_some.mpr ⟨fun d hd => ?_, digits, hnum, rfl⟩
      obtain rfl : c = d := Option.some.inj hd
      rcases hletter with rfl | rfl <;> rfl
    rw [if_pos (startsWith_iff.mpr ⟨digits ++ [c], rfl⟩), List.drop_left, hparse]
    exact if_pos hletter

/-- A search that at most one entry answers. -/
theorem findSome?_of_unique {α β : Type} {f : α → Option β} {l : List α} {r : β}
    (h : ∀ a ∈ l, ∀ b ∈ l, (f a).isSome = true → (f b).isSome = true → a = b) :
    l.findSome? f = some r ↔ ∃ a ∈ l, f a = some r := by
  refine ⟨List.exists_of_findSome?_eq_some, fun ⟨a, ha, hr⟩ => ?_⟩
  cases hf : l.findSome? f with
  | none =>
    rw [List.findSome?_eq_none_iff.mp hf a ha] at hr
    cases hr
  | some r' =>
    obtain ⟨b, hb, hr'⟩ := List.exists_of_findSome?_eq_some hf
    obtain rfl := h a ha b hb (by rw [hr]; rfl) (by rw [hr']; rfl)
    exact hr'.symm.trans hr

theorem widthOps_operator : ∀ e ∈ vexWidthOps, ∀ c ∈ literalName e.1, isDigit c = false := by
  decide +kernel

theorem cmpOps_operator : ∀ e ∈ vexCmpOps, ∀ c ∈ literalName e.1, isDigit c = false := by
  decide +kernel

theorem widthOps_inj : ∀ e ∈ vexWidthOps, ∀ e' ∈ vexWidthOps,
    literalName e.1 = literalName e'.1 → e = e' := by decide

theorem cmpOps_inj : ∀ e ∈ vexCmpOps, ∀ e' ∈ vexCmpOps,
    literalName e.1 = literalName e'.1 → e = e' := by decide

theorem widthOps_ne_cmpOps : ∀ e ∈ vexWidthOps, ∀ e' ∈ vexCmpOps,
    literalName e.1 ≠ literalName e'.1 := by decide

/-- Two ways to cut a name give the same operator. -/
theorem operator_unique {pre' digits' rest' : Name} {n' : Nat}
    (hpre : ∀ c ∈ pre, isDigit c = false) (hpre' : ∀ c ∈ pre', isDigit c = false)
    (hd : Numeral digits n) (hd' : Numeral digits' n')
    (h : pre ++ (digits ++ rest) = pre' ++ (digits' ++ rest')) : pre = pre' := by
  rw [← takeWhile_operator hpre hd, h, takeWhile_operator hpre' hd']

variable {t out : Ty} {opcode : Opcode}

/-- The search of `vex_map_binop` among the operators with a width. -/
def widthSearch (s : Name) (t : Ty) : Option (Except Status (Opcode × Ty)) :=
  vexWidthOps.findSome? fun (pre, opcode, cmp) =>
    (vexMatchWidth s (literalName pre)).map fun bits =>
      vexCheckWidth t bits (opcode, if cmp then typeI 1 else t)

/-- The search of `vex_map_binop` among the operators with a width and a signedness. -/
def cmpSearch (s : Name) (t : Ty) : Option (Except Status (Opcode × Ty)) :=
  vexCmpOps.findSome? fun (pre, signed, unsigned) =>
    (vexMatchCmp s (literalName pre)).map fun (bits, c) =>
      vexCheckWidth t bits (if c = 83 then signed else unsigned, typeI 1)

theorem vexMapBinop_eq : vexMapBinop (some s) t =
    ((widthSearch s t).or (cmpSearch s t)).getD (.error .errUnsupported) := by
  rw [vexMapBinop, ← widthSearch, ← cmpSearch]
  cases widthSearch s t with
  | some r => rfl
  | none => cases cmpSearch s t <;> rfl

theorem widthSearch_some {r : Except Status (Opcode × Ty)} :
    widthSearch s t = some r ↔ ∃ e ∈ vexWidthOps, ∃ digits bits, Numeral digits bits ∧
      s = literalName e.1 ++ digits ∧
      r = vexCheckWidth t bits (e.2.1, if e.2.2 then typeI 1 else t) := by
  rw [widthSearch, findSome?_of_unique]
  · constructor
    · rintro ⟨e, he, hr⟩
      obtain ⟨bits, hmatch, rfl⟩ := Option.map_eq_some_iff.mp hr
      obtain ⟨digits, hnum, hs⟩ := vexMatchWidth_some.mp hmatch
      exact ⟨e, he, digits, bits, hnum, hs, rfl⟩
    · rintro ⟨e, he, digits, bits, hnum, hs, rfl⟩
      exact ⟨e, he,
        Option.map_eq_some_iff.mpr ⟨bits, vexMatchWidth_some.mpr ⟨digits, hnum, hs⟩, rfl⟩⟩
  · intro e he e' he' hsome hsome'
    rw [Option.isSome_map] at hsome hsome'
    obtain ⟨bits, hbits⟩ := Option.isSome_iff_exists.mp hsome
    obtain ⟨bits', hbits'⟩ := Option.isSome_iff_exists.mp hsome'
    obtain ⟨digits, hnum, hs⟩ := vexMatchWidth_some.mp hbits
    obtain ⟨digits', hnum', hs'⟩ := vexMatchWidth_some.mp hbits'
    have hcut : literalName e.1 ++ (digits ++ []) = literalName e'.1 ++ (digits' ++ []) := by
      rw [List.append_nil, List.append_nil, ← hs, ← hs']
    exact widthOps_inj e he e' he' (operator_unique (widthOps_operator e he)
      (widthOps_operator e' he') hnum hnum' hcut)

theorem cmpSearch_some {r : Except Status (Opcode × Ty)} :
    cmpSearch s t = some r ↔ ∃ e ∈ vexCmpOps, ∃ digits bits c, (c = 85 ∨ c = 83) ∧
      Numeral digits bits ∧ s = literalName e.1 ++ (digits ++ [c]) ∧
      r = vexCheckWidth t bits (if c = 83 then e.2.1 else e.2.2, typeI 1) := by
  rw [cmpSearch, findSome?_of_unique]
  · constructor
    · rintro ⟨e, he, hr⟩
      obtain ⟨⟨bits, c⟩, hmatch, rfl⟩ := Option.map_eq_some_iff.mp hr
      obtain ⟨hletter, digits, hnum, hs⟩ := vexMatchCmp_some.mp hmatch
      exact ⟨e, he, digits, bits, c, hletter, hnum, hs, rfl⟩
    · rintro ⟨e, he, digits, bits, c, hletter, hnum, hs, rfl⟩
      exact ⟨e, he, Option.map_eq_some_iff.mpr
        ⟨(bits, c), vexMatchCmp_some.mpr ⟨hletter, digits, hnum, hs⟩, rfl⟩⟩
  · intro e he e' he' hsome hsome'
    rw [Option.isSome_map] at hsome hsome'
    obtain ⟨⟨bits, c⟩, hbits⟩ := Option.isSome_iff_exists.mp hsome
    obtain ⟨⟨bits', c'⟩, hbits'⟩ := Option.isSome_iff_exists.mp hsome'
    obtain ⟨-, digits, hnum, hs⟩ := vexMatchCmp_some.mp hbits
    obtain ⟨-, digits', hnum', hs'⟩ := vexMatchCmp_some.mp hbits'
    exact cmpOps_inj e he e' he' (operator_unique (cmpOps_operator e he) (cmpOps_operator e' he')
      hnum hnum' (hs.symm.trans hs'))

theorem vexCheckWidth_ok {α : Type} {bits : Nat} {x y : α} :
    vexCheckWidth t bits x = .ok y ↔ t.bits = bits ∧ x = y := by
  rw [vexCheckWidth]
  split
  · next h => simp [h]
  · next h => simp [not_not.mp h]

/-- The two tables of `vex_map_binop` are the grammar. -/
theorem binopNames_tables {pre suf : String} (h : (pre, suf, opcode) ∈ binopNames) :
    (suf = "" ∧ ∃ cmp, (pre, opcode, cmp) ∈ vexWidthOps ∧
        binopType opcode t = if cmp then typeI 1 else t) ∨
      ∃ e ∈ vexCmpOps, e.1 = pre ∧ binopType opcode t = typeI 1 ∧
        ((suf = "S" ∧ opcode = e.2.1) ∨ suf = "U" ∧ opcode = e.2.2) := by
  simp only [binopNames, List.mem_cons, Prod.mk.injEq, List.not_mem_nil, or_false] at h
  rcases h with ⟨rfl, rfl, rfl⟩ | ⟨rfl, rfl, rfl⟩ | ⟨rfl, rfl, rfl⟩ | ⟨rfl, rfl, rfl⟩ |
    ⟨rfl, rfl, rfl⟩ | ⟨rfl, rfl, rfl⟩ | ⟨rfl, rfl, rfl⟩ | ⟨rfl, rfl, rfl⟩ | ⟨rfl, rfl, rfl⟩ |
    ⟨rfl, rfl, rfl⟩ | ⟨rfl, rfl, rfl⟩ | ⟨rfl, rfl, rfl⟩ | ⟨rfl, rfl, rfl⟩ | ⟨rfl, rfl, rfl⟩ |
    ⟨rfl, rfl, rfl⟩ <;> simp [vexWidthOps, vexCmpOps, binopType]

theorem widthOps_named {e : String × Opcode × Bool} (h : e ∈ vexWidthOps) :
    (e.1, "", e.2.1) ∈ binopNames ∧ binopType e.2.1 t = if e.2.2 then typeI 1 else t := by
  simp only [vexWidthOps, List.mem_cons, List.not_mem_nil, or_false] at h
  rcases h with rfl | rfl | rfl | rfl | rfl | rfl | rfl | rfl | rfl | rfl | rfl <;>
    exact ⟨by decide, rfl⟩

theorem cmpOps_named {e : String × Opcode × Opcode} (h : e ∈ vexCmpOps) :
    (e.1, "S", e.2.1) ∈ binopNames ∧ (e.1, "U", e.2.2) ∈ binopNames ∧
      binopType e.2.1 t = typeI 1 ∧ binopType e.2.2 t = typeI 1 := by
  simp only [vexCmpOps, List.mem_cons, List.not_mem_nil, or_false] at h
  rcases h with rfl | rfl <;> exact ⟨by decide, by decide, rfl, rfl⟩

/-- The name of an operator with a width is not that of one with a signedness. -/
theorem widthSearch_none {e : String × Opcode × Opcode} (he : e ∈ vexCmpOps)
    (hd : Numeral digits n) (hs : s = literalName e.1 ++ (digits ++ rest)) :
    widthSearch s t = none := by
  cases hw : widthSearch s t with
  | none => rfl
  | some r =>
    obtain ⟨e', he', digits', bits, hnum, hs', -⟩ := widthSearch_some.mp hw
    have hcut : literalName e'.1 ++ (digits' ++ []) = literalName e.1 ++ (digits ++ rest) := by
      rw [List.append_nil, ← hs', hs]
    exact absurd (operator_unique (widthOps_operator e' he') (cmpOps_operator e he) hnum hd hcut)
      (widthOps_ne_cmpOps e' he' e he)

/-- `vex_map_binop` accepts the names of the operators on operands of its width. -/
theorem vexMapBinop_ok_iff :
    vexMapBinop (some s) t = .ok (opcode, out) ↔
      NamesBinop s t.bits opcode ∧ out = binopType opcode t := by
  rw [vexMapBinop_eq]
  constructor
  · intro h
    cases hw : widthSearch s t with
    | some r =>
      rw [hw] at h
      obtain ⟨e, he, digits, bits, hnum, hs, hr⟩ := widthSearch_some.mp hw
      obtain ⟨rfl, hout⟩ := vexCheckWidth_ok.mp (hr.symm.trans h)
      cases hout
      obtain ⟨hname, htype⟩ := widthOps_named (t := t) he
      exact ⟨⟨e.1, "", digits, hname, hnum, by rw [hs, show literalName "" = [] from rfl,
        List.append_nil]⟩, htype.symm⟩
    | none =>
      cases hc : cmpSearch s t with
      | none =>
        rw [hw, hc] at h
        cases h
      | some r =>
        rw [hw, hc] at h
        obtain ⟨e, he, digits, bits, c, hletter, hnum, hs, hr⟩ := cmpSearch_some.mp hc
        obtain ⟨rfl, hout⟩ := vexCheckWidth_ok.mp (hr.symm.trans h)
        cases hout
        obtain ⟨hsigned, hunsigned, htype, htype'⟩ := cmpOps_named (t := t) he
        rcases hletter with rfl | rfl
        · exact ⟨⟨e.1, "U", digits, hunsigned, hnum, hs⟩, htype'.symm⟩
        · exact ⟨⟨e.1, "S", digits, hsigned, hnum, hs⟩, htype.symm⟩
  · rintro ⟨⟨pre, suf, digits, hname, hnum, hs⟩, rfl⟩
    rcases binopNames_tables (t := t) hname with
      ⟨rfl, cmp, hmem, htype⟩ | ⟨e, he, rfl, htype, hsuf⟩
    · have hw : widthSearch s t = some (.ok (opcode, binopType opcode t)) := by
        refine widthSearch_some.mpr ⟨_, hmem, digits, t.bits, hnum, ?_, ?_⟩
        · rw [hs, show literalName "" = [] from rfl, List.append_nil]
        · exact (vexCheckWidth_ok.mpr ⟨rfl, by rw [htype]⟩).symm
      rw [hw]
      rfl
    · rw [widthSearch_none he hnum hs]
      have hc : cmpSearch s t = some (.ok (opcode, binopType opcode t)) := by
        rcases hsuf with ⟨rfl, rfl⟩ | ⟨rfl, rfl⟩
        · exact cmpSearch_some.mpr ⟨e, he, digits, t.bits, 83, .inr rfl, hnum, hs,
            (vexCheckWidth_ok.mpr ⟨rfl, by rw [htype]; rfl⟩).symm⟩
        · exact cmpSearch_some.mpr ⟨e, he, digits, t.bits, 85, .inl rfl, hnum, hs,
            (vexCheckWidth_ok.mpr ⟨rfl, by rw [htype]; rfl⟩).symm⟩
      rw [hc]
      rfl

end Binop

section Unop

variable {s text digits digits' rest : Name} {m n : Nat} {t out : Ty} {opcode : Opcode}

/-- A separator begins with no digit. -/
theorem unopNames_separator : ∀ e ∈ unopNames, ∀ rest : Name,
    ∀ c ∈ (literalName e.1 ++ rest).head?, isDigit c = false := by
  intro e he rest
  simp only [unopNames, List.mem_cons, List.not_mem_nil, or_false] at he
  rcases he with rfl | rfl | rfl <;> rintro c ⟨⟩ <;> rfl

/-- The comparison of the widths at the end of a conversion. -/
theorem widths_ok {widens : Bool} {bits : Nat} :
    (if (if widens then bits ≤ m else m ≤ bits) then Except.error Status.errUnsupported
      else .ok bits) = .ok n ↔ bits = n ∧ if widens then m < n else n < m := by
  cases widens with
  | false =>
    by_cases h : m ≤ bits
    · simp [h]
      omega
    · simp [h]
      omega
  | true =>
    by_cases h : bits ≤ m
    · simp [h]
      omega
    · simp [h]
      omega

theorem vexToBits_ok {widens : Bool} :
    vexToBits m widens text = .ok n ↔
      Numeral text n ∧ if widens then m < n else n < m := by
  rw [vexToBits]
  constructor
  · intro h
    split at h
    · next bits hparse =>
      obtain ⟨-, digits, hnum, rfl⟩ := vexParseU16_some.mp hparse
      obtain ⟨rfl, horder⟩ := widths_ok.mp h
      rw [List.append_nil]
      exact ⟨hnum, horder⟩
    · cases h
  · rintro ⟨hnum, horder⟩
    have hparse : vexParseU16 text = some (n, []) :=
      vexParseU16_some.mpr ⟨fun c hc => (by cases hc), text, hnum, (List.append_nil text).symm⟩
    rw [hparse]
    exact widths_ok.mpr ⟨rfl, horder⟩

theorem length_literalName (s : String) : (literalName s).length = s.length := by
  rw [literalName, List.length_map, String.length_toList]

theorem vexConversions_named : ∀ e ∈ vexConversions, e ∈ unopNames := by decide

/-- The conversion that is found is the one whose separator comes next. -/
theorem find_conversion {sep : String} {widens : Bool} (h : (sep, opcode, widens) ∈ unopNames) :
    vexConversions.find? (fun conv => vexStartsWith (some (literalName sep ++ rest))
      (literalName conv.1)) = some (sep, opcode, widens) := by
  simp only [unopNames, List.mem_cons, Prod.mk.injEq, List.not_mem_nil, or_false] at h
  rcases h with ⟨rfl, rfl, rfl⟩ | ⟨rfl, rfl, rfl⟩ | ⟨rfl, rfl, rfl⟩ <;> rfl

/-- `vex_map_unop` accepts the names of the conversions of an integer of its width. -/
theorem vexMapUnop_ok_iff :
    vexMapUnop (some s) t = .ok (opcode, out) ↔
      t.kind = .int ∧ ∃ n, NamesUnop s t.bits n opcode ∧ out = typeI n := by
  rw [vexMapUnop]
  constructor
  · intro h
    split at h
    · cases h
    · next hpre =>
      obtain ⟨text, rfl⟩ := startsWith_iff.mp (by simpa using hpre)
      have hdrop : ((some (literalName "Iop_" ++ text)).getD []).drop 4 = text := rfl
      rw [hdrop] at h
      split at h
      · cases h
      · next m text' hparse =>
        obtain ⟨-, digits, hnum, rfl⟩ := vexParseU16_some.mp hparse
        split at h
        · cases h
        · next hsrc =>
          rw [not_or, not_not, not_not] at hsrc
          obtain ⟨rfl, hkind⟩ := hsrc
          split at h
          · cases h
          · next sep op widens hfind =>
            obtain ⟨n, hbits, hout⟩ := exceptMap_ok.mp h
            obtain ⟨hnum', horder⟩ := vexToBits_ok.mp hbits
            have hsep : vexStartsWith (some text') (literalName sep) = true := List.find?_some
              (p := fun conv : String × Opcode × Bool =>
                vexStartsWith (some text') (literalName conv.1))
              hfind
            obtain ⟨rest, rfl⟩ := startsWith_iff.mp hsep
            have hmem := vexConversions_named _ (List.mem_of_find?_eq_some hfind)
            rw [← length_literalName, List.drop_left] at hnum'
            cases hout
            exact ⟨hkind, n, ⟨sep, widens, digits, rest, hmem, hnum, hnum', horder, rfl⟩, rfl⟩
  · rintro ⟨hkind, n, ⟨sep, widens, digits, digits', hmem, hnum, hnum', horder, rfl⟩, rfl⟩
    have hparse : vexParseU16 (digits ++ (literalName sep ++ digits')) =
        some (t.bits, literalName sep ++ digits') :=
      vexParseU16_some.mpr ⟨unopNames_separator _ hmem _, digits, hnum, rfl⟩
    have hdrop : ((some (literalName "Iop_" ++ (digits ++ (literalName sep ++ digits')))).getD
        []).drop 4 = digits ++ (literalName sep ++ digits') := rfl
    rw [if_neg (by simp [startsWith_iff]), hdrop, hparse]
    dsimp only
    rw [if_neg (by simp [hkind]), find_conversion hmem]
    dsimp only
    rw [← length_literalName, List.drop_left, vexToBits_ok.mpr ⟨hnum', horder⟩]
    rfl

end Unop

/-! ### The operations that are built -/

/-- The temporary is bound to the result of an operation that `verify_op` accepts. -/
def VexAdapter.Verified (a : VexAdapter) (tmp : Nat) (opcode : Opcode) (type : Ty)
    (srcs : List Nat) : Prop :=
  ∃ v op, a.lookup (.tmp tmp) = some v ∧ a.module.valueOp v = some op ∧ op.opcode = opcode ∧
    a.module.valueType v = type ∧ op.src = srcs ∧ ∀ block, verifyOp a.module op block = .ok ()

section Emit

variable {a a' : VexAdapter} {tmp src lhs rhs : Nat} {irop : Option Name} {name : Option Name}
  {opcode : Opcode} {l r out : Ty}

/-- The comparisons of the widths are those of the type rules. -/
theorem typeRule_unop {s : Name} {n : Nat} (h : NamesUnop s l.bits n opcode) (hl : l.kind = .int) :
    typeRule opcode (typeI n) [l] = true := by
  obtain ⟨sep, widens, digits, digits', hmem, -, -, horder, -⟩ := h
  simp only [unopNames, List.mem_cons, Prod.mk.injEq, List.not_mem_nil, or_false] at hmem
  rcases hmem with ⟨-, rfl, rfl⟩ | ⟨-, rfl, rfl⟩ | ⟨-, rfl, rfl⟩ <;>
    simp only [typeRule, Ty.isInt, typeI, hl, beq_self_eq_true, Bool.true_and] <;>
    exact decide_eq_true horder

def Opcode.isShift (opcode : Opcode) : Bool :=
  opcode == .shl || opcode == .lshr || opcode == .ashr

/-- The operators whose operands may differ in type are the shifts. -/
theorem vexIsShift_named : ∀ e ∈ binopNames, ∀ rest : Name,
    vexIsShift (some (literalName e.1 ++ rest)) = e.2.2.isShift := by
  intro e he rest
  simp only [binopNames, List.mem_cons, List.not_mem_nil, or_false] at he
  rcases he with rfl | rfl | rfl | rfl | rfl | rfl | rfl | rfl | rfl | rfl | rfl | rfl | rfl | rfl |
    rfl <;> rfl

theorem typeRule_named : ∀ e ∈ binopNames, ∀ l r : Ty, l.isInt = true → r.isInt = true →
    (l ≠ r → e.2.2.isShift = true) → typeRule e.2.2 (binopType e.2.2 l) [l, r] = true := by
  intro e he l r hl hr heq
  by_cases hlr : l = r
  · subst hlr
    simp only [binopNames, List.mem_cons, List.not_mem_nil, or_false] at he
    rcases he with rfl | rfl | rfl | rfl | rfl | rfl | rfl | rfl | rfl | rfl | rfl | rfl | rfl |
      rfl | rfl <;> simp [typeRule, binopType, hl, Ty.isI1, typeI]
  · have hshift := heq hlr
    simp only [Opcode.isShift, Bool.or_eq_true, beq_iff_eq] at hshift
    rcases hshift with (h | h) | h <;> simp [h, typeRule, binopType, hl, hr]

theorem typeRule_binop {s : Name} {width : Nat} (h : NamesBinop s width opcode)
    (hl : l.isInt = true) (hr : r.isInt = true) (heq : l ≠ r → vexIsShift (some s) = true) :
    typeRule opcode (binopType opcode l) [l, r] = true := by
  obtain ⟨pre, suf, digits, hmem, -, rfl⟩ := h
  refine typeRule_named _ hmem l r hl hr fun hne => ?_
  rw [← vexIsShift_named _ hmem]
  exact heq hne

/-- What is built and bound to a temporary. -/
theorem verified_of_build {call : Module → Module × Except Status Nat} {k : OpKey}
    (hwf : a.module.WF) (hsrc : ∀ v ∈ k.srcs, v < a.module.values.length)
    (htype : typeRule k.opcode k.type (k.srcs.map a.module.valueType) = true)
    (hcall : call a.module = addOp a.module k name)
    (h : (vexBuild call >>= fun out => vexSetTmp tmp out) a = (.ok (), a')) :
    a'.Verified tmp k.opcode k.type k.srcs := by
  obtain ⟨v, b, hb, hset⟩ := Effect.bind_eq_ok.mp h
  have hmodb : b.module = (addOp a.module k name).1 := by
    rw [← hcall]
    exact (congrArg (fun r => r.2.module) hb).symm
  have hv : (addOp a.module k name).2 = .ok v := by
    rw [vexBuild, hcall] at hb
    cases hr : (addOp a.module k name).2 with
    | error e =>
      rw [hr] at hb
      cases hb
    | ok w =>
      rw [hr] at hb
      cases hb
      rfl
  have hbound := lookup_setTmp hset
  obtain ⟨tmps, -, rfl⟩ := vexSetTmp_ok hset
  obtain ⟨hwf', hg, hc⟩ := addOp_computes hwf hsrc hv
  rw [← hmodb] at hwf' hg hc
  obtain ⟨o, ho, rfl, hs⟩ := (valueNumberMatches_iff hwf').mp hc
  have hdst := (hwf'.op_dst o ho).1
  have hop : (b.module.opRec o).opcode = k.opcode := hs.opcode
  have hty : b.module.valueType (b.module.opRec o).dst = k.type := hs.type
  have hsrcs : (b.module.opRec o).src = k.srcs := hs.srcs
  refine ⟨_, b.module.opRec o, ?_, hwf'.valueOp_dst ho, hop, hty, hsrcs, fun block => ?_⟩
  · rw [hbound, Function.update_self]
  · refine verifyOp_ok_iff.mpr ⟨decide_eq_true hdst, hwf'.value_type _ hdst, ?_⟩
    rw [hop, hty, hsrcs, ← htype]
    exact congrArg _ (List.map_congr_left fun u hu => hg.valueType (hsrc u hu))

theorem lt_of_vexValidValue {m : Module} {v : Nat} (h : vexValidValue m v = true) :
    v < m.values.length := by
  by_contra hge
  have hrec : m.valueRec v = Module.defaultValue := List.getD_eq_default _ _ (Nat.le_of_not_lt hge)
  rw [vexValidValue, Module.valueType, hrec] at h
  simp [Module.defaultValue] at h

/-- A conversion that `xair_vex_emit_unop` has built. -/
theorem vexEmitUnop_verified (hwf : a.module.WF)
    (h : vexEmitUnop tmp irop src name a = (.ok (), a')) :
    ∃ s n opcode, irop = some s ∧ NamesUnop s (a.module.valueType src).bits n opcode ∧
      a'.Verified tmp opcode (typeI n) [src] := by
  rw [vexEmitUnop, Effect.get_bind] at h
  split at h
  · cases h
  · next hvalid =>
    have hsrc := lt_of_vexValidValue (by simpa using hvalid)
    cases hmap : vexMapUnop irop (a.module.valueType src) with
    | error e =>
      rw [hmap] at h
      cases h
    | ok r =>
      obtain ⟨opcode, out⟩ := r
      rw [hmap] at h
      cases irop with
      | none => cases hmap
      | some s =>
        obtain ⟨hkind, n, hname, rfl⟩ := vexMapUnop_ok_iff.mp hmap
        refine ⟨s, n, opcode, rfl, hname, ?_⟩
        refine @verified_of_build a a' tmp name _ ⟨a.current, opcode, typeI n, [src], 0#64, .le⟩ hwf
          (by simpa using hsrc) (typeRule_unop hname hkind) ?_ h
        exact if_neg (by simp [Module.validValue, hsrc])

/-- An operation that `xair_vex_emit_binop` has built. -/
theorem vexEmitBinop_verified (hwf : a.module.WF)
    (hl : (a.module.valueType lhs).isInt = true) (hr : (a.module.valueType rhs).isInt = true)
    (h : vexEmitBinop tmp irop lhs rhs name a = (.ok (), a')) :
    ∃ s opcode, irop = some s ∧ NamesBinop s (a.module.valueType lhs).bits opcode ∧
      a'.Verified tmp opcode (binopType opcode (a.module.valueType lhs)) [lhs, rhs] := by
  rw [vexEmitBinop, Effect.get_bind] at h
  split at h
  · cases h
  · next hvalid =>
    simp only [Bool.or_eq_true, Bool.not_eq_true', not_or, Bool.not_eq_false] at hvalid
    have hlhs := lt_of_vexValidValue hvalid.1
    have hrhs := lt_of_vexValidValue hvalid.2
    split at h
    · cases h
    · next htypes =>
      cases hmap : vexMapBinop irop (a.module.valueType lhs) with
      | error e =>
        rw [hmap] at h
        cases h
      | ok r =>
        obtain ⟨opcode, out⟩ := r
        rw [hmap] at h
        cases irop with
        | none => cases hmap
        | some s =>
          obtain ⟨hname, rfl⟩ := vexMapBinop_ok_iff.mp hmap
          have hshift : a.module.valueType lhs ≠ a.module.valueType rhs →
              vexIsShift (some s) = true := by
            intro hne
            by_contra hno
            exact htypes ⟨hne, by simpa using hno⟩
          refine ⟨s, opcode, rfl, hname, ?_⟩
          refine @verified_of_build a a' tmp name _ ⟨a.current, opcode, _, [lhs, rhs], 0#64, .le⟩
            hwf (by simp [hlhs, hrhs]) (typeRule_binop hname hl hr hshift) ?_ h
          exact if_neg (by simp [Module.validValue, hlhs, hrhs])

/-- **The operators of the adapter.**  The two maps accept exactly the names of the grammar whose
width is that of the operand, with the opcode that the name says, and what is built from a name
and integer operands is accepted by `verify_op`. -/
theorem vexOperators :
    (∀ s t opcode out, vexMapBinop (some s) t = .ok (opcode, out) ↔
      NamesBinop s t.bits opcode ∧ out = binopType opcode t) ∧
    (∀ s t opcode out, vexMapUnop (some s) t = .ok (opcode, out) ↔
      t.kind = .int ∧ ∃ n, NamesUnop s t.bits n opcode ∧ out = typeI n) ∧
    (∀ (a a' : VexAdapter) tmp irop src name, a.module.Reachable →
      vexEmitUnop tmp irop src name a = (.ok (), a') →
      ∃ s n opcode, irop = some s ∧ NamesUnop s (a.module.valueType src).bits n opcode ∧
        a'.Verified tmp opcode (typeI n) [src]) ∧
    ∀ (a a' : VexAdapter) tmp irop lhs rhs name, a.module.Reachable →
      (a.module.valueType lhs).isInt = true → (a.module.valueType rhs).isInt = true →
      vexEmitBinop tmp irop lhs rhs name a = (.ok (), a') →
      ∃ s opcode, irop = some s ∧ NamesBinop s (a.module.valueType lhs).bits opcode ∧
        a'.Verified tmp opcode (binopType opcode (a.module.valueType lhs)) [lhs, rhs] :=
  ⟨fun _ _ _ _ => vexMapBinop_ok_iff, fun _ _ _ _ => vexMapUnop_ok_iff,
    fun _ _ _ _ _ _ hreach h => vexEmitUnop_verified (wf_reachable hreach) h,
    fun _ _ _ _ _ _ _ hreach hl hr h => vexEmitBinop_verified (wf_reachable hreach) hl hr h⟩

/-- A signed comparison, and a byte that is widened. -/
theorem vexOperators_widen : NamesBinop (literalName "Iop_CmpLT32S") 32 .slt ∧
    ∃ (a : VexAdapter) (n : Nat) (opcode : Opcode), a.Verified 1 opcode (typeI n) [0] := by
  refine ⟨((vexOperators.1 _ (typeI 32) .slt (typeI 1)).mp (by decide)).1, ?_⟩
  have hrun : ∃ a', vexEmitUnop 1 (some (literalName "Iop_8Uto32")) 0 none
      ⟨runCalls Module.create [.blockCreate none, .blockAddParam 0 (typeI 8) none], 0, none,
        ⟨0, fun _ => none⟩, fun _ => none, 0, [], 0⟩ = (.ok (), a') := ⟨_, rfl⟩
  obtain ⟨a', hrun⟩ := hrun
  obtain ⟨s, n, opcode, -, -, hverified⟩ := vexOperators.2.2.1 _ _ _ _ _ _ ⟨_, rfl⟩ hrun
  exact ⟨a', n, opcode, hverified⟩

end Emit

end Xair
