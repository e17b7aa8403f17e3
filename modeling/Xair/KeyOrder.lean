import Mathlib.Data.List.Basic
import Mathlib.Data.List.Perm.Basic

/-!
# Comparisons by keys

A comparison that decides at the first key that differs is a chain of `Ordering.then`:
each test for a difference is one link (`ite_ne_then`), where the keys are compared
(`ite_lt_gt`).  The laws of the chain are those of its keys.

Under a comparison with these laws the elements of a list have exactly one sorted order
(`eq_of_sorted`); for two elements it is `arrange`.
-/

namespace KeyOrder

variable {α : Type}

theorem then_of_ne {o rest : Ordering} (h : o ≠ .eq) : o.then rest = o := by
  cases o with
  | lt => rfl
  | gt => rfl
  | eq => exact absurd rfl h

section Links

variable {β : Type} [Ord β] [Std.LawfulEqOrd β]

theorem compare_ne_eq {a b : β} (hab : a ≠ b) : compare a b ≠ .eq :=
  fun h => hab (Std.LawfulEqOrd.eq_of_compare h)

/-- Values that differ are decided by their keys; equal values leave it to the rest. -/
theorem ite_ne_then (key : α → β) {a b : α} [Decidable (a ≠ b)] {decided rest rest' : Ordering}
    (hkey : key a = key b → a = b) (hdecided : a ≠ b → decided = compare (key a) (key b))
    (hrest : a = b → rest = rest') :
    (if a ≠ b then decided else rest) = (compare (key a) (key b)).then rest' := by
  by_cases hab : a = b
  · rw [if_neg (not_not.mpr hab), hrest hab, hab, Std.ReflOrd.compare_self]
    rfl
  · have hne : key a ≠ key b := fun h => hab (hkey h)
    rw [if_pos hab, hdecided hab, then_of_ne (compare_ne_eq hne)]

/-- Two keys that differ are compared by one test. -/
theorem ite_lt_gt [LT β] [LE β] [DecidableLT β] [Std.LawfulOrderOrd β] [Std.LawfulOrderLT β]
    {a b : β} (hab : a ≠ b) : (if a < b then Ordering.lt else .gt) = compare a b := by
  cases hc : compare a b with
  | lt => rw [if_pos (Std.compare_eq_lt.mp hc)]
  | gt =>
    rw [if_neg]
    intro hlt
    rw [Std.compare_eq_lt.mpr hlt] at hc
    cases hc
  | eq => exact absurd hc (compare_ne_eq hab)

/-- A value that stands in for none is a key where both are present or neither is. -/
theorem eq_of_getD {x y : Option α} {d : α} (hsome : x.isSome = y.isSome)
    (h : x.getD d = y.getD d) : x = y := by
  cases x with
  | none =>
    cases y with
    | none => rfl
    | some b => cases hsome
  | some a =>
    cases y with
    | none => cases hsome
    | some b => exact congrArg some h

end Links

section Sorted

variable (cmp : α → α → Ordering)

/-- No element comes after a later one. -/
def Sorted (l : List α) : Prop := l.Pairwise fun a b => (cmp a b).isLE = true

/-- Two elements, the lower first. -/
def arrange (a b : α) : List α := if cmp a b = .gt then [b, a] else [a, b]

variable {cmp}

theorem sorted_pair {a b : α} : Sorted cmp [a, b] ↔ cmp a b ≠ .gt := by
  rw [Sorted, List.pairwise_pair]
  cases cmp a b <;> decide

theorem sorted_of_short {l : List α} (h : l.length < 2) : Sorted cmp l := by
  cases l with
  | nil => exact List.Pairwise.nil
  | cons a l =>
    cases l with
    | nil => exact List.pairwise_singleton _ a
    | cons b l =>
      rw [List.length_cons, List.length_cons] at h
      omega

theorem arrange_perm (a b : α) : (arrange cmp a b).Perm [a, b] := by
  rw [arrange]
  split
  · exact List.Perm.swap a b []
  · exact List.Perm.refl _

variable [Std.OrientedCmp cmp]

theorem arrange_sorted (a b : α) : Sorted cmp (arrange cmp a b) := by
  rw [arrange]
  split
  · next hgt =>
    have hlt : cmp b a = .lt := Std.OrientedCmp.lt_of_gt hgt
    refine sorted_pair.mpr ?_
    rw [hlt]
    decide
  · next hgt =>
    exact sorted_pair.mpr hgt

/-- **The sorted order of given elements is unique.** -/
theorem eq_of_sorted [Std.LawfulEqCmp cmp] {l l' : List α} (hp : l.Perm l') (hl : Sorted cmp l)
    (hl' : Sorted cmp l') : l = l' := by
  refine hp.eq_of_pairwise (fun a b _ _ hab hba => ?_) hl hl'
  have heq : cmp a b = .eq := Std.OrientedCmp.isLE_antisymm hab hba
  exact Std.LawfulEqCmp.eq_of_compare heq

end Sorted

end KeyOrder
