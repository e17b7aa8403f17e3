import Mathlib.Data.List.Basic

/-!
# Codes without separators

A code of which no written form is a proper prefix of another can be read back from the front
of any list (`PrefixCode`).  So can the rows of a table whose number is known
(`prefixCode_table`).
-/

namespace Xair

variable {α β : Type*}

/-- What is written for the elements with `P` can be read back from the front of a list. -/
def PrefixCode (P : α → Prop) (enc : α → List β) : Prop :=
  ∀ ⦃x y⦄, P x → P y → ∀ ⦃r s⦄, enc x ++ r = enc y ++ s → x = y ∧ r = s

section Table

variable {P : α → Prop} {enc : Nat → α → List β}

/-- The rows of a table from number `i` on. -/
theorem prefixCode_rows (h : ∀ i, PrefixCode P (enc i)) {xs ys : List α}
    (hlen : xs.length = ys.length) (hx : ∀ x ∈ xs, P x) (hy : ∀ y ∈ ys, P y) (i : Nat)
    {r s : List β} (he : (xs.mapIdx fun k x => enc (i + k) x).flatten ++ r =
      (ys.mapIdx fun k y => enc (i + k) y).flatten ++ s) : xs = ys ∧ r = s := by
  induction xs generalizing ys i with
  | nil =>
    obtain rfl : ys = [] := List.eq_nil_of_length_eq_zero hlen.symm
    exact ⟨rfl, he⟩
  | cons x xs ih =>
    cases ys with
    | nil => cases hlen
    | cons y ys =>
      simp only [List.mapIdx_cons, List.flatten_cons, List.append_assoc, Nat.add_zero] at he
      obtain ⟨rfl, htail⟩ := h i (hx x List.mem_cons_self) (hy y List.mem_cons_self) he
      have hnext : (fun k x => enc (i + (k + 1)) x) = fun k x => enc (i + 1 + k) x := by
        funext k x
        rw [Nat.add_right_comm, ← Nat.add_assoc]
      rw [hnext] at htail
      obtain ⟨rfl, hrest⟩ := ih (Nat.succ.inj hlen) (fun z hz => hx z (List.mem_cons_of_mem x hz))
        (fun z hz => hy z (List.mem_cons_of_mem x hz)) (i + 1) htail
      exact ⟨rfl, hrest⟩

/-- Tables of as many rows are read back. -/
theorem prefixCode_table (h : ∀ i, PrefixCode P (enc i)) {xs ys : List α}
    (hlen : xs.length = ys.length) (hx : ∀ x ∈ xs, P x) (hy : ∀ y ∈ ys, P y) {r s : List β}
    (he : (xs.mapIdx enc).flatten ++ r = (ys.mapIdx enc).flatten ++ s) : xs = ys ∧ r = s :=
  prefixCode_rows h hlen hx hy 0 (by simpa only [Nat.zero_add] using he)

end Table

end Xair
