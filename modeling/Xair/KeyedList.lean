import Mathlib.Data.List.Nodup

/-!
# Lists of cells by key, grown on demand

A list of cells, each with a key, in which a cell is looked up by a scan from the
front and a missing cell is appended when it is first written.  Nothing here is
about a particular cell: `update` is read back by `lookup`, it leaves the other
keys alone, and it keeps the keys distinct.
-/

namespace KeyedList

variable {α κ : Type} [DecidableEq κ] (key : α → κ)

/-- The first cell with the key `k`. -/
def lookup (k : κ) (cells : List α) : Option α := cells.find? (fun x => decide (key x = k))

/-- Apply `f` to the first cell with the key `k`, after appending `fresh` when there
is none. -/
def update (k : κ) (fresh : α) (f : α → α) : List α → List α
  | [] => [f fresh]
  | x :: xs => if key x = k then f x :: xs else x :: update k fresh f xs

variable {key}

theorem lookup_cons_self {k : κ} {x : α} (xs : List α) (h : key x = k) :
    lookup key k (x :: xs) = some x := by
  rw [lookup, List.find?_cons_of_pos (by simpa using h)]

theorem lookup_cons_ne {k : κ} {x : α} (xs : List α) (h : key x ≠ k) :
    lookup key k (x :: xs) = lookup key k xs := by
  rw [lookup, List.find?_cons_of_neg (by simpa using h)]
  rfl

/-- A cell is found by its key when the keys are distinct. -/
theorem lookup_of_mem {cells : List α} (h : (cells.map key).Nodup) {x : α} (hx : x ∈ cells) :
    lookup key (key x) cells = some x := by
  induction cells with
  | nil => cases hx
  | cons y ys ih =>
    obtain ⟨hy, hnodup⟩ := List.nodup_cons.mp h
    rcases List.mem_cons.mp hx with rfl | hx
    · exact lookup_cons_self ys rfl
    · have hne : key y ≠ key x := fun he => hy (he ▸ List.mem_map_of_mem hx)
      rw [lookup_cons_ne ys hne, ih hnodup hx]

theorem lookup_eq_none {cells : List α} {k : κ} (h : k ∉ cells.map key) :
    lookup key k cells = none := by
  refine List.find?_eq_none.mpr fun x hx hk => h ?_
  rw [← of_decide_eq_true hk]
  exact List.mem_map_of_mem hx

section Update

variable {k : κ} {fresh : α} {f : α → α}

theorem lookup_update_self (hfresh : key fresh = k) (hf : ∀ x, key (f x) = key x) (cells : List α) :
    lookup key k (update key k fresh f cells) = some (f ((lookup key k cells).getD fresh)) := by
  induction cells with
  | nil => exact lookup_cons_self _ (by rw [hf, hfresh])
  | cons x xs ih =>
    by_cases hx : key x = k
    · rw [update, if_pos hx, lookup_cons_self _ (by rw [hf, hx]), lookup_cons_self _ hx]
      rfl
    · rw [update, if_neg hx, lookup_cons_ne _ hx, lookup_cons_ne _ hx, ih]

theorem lookup_update_ne {k' : κ} (hk : k' ≠ k) (hfresh : key fresh = k)
    (hf : ∀ x, key (f x) = key x) (cells : List α) :
    lookup key k' (update key k fresh f cells) = lookup key k' cells := by
  induction cells with
  | nil =>
    have hne : key (f fresh) ≠ k' := by
      rw [hf, hfresh]
      exact hk.symm
    rw [update, lookup_cons_ne _ hne]
  | cons x xs ih =>
    by_cases hx : key x = k
    · have hne : key x ≠ k' := by
        rw [hx]
        exact hk.symm
      rw [update, if_pos hx, lookup_cons_ne _ (by rwa [hf]), lookup_cons_ne _ hne]
    · rw [update, if_neg hx]
      by_cases hx' : key x = k'
      · rw [lookup_cons_self _ hx', lookup_cons_self _ hx']
      · rw [lookup_cons_ne _ hx', lookup_cons_ne _ hx', ih]

/-- The keys after an update are the keys before it, and the new one when it was missing. -/
theorem map_key_update (hfresh : key fresh = k) (hf : ∀ x, key (f x) = key x) (cells : List α) :
    (update key k fresh f cells).map key =
      cells.map key ++ if k ∈ cells.map key then [] else [k] := by
  induction cells with
  | nil => simp [update, hf, hfresh]
  | cons x xs ih =>
    by_cases hx : key x = k
    · simp [update, hx, hf]
    · have hx' : k ≠ key x := fun h => hx h.symm
      simp only [update, if_neg hx, List.map_cons, ih, List.mem_cons, hx', false_or,
        List.cons_append]

theorem nodup_update (hfresh : key fresh = k) (hf : ∀ x, key (f x) = key x) {cells : List α}
    (h : (cells.map key).Nodup) : ((update key k fresh f cells).map key).Nodup := by
  rw [map_key_update hfresh hf]
  split
  · rwa [List.append_nil]
  · next hk =>
    apply h.append (List.nodup_singleton k)
    intro x hx hxk
    rw [List.mem_singleton] at hxk
    exact hk (hxk ▸ hx)

end Update

end KeyedList
