import Mathlib.Data.List.Basic
import Mathlib.Data.List.GetD
import Mathlib.Data.List.Perm.Basic
import Mathlib.Tactic.Common

/-!
# Open addressing with linear probing

A table is a list of slots, each empty or holding an entry; an entry with hash `h`
lives at the first slot from `h` on, counted modulo the size, that was empty when
it was inserted.  `Clustered` is the invariant that makes lookups complete: between
the home of an entry and the entry there is no empty slot.  Insertion keeps it
(`insert_clustered`), also when a table is rebuilt from the entries of another
(`foldl_insert`), and a search from the home of an entry finds it (`find_isSome`).
Nothing is ever removed.
-/

namespace LinearProbe

variable {α : Type}

/-- The contents of slot `i`. -/
def slot (t : List (Option α)) (i : Nat) : Option α := t.getD i none

/-- The entries of a table. -/
def entries (t : List (Option α)) : List α := t.filterMap id

/-- The first empty slot from `i` on, among the next `n`. -/
def firstFree (t : List (Option α)) : Nat → Nat → Option Nat
  | 0, _ => none
  | n + 1, i =>
    match slot t i with
    | none => some i
    | some _ => firstFree t n ((i + 1) % t.length)

/-- The first entry from slot `i` on that meets `p`, among the next `n` slots and
before the first empty one. -/
def find (t : List (Option α)) (p : α → Bool) : Nat → Nat → Option α
  | 0, _ => none
  | n + 1, i =>
    match slot t i with
    | none => none
    | some e => if p e then some e else find t p n ((i + 1) % t.length)

/-- Put an entry into the first empty slot from its home. -/
def insert (hash : α → Nat) (t : List (Option α)) (e : α) : List (Option α) :=
  match firstFree t t.length (hash e % t.length) with
  | some i => t.set i (some e)
  | none => t

/-- Between the home of an entry and the entry there is no empty slot. -/
def Clustered (hash : α → Nat) (t : List (Option α)) : Prop :=
  ∀ j e, slot t j = some e → ∃ d < t.length, j = (hash e + d) % t.length ∧
    ∀ i < d, (slot t ((hash e + i) % t.length)).isSome = true

section Rules

variable {hash : α → Nat} {t : List (Option α)}

theorem slot_lt {j : Nat} {e : α} (h : slot t j = some e) : j < t.length := by
  by_contra hn
  rw [slot, List.getD_eq_default _ _ (by omega)] at h
  cases h

theorem mem_entries {e : α} : e ∈ entries t ↔ ∃ j, slot t j = some e := by
  simp only [entries, List.mem_filterMap, id_eq, exists_eq_right]
  constructor
  · intro h
    obtain ⟨j, hj, he⟩ := List.mem_iff_getElem.mp h
    exact ⟨j, by rw [slot, List.getD_eq_getElem _ _ hj, he]⟩
  · rintro ⟨j, hj⟩
    have hlt := slot_lt hj
    rw [slot, List.getD_eq_getElem _ _ hlt] at hj
    exact hj ▸ List.getElem_mem hlt

theorem slot_set {j k : Nat} {x : Option α} (hj : j < t.length) :
    slot (t.set j x) k = if j = k then x else slot t k := by
  simp only [slot, List.getD_eq_getElem?_getD, List.getElem?_set]
  by_cases hjk : j = k
  · subst hjk; simp [hj]
  · simp [hjk]

theorem step_mod (h d n : Nat) : ((h + d) % n + 1) % n = (h + (d + 1)) % n := by
  rw [Nat.mod_add_mod, Nat.add_assoc]

/-! ### Finding an empty slot -/

/-- The search for an empty slot passes used slots only. -/
theorem firstFree_some (n h c : Nat) {j : Nat}
    (hj : firstFree t n ((h + c) % t.length) = some j) :
    ∃ d < n, j = (h + c + d) % t.length ∧ slot t j = none ∧
      ∀ i < d, (slot t ((h + c + i) % t.length)).isSome = true := by
  induction n generalizing c with
  | zero => simp [firstFree] at hj
  | succ n ih =>
    rw [firstFree] at hj
    cases hs : slot t ((h + c) % t.length) with
    | none =>
      rw [hs] at hj
      cases hj
      exact ⟨0, by omega, rfl, hs, fun i hi => absurd hi (Nat.not_lt_zero i)⟩
    | some e =>
      rw [hs] at hj
      simp only [step_mod] at hj
      obtain ⟨d, hd, h1, h2, h3⟩ := ih (c + 1) hj
      refine ⟨d + 1, by omega, by rw [h1]; congr 1; omega, h2, fun i hi => ?_⟩
      cases i with
      | zero => simp [hs]
      | succ i =>
        have := h3 i (by omega)
        rwa [show h + c + (i + 1) = h + (c + 1) + i by omega]

/-- The search finds an empty slot when there is one within its reach. -/
theorem firstFree_isSome (n h c : Nat)
    (hd : ∃ d < n, slot t ((h + c + d) % t.length) = none) :
    ∃ j, firstFree t n ((h + c) % t.length) = some j := by
  induction n generalizing c with
  | zero => obtain ⟨d, hd, -⟩ := hd; omega
  | succ n ih =>
    rw [firstFree]
    cases hs : slot t ((h + c) % t.length) with
    | none => exact ⟨_, rfl⟩
    | some e =>
      simp only [step_mod]
      refine ih (c + 1) ?_
      obtain ⟨d, hd, hfree⟩ := hd
      cases d with
      | zero => rw [Nat.add_zero, hs] at hfree; cases hfree
      | succ d => exact ⟨d, by omega, by rwa [show h + (c + 1) + d = h + c + (d + 1) by omega]⟩

/-- A table with an unused slot has one on every probe sequence. -/
theorem exists_free (h : Nat) (hlt : (entries t).length < t.length) :
    ∃ d < t.length, slot t ((h + d) % t.length) = none := by
  obtain ⟨j, hj, hfree⟩ : ∃ j < t.length, slot t j = none := by
    by_contra hn
    push Not at hn
    have hall : ∀ x ∈ t, x.isSome = true := by
      intro x hx
      obtain ⟨j, hj, rfl⟩ := List.mem_iff_getElem.mp hx
      have := hn j hj
      rw [slot, List.getD_eq_getElem _ _ hj] at this
      exact Option.isSome_iff_ne_none.mpr this
    have hlen : (entries t).length = t.length := by
      rw [entries, List.filterMap_length_eq_length]
      simpa using hall
    omega
  refine ⟨(j + (t.length - h % t.length)) % t.length, Nat.mod_lt _ (by omega), ?_⟩
  have hmod : h % t.length < t.length := Nat.mod_lt _ (by omega)
  have hj' : (h + (j + (t.length - h % t.length)) % t.length) % t.length = j := by
    rw [Nat.add_mod_mod, ← Nat.mod_add_mod,
      show h % t.length + (j + (t.length - h % t.length)) = j + t.length by omega,
      Nat.add_mod_right, Nat.mod_eq_of_lt hj]
  rw [hj', hfree]

/-- **The search for an empty slot stops** in a table that is not full. -/
theorem firstFree_of_lt (h : Nat) (hlt : (entries t).length < t.length) :
    ∃ j, firstFree t t.length (h % t.length) = some j := by
  have := firstFree_isSome (t := t) t.length h 0 (by simpa using exists_free h hlt)
  simpa using this

/-! ### Insertion -/

theorem length_insert (e : α) : (insert hash t e).length = t.length := by
  unfold insert
  split
  · rw [List.length_set]
  · rfl

theorem entries_set {j : Nat} (hj : j < t.length) (hfree : slot t j = none) (e : α) :
    (entries (t.set j (some e))).Perm (e :: entries t) := by
  induction t generalizing j with
  | nil => simp at hj
  | cons x t ih =>
    cases j with
    | zero =>
      have hx : x = none := hfree
      subst hx
      simp [entries]
    | succ j =>
      have ht := ih (j := j) (by simpa using hj) hfree
      cases x with
      | none => simpa [entries] using ht
      | some y =>
        have hs : entries ((some y :: t).set (j + 1) (some e)) =
            y :: entries (t.set j (some e)) := rfl
        have hc : entries (some y :: t) = y :: entries t := rfl
        rw [hs, hc]
        exact (ht.cons y).trans (.swap e y _)

/-- **Insertion** into a table that is not full adds the entry and keeps every entry
reachable from its home. -/
theorem insert_clustered (hc : Clustered hash t) (hlt : (entries t).length < t.length) (e : α) :
    Clustered hash (insert hash t e) ∧ (entries (insert hash t e)).Perm (e :: entries t) := by
  obtain ⟨j, hj⟩ := firstFree_of_lt (hash e) hlt
  obtain ⟨d, hd, hjd, hfree, hpath⟩ := firstFree_some (t := t) t.length (hash e) 0 (by simpa using hj)
  simp only [Nat.add_zero] at hjd hpath
  have hjlt : j < t.length := hjd ▸ Nat.mod_lt _ (by omega)
  have hins : insert hash t e = t.set j (some e) := by rw [insert, hj]
  rw [hins]
  -- slots that were used stay used
  have hused : ∀ k, (slot t k).isSome = true → (slot (t.set j (some e)) k).isSome = true := by
    intro k hk
    rw [slot_set hjlt]
    split
    · rfl
    · exact hk
  refine ⟨fun k x hx => ?_, entries_set hjlt hfree e⟩
  rw [List.length_set]
  rw [slot_set hjlt] at hx
  split at hx
  · next hjk =>
    cases hx
    exact ⟨d, hd, hjk ▸ hjd, fun i hi => hused _ (hpath i hi)⟩
  · obtain ⟨d', hd', h1, h2⟩ := hc k x hx
    exact ⟨d', hd', h1, fun i hi => hused _ (h2 i hi)⟩

/-- **Rebuilding**: inserting a list of entries for which there is room never fails to
find a slot, and ends in a table of all entries. -/
theorem foldl_insert (es : List α) (hc : Clustered hash t)
    (hlen : (entries t).length + es.length ≤ t.length) :
    Clustered hash (es.foldl (insert hash) t) ∧
      (entries (es.foldl (insert hash) t)).Perm (es ++ entries t) ∧
      (es.foldl (insert hash) t).length = t.length ∧
      ∀ pre e post, es = pre ++ e :: post → ∃ j, firstFree (pre.foldl (insert hash) t)
        t.length (hash e % t.length) = some j := by
  induction es generalizing t with
  | nil => exact ⟨hc, .refl _, rfl, fun pre e post h => by simp at h⟩
  | cons x es ih =>
    have hlt : (entries t).length < t.length := by simp only [List.length_cons] at hlen; omega
    obtain ⟨h1, h2⟩ := insert_clustered hc hlt x
    obtain ⟨h3, h4, h5, h6⟩ := ih h1 (by
      rw [h2.length_eq, length_insert]
      simp only [List.length_cons] at hlen ⊢
      omega)
    rw [length_insert] at h5 h6
    refine ⟨h3, h4.trans ?_, h5, ?_⟩
    · exact (h2.append_left es).trans List.perm_middle
    · intro pre e post h
      cases pre with
      | nil =>
        obtain ⟨rfl, -⟩ := List.cons.inj h
        exact firstFree_of_lt (hash x) hlt
      | cons y pre =>
        obtain ⟨rfl, hes⟩ := List.cons.inj h
        exact h6 pre e post hes

theorem clustered_replicate (n : Nat) : Clustered hash (List.replicate n (none : Option α)) := by
  intro j e he
  have hlt := slot_lt he
  rw [slot, List.getD_eq_getElem _ _ hlt, List.getElem_replicate] at he
  cases he

theorem entries_replicate (n : Nat) : entries (List.replicate n (none : Option α)) = [] := by
  simp [entries]

/-! ### Search -/

theorem find_some {p : α → Bool} (n i : Nat) {e : α} (h : find t p n i = some e) :
    p e = true ∧ e ∈ entries t := by
  induction n generalizing i with
  | zero => simp [find] at h
  | succ n ih =>
    rw [find] at h
    cases hs : slot t i with
    | none => rw [hs] at h; cases h
    | some x =>
      rw [hs] at h
      by_cases hp : p x = true
      · simp only [hp, if_true, Option.some.injEq] at h
        exact h ▸ ⟨hp, mem_entries.mpr ⟨i, hs⟩⟩
      · simp only [hp, if_false, Bool.false_eq_true] at h
        exact ih _ h

theorem find_path {p : α → Bool} (n h c : Nat) {e : α} (hp : p e = true)
    (hd : ∃ d < n, slot t ((h + c + d) % t.length) = some e ∧
      ∀ i < d, (slot t ((h + c + i) % t.length)).isSome = true) :
    ∃ e', find t p n ((h + c) % t.length) = some e' := by
  induction n generalizing c with
  | zero => obtain ⟨d, hd, -⟩ := hd; omega
  | succ n ih =>
    obtain ⟨d, hd, he, hpath⟩ := hd
    rw [find]
    cases d with
    | zero =>
      rw [Nat.add_zero] at he
      rw [he]
      exact ⟨e, by simp [hp]⟩
    | succ d =>
      obtain ⟨x, hx⟩ := Option.isSome_iff_exists.mp (hpath 0 (by omega))
      rw [Nat.add_zero] at hx
      rw [hx]
      by_cases hpx : p x = true
      · exact ⟨x, by simp [hpx]⟩
      · simp only [hpx, if_false, Bool.false_eq_true, step_mod]
        refine ih (c + 1) ⟨d, by omega, ?_, fun i hi => ?_⟩
        · rwa [show h + (c + 1) + d = h + c + (d + 1) by omega]
        · have := hpath (i + 1) (by omega)
          rwa [show h + (c + 1) + i = h + c + (i + 1) by omega]

/-- **Lookups are complete**: the search from the home of an entry that meets `p`
finds an entry that does. -/
theorem find_isSome (hc : Clustered hash t) {p : α → Bool} {e : α} (he : e ∈ entries t)
    (hp : p e = true) : ∃ e', find t p t.length (hash e % t.length) = some e' := by
  obtain ⟨j, hj⟩ := mem_entries.mp he
  obtain ⟨d, hd, hjd, hpath⟩ := hc j e hj
  have := find_path (t := t) (p := p) t.length (hash e) 0 hp
    ⟨d, hd, by rw [Nat.add_zero, ← hjd, hj], by simpa using hpath⟩
  simpa using this

end Rules

end LinearProbe
