import Mathlib.Data.List.Basic
import Mathlib.Data.List.Count
import Mathlib.Logic.Relation
import Mathlib.Tactic.Common

/-!
# Depth-first marking

Marking the nodes below `n` that a list of roots reaches in a graph given by its
successor lists.  The search carries a set of marks and a bound on its depth; a
bound above the number of unmarked nodes is never met, because every level marks
a new node.

`Marks` is the specification of a search that starts from an arbitrary set of
marks.  It composes along the list of roots, and from no marks at all it says
that the marked nodes are the reachable ones (`Marks.iff`).
-/

namespace MarkSearch

variable (n : Nat) (succ : Nat → List Nat)

/-- Mark `v` and what it reaches, to depth `fuel`. -/
def mark : Nat → (Nat → Bool) → Nat → Nat → Bool
  | 0, s, _ => s
  | fuel + 1, s, v =>
    if decide (n ≤ v) || s v then s
    else (succ v).foldl (mark fuel) fun u => u == v || s u

/-- `w` is a successor of `v`. -/
def Edge (v w : Nat) : Prop := w ∈ succ v

/-- The number of unmarked nodes. -/
def unmarked (s : Nat → Bool) : Nat := (List.range n).countP fun v => !s v

/-- `t` adds to `s` what the nodes `vs` reach. -/
structure Marks (s t : Nat → Bool) (vs : List Nat) : Prop where
  mono : ∀ u, s u = true → t u = true
  roots : ∀ v ∈ vs, v < n → t v = true
  closed : ∀ u, t u = true → s u = false → ∀ w ∈ succ u, w < n → t w = true
  sound : ∀ u, t u = true → s u = false →
    u < n ∧ ∃ v ∈ vs, v < n ∧ Relation.ReflTransGen (Edge succ) v u

section Rules

variable {n : Nat} {succ : Nat → List Nat} {s t r : Nat → Bool}

theorem unmarked_mono (h : ∀ u, s u = true → t u = true) : unmarked n t ≤ unmarked n s := by
  refine List.countP_mono_left fun u _ hu => ?_
  cases hs : s u with
  | false => rfl
  | true => rw [h u hs] at hu; exact hu

theorem unmarked_insert {v : Nat} (hv : v < n) (hs : s v = false) :
    unmarked n (fun u => u == v || s u) < unmarked n s := by
  simp only [unmarked]
  induction n with
  | zero => omega
  | succ n ih =>
    rw [List.range_succ, List.countP_append, List.countP_append, List.countP_singleton,
      List.countP_singleton]
    have hle : (List.range n).countP (fun u => !(u == v || s u)) ≤
        (List.range n).countP fun u => !s u :=
      List.countP_mono_left fun u _ hu => by
        cases h : s u with
        | false => rfl
        | true => simp [h] at hu
    by_cases hvn : v = n
    · subst hvn
      rw [if_neg (by simp), if_pos (by simp [hs])]
      omega
    · have hlt := ih (by omega)
      have hlast : (!(n == v || s n)) = !s n := by simp [Ne.symm hvn]
      rw [hlast]
      omega

theorem Marks.refl (s : Nat → Bool) : Marks n succ s s [] :=
  ⟨fun _ h => h, by simp, fun u h h' => by simp [h] at h', fun u h h' => by simp [h] at h'⟩

theorem Marks.append {vs ws : List Nat} (h : Marks n succ s t vs) (h' : Marks n succ t r ws) :
    Marks n succ s r (vs ++ ws) where
  mono u hu := h'.mono u (h.mono u hu)
  roots v hv hvn := by
    rcases List.mem_append.mp hv with hv | hv
    · exact h'.mono v (h.roots v hv hvn)
    · exact h'.roots v hv hvn
  closed u hu hs w hw hwn := by
    cases ht : t u with
    | true => exact h'.mono w (h.closed u ht hs w hw hwn)
    | false => exact h'.closed u hu ht w hw hwn
  sound u hu hs := by
    cases ht : t u with
    | true =>
      obtain ⟨hun, v, hv, hvn, hr⟩ := h.sound u ht hs
      exact ⟨hun, v, List.mem_append_left _ hv, hvn, hr⟩
    | false =>
      obtain ⟨hun, v, hv, hvn, hr⟩ := h'.sound u hu ht
      exact ⟨hun, v, List.mem_append_right _ hv, hvn, hr⟩

/-- A search over a list, from a search of one node. -/
theorem foldl_marks {f : (Nat → Bool) → Nat → Nat → Bool} (bound : Nat)
    (hf : ∀ s v, unmarked n s ≤ bound → Marks n succ s (f s v) [v]) (vs : List Nat)
    (hs : unmarked n s ≤ bound) : Marks n succ s (vs.foldl f s) vs := by
  induction vs generalizing s with
  | nil => exact .refl s
  | cons v vs ih =>
    have hv := hf s v hs
    exact hv.append (ih (Nat.le_trans (unmarked_mono hv.mono) hs))

/-- **Search.**  A bound above the number of unmarked nodes is enough. -/
theorem mark_marks (fuel : Nat) (s : Nat → Bool) (v : Nat) (h : unmarked n s < fuel) :
    Marks n succ s (mark n succ fuel s v) [v] := by
  induction fuel generalizing s v with
  | zero => omega
  | succ fuel ih =>
    rw [mark]
    split
    · next hc =>
      simp only [Bool.or_eq_true, decide_eq_true_eq] at hc
      refine ⟨fun _ h => h, fun u hu hun => ?_, fun u h h' => by simp [h] at h',
        fun u h h' => by simp [h] at h'⟩
      rw [List.mem_singleton] at hu
      subst hu
      exact hc.resolve_left (by omega)
    · next hc =>
      simp only [Bool.or_eq_true, decide_eq_true_eq, not_or, Bool.not_eq_true, Nat.not_le] at hc
      obtain ⟨hvn, hsv⟩ := hc
      have hlt := unmarked_insert hvn hsv
      have hm := foldl_marks (s := fun u => u == v || s u) (unmarked n s - 1)
        (fun s' w hs' => ih s' w (by omega)) (succ v) (by omega)
      refine ⟨fun u hu => hm.mono u (by simp [hu]), fun u hu _ => ?_, fun u hu hs w hw hwn => ?_,
        fun u hu hs => ?_⟩
      · rw [List.mem_singleton] at hu
        subst hu
        exact hm.mono u (by simp)
      · by_cases huv : u = v
        · subst huv; exact hm.roots w hw hwn
        · exact hm.closed u hu (by simp [huv, hs]) w hw hwn
      · by_cases huv : u = v
        · subst huv; exact ⟨hvn, u, by simp, hvn, .refl⟩
        · obtain ⟨hun, w, hw, -, hr⟩ := hm.sound u hu (by simp [huv, hs])
          exact ⟨hun, v, by simp, hvn, .head hw hr⟩

/-- From no marks at all, the marked nodes are the reachable ones. -/
theorem Marks.iff {vs : List Nat} (h : Marks n succ (fun _ => false) t vs)
    (hsucc : ∀ v < n, ∀ w ∈ succ v, w < n) {u : Nat} :
    t u = true ↔ ∃ v ∈ vs, v < n ∧ Relation.ReflTransGen (Edge succ) v u := by
  constructor
  · intro hu
    exact (h.sound u hu rfl).2
  · rintro ⟨v, hv, hvn, hr⟩
    have key : u < n ∧ t u = true := by
      induction hr with
      | refl => exact ⟨hvn, h.roots v hv hvn⟩
      | tail _ hw ih => exact ⟨hsucc _ ih.1 _ hw, h.closed _ ih.2 rfl _ hw (hsucc _ ih.1 _ hw)⟩
    exact key.2

end Rules

end MarkSearch
