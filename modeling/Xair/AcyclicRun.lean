import Mathlib.Data.List.Nodup
import Mathlib.Data.List.Perm.Subperm
import Mathlib.Logic.Relation
import Xair.BoundedRun

/-!
# Runs without loops

A bounded run whose steps follow the edges of a graph passes each place at most once when
no place it can get to leads back to itself (`reaches_places`), so among finitely many
places it halts (`run_halts`).
-/

namespace BoundedRun

open Relation (ReflTransGen TransGen)

variable {σ ρ α : Type} {step : σ → Outcome ρ σ} {place : σ → α} {E : α → α → Prop}

theorem reaches_path (hstep : ∀ s s', step s = .next s' → E (place s) (place s')) {n : Nat}
    {s t : σ} (h : Reaches step n s t) : ReflTransGen E (place s) (place t) :=
  reaches_induct (I := fun t => ReflTransGen E (place s) (place t))
    (fun _ _ hs hu => hs.tail (hstep _ _ hu)) h .refl

/-- The places of a run are distinct when none of them leads back to itself. -/
theorem reaches_places (hstep : ∀ s s', step s = .next s' → E (place s) (place s')) {n : Nat}
    {s t : σ} (h : Reaches step n s t)
    (hacyclic : ∀ p, ReflTransGen E (place s) p → ¬ TransGen E p p) :
    ∃ ps : List α, ps.length = n + 1 ∧ ps.Nodup ∧
      ∀ p ∈ ps, ∃ k u, Reaches step k s u ∧ place u = p := by
  induction n generalizing s with
  | zero => exact ⟨[place s], rfl, by simp, by simpa using ⟨0, s, rfl, rfl⟩⟩
  | succ n ih =>
    obtain ⟨u, hu, h⟩ := h
    have hE := hstep s u hu
    obtain ⟨ps, hlen, hnodup, hvisit⟩ := ih h fun p hp => hacyclic p (.head hE hp)
    refine ⟨place s :: ps, congrArg (· + 1) hlen, List.nodup_cons.mpr ⟨fun hmem => ?_, hnodup⟩, ?_⟩
    · -- a second visit would close a loop
      obtain ⟨k, v, hv, hplace⟩ := hvisit _ hmem
      exact hacyclic _ .refl (TransGen.head' hE (hplace ▸ reaches_path hstep hv))
    · intro p hp
      rcases List.mem_cons.mp hp with rfl | hp
      · exact ⟨0, s, rfl, rfl⟩
      · obtain ⟨k, v, hv, hplace⟩ := hvisit p hp
        exact ⟨k + 1, v, ⟨u, hu, hv⟩, hplace⟩

/-- **Runs without loops halt**, within as many steps as there are places. -/
theorem run_halts (place : σ → α)
    (hstep : ∀ s s', step s = .next s' → E (place s) (place s')) (out : σ → ρ)
    {places : List α} {s : σ} (hacyclic : ∀ p, ReflTransGen E (place s) p → ¬ TransGen E p p)
    (hplaces : ∀ n t, Reaches step n s t → place t ∈ places) :
    ∃ k < places.length, ∃ u r t, Reaches step k s u ∧ step u = .halt r t := by
  rcases @run_cases _ _ step out places.length s with
    ⟨t, ht, -⟩ | ⟨k, hk, u, r, t, hu, hr, -⟩
  · -- one place too many
    obtain ⟨ps, hlen, hnodup, hvisit⟩ := reaches_places hstep ht hacyclic
    have hsub : ps ⊆ places := fun p hp => by
      obtain ⟨k, u, hu, rfl⟩ := hvisit p hp
      exact hplaces k u hu
    have hle := (hnodup.subperm hsub).length_le
    omega
  · exact ⟨k, hk, u, r, t, hu, hr⟩

end BoundedRun
