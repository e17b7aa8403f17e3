import Mathlib.Data.List.Basic
import Mathlib.Tactic.Common

/-!
# Runs of a partial step function

`step s c` is the state after call `c` in state `s`, if the call succeeds.  `run` makes a list of
calls one after the other, and `trace` lists each call with the state in which it is made.  A
property of states that every call keeps holds at the end of a run (`run_keeps`), and a property
that every call keeps until one with `Q` comes gives way there to another one (`run_switches`).
-/

namespace PartialRun

variable {σ ι : Type} (step : σ → ι → Option σ)

/-- The state after the calls, if all of them succeed. -/
def run : σ → List ι → Option σ
  | s, [] => some s
  | s, c :: cs => (step s c).bind fun s' => run s' cs

/-- The calls that are made, each with the state before it. -/
def trace : σ → List ι → List (σ × ι)
  | _, [] => []
  | s, c :: cs => (s, c) :: (step s c).elim [] fun s' => trace s' cs

section Rules

variable {step} {s s' t : σ} {c : ι} {cs ds : List ι} {I J : σ → Prop} {P Q : σ → ι → Prop}

theorem run_cons : run step s (c :: cs) = some t ↔
    ∃ s', step s c = some s' ∧ run step s' cs = some t := by
  rw [run, Option.bind_eq_some_iff]

theorem trace_cons (h : step s c = some s') :
    trace step s (c :: cs) = (s, c) :: trace step s' cs := by
  rw [trace, h]
  rfl

theorem trace_calls (h : run step s cs = some t) : (trace step s cs).map Prod.snd = cs := by
  induction cs generalizing s with
  | nil => rfl
  | cons c cs ih =>
    obtain ⟨s', hs, hrun⟩ := run_cons.mp h
    rw [trace_cons hs, List.map_cons, ih hrun]

theorem mem_trace (h : run step s cs = some t) (hc : c ∈ cs) : ∃ u, (u, c) ∈ trace step s cs := by
  rw [← trace_calls h] at hc
  obtain ⟨p, hp, rfl⟩ := List.mem_map.mp hc
  exact ⟨p.1, hp⟩

/-- **Invariants of a run.** -/
theorem run_keeps (hstep : ∀ s c s', I s → P s c → step s c = some s' → I s') (hs : I s)
    (hP : ∀ p ∈ trace step s cs, P p.1 p.2) (h : run step s cs = some t) : I t := by
  induction cs generalizing s with
  | nil =>
    cases h
    exact hs
  | cons c cs ih =>
    obtain ⟨s', hs', hrun⟩ := run_cons.mp h
    rw [trace_cons hs', List.forall_mem_cons] at hP
    exact ih (hstep s c s' hs hP.1 hs') hP.2 hrun

/-- **A run in two phases.**  `I` is kept by calls without `Q`, the first call with `Q` gives `J`,
and `J` stays. -/
theorem run_switches (hkeep : ∀ s c s', I s → P s c → ¬ Q s c → step s c = some s' → I s')
    (hswitch : ∀ s c s', I s → P s c → Q s c → step s c = some s' → J s')
    (hstay : ∀ s c s', J s → P s c → step s c = some s' → J s') (hs : I s)
    (hP : ∀ p ∈ trace step s cs, P p.1 p.2) (h : run step s cs = some t) :
    ((∀ p ∈ trace step s cs, ¬ Q p.1 p.2) → I t) ∧
      ((∃ p ∈ trace step s cs, Q p.1 p.2) → J t) := by
  induction cs generalizing s with
  | nil =>
    cases h
    refine ⟨fun _ => hs, ?_⟩
    rintro ⟨_, hp, -⟩
    cases hp
  | cons c cs ih =>
    obtain ⟨s', hs', hrun⟩ := run_cons.mp h
    rw [trace_cons hs', List.forall_mem_cons] at hP
    rw [trace_cons hs', List.forall_mem_cons]
    by_cases hQ : Q s c
    · refine ⟨fun hn => absurd hQ hn.1, fun _ => ?_⟩
      exact run_keeps hstay (hswitch s c s' hs hP.1 hQ hs') hP.2 hrun
    · obtain ⟨hI, hJ⟩ := ih (hkeep s c s' hs hP.1 hQ hs') hP.2 hrun
      refine ⟨fun hn => hI hn.2, ?_⟩
      rintro ⟨p, hp, hp'⟩
      rcases List.mem_cons.mp hp with rfl | hp
      · exact absurd hp' hQ
      · exact hJ ⟨p, hp, hp'⟩

end Rules

end PartialRun
