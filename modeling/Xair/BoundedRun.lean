/-!
# Bounded runs

A machine that takes one step at a time, each step either halting with a result
or going on, is run for at most `n` steps; when the bound is reached the result
is read off the state it stopped in.  The file has the rules that proofs
about such runs use: an invariant of the steps is one of the run
(`run_induct`) and of every state on the way (`reaches_induct`), a run can be cut at every
bound (`run_add`), and two machines in step with each other have related results
(`run_rel`), also when they are so only under a condition (`run_rel_while`).
-/

namespace BoundedRun

variable {σ τ ρ ρ' : Type}

/-- What one step does: stop with a result, or go on. -/
inductive Outcome (ρ σ : Type)
  | halt (r : ρ) (s : σ)
  | next (s : σ)

/-- Run `step` at most `n` times from `s`; `out` is the result of a run that is
still going when the bound is reached. -/
def run (step : σ → Outcome ρ σ) (out : σ → ρ) : Nat → σ → ρ × σ
  | 0, s => (out s, s)
  | n + 1, s =>
    match step s with
    | .halt r s' => (r, s')
    | .next s' => run step out n s'

section Rules

variable {step : σ → Outcome ρ σ} {out : σ → ρ} {step' : τ → Outcome ρ' τ} {out' : τ → ρ'}

theorem run_succ_halt {n : Nat} {s s' : σ} {r : ρ} (h : step s = .halt r s') :
    run step out (n + 1) s = (r, s') := by
  rw [run, h]

theorem run_succ_next {n : Nat} {s s' : σ} (h : step s = .next s') :
    run step out (n + 1) s = run step out n s' := by
  rw [run, h]

/-- **Invariant rule.**  `I` holds before every step, `P` of every halt and of
every state the bound can stop in. -/
theorem run_induct {I : σ → Prop} {P : ρ → σ → Prop}
    (hnext : ∀ s s', I s → step s = .next s' → I s')
    (hhalt : ∀ s r s', I s → step s = .halt r s' → P r s')
    (hout : ∀ s, I s → P (out s) s) (n : Nat) {s : σ} (hs : I s) :
    P (run step out n s).1 (run step out n s).2 := by
  induction n generalizing s with
  | zero => exact hout s hs
  | succ n ih =>
    cases h : step s with
    | halt r s' => rw [run_succ_halt h]; exact hhalt s r s' hs h
    | next s' => rw [run_succ_next h]; exact ih (hnext s s' hs h)

/-- `t` is the state after `n` steps from `s`. -/
def Reaches (step : σ → Outcome ρ σ) : Nat → σ → σ → Prop
  | 0, s, t => s = t
  | n + 1, s, t => ∃ u, step s = .next u ∧ Reaches step n u t

theorem run_cases (n : Nat) (s : σ) :
    (∃ t, Reaches step n s t ∧ run step out n s = (out t, t)) ∨
      ∃ k < n, ∃ u r t, Reaches step k s u ∧ step u = .halt r t ∧ run step out n s = (r, t) := by
  induction n generalizing s with
  | zero => exact .inl ⟨s, rfl, rfl⟩
  | succ n ih =>
    cases h : step s with
    | halt r t => exact .inr ⟨0, Nat.succ_pos n, s, r, t, rfl, h, run_succ_halt h⟩
    | next u =>
      rw [run_succ_next h]
      rcases ih u with ⟨t, ht, hr⟩ | ⟨k, hk, v, r, t, hv, hstep, hr⟩
      · exact .inl ⟨t, ⟨u, h, ht⟩, hr⟩
      · exact .inr ⟨k + 1, Nat.succ_lt_succ hk, v, r, t, ⟨u, h, hv⟩, hstep, hr⟩

/-- **Cutting a run.**  A run goes on from a state it reaches. -/
theorem run_add {n : Nat} {s t : σ} (h : Reaches step n s t) (k : Nat) :
    run step out (n + k) s = run step out k t := by
  induction n generalizing s with
  | zero =>
    cases h
    rw [Nat.zero_add]
  | succ n ih =>
    obtain ⟨u, hu, h⟩ := h
    rw [Nat.succ_add, run_succ_next hu]
    exact ih h

theorem run_halt_add {n : Nat} {s u t : σ} {r : ρ} (h : Reaches step n s u)
    (hu : step u = .halt r t) (k : Nat) : run step out (n + (k + 1)) s = (r, t) := by
  rw [run_add h, run_succ_halt hu]

theorem reaches_induct {I : σ → Prop} (hnext : ∀ s s', I s → step s = .next s' → I s') {n : Nat}
    {s t : σ} (h : Reaches step n s t) (hs : I s) : I t := by
  induction n generalizing s with
  | zero => cases h; exact hs
  | succ n ih =>
    obtain ⟨u, hu, h⟩ := h
    exact ih h (hnext s u hs hu)

/-- Two outcomes in step: both halt with related results, both go on in related
states, or the first halts with a result that is related to everything. -/
inductive OutcomeRel (Q : ρ → σ → ρ' → τ → Prop) (R : σ → τ → Prop) :
    Outcome ρ σ → Outcome ρ' τ → Prop
  | halt {r s r' t} : Q r s r' t → OutcomeRel Q R (.halt r s) (.halt r' t)
  | next {s t} : R s t → OutcomeRel Q R (.next s) (.next t)
  | free {r s o} : (∀ r' t, Q r s r' t) → OutcomeRel Q R (.halt r s) o

/-- **Simulation rule under a condition.**  Machines that stay in step as long as the second
meets `C` have related runs under every bound up to which it does. -/
theorem run_rel_while {Q : ρ → σ → ρ' → τ → Prop} {R : σ → τ → Prop} {C : τ → Prop}
    (hstep : ∀ s t, R s t → C t → OutcomeRel Q R (step s) (step' t))
    (hout : ∀ s t, R s t → Q (out s) s (out' t) t) (n : Nat) {s : σ} {t : τ} (h : R s t)
    (hC : ∀ k < n, ∀ u, Reaches step' k t u → C u) :
    Q (run step out n s).1 (run step out n s).2 (run step' out' n t).1 (run step' out' n t).2 := by
  induction n generalizing s t with
  | zero => exact hout s t h
  | succ n ih =>
    have hst := hstep s t h (hC 0 (Nat.succ_pos n) t rfl)
    generalize ho : step s = o at hst
    generalize ho' : step' t = o' at hst
    cases hst with
    | halt hQ => rw [run_succ_halt ho, run_succ_halt ho']; exact hQ
    | next hR =>
      rw [run_succ_next ho, run_succ_next ho']
      exact ih hR fun k hk u hu => hC (k + 1) (Nat.succ_lt_succ hk) u ⟨_, ho', hu⟩
    | free hQ => rw [run_succ_halt ho]; exact hQ _ _

/-- **Simulation rule.**  Machines whose steps stay in step have related runs
under every bound. -/
theorem run_rel {Q : ρ → σ → ρ' → τ → Prop} {R : σ → τ → Prop}
    (hstep : ∀ s t, R s t → OutcomeRel Q R (step s) (step' t))
    (hout : ∀ s t, R s t → Q (out s) s (out' t) t) (n : Nat) {s : σ} {t : τ} (h : R s t) :
    Q (run step out n s).1 (run step out n s).2 (run step' out' n t).1 (run step' out' n t).2 :=
  run_rel_while (C := fun _ => True) (fun s t h _ => hstep s t h) hout n h fun _ _ _ _ => trivial

end Rules

end BoundedRun
