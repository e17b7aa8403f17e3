import Xair.Draft
import Xair.Simulation

/-!
# Simulations that carry more along

A simulation relates the states of two runs.  Often one wants to know that a further relation `P`
holds between them as well, and needs the simulation to see that it is kept, perhaps only in the
blocks that a run can get to.  `BlockSim.carry` says that it is enough to look at the operations
and the edges.
-/

namespace Xair

variable {σ τ : Type} {I : Interp σ} {I' : Interp τ} {m m' : Module}
  {Start : Nat → σ → τ → Prop} {At : Nat → List Nat → σ → τ → Prop} {g : Nat → Option Nat}
  {V : ExecValue → ExecValue → Prop} {Final P : σ → τ → Prop} {Free : RunResult → Prop}
  {S : Nat → Prop}

/-- Kept operations that carry `P` along. -/
theorem OpRel.carry {R : σ → τ → Prop} {opcode opcode' : Opcode} {r : Status × σ}
    {r' : Status × τ} (h : OpRel R Final opcode opcode' r r')
    (hP : ∀ e s t, r = (e, s) → r' = (e, t) → P s t) :
    OpRel (fun s t => R s t ∧ P s t) P opcode opcode' r r' := by
  cases h with
  | ok hR => exact .ok ⟨hR, hP _ _ _ rfl rfl⟩
  | fail he hc _ => exact .fail he hc (hP _ _ _ rfl rfl)

theorem SkipRel.carry {R : σ → τ → Prop} {b : Nat} {opcode : Opcode} {t : τ} {r : Status × σ}
    (h : SkipRel R Free b opcode t r) (hP : ∀ s, r = (.ok, s) → P s t) :
    SkipRel (fun s t => R s t ∧ P s t) Free b opcode t r := by
  cases h with
  | ok hR => exact .ok ⟨hR, hP _ rfl⟩
  | fail he hf => exact .fail he hf

/-- Edges that carry `P` along. -/
theorem EdgeRel.carry {s : σ} {t : τ} {target : Nat} {args args' : List Nat}
    (h : EdgeRel I I' Start s t target args args') (hS : S target)
    (hP : ∀ s' t', I.transfer s target args = (.ok, s') →
      I'.transfer t target args' = (.ok, t') → P s' t') :
    EdgeRel I I' (fun b s t => Start b s t ∧ S b ∧ P s t) s t target args args' := by
  obtain ⟨s', t', hs, ht, hst⟩ := h
  exact ⟨s', t', hs, ht, hst, hS, hP s' t' hs ht⟩

/-- Terminators that carry `P` along. -/
theorem TermRel.carry {s : σ} {t : τ} {u u' : TermRec}
    (h : TermRel I I' m m' Start V Final s t u u') (hPst : P s t)
    (htrue : u.kind = .jump ∨ u.kind = .cbranch → S u.trueTarget)
    (hfalse : u.kind = .cbranch → S u.falseTarget)
    (hP : ∀ target args args' s' t', I.transfer s target args = (.ok, s') →
      I'.transfer t target args' = (.ok, t') → P s' t') :
    TermRel I I' m m' (fun b s t => Start b s t ∧ S b ∧ P s t) V P s t u u' := by
  cases h with
  | jump hk hk' ht he => exact .jump hk hk' ht (he.carry (htrue (.inl hk)) (hP _ _ _))
  | cbranch hk hk' ht hf hc hc' hi hi' hlo he he' =>
    exact .cbranch hk hk' ht hf hc hc' hi hi' hlo (he.carry (htrue (.inr hk)) (hP _ _ _))
      (he'.carry (hfalse hk) (hP _ _ _))
  | ret hk hk' hn hr hr' hv _ => exact .ret hk hk' hn hr hr' hv hPst
  | stop hk hk' hc _ => exact .stop hk hk' hc hPst

/-- **What operations and edges keep, a simulation carries along**, inside the blocks `S` that
control does not leave. -/
theorem BlockSim.carry (h : BlockSim I I' m m' Start At g V Final Free)
    (htarget : ∀ b c, S b → m.Targets b c → S c)
    (hkeep : ∀ b o o' os s t, S b → o ∈ (m.blockRec b).ops → g o = some o' →
      At b (o :: os) s t → P s t → ∀ e s' t', I.op s (m.opRec o) = (e, s') →
        I'.op t (m'.opRec o') = (e, t') → P s' t')
    (hskip : ∀ b o os s t, S b → o ∈ (m.blockRec b).ops → g o = none → At b (o :: os) s t →
      P s t → ∀ s', I.op s (m.opRec o) = (.ok, s') → P s' t)
    (hedge : ∀ s t, P s t → ∀ target args args' s' t', I.transfer s target args = (.ok, s') →
      I'.transfer t target args' = (.ok, t') → P s' t') :
    BlockSim I I' m m' (fun b s t => Start b s t ∧ S b ∧ P s t)
      (fun b os s t => At b os s t ∧ P s t ∧ S b ∧ os ⊆ (m.blockRec b).ops) g V P Free where
  start b s t hst := by
    obtain ⟨hst, hS, hP⟩ := hst
    obtain ⟨hops, hat⟩ := h.start b s t hst
    exact ⟨hops, hat, hP, hS, List.Subset.refl _⟩
  keep b o o' os s t ho hat := by
    obtain ⟨hat, hP, hS, hsub⟩ := hat
    obtain ⟨hmem, hsub⟩ := List.cons_subset.mp hsub
    refine ((h.keep b o o' os s t ho hat).carry (P := P) fun e s' t' hs ht =>
      hkeep b o o' os s t hS hmem ho hat hP e s' t' hs ht).mono fun s' t' hst => ?_
    exact ⟨hst.1, hst.2, hS, hsub⟩
  skip b o os s t ho hat := by
    obtain ⟨hat, hP, hS, hsub⟩ := hat
    obtain ⟨hmem, hsub⟩ := List.cons_subset.mp hsub
    refine ((h.skip b o os s t ho hat).carry (P := P) fun s' hs =>
      hskip b o os s t hS hmem ho hat hP s' hs).mono fun s' hst => ?_
    exact ⟨hst.1, hst.2, hS, hsub⟩
  term b s t hat := by
    obtain ⟨hat, hP, hS, -⟩ := hat
    refine (h.term b s t hat).carry hP (fun hk => htarget b _ hS ?_)
      (fun hk => htarget b _ hS (.inr ⟨hk, .inr rfl⟩)) (hedge s t hP)
    exact hk.imp (fun hk => ⟨hk, rfl⟩) fun hk => ⟨hk, .inl rfl⟩
  final _ _ _ hst := hst.2.2

end Xair
