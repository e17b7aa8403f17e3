import Xair.Exec

/-!
# Simulation between interpreters

Two interpreters of the control loop, on two modules with the same block ids.
The second module lists, block by block, the operations that a partial map `g`
keeps of the first one's.  `BlockSim` asks for four things: kept operations stay
in step, skipped ones leave the relation intact, terminators stay in step, and
states that can stop are related by `Final`.  `BlockSim.run` turns that into a
relation between whole runs.

A skipped operation of the first module may also fail, when its failure is one
of the results `Free` that the simulation says nothing about.
-/

namespace Xair

open BoundedRun (Outcome OutcomeRel run_rel)

/-- The result of a run that ends at a failing operation. -/
def opFailure (current : Nat) (opcode : Opcode) (e : Status) : RunResult :=
  match e with
  | .errUnsupported => .ok ⟨.unsupported, current, opcode.code, []⟩
  | e => .error e

theorem runOps_cons_ok {σ : Type} {I : Interp σ} {m : Module} {b o : Nat} {os : List Nat} {s s' : σ}
    (h : I.op s (m.opRec o) = (.ok, s')) : runOps I m b (o :: os) s = runOps I m b os s' := by
  rw [runOps, h]

theorem runOps_cons_fail {σ : Type} {I : Interp σ} {m : Module} {b o : Nat} {os : List Nat}
    {s s' : σ} {e : Status} (h : I.op s (m.opRec o) = (e, s')) (he : e ≠ .ok) :
    runOps I m b (o :: os) s = .error (opFailure b (m.opRec o).opcode e, s') := by
  rw [runOps, h]
  cases e <;> first | exact absurd rfl he | rfl

/-- An operation loop that ends well goes on after its first operation. -/
theorem runOps_cons_inv {σ : Type} {I : Interp σ} {m : Module} {b o : Nat} {os : List Nat}
    {s t : σ} (h : runOps I m b (o :: os) s = .ok t) :
    ∃ s', I.op s (m.opRec o) = (.ok, s') ∧ runOps I m b os s' = .ok t := by
  cases ho : I.op s (m.opRec o) with
  | mk e s' =>
    by_cases he : e = .ok
    · subst he
      rw [runOps_cons_ok ho] at h
      exact ⟨s', rfl, h⟩
    · rw [runOps_cons_fail ho he] at h
      cases h

/-- An operation loop that ends early ends at a failing operation. -/
theorem runOps_error {σ : Type} {I : Interp σ} {m : Module} {b : Nat} (os : List Nat)
    {s s' : σ} {r : RunResult} (h : runOps I m b os s = .error (r, s')) :
    ∃ pre o post t e, os = pre ++ o :: post ∧ runOps I m b pre s = .ok t ∧
      I.op t (m.opRec o) = (e, s') ∧ e ≠ .ok ∧ r = opFailure b (m.opRec o).opcode e := by
  induction os generalizing s with
  | nil => cases h
  | cons o os ih =>
    cases ho : I.op s (m.opRec o) with
    | mk e t =>
      by_cases he : e = .ok
      · subst he
        rw [runOps_cons_ok ho] at h
        obtain ⟨pre, p, post, u, e, h1, h2, h3⟩ := ih h
        exact ⟨o :: pre, p, post, u, e, by rw [h1]; rfl, by rw [runOps_cons_ok ho]; exact h2, h3⟩
      · rw [runOps_cons_fail ho he] at h
        cases h
        exact ⟨[], o, os, s, e, rfl, rfl, ho, he, rfl⟩

/-- Two results that agree, returned values by `V`. -/
def ResultRel (V : ExecValue → ExecValue → Prop) : RunResult → RunResult → Prop
  | .ok r, .ok r' =>
    r.kind = r'.kind ∧ r.block = r'.block ∧ r.code = r'.code ∧
      List.Forall₂ V r.returns r'.returns
  | .error e, .error e' => e = e'
  | _, _ => False

theorem resultRel_eq {r r' : RunResult} (h : ResultRel Eq r r') : r = r' := by
  match r, r', h with
  | .ok ⟨k, b, c, vs⟩, .ok ⟨k', b', c', vs'⟩, ⟨h1, h2, h3, h4⟩ =>
    rw [List.forall₂_eq_eq_eq] at h4
    cases h1; cases h2; cases h3; cases h4; rfl
  | .error e, .error e', h => cases h; rfl

section Simulation

variable {σ τ : Type} (I : Interp σ) (I' : Interp τ) (m m' : Module)

/-- A kept operation: it succeeds on both sides, or fails alike. -/
inductive OpRel (R Final : σ → τ → Prop) (opcode opcode' : Opcode) :
    Status × σ → Status × τ → Prop
  | ok {s t} : R s t → OpRel R Final opcode opcode' (.ok, s) (.ok, t)
  | fail {e s t} : e ≠ .ok → opcode.code = opcode'.code → Final s t →
      OpRel R Final opcode opcode' (e, s) (e, t)

/-- A skipped operation: it succeeds and keeps the relation, or fails freely. -/
inductive SkipRel (R : σ → τ → Prop) (Free : RunResult → Prop) (b : Nat) (opcode : Opcode)
    (t : τ) : Status × σ → Prop
  | ok {s} : R s t → SkipRel R Free b opcode t (.ok, s)
  | fail {e s} : e ≠ .ok → Free (opFailure b opcode e) → SkipRel R Free b opcode t (e, s)

theorem OpRel.mono {R R' Final : σ → τ → Prop} (hR : ∀ s t, R s t → R' s t) {opcode opcode' : Opcode}
    {r : Status × σ} {r' : Status × τ} (h : OpRel R Final opcode opcode' r r') :
    OpRel R' Final opcode opcode' r r' := by
  cases h with
  | ok h => exact .ok (hR _ _ h)
  | fail he hc hf => exact .fail he hc hf

theorem SkipRel.mono {R R' : σ → τ → Prop} {Free : RunResult → Prop} {b : Nat} {opcode : Opcode}
    {t : τ} (hR : ∀ s, R s t → R' s t) {r : Status × σ} (h : SkipRel R Free b opcode t r) :
    SkipRel R' Free b opcode t r := by
  cases h with
  | ok h => exact .ok (hR _ h)
  | fail he hf => exact .fail he hf

/-- Two edges that are taken together. -/
def EdgeRel (Start : Nat → σ → τ → Prop) (s : σ) (t : τ) (target : Nat)
    (args args' : List Nat) : Prop :=
  ∃ s' t', I.transfer s target args = (.ok, s') ∧ I'.transfer t target args' = (.ok, t') ∧
    Start target s' t'

/-- Two terminators in step. -/
inductive TermRel (Start : Nat → σ → τ → Prop) (V : ExecValue → ExecValue → Prop)
    (Final : σ → τ → Prop) (s : σ) (t : τ) : TermRec → TermRec → Prop
  | jump {u u'} : u.kind = .jump → u'.kind = .jump → u'.trueTarget = u.trueTarget →
      EdgeRel I I' Start s t u.trueTarget (m.termArgsConst u false) (m'.termArgsConst u' false) →
      TermRel Start V Final s t u u'
  | cbranch {u u' c c'} : u.kind = .cbranch → u'.kind = .cbranch →
      u'.trueTarget = u.trueTarget → u'.falseTarget = u.falseTarget →
      I.read s u.condition = .ok c → I'.read t u'.condition = .ok c' →
      c.type.isI1 = true → c'.type.isI1 = true → c.lo = c'.lo →
      EdgeRel I I' Start s t u.trueTarget (m.termArgsConst u false) (m'.termArgsConst u' false) →
      EdgeRel I I' Start s t u.falseTarget (m.termArgsConst u true) (m'.termArgsConst u' true) →
      TermRel Start V Final s t u u'
  | ret {u u' xs xs'} : u.kind = .ret → u'.kind = .ret → u'.trueArgCount = u.trueArgCount →
      readAll (I.read s) (m.termArgsConst u false) = .ok xs →
      readAll (I'.read t) (m'.termArgsConst u' false) = .ok xs' →
      List.Forall₂ V xs xs' → Final s t → TermRel Start V Final s t u u'
  | stop {u u'} : u.kind = .trap ∨ u.kind = .fault → u'.kind = u.kind → u'.code = u.code →
      Final s t → TermRel Start V Final s t u u'

/-- A simulation of `I` on `m` by `I'` on `m'`. -/
structure BlockSim (Start : Nat → σ → τ → Prop) (At : Nat → List Nat → σ → τ → Prop)
    (g : Nat → Option Nat) (V : ExecValue → ExecValue → Prop) (Final : σ → τ → Prop)
    (Free : RunResult → Prop) : Prop where
  start : ∀ b s t, Start b s t →
    (m'.blockRec b).ops = (m.blockRec b).ops.filterMap g ∧ At b (m.blockRec b).ops s t
  keep : ∀ b o o' os s t, g o = some o' → At b (o :: os) s t →
    OpRel (At b os) Final (m.opRec o).opcode (m'.opRec o').opcode
      (I.op s (m.opRec o)) (I'.op t (m'.opRec o'))
  skip : ∀ b o os s t, g o = none → At b (o :: os) s t →
    SkipRel (At b os) Free b (m.opRec o).opcode t (I.op s (m.opRec o))
  term : ∀ b s t, At b [] s t →
    TermRel I I' m m' Start V Final s t (m.blockRec b).term (m'.blockRec b).term
  final : ∀ b s t, Start b s t → Final s t

variable {I I' m m'} {Start : Nat → σ → τ → Prop} {At : Nat → List Nat → σ → τ → Prop}
  {g : Nat → Option Nat} {V : ExecValue → ExecValue → Prop} {Final : σ → τ → Prop}
  {Free : RunResult → Prop}

/-- How two operation loops end. -/
inductive OpsRel (R Final : σ → τ → Prop) (Free : RunResult → Prop) :
    Except (RunResult × σ) σ → Except (RunResult × τ) τ → Prop
  | ok {s t} : R s t → OpsRel R Final Free (.ok s) (.ok t)
  | fail {r s t} : Final s t → (∃ e, r = .error e) ∨ (∃ x, r = .ok x ∧ x.returns = []) →
      OpsRel R Final Free (.error (r, s)) (.error (r, t))
  | free {r s x} : Free r → OpsRel R Final Free (.error (r, s)) x

/-- Operations in step at the head of two loops. -/
theorem opsRel_cons {R R' : σ → τ → Prop} {b o o' : Nat} {os os' : List Nat} {s : σ} {t : τ}
    (hop : OpRel R Final (m.opRec o).opcode (m'.opRec o').opcode (I.op s (m.opRec o))
      (I'.op t (m'.opRec o')))
    (hrest : ∀ s₁ t₁, I'.op t (m'.opRec o') = (.ok, t₁) → R s₁ t₁ →
      OpsRel R' Final Free (runOps I m b os s₁) (runOps I' m' b os' t₁)) :
    OpsRel R' Final Free (runOps I m b (o :: os) s) (runOps I' m' b (o' :: os') t) := by
  generalize ho : I.op s (m.opRec o) = r at hop
  generalize ho' : I'.op t (m'.opRec o') = r' at hop
  cases hop with
  | ok hR =>
    rw [runOps_cons_ok ho, runOps_cons_ok ho']
    exact hrest _ _ ho' hR
  | @fail e _ _ he hcode hf =>
    rw [runOps_cons_fail ho he, runOps_cons_fail ho' he]
    have hsame : opFailure b (m'.opRec o').opcode e = opFailure b (m.opRec o).opcode e := by
      cases e <;> simp [opFailure, hcode]
    rw [hsame]
    refine .fail hf ?_
    cases e <;> first | exact absurd rfl he | exact .inl ⟨_, rfl⟩ | exact .inr ⟨_, rfl, rfl⟩

theorem BlockSim.ops (h : BlockSim I I' m m' Start At g V Final Free) {b : Nat} (os : List Nat)
    {s : σ} {t : τ} (hat : At b os s t) :
    OpsRel (At b []) Final Free (runOps I m b os s) (runOps I' m' b (os.filterMap g) t) := by
  induction os generalizing s t with
  | nil => exact .ok hat
  | cons o os ih =>
    cases hg : g o with
    | none =>
      rw [List.filterMap_cons_none hg]
      have hskip := h.skip b o os s t hg hat
      generalize ho : I.op s (m.opRec o) = r at hskip
      cases hskip with
      | ok hR => rw [runOps_cons_ok ho]; exact ih hR
      | fail he hf => rw [runOps_cons_fail ho he]; exact .free hf
    | some o' =>
      rw [List.filterMap_cons_some hg]
      exact opsRel_cons (h.keep b o o' os s t hg hat) fun _ _ _ hR => ih hR

/-- The relation after a first part of the operations of a block. -/
theorem BlockSim.prefixOps (h : BlockSim I I' m m' Start At g V Final Free) {b : Nat}
    (pre os : List Nat) {s s' : σ} {t : τ} (hat : At b (pre ++ os) s t)
    (hs : runOps I m b pre s = .ok s') :
    ∃ t', runOps I' m' b (pre.filterMap g) t = .ok t' ∧ At b os s' t' := by
  induction pre generalizing s t with
  | nil => cases hs; exact ⟨t, rfl, hat⟩
  | cons o pre ih =>
    obtain ⟨s₁, ho, hs⟩ := runOps_cons_inv hs
    cases hg : g o with
    | none =>
      rw [List.filterMap_cons_none hg]
      have hskip := h.skip b o (pre ++ os) s t hg hat
      rw [ho] at hskip
      cases hskip with
      | ok hR => exact ih hR hs
      | fail he _ => exact absurd rfl he
    | some o' =>
      rw [List.filterMap_cons_some hg]
      have hkeep := h.keep b o o' (pre ++ os) s t hg hat
      rw [ho] at hkeep
      generalize ho' : I'.op t (m'.opRec o') = r' at hkeep
      cases hkeep with
      | ok hR =>
        rw [runOps_cons_ok ho']
        exact ih hR hs
      | fail he _ _ => exact absurd rfl he

/-- Related states at the head of the block loop. -/
def LoopRel (Start : Nat → σ → τ → Prop) (c : Nat × σ) (d : Nat × τ) : Prop :=
  c.1 = d.1 ∧ Start c.1 c.2 d.2

/-- Related ends of a run. -/
def EndRel (V : ExecValue → ExecValue → Prop) (Final : σ → τ → Prop) (Free : RunResult → Prop)
    (r : RunResult) (c : Nat × σ) (r' : RunResult) (d : Nat × τ) : Prop :=
  Free r ∨ (ResultRel V r r' ∧ Final c.2 d.2)

theorem runEdge_rel {s : σ} {t : τ} {target : Nat} {args args' : List Nat}
    (h : EdgeRel I I' Start s t target args args') :
    OutcomeRel (EndRel V Final Free) (LoopRel Start) (runEdge I s target args)
      (runEdge I' t target args') := by
  obtain ⟨s', t', hs, ht, hst⟩ := h
  simp only [runEdge, hs, ht]
  exact .next ⟨rfl, hst⟩

theorem runTerm_rel {b : Nat} {s : σ} {t : τ} {u u' : TermRec}
    (h : TermRel I I' m m' Start V Final s t u u') :
    OutcomeRel (EndRel V Final Free) (LoopRel Start) (runTerm I m b u s)
      (runTerm I' m' b u' t) := by
  cases h with
  | jump hk hk' ht he =>
    simp only [runTerm, hk, hk', ht]
    exact runEdge_rel he
  | cbranch hk hk' ht hf hc hc' hi hi' hlo he he' =>
    simp only [runTerm, hk, hk', ht, hf, hc, hc', hi, hi', hlo, Bool.not_true, Bool.false_eq_true,
      if_false]
    split
    · exact runEdge_rel he
    · exact runEdge_rel he'
  | ret hk hk' hn hr hr' hv hF =>
    simp only [runTerm, hk, hk', hn, hr, hr']
    split
    · exact .halt (.inr ⟨rfl, hF⟩)
    · exact .halt (.inr ⟨⟨rfl, rfl, rfl, hv⟩, hF⟩)
  | stop hk hk' hc hF =>
    rcases hk with hk | hk <;>
    · simp only [runTerm, hk', hk, hc]
      exact .halt (.inr ⟨⟨rfl, rfl, rfl, .nil⟩, hF⟩)

/-- Two rounds of the block loop whose operations and terminators are in step. -/
theorem runBlock_rel {R : σ → τ → Prop} {b : Nat} {s : σ} {t : τ}
    (hops : OpsRel R Final Free (runOps I m b (m.blockRec b).ops s)
      (runOps I' m' b (m'.blockRec b).ops t))
    (hterm : ∀ s t, R s t →
      TermRel I I' m m' Start V Final s t (m.blockRec b).term (m'.blockRec b).term) :
    OutcomeRel (EndRel V Final Free) (LoopRel Start) (runBlock I m (b, s))
      (runBlock I' m' (b, t)) := by
  simp only [runBlock]
  generalize runOps I m b (m.blockRec b).ops s = x at hops
  generalize runOps I' m' b (m'.blockRec b).ops t = x' at hops
  cases hops with
  | ok hR => exact runTerm_rel (hterm _ _ hR)
  | fail hF hr =>
    refine .halt (.inr ⟨?_, hF⟩)
    rcases hr with ⟨e, rfl⟩ | ⟨y, rfl, hy⟩
    · exact rfl
    · exact ⟨rfl, rfl, rfl, by rw [hy]; exact .nil⟩
  | free hf => exact .free fun _ _ => .inl hf

theorem BlockSim.block (h : BlockSim I I' m m' Start At g V Final Free) {c : Nat × σ}
    {d : Nat × τ} (hcd : LoopRel Start c d) :
    OutcomeRel (EndRel V Final Free) (LoopRel Start) (runBlock I m c) (runBlock I' m' d) := by
  obtain ⟨b, s⟩ := c
  obtain ⟨b', t⟩ := d
  obtain ⟨rfl, hst⟩ := hcd
  obtain ⟨hops, hat⟩ := h.start b s t hst
  have hrel := h.ops _ hat
  rw [← hops] at hrel
  exact runBlock_rel hrel (h.term b)

/-- A block that is followed by another one on the first side is on the second. -/
theorem BlockSim.next (h : BlockSim I I' m m' Start At g V Final Free)
    {b b' : Nat} {s s' : σ} {t : τ} (hst : Start b s t)
    (hs : runBlock I m (b, s) = .next (b', s')) :
    ∃ t', runBlock I' m' (b, t) = .next (b', t') ∧ Start b' s' t' := by
  have hb : LoopRel Start (b, s) (b, t) := ⟨rfl, hst⟩
  have hrel := h.block hb
  rw [hs] at hrel
  generalize ht : runBlock I' m' (b, t) = o at hrel
  cases hrel with
  | @next _ d hR =>
    obtain ⟨c, t'⟩ := d
    obtain ⟨rfl, hst'⟩ := hR
    exact ⟨t', rfl, hst'⟩

/-- **Simulation.**  Runs from related states end in related results. -/
theorem BlockSim.run (h : BlockSim I I' m m' Start At g V Final Free) (limit : Nat) {b : Nat}
    {s : σ} {t : τ} (hst : Start b s t) :
    Free (interpRun I m limit b s).1 ∨
      (ResultRel V (interpRun I m limit b s).1 (interpRun I' m' limit b t).1 ∧
        Final (interpRun I m limit b s).2 (interpRun I' m' limit b t).2) := by
  have hout : ∀ c d, LoopRel Start c d →
      EndRel V Final Free (stepLimitResult c) c (stepLimitResult d) d :=
    fun c d hcd => .inr ⟨⟨rfl, hcd.1, rfl, .nil⟩, h.final _ _ _ hcd.2⟩
  have hb : LoopRel Start (b, s) (b, t) := ⟨rfl, hst⟩
  exact run_rel (fun c d hcd => h.block hcd) hout limit hb

end Simulation

/-! ### One interpreter -/

section Keeps

variable {σ : Type} {I : Interp σ} {m : Module} {Q : σ → Prop}

theorem runOps_keeps (hop : ∀ s op, Q s → Q (I.op s op).2) {b : Nat} (os : List Nat) {s : σ}
    (h : Q s) :
    match runOps I m b os s with
    | .ok s' => Q s'
    | .error (_, s') => Q s' := by
  induction os generalizing s with
  | nil => exact h
  | cons o os ih =>
    have ho := hop s (m.opRec o) h
    cases hr : I.op s (m.opRec o) with
    | mk e s' =>
      rw [hr] at ho
      by_cases he : e = .ok
      · subst he
        rw [runOps_cons_ok hr]
        exact ih ho
      · rw [runOps_cons_fail hr he]
        exact ho

/-- A step of the loop leaves a state with `Q`. -/
def OutcomeKeeps (Q : σ → Prop) : Outcome RunResult (Nat × σ) → Prop
  | .halt _ c => Q c.2
  | .next c => Q c.2

theorem runEdge_keeps (htr : ∀ s target args, Q s → Q (I.transfer s target args).2) {s : σ}
    (h : Q s) (target : Nat) (args : List Nat) : OutcomeKeeps Q (runEdge I s target args) := by
  have ht := htr s target args h
  unfold runEdge
  split
  · next hs =>
    rw [hs] at ht
    exact ht
  · next hs =>
    rw [hs] at ht
    exact ht

theorem runTerm_keeps (htr : ∀ s target args, Q s → Q (I.transfer s target args).2) {s : σ}
    (h : Q s) (b : Nat) (t : TermRec) : OutcomeKeeps Q (runTerm I m b t s) := by
  unfold runTerm
  split
  · exact runEdge_keeps htr h _ _
  · split
    · exact h
    · split
      · exact h
      · split
        · exact runEdge_keeps htr h _ _
        · exact runEdge_keeps htr h _ _
  · split
    · exact h
    · split <;> exact h
  · exact h
  · exact h
  · exact h

/-- **What every operation and every edge keeps**, a run keeps. -/
theorem interpRun_keeps (hop : ∀ s op, Q s → Q (I.op s op).2)
    (htr : ∀ s target args, Q s → Q (I.transfer s target args).2) (limit b : Nat) {s : σ}
    (h : Q s) : Q (interpRun I m limit b s).2 := by
  have hblock : ∀ c, Q c.2 → OutcomeKeeps Q (runBlock I m c) := by
    rintro ⟨b, s⟩ hs
    have hops := runOps_keeps (m := m) (b := b) hop (m.blockRec b).ops hs
    unfold runBlock
    cases hr : runOps I m b (m.blockRec b).ops s with
    | error p =>
      rw [hr] at hops
      exact hops
    | ok s' =>
      rw [hr] at hops
      exact runTerm_keeps htr hops b _
  refine BoundedRun.run_induct (I := fun c : Nat × σ => Q c.2) (P := fun _ c => Q c.2) ?_ ?_
    (fun _ hs => hs) limit h
  · intro c d hc hstep
    have := hblock c hc
    rw [hstep] at this
    exact this
  · intro c r d hc hstep
    have := hblock c hc
    rw [hstep] at this
    exact this

end Keeps

/-! ### An interpreter of richer states -/

section Map

variable {σ τ : Type} {I : Interp σ} {J : Interp τ} {m : Module} {f : τ → σ}

/-- The operation loop in the states that `f` gives. -/
theorem runOps_map (hop : ∀ t op, I.op (f t) op = ((J.op t op).1, f (J.op t op).2)) {b : Nat}
    (os : List Nat) (t : τ) :
    runOps I m b os (f t) =
      match runOps J m b os t with
      | .ok t' => .ok (f t')
      | .error (r, t') => .error (r, f t') := by
  induction os generalizing t with
  | nil => rfl
  | cons o os ih =>
    have ho := hop t (m.opRec o)
    cases hr : J.op t (m.opRec o) with
    | mk e t' =>
      rw [hr] at ho
      by_cases he : e = .ok
      · subst he
        rw [runOps_cons_ok ho, runOps_cons_ok hr]
        exact ih t'
      · rw [runOps_cons_fail ho he, runOps_cons_fail hr he]

/-- The two steps of the loop end in step. -/
def InStep (f : τ → σ) : Outcome RunResult (Nat × σ) → Outcome RunResult (Nat × τ) → Prop :=
  OutcomeRel (fun r c r' d => r = r' ∧ c = (d.1, f d.2)) fun c d => c = (d.1, f d.2)

theorem runEdge_map (htr : ∀ t target args,
      I.transfer (f t) target args = ((J.transfer t target args).1, f (J.transfer t target args).2))
    (t : τ) (target : Nat) (args : List Nat) :
    InStep f (runEdge I (f t) target args) (runEdge J t target args) := by
  have h := htr t target args
  cases hr : J.transfer t target args with
  | mk e t' =>
    rw [hr] at h
    rw [runEdge, runEdge, h, hr]
    cases e
    case ok => exact .next rfl
    all_goals exact .halt ⟨rfl, rfl⟩

/-- **A run on richer states** is the run on the states that they give. -/
theorem interpRun_map (hop : ∀ t op, I.op (f t) op = ((J.op t op).1, f (J.op t op).2))
    (hread : ∀ t, I.read (f t) = J.read t)
    (htr : ∀ t target args,
      I.transfer (f t) target args = ((J.transfer t target args).1, f (J.transfer t target args).2))
    (limit b : Nat) (t : τ) :
    (interpRun I m limit b (f t)).1 = (interpRun J m limit b t).1 ∧
      (interpRun I m limit b (f t)).2 = f (interpRun J m limit b t).2 := by
  have hterm : ∀ b u t, InStep f (runTerm I m b u (f t)) (runTerm J m b u t) := by
    intro b u t
    unfold runTerm
    rw [hread]
    split
    · exact runEdge_map htr t _ _
    · split
      · exact .halt ⟨rfl, rfl⟩
      · split
        · exact .halt ⟨rfl, rfl⟩
        · split
          · exact runEdge_map htr t _ _
          · exact runEdge_map htr t _ _
    · split
      · exact .halt ⟨rfl, rfl⟩
      · split <;> exact .halt ⟨rfl, rfl⟩
    all_goals exact .halt ⟨rfl, rfl⟩
  have hblock : ∀ c d, c = (d.1, f d.2) → InStep f (runBlock I m c) (runBlock J m d) := by
    rintro - ⟨b, t⟩ rfl
    unfold runBlock
    rw [runOps_map hop]
    cases runOps J m b (m.blockRec b).ops t with
    | error p => exact .halt ⟨rfl, rfl⟩
    | ok t' => exact hterm b _ t'
  have hout : ∀ (c : Nat × σ) (d : Nat × τ), c = (d.1, f d.2) →
      stepLimitResult c = stepLimitResult d ∧ c = (d.1, f d.2) := by
    rintro - d rfl
    exact ⟨rfl, rfl⟩
  have hrun := run_rel hblock hout limit (s := (b, f t)) (t := (b, t)) rfl
  exact ⟨hrun.1, congrArg Prod.snd hrun.2⟩

end Map

end Xair
