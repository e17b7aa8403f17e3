import Xair.StaleValues

/-!
# Verified modules do not get stuck

Progress and preservation for the executor.  `ReachesOp` and `ReachesTerm` are the
points that a run passes.  At every one of them the values in use can be read and
have the right types, so the only ways to fail are those that depend on addresses
and memory contents, or on the number of returned values; and every value the run
defines is in range if the parameters were.

The facts hold of the reference states that mirror the executor's, where an
environment binds what the verifier counts as available.
-/

namespace Xair

open BoundedRun (Reaches)

/-! ### Points of a run -/

/-- The run reaches operation `o` of block `b` in state `t`. -/
def ReachesOp (m : Module) (entry : Nat) (s : ExecState) (limit b o : Nat) (t : ExecState) :
    Prop :=
  ∃ k < limit, ∃ s₀, Reaches (runBlock (execInterp m) m) k (entry, s) (b, s₀) ∧
    ∃ pre post, (m.blockRec b).ops = pre ++ o :: post ∧
      runOps (execInterp m) m b pre s₀ = .ok t

/-- The run reaches the terminator of block `b` in state `t`. -/
def ReachesTerm (m : Module) (entry : Nat) (s : ExecState) (limit b : Nat) (t : ExecState) :
    Prop :=
  ∃ k < limit, ∃ s₀, Reaches (runBlock (execInterp m) m) k (entry, s) (b, s₀) ∧
    runOps (execInterp m) m b (m.blockRec b).ops s₀ = .ok t

/-- An operation finds its sources and can only fail as listed. -/
structure OpSafe (m : Module) (t : ExecState) (op : OpRec) : Prop where
  reads : ∀ v ∈ op.src, ∃ x, execReadValue m t v = .ok x ∧ x.type = m.valueType v
  typed : typeRule op.opcode (m.valueType op.dst) (op.src.map m.valueType) = true
  outcome : (∃ t', execOp m t op = (.ok, t') ∧ t'.defined op.dst = true ∧
      (t'.values op.dst).type = m.valueType op.dst ∧ (t'.values op.dst).InRange) ∨
    execOp m t op = (.errUnsupported, t) ∨
    (execOp m t op = (.errBadArg, t) ∧ op.opcode.isMemoryOp ∧
      AccessWraps (m.valueType op.dst) (execReadValue m t) op) ∨
    (execOp m t op = (.errRange, t) ∧
      LoadsUndefined (m.valueType op.dst) (execReadValue m t) t.mem.pages op)

/-- An edge has a valid target whose parameters match the arguments. -/
def EdgeSafe (m : Module) (t : ExecState) (target : Nat) (args : List Nat) : Prop :=
  target < m.blocks.length ∧ List.Forall₂
    (fun arg param => ∃ x, execReadValue m t arg = .ok x ∧ x.type = m.valueType param)
    args (m.blockRec target).params

/-- A terminator exists and finds what it uses. -/
def TermSafe (m : Module) (t : ExecState) (term : TermRec) : Prop :=
  match term.kind with
  | .none => False
  | .jump => EdgeSafe m t term.trueTarget (m.termArgsConst term false)
  | .cbranch =>
    (∃ c, execReadValue m t term.condition = .ok c ∧ c.type.isI1 = true) ∧
      EdgeSafe m t term.trueTarget (m.termArgsConst term false) ∧
      EdgeSafe m t term.falseTarget (m.termArgsConst term true)
  | .ret => ∀ v ∈ m.termArgsConst term false, ∃ x, execReadValue m t v = .ok x
  | .trap => True
  | .fault => True

/-! ### Ranges -/

/-- Every bound value is in range. -/
def EnvInRange (r : RefState) : Prop := ∀ v x, r.env v = some x → x.InRange

theorem constValue_inRange (m : Module) (v : Nat) : (m.constValue v).InRange := by
  unfold Module.constValue
  split <;> exact execValueMake_inRange _ _ _

theorem EnvInRange.read {m : Module} {r : RefState} (h : EnvInRange r) {v : Nat} {x : ExecValue}
    (hx : refRead m r v = .ok x) : x.InRange := by
  unfold refRead at hx
  split at hx
  · cases hx; exact constValue_inRange m v
  · split at hx
    · next y hy => cases hx; exact h v x hy
    · cases hx

theorem envInRange_bindParams {vs : List Nat} {xs : List ExecValue}
    (h : List.Forall₂ (fun _ x => x.InRange) vs xs) (mem : ExecMemory) :
    EnvInRange ⟨bindParams vs xs, mem⟩ := by
  intro v x hx
  by_cases hv : v ∈ vs
  · obtain ⟨y, hy, hr⟩ := bindParams_some h hv
    exact Option.some.inj (hy.symm.trans hx) ▸ hr
  · cases (bindParams_none hv xs).symm.trans hx

theorem envInRange_params {s : ExecState} {vs : List Nat} (h : ∀ v ∈ vs, (s.values v).InRange) :
    EnvInRange ⟨bindParams vs (vs.map s.values), s.mem⟩ := by
  apply envInRange_bindParams
  rw [List.forall₂_map_right_iff]
  exact List.forall₂_same.mpr h

theorem refInvariant_envInRange (m : Module) : RefInvariant m EnvInRange where
  op b o av r r' hok hr hp hop := by
    unfold refOp at hop
    cases hx : execOpValue (m.valueType (m.opRec o).dst) (refRead m r) r.mem (m.opRec o) with
    | error e =>
      have hout := hok.outcome hr r.mem
      rw [hx] at hop hout
      cases hout <;> simp at hop
    | ok y =>
      rw [hx] at hop
      cases hop
      intro v x hv
      by_cases hvd : v = (m.opRec o).dst
      · simp only [RefState.define, hvd, if_true, Option.some.injEq] at hv
        exact hv ▸ (hok.value_type hr hx).2
      · simp only [RefState.define, hvd, if_false] at hv
        exact hp v x hv
  transfer av target args r r' hok hr hp htr := by
    obtain ⟨xs, hxs, hty, ht⟩ := refTransfer_ok hok hr
    rw [ht] at htr
    cases htr
    refine envInRange_bindParams ?_ _
    have hreads := List.forall₂_iff_get.mp (readAll_eq_ok hxs)
    have hlen := hok.args_ok.length_eq
    refine List.forall₂_iff_get.mpr ⟨by omega, fun i h1 h2 => ?_⟩
    exact hp.read (hreads.2 i (by omega) h2)

/-! ### Progress -/

section Progress

variable {m : Module} {P : RefState → Prop} {entry limit : Nat} {s : ExecState} {r : RefState}

/-- Every block activation of a run starts in a mirrored state. -/
theorem reaches_mirrors (hwf : m.WF) (hver : m.Verified) (hP : RefInvariant m P)
    (hst : MirrorsStart m P entry s r) {k b : Nat} {s₀ : ExecState}
    (h : Reaches (runBlock (execInterp m) m) k (entry, s) (b, s₀)) :
    ∃ r₀, MirrorsStart m P b s₀ r₀ := by
  refine BoundedRun.reaches_induct
    (I := fun (c : Nat × ExecState) => ∃ r₀, MirrorsStart m P c.1 c.2 r₀) ?_ h ⟨r, hst⟩
  rintro ⟨b, s⟩ ⟨b', s'⟩ ⟨r, hst⟩ hstep
  obtain ⟨r', -, hst'⟩ := (mirrors_blockSim hwf hver hP).next hst hstep
  exact ⟨r', hst'⟩

theorem reachesOp_mirrors (hwf : m.WF) (hver : m.Verified) (hP : RefInvariant m P)
    (hst : MirrorsStart m P entry s r) {b o : Nat} {t : ExecState}
    (h : ReachesOp m entry s limit b o t) :
    ∃ r' av, OpOk m b av o ∧ Mirrors m t r' ∧ Ready m (refRead m r') av ∧ P r' := by
  obtain ⟨k, -, s₀, hk, pre, post, hsplit, hpre⟩ := h
  obtain ⟨r₀, hst₀⟩ := reaches_mirrors hwf hver hP hst hk
  have hsim := mirrors_blockSim hwf hver hP
  have hat := (hsim.start b s₀ r₀ hst₀).2
  rw [hsplit] at hat
  obtain ⟨r', -, av, ⟨hok, -⟩, -, -, hm, hr, hp⟩ := hsim.prefixOps pre (o :: post) hat hpre
  exact ⟨r', av, hok, hm, hr, hp⟩

theorem reachesTerm_mirrors (hwf : m.WF) (hver : m.Verified) (hP : RefInvariant m P)
    (hst : MirrorsStart m P entry s r) {b : Nat} {t : ExecState}
    (h : ReachesTerm m entry s limit b t) :
    ∃ r', TermOk m (m.blockRec b).term (m.availableAtEnd b) ∧ Mirrors m t r' ∧
      Ready m (refRead m r') (m.availableAtEnd b) := by
  obtain ⟨k, -, s₀, hk, hops⟩ := h
  obtain ⟨r₀, hst₀⟩ := reaches_mirrors hwf hver hP hst hk
  have hsim := mirrors_blockSim hwf hver hP
  have hat := (hsim.start b s₀ r₀ hst₀).2
  obtain ⟨r', -, av, -, hav, hterm, hm, hr, -⟩ :=
    hsim.prefixOps (m.blockRec b).ops [] (by rwa [List.append_nil]) hops
  change av = m.availableAtEnd b at hav
  exact ⟨r', hterm, hm, hav ▸ hr⟩

/-- **Operations do not get stuck.** -/
theorem opSafe_of_mirrors {b o : Nat} {av : ValueSet} (hok : OpOk m b av o) {t : ExecState}
    (hm : Mirrors m t r) (hr : Ready m (refRead m r) av) : OpSafe m t (m.opRec o) := by
  have hready := hm.ready hr
  have hout := hok.outcome hready t.mem
  refine ⟨fun v hv => hready v (hok.sources v hv), hok.typed, ?_⟩
  unfold execOp
  cases hx : execOpValue (m.valueType (m.opRec o).dst) (execReadValue m t) t.mem (m.opRec o) with
  | ok p =>
    obtain ⟨x, mem⟩ := p
    obtain ⟨ht, hrange⟩ := hok.value_type hready hx
    refine .inl ⟨_, execDefineValue_ok (hm.ok.withMem mem) hok.dst_lt ht, ?_, ?_, ?_⟩
    · simp
    · simpa using ht
    · simpa using hrange
  | error e =>
    rw [hx] at hout
    cases hout with
    | unsupported => exact .inr (.inl rfl)
    | wraps hw =>
      refine .inr (.inr (.inl ⟨rfl, ?_, hw⟩))
      obtain ⟨address, size, -, hsize, -⟩ := hw
      unfold accessSize at hsize
      split at hsize
      · next h => exact .inl h
      · next h => exact .inr h
      · cases hsize
    | undefinedByte hu => exact .inr (.inr (.inr ⟨rfl, hu⟩))

theorem edgeSafe_of_mirrors {av : ValueSet} {target : Nat} {args : List Nat}
    (hok : EdgeOk m av target args) {t : ExecState} (hm : Mirrors m t r)
    (hr : Ready m (refRead m r) av) : EdgeSafe m t target args := by
  refine ⟨hok.target_lt, hok.args_ok.imp fun arg param h => ?_⟩
  obtain ⟨x, hx, ht⟩ := hm.ready hr arg h.1
  exact ⟨x, hx, ht.trans h.2⟩

/-- **Terminators do not get stuck.** -/
theorem termSafe_of_mirrors {av : ValueSet} {term : TermRec} (hok : TermOk m term av)
    {t : ExecState} (hm : Mirrors m t r) (hr : Ready m (refRead m r) av) : TermSafe m t term := by
  unfold TermOk at hok
  unfold TermSafe
  cases hk : term.kind with
  | none => rw [hk] at hok; exact hok
  | jump => rw [hk] at hok; exact edgeSafe_of_mirrors hok hm hr
  | cbranch =>
    rw [hk] at hok
    obtain ⟨hc, hi, ht, hf⟩ := hok
    obtain ⟨c, hcr, hct⟩ := hm.ready hr _ hc
    exact ⟨⟨c, hcr, hct ▸ hi⟩, edgeSafe_of_mirrors ht hm hr, edgeSafe_of_mirrors hf hm hr⟩
  | ret =>
    rw [hk] at hok
    intro v hv
    obtain ⟨x, hx, -⟩ := hm.ready hr v (hok v hv)
    exact ⟨x, hx⟩
  | trap => trivial
  | fault => trivial

/-- A terminator whose uses are in order stops with an error only when it returns
too many values. -/
theorem runTerm_error (hwf : m.WF) {b : Nat} {t : ExecState} {av : ValueSet}
    {term : TermRec} (hok : TermOk m term av) (hm : Mirrors m t r) (hr : Ready m (refRead m r) av)
    {e : Status} {c : Nat × ExecState}
    (h : runTerm (execInterp m) m b term t = .halt (.error e) c) :
    e = .errRange ∧ term.kind = .ret ∧ execMaxReturns < term.trueArgCount := by
  have hedge : ∀ {target args}, EdgeOk m av target args →
      runEdge (execInterp m) t target args ≠ .halt (.error e) c := by
    intro target args hok he
    obtain ⟨t', -, htr, -⟩ := hm.transfer hwf hok hr
    simp [runEdge, execInterp, htr] at he
  unfold runTerm at h
  unfold TermOk at hok
  cases hk : term.kind with
  | none => rw [hk] at hok; exact hok.elim
  | jump => simp only [hk] at h hok; exact absurd h (hedge hok)
  | cbranch =>
    simp only [hk] at h hok
    obtain ⟨hc, hi, ht, hf⟩ := hok
    obtain ⟨x, hx, hxt⟩ := hm.ready hr _ hc
    have hx' : (execInterp m).read t term.condition = .ok x := hx
    simp only [hx', hxt, hi, Bool.not_true, Bool.false_eq_true, if_false] at h
    split at h
    · exact absurd h (hedge ht)
    · exact absurd h (hedge hf)
  | ret =>
    simp only [hk] at h hok
    split at h
    · next hn => cases h; exact ⟨rfl, rfl, hn⟩
    · obtain ⟨xs, hxs, -⟩ := readAll_ok (P := fun _ _ => True)
        (m.termArgsConst term false) (fun v hv => by
          obtain ⟨x, hx, -⟩ := hm.ready hr v (hok v hv)
          exact ⟨x, hx, trivial⟩)
      have hxs' : readAll ((execInterp m).read t) (m.termArgsConst term false) = .ok xs := hxs
      rw [hxs'] at h
      cases h
  | trap => simp [hk] at h
  | fault => simp [hk] at h

/-- The status of a run that does not end well, and where it comes from. -/
theorem interpRun_error (hwf : m.WF) (hver : m.Verified) (hst : MirrorsStart m P entry s r)
    (hP : RefInvariant m P) {e : Status}
    (h : (interpRun (execInterp m) m limit entry s).1 = .error e) :
    (e = .errBadArg ∧ ∃ b o t, ReachesOp m entry s limit b o t ∧
      (m.opRec o).opcode.isMemoryOp ∧
      AccessWraps (m.valueType (m.opRec o).dst) (execReadValue m t) (m.opRec o)) ∨
    (e = .errRange ∧ ((∃ b o t, ReachesOp m entry s limit b o t ∧
        LoadsUndefined (m.valueType (m.opRec o).dst) (execReadValue m t) t.mem.pages (m.opRec o)) ∨
      ∃ b t, ReachesTerm m entry s limit b t ∧ (m.blockRec b).term.kind = .ret ∧
        execMaxReturns < (m.blockRec b).term.trueArgCount)) := by
  unfold interpRun at h
  generalize hrun : BoundedRun.run (runBlock (execInterp m) m) stepLimitResult limit (entry, s) =
    out at h
  rcases BoundedRun.run_cases limit (entry, s) with
    ⟨c, -, hc⟩ | ⟨k, hk, ⟨b, s₀⟩, res, c, hreach, hstep, hc⟩
  · rw [← hrun, hc] at h
    cases h
  · rw [← hrun, hc] at h
    change res = _ at h
    subst h
    unfold runBlock at hstep
    cases hops : runOps (execInterp m) m b (m.blockRec b).ops s₀ with
    | error p =>
      obtain ⟨res, t'⟩ := p
      simp only [hops] at hstep
      cases hstep
      obtain ⟨pre, o, post, t, e', hsplit, hpre, hop, he', hres⟩ := runOps_error _ hops
      have hro : ReachesOp m entry s limit b o t := ⟨k, hk, s₀, hreach, pre, post, hsplit, hpre⟩
      obtain ⟨r', av, hok, hm, hr, -⟩ := reachesOp_mirrors hwf hver hP hst hro
      have hop : execOp m t (m.opRec o) = (e', t') := hop
      rcases (opSafe_of_mirrors hok hm hr).outcome with ⟨_, h1, -⟩ | h1 | ⟨h1, h2⟩ | ⟨h1, h2⟩ <;>
        rw [hop] at h1 <;> cases h1
      · exact absurd rfl he'
      · cases hres
      · cases hres; exact .inl ⟨rfl, b, o, _, hro, h2⟩
      · cases hres; exact .inr ⟨rfl, .inl ⟨b, o, _, hro, h2⟩⟩
    | ok t =>
      simp only [hops] at hstep
      have hrt : ReachesTerm m entry s limit b t := ⟨k, hk, s₀, hreach, hops⟩
      obtain ⟨r', hterm, hm, hr⟩ := reachesTerm_mirrors hwf hver hP hst hrt
      obtain ⟨h1, h2, h3⟩ := runTerm_error hwf hterm hm hr hstep
      exact .inr ⟨h1, .inr ⟨b, t, hrt, h2, h3⟩⟩

end Progress

/-- A run that does not get stuck: operations and terminators find what they use,
errors come from addresses, memory contents or the number of returned values, and
what the run defines is in range if its parameters were. -/
structure RunSound (m : Module) (entry : Nat) (s : ExecState) (limit : Nat) : Prop where
  ops : ∀ b o t, ReachesOp m entry s limit b o t → OpSafe m t (m.opRec o)
  terms : ∀ b t, ReachesTerm m entry s limit b t → TermSafe m t (m.blockRec b).term
  error : ∀ e, (execRun m entry s limit).1 = .error e →
    (e = .errBadArg ∧ ∃ b o t, ReachesOp m entry s limit b o t ∧
      (m.opRec o).opcode.isMemoryOp ∧
      AccessWraps (m.valueType (m.opRec o).dst) (execReadValue m t) (m.opRec o)) ∨
    (e = .errRange ∧ ((∃ b o t, ReachesOp m entry s limit b o t ∧
        LoadsUndefined (m.valueType (m.opRec o).dst) (execReadValue m t) t.mem.pages
          (m.opRec o)) ∨
      ∃ b t, ReachesTerm m entry s limit b t ∧ (m.blockRec b).term.kind = .ret ∧
        execMaxReturns < (m.blockRec b).term.trueArgCount))
  params_inRange : (∀ v ∈ (m.blockRec entry).params, (s.values v).InRange) →
    ∀ k b s₀, Reaches (runBlock (execInterp m) m) k (entry, s) (b, s₀) →
      ∀ v ∈ (m.blockRec b).params, (s₀.values v).InRange
  ops_inRange : ∀ b o t, ReachesOp m entry s limit b o t → ∀ t',
    execOp m t (m.opRec o) = (.ok, t') → (t'.values (m.opRec o).dst).InRange

/-- **Verified modules do not get stuck.** -/
theorem execRun_sound {m : Module} (h : m.Reachable) (hver : m.Verified) {s : ExecState}
    (hs : s.Reachable m) {entry : Nat} (hb : entry < m.blocks.length)
    (hset : ∀ v ∈ (m.blockRec entry).params, s.defined v = true) (limit : Nat) :
    RunSound m entry s limit := by
  have hwf := wf_reachable h
  have hok := hs.ok hwf
  obtain ⟨hm, hst⟩ := mirrors_start hwf hok hb hset
  have htrue := refInvariant_true m
  refine ⟨?_, ?_, ?_, ?_, ?_⟩
  · intro b o t hro
    obtain ⟨r', av, hop, hm', hr', -⟩ :=
      reachesOp_mirrors hwf hver htrue ⟨hm, hst, trivial⟩ hro
    exact opSafe_of_mirrors hop hm' hr'
  · intro b t hrt
    obtain ⟨r', hterm, hm', hr'⟩ := reachesTerm_mirrors hwf hver htrue ⟨hm, hst, trivial⟩ hrt
    exact termSafe_of_mirrors hterm hm' hr'
  · intro e he
    rw [execRun, if_neg (by simp [hok.count, Module.validBlock, hb])] at he
    exact interpRun_error hwf hver ⟨hm, hst, trivial⟩ htrue he
  · intro hrange k b s₀ hk v hv
    have henv := envInRange_params hrange
    obtain ⟨r₀, hm₀, ⟨hb₀, hr₀⟩, hp₀⟩ :=
      reaches_mirrors hwf hver (refInvariant_envInRange m) ⟨hm, hst, henv⟩ hk
    obtain ⟨hlt, -⟩ := (hwf.block_params b hb₀ v).mp hv
    obtain ⟨x, hx, -⟩ := hr₀ v (valueIsAvailable_iff.mpr ⟨hlt, .inl (availableAtStart_iff.mpr hv)⟩)
    -- a parameter is no constant, so it is read from the environment
    have hc := hwf.param_not_const hb₀ hv
    cases he : r₀.env v with
    | none => simp [refRead, hc, he] at hx
    | some y => rw [(hm₀.env v y he).2]; exact hp₀ v y he
  · intro b o t hro t' ht'
    obtain ⟨r', av, hop, hm', hr', -⟩ :=
      reachesOp_mirrors hwf hver htrue ⟨hm, hst, trivial⟩ hro
    rcases (opSafe_of_mirrors hop hm' hr').outcome with ⟨u, h1, -, -, h2⟩ | h1 | ⟨h1, -⟩ | ⟨h1, -⟩ <;>
      rw [ht'] at h1 <;> cases h1
    exact h2

/-- A loop that stores a byte, loads it back and doubles it while its last parameter is set. -/
def storeLoop : List Call :=
  [.blockCreate none, .blockAddParam 0 (typeMem 0 64) none, .blockAddParam 0 (typeAddr 64) none,
    .blockAddParam 0 (typeI 8) none, .blockAddParam 0 (typeI 1) none, .buildStore 0 0 1 2 .le none,
    .buildLoad 0 (typeI 8) 4 1 .le none, .buildBinary 0 .add (typeI 8) 5 5 none, .blockCreate none,
    .blockAddParam 1 (typeI 8) none, .setCbranch 0 3 0 (.array [4, 1, 6, 3]) 1 (.array [6]),
    .setReturn 1 (.array [7])]

/-- A state of the loop, after a run to its limit. -/
def storeLoopState : ExecState :=
  let m := runCalls Module.create storeLoop
  (execRun m 0 (execSetParam m (execSetParam m (execSetParam m (execSetParam m (freshState m)
    0 (execMem 0 64)).2 1 (execAddr 64 16#64)).2 2 (execI 8 3#64)).2 3 (execI 1 1#64)).2 2).2

theorem execRun_sound_storeLoop :
    RunSound (runCalls Module.create storeLoop) 0 storeLoopState 5 :=
  execRun_sound ⟨storeLoop, rfl⟩ (by decide +kernel)
    (.run 0 2 (.setParam 3 _ (.setParam 2 _ (.setParam 1 _ (.setParam 0 _
      (.create (execStateCreate_ok (by decide +kernel)))))))) (by decide +kernel)
    (by decide +kernel) 5

end Xair
