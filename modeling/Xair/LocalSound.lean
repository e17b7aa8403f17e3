import Xair.FoldSound
import Xair.Renaming
import Xair.Reachable

/-!
# The local pass preserves runs

A run of the reference interpreter on a module and on one rewriting of it have
the same result and leave the same memory (`refRun_localStep`); the rewriting
steps of the pass then compose (`refRun_foldedModule`).

A flag extract is folded by looking at the operation behind the flag, so the runs
carry the invariant that every bound value is what its operation computes from
constants (`ComputedEnv`).
-/

namespace Xair

/-! ### Rewriting in place -/

/-- A property of reference states that holds when a block starts and that its
operations keep. -/
structure BlockInvariant (m : Module) (P : RefState → Prop) : Prop where
  start : ∀ b < m.blocks.length, ∀ xs mem, P ⟨bindParams (m.blockRec b).params xs, mem⟩
  op : ∀ b o av r r', OpOk m b av o → Ready m (refRead m r) av → P r →
    refOp m r (m.opRec o) = (.ok, r') → P r'

/-- Operation `o` evaluates alike in both modules, wherever the reads agree. -/
def EvaluatesAlike (m m' : Module) (P : RefState → Prop) (o : Nat) : Prop :=
  ∀ b av r r', OpOk m b av o → Ready m (refRead m r) av → P r →
    ReadsAgree m some Eq av (refRead m r) (refRead m' r') → r.mem = r'.mem →
    execOpValue (m.valueType (m.opRec o).dst) (refRead m r) r.mem (m.opRec o) =
        execOpValue (m'.valueType (m'.opRec o).dst) (refRead m' r') r'.mem (m'.opRec o) ∧
      (∀ e, execOpValue (m.valueType (m.opRec o).dst) (refRead m r) r.mem (m.opRec o) = .error e →
        (m.opRec o).opcode = (m'.opRec o).opcode)

/-- The relation that holds before an operation. -/
structure InPlace (m m' : Module) (P : RefState → Prop) (av : ValueSet) (r r' : RefState) :
    Prop where
  ready : Ready m (refRead m r) av
  reads : ReadsAgree m some Eq av (refRead m r) (refRead m' r')
  mem : r.mem = r'.mem
  inv : P r

section InPlace

variable {m m' : Module} {P : RefState → Prop}

theorem InPlace.op (hwf' : m'.WF) (hlen : m'.ops.length = m.ops.length)
    (hP : BlockInvariant m P) {b o : Nat} {av : ValueSet} {r r' : RefState}
    (h : InPlace m m' P av r r') (hok : OpOk m b av o) (hdst : (m'.opRec o).dst = (m.opRec o).dst)
    (he : EvaluatesAlike m m' P o) (R : RefState → RefState → Prop)
    (hR : ∀ s s', InPlace m m' P (av.mark (m.opRec o).dst) s s' → R s s') :
    OpRel R (fun s s' => s.mem = s'.mem) (m.opRec o).opcode (m'.opRec o).opcode
      (refOp m r (m.opRec o)) (refOp m' r' (m'.opRec o)) := by
  obtain ⟨heq, hcode⟩ := he b av r r' hok h.ready h.inv h.reads h.mem
  have hout := hok.outcome h.ready r.mem
  have hinv := hP.op b o av r
  unfold refOp at hinv ⊢
  rw [← heq]
  cases hx : execOpValue (m.valueType (m.opRec o).dst) (refRead m r) r.mem (m.opRec o) with
  | error e =>
    rw [hx] at hout
    refine .fail ?_ (by rw [hcode e hx]) h.mem
    cases hout <;> exact fun hh => by cases hh
  | ok y =>
    obtain ⟨x, mem⟩ := y
    have ht := (hok.value_type h.ready hx).1
    refine .ok (hR _ _ ⟨h.ready.define ht mem, ?_, rfl, hinv _ hok h.ready h.inv (by rw [hx])⟩)
    rw [hdst]
    refine h.reads.define rfl ht rfl (hok.const hx) (fun hc => ?_)
      (fun u _ hu hu' => absurd (Option.some.inj hu') hu) mem mem
    have ho' : o < m'.ops.length := hlen ▸ hok.lt
    have := execOpValue_const ho' (hwf'.op_dst o ho').2 (hdst ▸ hc) (refRead m' r') r'.mem
    rw [← heq, hx] at this
    exact hdst ▸ (Prod.ext_iff.mp (Except.ok.inj this)).1

/-- **Rewriting in place.**  Modules whose operations evaluate alike have the same
runs. -/
theorem refRun_inPlace (hm : ModuleMap m m' some) (hwf' : m'.WF)
    (hver : m.Verified) (hlen : m'.ops.length = m.ops.length)
    (hblocks : ∀ b, m'.blockRec b = m.blockRec b)
    (hdst : ∀ o, (m'.opRec o).dst = (m.opRec o).dst) (hP : BlockInvariant m P)
    (he : ∀ o < m.ops.length, EvaluatesAlike m m' P o) (entry : Nat) {args : List ExecValue}
    (hargs : List.Forall₂ (fun p x => x.type = m.valueType p) (m.blockRec entry).params args)
    (mem : ExecMemory) (limit : Nat) :
    (refRun m entry args mem limit).1 = (refRun m' entry args mem limit).1 ∧
      (refRun m entry args mem limit).2.mem = (refRun m' entry args mem limit).2.mem := by
  have hsim : BlockSim (refInterp m) (refInterp m') m m'
      (fun b r r' => b < m.blocks.length ∧ InPlace m m' P (m.availableAtStart b) r r')
      (fun b os r r' => b < m.blocks.length ∧ ∃ av, OpsOk m b os av ∧
        av.markAll (m.dsts os) = m.availableAtEnd b ∧ InPlace m m' P av r r')
      some Eq (fun r r' => r.mem = r'.mem) (fun _ => False) := by
    refine ⟨fun b r r' hst => ?_, fun b o o' os r r' ho hat => ?_, fun b o os r r' ho => (by cases ho),
      fun b r r' hat => ?_, fun b r r' hst => hst.2.mem⟩
    · exact ⟨by rw [hblocks]; simp, hst.1, _, (verifyModule_ok_iff.mp hver b hst.1).ops, rfl, hst.2⟩
    · cases ho
      obtain ⟨hb, av, ⟨hok, hos⟩, hav, h⟩ := hat
      exact h.op hwf' hlen hP hok (hdst o) (he o hok.lt) _ fun s s' hs => ⟨hb, _, hos, hav, hs⟩
    · obtain ⟨hb, av, -, hav, h⟩ := hat
      change av = m.availableAtEnd b at hav
      subst hav
      refine readsAgree_term hm (fun _ => rfl) (fun _ _ h => h ▸ ValEq.refl _) hwf' hb
        (verifyModule_ok_iff.mp hver b hb).term h.reads ?_ h.mem
      intro target args xs xs' hok _ _ hty hreads
      exact ⟨hok.target_lt, ready_bindParams hty _, hreads, h.mem, hP.start _ hok.target_lt _ _⟩
  unfold refRun
  have hvb : m'.validBlock entry = m.validBlock entry := by
    simp [Module.validBlock, hm.blocks]
  rw [hvb]
  by_cases hb : m.validBlock entry = false
  · rw [if_pos hb, if_pos hb]
    exact ⟨rfl, rfl⟩
  · have hlt : entry < m.blocks.length := by simpa [Module.validBlock] using hb
    rw [if_neg hb, if_neg hb]
    have hreads := readsAgree_bindParams hm (V := Eq) (fun _ => rfl) hwf' hlt hargs
      (List.forall₂_same.mpr fun x _ => rfl) mem mem
    rcases hsim.run limit (b := entry) (s := refStart m entry args mem)
      (t := refStart m' entry args mem)
      ⟨hlt, ready_bindParams hargs _, hreads, rfl, hP.start entry hlt args mem⟩ with hf | ⟨h1, h2⟩
    · exact hf.elim
    · exact ⟨resultRel_eq h1, h2⟩

end InPlace

/-! ### What constants compute -/

/-- Every bound value is what its operation computes, when that operation has only
constant sources. -/
def ComputedEnv (m : Module) (r : RefState) : Prop := ∀ v x, r.env v = some x → m.Computed v x

section Computed

variable {m : Module}

/-- The operations of a verified module are typed. -/
theorem opsOk_mem {b : Nat} {os : List Nat} {av : ValueSet} (h : OpsOk m b os av) {o : Nat}
    (ho : o ∈ os) : ∃ av', OpOk m b av' o := by
  induction os generalizing av with
  | nil => simp at ho
  | cons p os ih =>
    rcases List.mem_cons.mp ho with rfl | ho
    · exact ⟨av, h.1⟩
    · exact ih h.2 ho

theorem typed_of_verified (hwf : m.WF) (hver : m.Verified) : m.Typed := by
  intro o ho
  have hb := hwf.value_block _ (hwf.op_dst o ho).1
  have hmem := (hwf.block_ops _ hb o).mpr ⟨ho, rfl⟩
  obtain ⟨av, hok⟩ := opsOk_mem (verifyModule_ok_iff.mp hver _ hb).ops hmem
  exact hok.typed

theorem blockInvariant_computedEnv (hwf : m.WF) : BlockInvariant m (ComputedEnv m) where
  start b hb xs mem v x hx op _ hop := by
    -- parameters have no operation
    have hv : v ∈ (m.blockRec b).params := by
      by_contra hn
      cases (bindParams_none hn xs).symm.trans hx
    have := ((hwf.block_params b hb v).mp hv).2.1
    simp [Module.valueOp, this] at hop
  op b o av r r' hok hr hp hstep := by
    unfold refOp at hstep
    cases hx : execOpValue (m.valueType (m.opRec o).dst) (refRead m r) r.mem (m.opRec o) with
    | error e =>
      have hout := hok.outcome hr r.mem
      rw [hx] at hstep hout
      cases hout <;> simp at hstep
    | ok y =>
      rw [hx] at hstep
      cases hstep
      intro v x hv op mem hop hmem hsrc
      by_cases hvd : v = (m.opRec o).dst
      · subst hvd
        rw [hwf.valueOp_dst hok.lt] at hop
        cases hop
        simp only [RefState.define, if_true, Option.some.injEq] at hv
        -- constants are read as themselves, and memory does not matter
        have hread : execOpValue (m.valueType (m.opRec o).dst) (fun u => .ok (m.constValue u)) mem
            (m.opRec o) = execOpValue (m.valueType (m.opRec o).dst) (refRead m r) mem (m.opRec o) :=
          execOpValue_congr (arityOk_of_typeRule hok.typed) (.refl _) fun s hs =>
            (refRead_const (hsrc s hs) r).symm
        rw [hread, execOpValue_pure hmem mem r.mem, hx, ← hv]
        rfl
      · simp only [RefState.define, hvd, if_false] at hv
        exact hp v x hv op mem hop hmem hsrc

theorem ComputedEnv.read {r : RefState} (h : ComputedEnv m r) {v : Nat} {x : ExecValue}
    (hx : refRead m r v = .ok x) : m.Computed v x := by
  unfold refRead at hx
  split at hx
  · next hc =>
    cases hx
    intro op mem hop hmem hsrc
    simp only [Module.valueIsGlobalConst, hop, Bool.and_eq_true, beq_iff_eq] at hc
    simp [execOpValue, hc.2, Module.constValue, hop]
  · split at hx
    · next y hy =>
      cases hx
      exact h v x hy
    · cases hx

end Computed

/-! ### Rewriting steps -/

section Steps

variable {m m' : Module}

theorem evaluatesAlike_rewrite (hwf : m.WF) (hver : m.Verified) {o : Nat} {op' : OpRec}
    (ho : o < m.ops.length) (hr : OpRewrite m (m.opRec o) op') (p : Nat) :
    EvaluatesAlike m (m.setOp o op') (ComputedEnv m) p := by
  intro b av r r' hok hready hinv hreads hmem
  have hsame : ∀ op : OpRec, op.ArityOk → (∀ s ∈ op.src, s ∈ (m.opRec p).src) →
      execOpValue (m.valueType (m.opRec p).dst) (refRead m r) r.mem op =
        execOpValue (m.valueType (m.opRec p).dst) (refRead (m.setOp o op') r') r.mem op :=
    fun op ha hs => execOpValue_congr ha (.refl _) fun s hss => by
      obtain ⟨x, x', hx, hx', -, rfl⟩ := hreads s s (hok.sources s (hs s hss)) rfl
      rw [hx, hx']
  rw [opRec_setOp, ← hmem]
  split
  · next hp =>
    obtain ⟨rfl, -⟩ := hp
    have htype : (m.setOp o op').valueType op'.dst = m.valueType (m.opRec o).dst := by
      rw [hr.dst]; rfl
    rw [htype]
    cases hr with
    | fold h =>
      have hfold := foldConstantOp_sound (typed_of_verified hwf hver) hwf ho h r.mem
        (fun s hs => refRead_const hs r) fun s hs => by
          obtain ⟨x, hx, -⟩ := hready s (hok.sources s hs)
          exact ⟨x, hx, hinv.read hx⟩
      refine ⟨?_, fun e he => by rw [hfold] at he; cases he⟩
      rw [hfold]
      obtain ⟨w, rfl⟩ := foldConstantOp_eq h
      simp [execOpValue, foldToConst]
    | swap h =>
      have hswap := execOpValue_swap h hok.typed r.mem fun s hs => hready s (hok.sources s hs)
      have hr' : OpRewrite m (m.opRec o) op' := .swap h
      refine ⟨?_, fun e _ => ?_⟩
      · rw [hswap]
        exact hsame op' (arityOk_of_typeRule (hr'.typed hok.typed)) hr'.src.1
      · obtain ⟨a, b, -, -, rfl⟩ := reorderOperands_eq h
        rfl
  · exact ⟨hsame _ (arityOk_of_typeRule hok.typed) fun s hs => hs, fun _ _ => rfl⟩

/-- **A rewriting step preserves runs.** -/
theorem refRun_localStep (hwf : m.WF) (hver : m.Verified) (hs : LocalStep m m') (entry : Nat)
    {args : List ExecValue}
    (hargs : List.Forall₂ (fun p x => x.type = m.valueType p) (m.blockRec entry).params args)
    (mem : ExecMemory) (limit : Nat) :
    (refRun m entry args mem limit).1 = (refRun m' entry args mem limit).1 ∧
      (refRun m entry args mem limit).2.mem = (refRun m' entry args mem limit).2.mem := by
  have hwf' := wf_localStep hwf hs
  obtain ⟨ho, hr⟩ := hs
  rename_i o op'
  refine refRun_inPlace (moduleMap_setOp hwf ho hr.not_const) hwf' hver (by simp [Module.setOp])
    (fun _ => rfl) (fun p => ?_) (blockInvariant_computedEnv hwf)
    (fun p _ => evaluatesAlike_rewrite hwf hver ho hr p) entry hargs mem limit
  rw [opRec_setOp]
  split
  · next h => rw [hr.dst, h.1]
  · rfl

theorem refRun_sameCore (hwf : m.WF) (hver : m.Verified) (h : SameCore m m') (entry : Nat)
    {args : List ExecValue}
    (hargs : List.Forall₂ (fun p x => x.type = m.valueType p) (m.blockRec entry).params args)
    (mem : ExecMemory) (limit : Nat) :
    (refRun m entry args mem limit).1 = (refRun m' entry args mem limit).1 ∧
      (refRun m entry args mem limit).2.mem = (refRun m' entry args mem limit).2.mem := by
  have hm := moduleMap_sameCore hwf h
  refine refRun_inPlace (P := fun _ => True) hm (hwf.congr h) hver (by rw [h.ops]) h.blockRec
    (fun o => by rw [h.opRec]) ⟨fun _ _ _ _ => trivial, fun _ _ _ _ _ _ _ _ _ => trivial⟩ ?_ entry
    hargs mem limit
  intro o _ b av r r' hok hready _ hreads hmem
  rw [h.opRec, h.valueType, ← hmem]
  refine ⟨execOpValue_congr (arityOk_of_typeRule hok.typed) (.refl _) fun s hs => ?_, fun _ _ => rfl⟩
  obtain ⟨x, x', hx, hx', -, rfl⟩ := hreads s s (hok.sources s hs) rfl
  rw [hx, hx']

/-- **The local pass preserves runs.** -/
theorem refRun_foldedModule (hwf : m.WF) (hver : m.Verified) (entry : Nat) {args : List ExecValue}
    (hargs : List.Forall₂ (fun p x => x.type = m.valueType p) (m.blockRec entry).params args)
    (mem : ExecMemory) (limit : Nat) :
    (refRun m entry args mem limit).1 = (refRun (foldedModule m) entry args mem limit).1 ∧
      (refRun m entry args mem limit).2.mem =
        (refRun (foldedModule m) entry args mem limit).2.mem := by
  have hc := sameCore_valueNumberClear m
  have hclear := refRun_sameCore hwf hver hc entry hargs mem limit
  -- the induction carries what the next step needs of the module reached so far
  have hsteps := localSteps_induct
    (P := fun m' => m'.WF ∧ m'.Verified ∧
      List.Forall₂ (fun p x => x.type = m'.valueType p) (m'.blockRec entry).params args ∧
      (refRun m entry args mem limit).1 = (refRun m' entry args mem limit).1 ∧
      (refRun m entry args mem limit).2.mem = (refRun m' entry args mem limit).2.mem)
    (fun m₁ m₂ h hs => by
      obtain ⟨h1, h2, h3, h4, h5⟩ := h
      obtain ⟨h6, h7⟩ := refRun_localStep h1 h2 hs entry h3 mem limit
      refine ⟨wf_localStep h1 hs, verified_localStep h1 h2 hs, ?_, h4.trans h6, h5.trans h7⟩
      cases hs
      exact h3)
    (localSteps_canonicalizeLocalOps (valueNumberClear m))
    ⟨hwf.congr hc, verified_congr hwf hc hver, hargs, hclear⟩
  exact hsteps.2.2.2

end Steps

end Xair
