import Xair.LiftCalls
import Xair.LiftCanonical
import Xair.LoopFree

/-!
# Verified code is kept

A module is built by calls of the builder API, by lifts, by adapters and by canonicalization, in
any order (`ModuleStep`).  None of them changes code that the verifier has accepted: what is built
later is built in new blocks (`KeepsCode`), so that a run of an old block is the same run
(`KeepsCode.refRun`), and canonicalization renames it (`verifiedCode_kept`).
-/

namespace Xair

open BoundedRun (Outcome OutcomeRel)

/-- Everything that the library does to a module; canonicalization when `P` holds. -/
inductive ModuleStep (P : Module → Prop) : Module → Module → Prop
  | call {m : Module} (c : Call) : c ≠ .canonicalize → ModuleStep P m (c.run m).1
  | lift {m : Module} (image : Image) (options : LiftOptions) :
    ModuleStep P m (liftBasicBlock m image options).module
  | liftBody {m : Module} (image : Image) (options : LiftOptions) (block : Nat) :
    ModuleStep P m (liftBlockBodyInto m image options block).module
  | vex (a : VexAdapter) (c : VexCall) : ModuleStep P a.module (c.run a).2.module
  | canonicalize {m : Module} : P m → ModuleStep P m (canonicalizeModule m).1

theorem ModuleStep.cases_later {P : Module → Prop} {m m' : Module} (h : ModuleStep P m m') :
    m.Later m' ∨ (P m ∧ m' = (canonicalizeModule m).1) := by
  cases h with
  | call c hc => exact .inl (later_call m hc)
  | lift image options => exact .inl (liftBasicBlock_later m image options)
  | liftBody image options block => exact .inl (liftBlockBodyInto_later m image options block)
  | vex a c => exact .inl (c.frames.later a)
  | canonicalize hp => exact .inr ⟨hp, rfl⟩

/-- **The builder API makes every module**: whatever is done to a module, in any order and with
any outcomes, calls of the builder API alone can make the module that it ends with. -/
theorem reachable_moduleSteps {m : Module}
    (h : Relation.ReflTransGen (ModuleStep fun _ => True) Module.create m) : m.Reachable := by
  induction h with
  | refl => exact ⟨[], rfl⟩
  | tail _ hstep ih =>
    rcases hstep.cases_later with hl | ⟨-, rfl⟩
    · exact hl.reachable ih
    · exact reachable_call ih .canonicalize

/-- A push and a pop are lifted, and a lift fails and leaves its block open. -/
def cutLiftModule : Module :=
  (liftBasicBlock (liftBasicBlock Module.create pushPopRbxImage addRetOptions).module cutMovImage
    addRetOptions).module

/-- An adapter in the second block of a module. -/
def secondBlockAdapter (m : Module) : VexAdapter :=
  ⟨m, 1, none, ⟨0, fun _ => none⟩, fun _ => none, 0, [], 0⟩

/-- The block that was left open reads a register. -/
theorem reachable_moduleSteps_cutLift :
    (canonicalizeModule ((VexCall.getReg 16 (typeI 64) none).run
      (secondBlockAdapter cutLiftModule)).2.module).1.Reachable := by
  have hvex : ∀ m, ModuleStep (fun _ => True) m
      ((VexCall.getReg 16 (typeI 64) none).run (secondBlockAdapter m)).2.module :=
    fun m => .vex (secondBlockAdapter m) _
  exact reachable_moduleSteps
    (.tail (.tail (.tail (.single (.lift pushPopRbxImage addRetOptions))
      (.lift cutMovImage addRetOptions)) (hvex cutLiftModule)) (.canonicalize trivial))

/-! ### Old blocks in a later module -/

/-- The blocks of `m` are blocks of `m'`. -/
structure KeepsCode (m m' : Module) : Prop where
  grows : Grows m m'
  blocks_le : m.blocks.length ≤ m'.blocks.length
  blockRec : ∀ b < m.blocks.length, m'.blockRec b = m.blockRec b

theorem BlockOk.closed {m : Module} {b : Nat} (h : BlockOk m b) :
    (m.blockRec b).term.kind ≠ .none := by
  intro hk
  have hterm := h.term
  unfold TermOk at hterm
  rw [hk] at hterm
  exact hterm

/-- **Building keeps verified code.** -/
theorem Module.Later.keepsCode {m m' : Module} (hver : m.Verified) (h : m.Later m') :
    KeepsCode m m' := by
  refine ⟨h.grows, ?_, fun b hb => ?_⟩
  · by_contra hlt
    exact Nat.lt_irrefl _ ((h.keepsBlock m'.blocks.length).lt (Nat.lt_of_not_le hlt))
  · exact (h.keepsBlock b).closed (verifyModule_ok_iff.mp hver b hb).closed

section Runs

variable {m m' : Module} {b : Nat} {av : ValueSet} {r : RefState}

theorem lt_of_available {v : Nat} (h : m.valueIsAvailable av v = true) : v < m.values.length := by
  simp only [Module.valueIsAvailable, Module.validValue, Bool.and_eq_true, decide_eq_true_eq] at h
  exact h.1

theorem KeepsCode.refRead (hwf : m.WF) (h : KeepsCode m m') {v : Nat} (hv : v < m.values.length) :
    refRead m' r v = Xair.refRead m r v := by
  have hconst : m'.constValue v = m.constValue v := by
    unfold Module.constValue
    rw [h.grows.valueOp hwf hv, h.grows.valueType hv]
  rw [Xair.refRead, Xair.refRead, h.grows.valueIsGlobalConst hwf hv, hconst]

theorem KeepsCode.readAll (hwf : m.WF) (h : KeepsCode m m') {vs : List Nat}
    (hvs : ∀ v ∈ vs, m.valueIsAvailable av v = true) :
    readAll (Xair.refRead m' r) vs = Xair.readAll (Xair.refRead m r) vs :=
  readAll_congr vs fun v hv => h.refRead hwf (lt_of_available (hvs v hv))

theorem KeepsCode.refOp (hwf : m.WF) (h : KeepsCode m m') {o : Nat} (hok : OpOk m b av o) :
    refOp m' r (m'.opRec o) = Xair.refOp m r (m.opRec o) := by
  have hvalue : execOpValue (m.valueType (m.opRec o).dst) (Xair.refRead m' r) r.mem (m.opRec o) =
      execOpValue (m.valueType (m.opRec o).dst) (Xair.refRead m r) r.mem (m.opRec o) :=
    execOpValue_congr (arityOk_of_typeRule hok.typed) (.refl _)
      fun v hv => h.refRead hwf (lt_of_available (hok.sources v hv))
  rw [Xair.refOp, Xair.refOp, h.grows.opRec o hok.lt, h.grows.valueType hok.dst_lt, hvalue]

theorem KeepsCode.runOps (hwf : m.WF) (h : KeepsCode m m') (os : List Nat)
    (hops : OpsOk m b os av) :
    runOps (refInterp m') m' b os r = Xair.runOps (refInterp m) m b os r := by
  induction os generalizing av r with
  | nil => rfl
  | cons o os ih =>
    obtain ⟨hok, hops⟩ := hops
    have hop : (refInterp m').op r (m'.opRec o) = (refInterp m).op r (m.opRec o) :=
      h.refOp hwf hok
    rw [Xair.runOps, Xair.runOps, hop, h.grows.opRec o hok.lt]
    rcases (refInterp m).op r (m.opRec o) with ⟨e, r'⟩
    cases e with
    | ok => exact ih hops
    | _ => rfl

theorem KeepsCode.runEdge (hwf : m.WF) (h : KeepsCode m m') {target : Nat} {args : List Nat}
    (hok : EdgeOk m av target args) :
    runEdge (refInterp m') r target args = Xair.runEdge (refInterp m) r target args := by
  have hargs : ∀ v ∈ args, m.valueIsAvailable av v = true := fun v hv => by
    obtain ⟨i, hi, rfl⟩ := List.mem_iff_getElem.mp hv
    have hall := List.forall₂_iff_get.mp hok.args_ok
    exact (hall.2 i hi (by rw [← hall.1]; exact hi)).1
  have hvalid : m'.validBlock target = m.validBlock target := by
    simp [Module.validBlock, hok.target_lt, Nat.lt_of_lt_of_le hok.target_lt h.blocks_le]
  have htransfer : (refInterp m').transfer r target args =
      (refInterp m).transfer r target args := by
    show refTransfer m' r target args = refTransfer m r target args
    rw [refTransfer, refTransfer, hvalid, h.blockRec target hok.target_lt, h.readAll hwf hargs]
  rw [Xair.runEdge, Xair.runEdge, htransfer]

theorem KeepsCode.runTerm (hwf : m.WF) (h : KeepsCode m m') {t : TermRec} (ht : TermWF m t)
    (hok : TermOk m t av) :
    runTerm (refInterp m') m' b t r = Xair.runTerm (refInterp m) m b t r := by
  have hargs := fun f => h.grows.termArgsConst ht f
  unfold TermOk at hok
  unfold Xair.runTerm
  rw [hargs, hargs]
  cases hk : t.kind with
  | none => rfl
  | trap => rfl
  | fault => rfl
  | jump =>
    rw [hk] at hok
    exact h.runEdge hwf hok
  | cbranch =>
    rw [hk] at hok
    obtain ⟨hc, -, htrue, hfalse⟩ := hok
    have hread : (refInterp m').read r t.condition = (refInterp m).read r t.condition :=
      h.refRead hwf (lt_of_available hc)
    dsimp only
    rw [hread, h.runEdge hwf htrue, h.runEdge hwf hfalse]
  | ret =>
    rw [hk] at hok
    dsimp only
    have hread : Xair.readAll ((refInterp m').read r) (m.termArgsConst t false) =
        Xair.readAll ((refInterp m).read r) (m.termArgsConst t false) :=
      h.readAll hwf hok
    rw [hread]

/-- A round of the loop in an old block. -/
theorem KeepsCode.runBlock (hwf : m.WF) (hver : m.Verified) (h : KeepsCode m m')
    (hb : b < m.blocks.length) :
    runBlock (refInterp m') m' (b, r) = Xair.runBlock (refInterp m) m (b, r) := by
  have hblk := verifyModule_ok_iff.mp hver b hb
  rw [Xair.runBlock, Xair.runBlock]
  dsimp only
  rw [h.blockRec b hb, h.runOps hwf _ hblk.ops]
  cases Xair.runOps (refInterp m) m b (m.blockRec b).ops r with
  | error e => rfl
  | ok r' => exact h.runTerm hwf (hwf.term b hb) hblk.term

/-- **Old code runs as before.** -/
theorem KeepsCode.refRun (hwf : m.WF) (hver : m.Verified) (h : KeepsCode m m') {entry : Nat}
    (hb : entry < m.blocks.length) (args : List ExecValue) (mem : ExecMemory) (limit : Nat) :
    refRun m' entry args mem limit = Xair.refRun m entry args mem limit := by
  have hvalid : m.validBlock entry = true := by simpa [Module.validBlock] using hb
  have hvalid' : m'.validBlock entry = true := by
    simpa [Module.validBlock] using Nat.lt_of_lt_of_le hb h.blocks_le
  have hstart : refStart m' entry args mem = refStart m entry args mem := by
    rw [refStart, refStart, h.blockRec entry hb]
  rw [Xair.refRun, Xair.refRun, hvalid, hvalid', if_neg (by decide), if_neg (by decide), hstart]
  -- the runs stay in old blocks, which accepted terminators do not leave
  have hrel := BoundedRun.run_rel (R := fun c d : Nat × RefState => c = d ∧ d.1 < m.blocks.length)
    (Q := fun (x : RunResult) (c : Nat × RefState) y d => x = y ∧ c = d)
    (fun c d hcd => (?_ : OutcomeRel _ _ (Xair.runBlock (refInterp m') m' c)
      (Xair.runBlock (refInterp m) m d))) (fun c d hcd => ⟨congrArg stepLimitResult hcd.1, hcd.1⟩)
    limit (show (entry, refStart m entry args mem) = (entry, refStart m entry args mem) ∧ _ from
      ⟨rfl, hb⟩)
  · rw [interpRun, interpRun, hrel.1, hrel.2]
  · obtain ⟨rfl, hlt⟩ := hcd
    have hstep := h.runBlock hwf hver (r := c.2) hlt
    change Xair.runBlock (refInterp m') m' c = Xair.runBlock (refInterp m) m c at hstep
    rw [hstep]
    cases hout : Xair.runBlock (refInterp m) m c with
    | halt x d => exact .halt ⟨rfl, rfl⟩
    | next d =>
      exact .next ⟨rfl, (verifyModule_ok_iff.mp hver _ hlt).target_lt (targets_of_next hout)⟩

end Runs

/-! ### Runs of the executor -/

section Entered

variable {m m' m'' : Module} {entry : Nat} {pages : List ExecPage} {args : List ExecValue}

theorem ValEq.trans {x y z : ExecValue} (h : ValEq x y) (h' : ValEq y z) : ValEq x z := by
  refine ⟨h.1.trans h'.1, fun hk => ?_⟩
  have hxy := h.2 hk
  rw [hxy] at hk ⊢
  exact h'.2 hk

/-- What both reference runs come to: the second ends like the first when the first finishes. -/
def CodeAlike (m m' : Module) : Prop :=
  ∀ entry < m.blocks.length, ∀ args,
    List.Forall₂ (fun p x => x.type = m.valueType p) (m.blockRec entry).params args →
      List.Forall₂ (fun p x => x.type = m'.valueType p) (m'.blockRec entry).params args ∧
      ∀ mem limit, Unfinished (refRun m entry args mem limit).1 ∨
        ResultRel ValEq (refRun m entry args mem limit).1 (refRun m' entry args mem limit).1

theorem KeepsCode.types (hwf : m.WF) (h : KeepsCode m m') (hb : entry < m.blocks.length)
    (hargs : List.Forall₂ (fun p x => x.type = m.valueType p) (m.blockRec entry).params args) :
    List.Forall₂ (fun p x => x.type = m'.valueType p) (m'.blockRec entry).params args := by
  rw [h.blockRec entry hb]
  have hall := List.forall₂_iff_get.mp hargs
  refine List.forall₂_iff_get.mpr ⟨hall.1, fun i h1 h2 => ?_⟩
  have hmem := List.get_mem (m.blockRec entry).params ⟨i, h1⟩
  rw [h.grows.valueType ((hwf.block_params entry hb _).mp hmem).1]
  exact hall.2 i h1 h2

theorem resultRel_refl (x : RunResult) : ResultRel ValEq x x := by
  cases x with
  | error e => exact rfl
  | ok x => exact ⟨rfl, rfl, rfl, List.forall₂_same.mpr fun y _ => ValEq.refl y⟩

theorem forall₂_valEq_trans {xs ys zs : List ExecValue} (h : List.Forall₂ ValEq xs ys)
    (h' : List.Forall₂ ValEq ys zs) : List.Forall₂ ValEq xs zs := by
  induction h generalizing zs with
  | nil => exact h'
  | cons hxy _ ih =>
    cases h' with
    | cons hyz h' => exact .cons (hxy.trans hyz) (ih h')

theorem ResultRel.valEq_trans {x y z : RunResult} (h : ResultRel ValEq x y)
    (h' : ResultRel ValEq y z) : ResultRel ValEq x z := by
  cases y with
  | error e =>
    cases x with
    | ok x => exact h.elim
    | error e' =>
      cases h
      exact h'
  | ok y =>
    cases x with
    | error e => exact h.elim
    | ok x =>
      cases z with
      | error e => exact h'.elim
      | ok z =>
        obtain ⟨h1, h2, h3, h4⟩ := h
        obtain ⟨h1', h2', h3', h4'⟩ := h'
        exact ⟨h1.trans h1', h2.trans h2', h3.trans h3',
          forall₂_valEq_trans h4 h4'⟩

/-- Results that agree finish together. -/
theorem ResultRel.unfinished {x y : RunResult} (h : ResultRel ValEq x y) (hy : Unfinished y) :
    Unfinished x := by
  rintro r rfl
  cases y with
  | error e => exact h.elim
  | ok y => exact h.1.trans (hy y rfl)

theorem KeepsCode.codeAlike (hwf : m.WF) (hver : m.Verified) (h : KeepsCode m m') :
    CodeAlike m m' := by
  refine fun entry hb args hargs => ⟨h.types hwf hb hargs, fun mem limit => .inr ?_⟩
  rw [h.refRun hwf hver hb args mem limit]
  exact resultRel_refl _

theorem codeAlike_canonicalizedModule (hwf : m.WF) (hver : m.Verified) (hthr : m.Threaded) :
    CodeAlike m (canonicalizedModule m) := fun entry hb _ hargs =>
  ⟨types_canonicalizedModule hwf hver hb hargs,
    fun mem limit => refRun_canonicalizedModule hwf hver hthr entry hargs mem limit⟩

theorem CodeAlike.trans (hlen : m.blocks.length ≤ m'.blocks.length) (h : CodeAlike m m')
    (h' : CodeAlike m' m'') : CodeAlike m m'' := by
  intro entry hb args hargs
  obtain ⟨hargs', hrun⟩ := h entry hb args hargs
  obtain ⟨hargs'', hrun'⟩ := h' entry (Nat.lt_of_lt_of_le hb hlen) args hargs'
  refine ⟨hargs'', fun mem limit => ?_⟩
  rcases hrun mem limit with hu | hrel
  · exact .inl hu
  · rcases hrun' mem limit with hu | hrel'
    · exact .inl (hrel.unfinished hu)
    · exact .inr (hrel.valEq_trans hrel')

/-- **Steps keep runs**: whatever is done between two verified modules, runs of the old blocks
finish alike.  Between the canonicalizations, `c` is the last verified module that was built on. -/
theorem codeAlike_moduleSteps (hwf : m.WF) (hver : m.Verified)
    (h : Relation.ReflTransGen (ModuleStep Module.Threaded) m m') :
    ∃ c : Module, c.WF ∧ c.Verified ∧ c.Later m' ∧ m.blocks.length ≤ c.blocks.length ∧
      CodeAlike m c := by
  induction h with
  | refl =>
    refine ⟨m, hwf, hver, .refl m, Nat.le_refl _, ?_⟩
    exact (Module.Later.keepsCode hver (.refl m)).codeAlike hwf hver
  | @tail m₁ m₂ _ hstep ih =>
    obtain ⟨c, hcwf, hcver, hlater, hle, halike⟩ := ih
    rcases hstep.cases_later with hl | ⟨hthr, rfl⟩
    · exact ⟨c, hcwf, hcver, hlater.trans hl, hle, halike⟩
    · have hwf₁ := hlater.wf hcwf
      rcases canonicalizeModule_cases hwf₁ with he | ⟨-, hver₁, he⟩
      · rw [he]
        exact ⟨c, hcwf, hcver, hlater, hle, halike⟩
      · rw [he]
        have hkeeps := hlater.keepsCode hcver
        obtain ⟨σ, ω, hcomp, -⟩ := compaction_canonicalizedModule hwf₁ hver₁
        have hblocks : (canonicalizedModule m₁).blocks.length = m₁.blocks.length := by
          rw [hcomp.blocks, (foldedModule_core m₁).2.2.1]
        refine ⟨canonicalizedModule m₁, wf_canonicalizedModule hwf₁ hver₁,
          verified_canonicalizedModule hwf₁ hver₁, .refl _, ?_, ?_⟩
        · rw [hblocks]
          exact hle.trans hkeeps.blocks_le
        · exact halike.trans hle ((hkeeps.codeAlike hcwf hcver).trans hkeeps.blocks_le
            (codeAlike_canonicalizedModule hwf₁ hver₁ hthr))

theorem CodeAlike.execRun (h : CodeAlike m m') (hwf : m.WF) (hver : m.Verified) (hwf' : m'.WF)
    (hver' : m'.Verified) (hle : m.blocks.length ≤ m'.blocks.length)
    (hlen : (m.blockRec entry).params.length = args.length) {s : ExecState}
    (hset : execEnter m entry pages args = (.ok, s)) {limit : Nat} {x : ExecResult}
    (hrun : (execRun m entry s limit).1 = .ok x) (hkind : x.kind ≠ .unsupported) :
    ∃ s' x', execEnter m' entry pages args = (.ok, s') ∧
      (execRun m' entry s' limit).1 = .ok x' ∧
      x'.kind = x.kind ∧ x'.block = x.block ∧ x'.code = x.code ∧
      List.Forall₂ ValEq x.returns x'.returns := by
  have hb : entry < m.blocks.length := by
    by_contra hn
    simp [Xair.execRun, Module.validBlock, hn] at hrun
  obtain ⟨hargs', halike⟩ := h entry hb args (execEnter_types hwf hlen hset)
  have hset' := execEnter_ok hwf' (Nat.lt_of_lt_of_le hb hle) hargs' pages
  have href := (execRun_enter hwf hver hlen hset limit).1
  have href' := (execRun_enter hwf' hver' hargs'.length_eq hset' limit).1
  rw [hrun] at href
  rcases halike ⟨pages, 0#64⟩ limit with hu | hrel
  · exact absurd (hu x href.symm) hkind
  · rw [← href, ← href'] at hrel
    generalize hr : (Xair.execRun m' entry _ limit).1 = r' at hrel
    cases r' with
    | error e => exact hrel.elim
    | ok x' =>
      obtain ⟨h1, h2, h3, h4⟩ := hrel
      exact ⟨_, x', hset', hr, h1.symm, h2.symm, h3.symm, h4⟩

end Entered

/-- **Verified code keeps its meaning.**  A module passes the verifier, then anything is done to it
in any order, canonicalization included while tokens are threaded, and it passes the verifier
again: a run of an old block that returned, trapped, faulted or reached the step limit ends in the
same way, entered with the same arguments and pages. -/
theorem verifiedCode_kept {m m' : Module} (h : m.Reachable) (hver : m.Verified)
    (hsteps : Relation.ReflTransGen (ModuleStep Module.Threaded) m m') (hver' : m'.Verified)
    {entry : Nat} {pages : List ExecPage} {args : List ExecValue}
    (hlen : (m.blockRec entry).params.length = args.length) {s : ExecState}
    (hset : execEnter m entry pages args = (.ok, s)) {limit : Nat} {x : ExecResult}
    (hrun : (execRun m entry s limit).1 = .ok x) (hkind : x.kind ≠ .unsupported) :
    ∃ s' x', execEnter m' entry pages args = (.ok, s') ∧
      (execRun m' entry s' limit).1 = .ok x' ∧
      x'.kind = x.kind ∧ x'.block = x.block ∧ x'.code = x.code ∧
      List.Forall₂ ValEq x.returns x'.returns := by
  have hwf := wf_reachable h
  obtain ⟨c, hcwf, hcver, hlater, hle, halike⟩ := codeAlike_moduleSteps hwf hver hsteps
  have hkeeps := hlater.keepsCode hcver
  exact (halike.trans hle (hkeeps.codeAlike hcwf hcver)).execRun hwf hver (hlater.wf hcwf) hver'
    (hle.trans hkeeps.blocks_le) hlen hset hrun hkind

/-- The module of `storeSample`, into which a push and a pop are lifted. -/
def storeLiftModule : Module :=
  (liftBasicBlock (runCalls Module.create storeSample) pushPopRbxImage addRetOptions).module

theorem verifiedCode_kept_storeLift :
    ∃ s' x', execEnter (canonicalizeModule storeLiftModule).1 0 [] storeArgs = (.ok, s') ∧
      (execRun (canonicalizeModule storeLiftModule).1 0 s' 3).1 = .ok x' ∧
      x'.kind = .ret ∧ x'.block = 0 ∧ x'.code = 0 ∧
      List.Forall₂ ValEq [execI 8 9#64, execI 8 5#64] x'.returns :=
  verifiedCode_kept (m := runCalls Module.create storeSample) ⟨storeSample, rfl⟩
    (by decide +kernel)
    (.tail (.single (.lift pushPopRbxImage addRetOptions)) (.canonicalize (by decide +kernel)))
    (by decide +kernel) (by decide +kernel) (execEnter_eq (by decide +kernel))
    (x := ⟨.ret, 0, 0, [execI 8 9#64, execI 8 5#64]⟩) (by decide +kernel) (by decide)

/-- **Building changes no run.**  When only building is done in between, every run of an old block
is the same run, with the same result and the same memory, also one that fails. -/
theorem verifiedCode_exact {m m' : Module} (h : m.Reachable) (hver : m.Verified)
    (hsteps : Relation.ReflTransGen (ModuleStep fun _ => False) m m') (hver' : m'.Verified)
    {entry : Nat} (hb : entry < m.blocks.length) {pages : List ExecPage} {args : List ExecValue}
    (hlen : (m.blockRec entry).params.length = args.length) {s : ExecState}
    (hset : execEnter m entry pages args = (.ok, s)) (limit : Nat) :
    ∃ s', execEnter m' entry pages args = (.ok, s') ∧
      (execRun m' entry s' limit).1 = (execRun m entry s limit).1 ∧
      (execRun m' entry s' limit).2.mem = (execRun m entry s limit).2.mem := by
  have hwf := wf_reachable h
  have hlater : m.Later m' := by
    clear hver'
    induction hsteps with
    | refl => exact .refl m
    | tail _ hstep ih => exact ih.trans (hstep.cases_later.resolve_right fun hc => hc.1)
  have hkeeps := hlater.keepsCode hver
  have hargs' := hkeeps.types hwf hb (execEnter_types hwf hlen hset)
  have hwf' := hlater.wf hwf
  have hset' := execEnter_ok hwf' (Nat.lt_of_lt_of_le hb hkeeps.blocks_le) hargs' pages
  obtain ⟨hresult, hmem⟩ := execRun_enter hwf hver hlen hset limit
  obtain ⟨hresult', hmem'⟩ := execRun_enter hwf' hver' hargs'.length_eq hset' limit
  refine ⟨_, hset', ?_, ?_⟩
  · rw [hresult, hresult', hkeeps.refRun hwf hver hb]
  · rw [hmem, hmem', hkeeps.refRun hwf hver hb]

theorem verifiedCode_exact_storeLift :
    ∃ s', execEnter storeLiftModule 0 [] storeArgs = (.ok, s') ∧
      (execRun storeLiftModule 0 s' 3).1 = .ok ⟨.ret, 0, 0, [execI 8 9#64, execI 8 5#64]⟩ := by
  have hrun : (execRun (runCalls Module.create storeSample) 0
      (execEnter (runCalls Module.create storeSample) 0 [] storeArgs).2 3).1 =
      .ok ⟨.ret, 0, 0, [execI 8 9#64, execI 8 5#64]⟩ := by decide +kernel
  have henter : execEnter (runCalls Module.create storeSample) 0 [] storeArgs =
      (.ok, (execEnter (runCalls Module.create storeSample) 0 [] storeArgs).2) :=
    execEnter_eq (by decide +kernel)
  obtain ⟨s', hset, hresult, -⟩ := verifiedCode_exact ⟨storeSample, rfl⟩ (by decide +kernel)
    (.single (.lift pushPopRbxImage addRetOptions)) (by decide +kernel) (by decide +kernel)
    (by decide +kernel) henter 3
  exact ⟨s', hset, hresult.trans hrun⟩

end Xair
