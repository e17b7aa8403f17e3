import Xair.Reachable
import Xair.Renaming

/-!
# Stale values never influence a run

The states of the executor that its interface can produce, and the theorem that a
run from any of them is the run of the reference interpreter: what earlier runs
left in the slots of other values does not show, and an edge binds all parameters
of its target at once, also when the arguments are the target's own parameters.
-/

namespace Xair

/-- A state that the executor's interface produces for the module `m`. -/
inductive ExecState.Reachable (m : Module) : ExecState → Prop
  | create {s} : execStateCreate m = .ok s → ExecState.Reachable m s
  | setParam {s} (v : Nat) (x : ExecValue) : ExecState.Reachable m s →
      ExecState.Reachable m (execSetParam m s v x).2
  | storeBytes {s} (space : Nat) (address : Word) (data : List (BitVec 8)) :
      ExecState.Reachable m s → ExecState.Reachable m (execStateStoreBytes s space address data).2
  | run {s} (entry limit : Nat) : ExecState.Reachable m s →
      ExecState.Reachable m (execRun m entry s limit).2

/-- The state `xair_exec_state_create` makes. -/
def freshState (m : Module) : ExecState :=
  ⟨m.values.length, fun _ => ⟨⟨.invalid, 0, 0⟩, 0#64, 0#64⟩, fun _ => false, ⟨[], 0#64⟩⟩

theorem execStateCreate_ok {m : Module} (hver : m.Verified) :
    execStateCreate m = .ok (freshState m) := by
  have h : verifyModule m = .ok () := hver
  rw [execStateCreate, h]
  rfl

theorem ok_freshState (m : Module) : (freshState m).Ok m :=
  ⟨rfl, fun _ _ h => Bool.noConfusion h, fun _ _ h => Bool.noConfusion h⟩

section Runs

variable {m : Module} {s : ExecState}

theorem ExecState.Ok.runOps (hwf : m.WF) {b : Nat} (os : List Nat)
    (hos : ∀ o ∈ os, o < m.ops.length) (h : s.Ok m) :
    match Xair.runOps (execInterp m) m b os s with
    | .ok s' => s'.Ok m
    | .error (_, s') => s'.Ok m := by
  induction os generalizing s with
  | nil => exact h
  | cons o os ih =>
    have ho := hos o (by simp)
    have hop := h.execOp ho (hwf.op_dst o ho).2
    cases hr : Xair.execOp m s (m.opRec o) with
    | mk e s' =>
      rw [hr] at hop
      by_cases he : e = .ok
      · subst he
        rw [runOps_cons_ok (I := execInterp m) hr]
        exact ih (fun p hp => hos p (by simp [hp])) hop
      · rw [runOps_cons_fail (I := execInterp m) hr he]
        exact hop

theorem ExecState.Ok.runEdge (hwf : m.WF) (h : s.Ok m) (target : Nat) (args : List Nat) :
    (∃ r b s', Xair.runEdge (execInterp m) s target args = .halt r (b, s') ∧ s'.Ok m) ∨
      ∃ b s', Xair.runEdge (execInterp m) s target args = .next (b, s') ∧ b < m.blocks.length ∧
        s'.Ok m := by
  have htr := h.transfer hwf target args
  unfold Xair.runEdge
  cases hr : (execInterp m).transfer s target args with
  | mk e s' =>
    change execTransferArgs m s target args = (e, s') at hr
    rw [hr] at htr
    by_cases he : e = .ok
    · subst he
      refine .inr ⟨target, s', rfl, ?_, htr⟩
      by_contra hb
      simp [execTransferArgs, Module.validBlock, hb] at hr
    · refine .inl ⟨.error e, target, s', ?_, htr⟩
      cases e <;> first | exact absurd rfl he | rfl

theorem ExecState.Ok.runBlock (hwf : m.WF) {b : Nat} (hb : b < m.blocks.length) (h : s.Ok m) :
    (∃ r c s', Xair.runBlock (execInterp m) m (b, s) = .halt r (c, s') ∧ s'.Ok m) ∨
      ∃ c s', Xair.runBlock (execInterp m) m (b, s) = .next (c, s') ∧ c < m.blocks.length ∧
        s'.Ok m := by
  have hops := ExecState.Ok.runOps (b := b) hwf (m.blockRec b).ops
    (fun o ho => ((hwf.block_ops b hb o).mp ho).1) h
  unfold Xair.runBlock
  cases hr : Xair.runOps (execInterp m) m b (m.blockRec b).ops s with
  | error p =>
    obtain ⟨r, s'⟩ := p
    rw [hr] at hops
    exact .inl ⟨r, b, s', rfl, hops⟩
  | ok s' =>
    rw [hr] at hops
    have hstop : ∀ r, (∃ r' c s'', (.halt r (b, s') : BoundedRun.Outcome RunResult (Nat × ExecState)) =
        .halt r' (c, s'') ∧ s''.Ok m) := fun r => ⟨r, b, s', rfl, hops⟩
    simp only [runTerm]
    split
    · exact hops.runEdge hwf _ _
    · split
      · exact .inl (hstop _)
      · split
        · exact .inl (hstop _)
        · split
          · exact hops.runEdge hwf _ _
          · exact hops.runEdge hwf _ _
    · split
      · exact .inl (hstop _)
      · split
        · exact .inl (hstop _)
        · exact .inl (hstop _)
    · exact .inl (hstop _)
    · exact .inl (hstop _)
    · exact .inl (hstop _)

/-- **Every reachable state is in order**, whatever runs came before. -/
theorem ExecState.Reachable.ok (hwf : m.WF) (h : s.Reachable m) : s.Ok m := by
  induction h with
  | create hc =>
    unfold execStateCreate at hc
    split at hc
    · cases hc
    · cases hc; exact ok_freshState m
  | @setParam s v x _ ih =>
    unfold execSetParam
    split
    · exact ih
    · split
      · exact ih
      · next hop =>
        refine ih.define fun hc => ?_
        simp [Module.valueIsGlobalConst, Module.valueOp, not_not.mp hop] at hc
  | @storeBytes s space address data _ ih =>
    unfold execStateStoreBytes
    split
    · exact ih
    · exact ih.withMem _
  | @run s entry limit _ ih =>
    unfold execRun
    split
    · exact ih
    · next hc =>
      rw [not_or] at hc
      have hb : entry < m.blocks.length := by simpa [Module.validBlock] using hc.2
      refine BoundedRun.run_induct (I := fun (c : Nat × ExecState) => c.1 < m.blocks.length ∧ c.2.Ok m)
        (P := fun _ c => c.2.Ok m) ?_ ?_ (fun _ h => h.2) limit ⟨hb, ih⟩
      · rintro ⟨b, s⟩ c ⟨hb, hok⟩ hstep
        rcases hok.runBlock hwf hb with ⟨r, b', s', he, -⟩ | ⟨b', s', he, hb', hok'⟩
        · rw [he] at hstep; cases hstep
        · rw [he] at hstep; cases hstep; exact ⟨hb', hok'⟩
      · rintro ⟨b, s⟩ r c ⟨hb, hok⟩ hstep
        rcases hok.runBlock hwf hb with ⟨r', b', s', he, hok'⟩ | ⟨b', s', he, -⟩
        · rw [he] at hstep; cases hstep; exact hok'
        · rw [he] at hstep; cases hstep

theorem paramValues_typed (hwf : m.WF) (h : s.Ok m) {entry : Nat}
    (hset : ∀ v ∈ (m.blockRec entry).params, s.defined v = true) :
    List.Forall₂ (fun p x => x.type = m.valueType p) (m.blockRec entry).params
      ((m.blockRec entry).params.map s.values) := by
  rw [List.forall₂_map_right_iff]
  refine List.forall₂_same.mpr fun v hv => ?_
  by_cases hb : entry < m.blocks.length
  · exact h.typed v ((hwf.block_params entry hb v).mp hv).1 (hset v hv)
  · -- an invalid block has no parameters
    rw [Module.blockRec, List.getD_eq_default _ _ (by omega)] at hv
    cases hv

/-- A state in order whose entry parameters are set mirrors the reference state
that binds them. -/
theorem mirrors_start (hwf : m.WF) (h : s.Ok m) {entry : Nat} (hb : entry < m.blocks.length)
    (hset : ∀ v ∈ (m.blockRec entry).params, s.defined v = true) :
    Mirrors m s (refStart m entry ((m.blockRec entry).params.map s.values) s.mem) ∧
      StartsAt m entry (refStart m entry ((m.blockRec entry).params.map s.values) s.mem) := by
  have hself : List.Forall₂ (fun v x => x = s.values v) (m.blockRec entry).params
      ((m.blockRec entry).params.map s.values) := by
    rw [List.forall₂_map_right_iff]
    exact List.forall₂_same.mpr fun _ _ => rfl
  refine ⟨⟨h, fun v x hx => ?_, rfl⟩, hb, ready_bindParams (paramValues_typed hwf h hset) _⟩
  by_cases hv : v ∈ (m.blockRec entry).params
  · obtain ⟨y, hy, hyv⟩ := bindParams_some hself hv
    have hxy : y = x := Option.some.inj (hy.symm.trans hx)
    exact ⟨hset v hv, by rw [← hxy, hyv]⟩
  · have hnone := bindParams_none hv ((m.blockRec entry).params.map s.values)
    cases hnone.symm.trans hx

/-- The run of the executor is the run of the reference from the same memory. -/
theorem execRun_eq_refRun (hwf : m.WF) (hver : m.Verified) (h : s.Ok m) (entry limit : Nat)
    (hset : ∀ v ∈ (m.blockRec entry).params, s.defined v = true) :
    (execRun m entry s limit).1 =
        (refRun m entry ((m.blockRec entry).params.map s.values) s.mem limit).1 ∧
      (execRun m entry s limit).2.mem =
        (refRun m entry ((m.blockRec entry).params.map s.values) s.mem limit).2.mem := by
  unfold execRun refRun
  by_cases hb : m.validBlock entry = false
  · rw [if_pos (.inr hb), if_pos hb]
    exact ⟨rfl, rfl⟩
  · have hlt : entry < m.blocks.length := by simpa [Module.validBlock] using hb
    rw [if_neg (by simp [h.count, hb]), if_neg hb]
    obtain ⟨hm, hs⟩ := mirrors_start hwf h hlt hset
    exact mirrors_run hwf hver hm hs limit

/-- Runs of the reference from the same pages agree, whatever the store counter. -/
theorem refRun_generation (hwf : m.WF) (hver : m.Verified) (entry limit : Nat)
    {args : List ExecValue}
    (hargs : List.Forall₂ (fun p x => x.type = m.valueType p) (m.blockRec entry).params args)
    (pages : List ExecPage) (g g' : Word) :
    ResultRel ValEq (refRun m entry args ⟨pages, g⟩ limit).1
        (refRun m entry args ⟨pages, g'⟩ limit).1 ∧
      (refRun m entry args ⟨pages, g⟩ limit).2.mem.pages =
        (refRun m entry args ⟨pages, g'⟩ limit).2.mem.pages := by
  unfold refRun
  by_cases hb : m.validBlock entry = false
  · rw [if_pos hb, if_pos hb]
    exact ⟨rfl, rfl⟩
  · have hlt : entry < m.blocks.length := by simpa [Module.validBlock] using hb
    rw [if_neg hb, if_neg hb]
    have hreads := readsAgree_bindParams (.refl hwf) ValEq.refl hwf hlt hargs
      (List.forall₂_same.mpr fun x _ => ValEq.refl x) ⟨pages, g⟩ ⟨pages, g'⟩
    exact tokenEq_run hwf hver hlt ⟨ready_bindParams hargs _, hreads, rfl⟩ limit

end Runs

/-- **Stale values never influence a run.**  A run of the executor from a state
with any history has the result of the reference interpreter started with the
same entry parameters on the same pages, and leaves the same pages. -/
theorem execRun_refRun {m : Module} (h : m.Reachable) (hver : m.Verified) {s : ExecState}
    (hs : s.Reachable m) (entry limit : Nat)
    (hset : ∀ v ∈ (m.blockRec entry).params, s.defined v = true) (generation : Word) :
    ResultRel ValEq (execRun m entry s limit).1
        (refRun m entry ((m.blockRec entry).params.map s.values)
          ⟨s.mem.pages, generation⟩ limit).1 ∧
      (execRun m entry s limit).2.mem.pages =
        (refRun m entry ((m.blockRec entry).params.map s.values)
          ⟨s.mem.pages, generation⟩ limit).2.mem.pages := by
  have hwf := wf_reachable h
  have hok := hs.ok hwf
  obtain ⟨h1, h2⟩ := execRun_eq_refRun hwf hver hok entry limit hset
  obtain ⟨h3, h4⟩ := refRun_generation hwf hver entry limit (paramValues_typed hwf hok hset)
    s.mem.pages s.mem.generation generation
  rw [h1, h2]
  exact ⟨h3, h4⟩

/-- A loop whose back edge exchanges its two parameters. -/
def swapLoop : List Call :=
  [.blockCreate none, .blockAddParam 0 (typeI 32) none, .blockAddParam 0 (typeI 32) none,
    .blockAddParam 0 (typeI 1) none, .blockCreate none,
    .setCbranch 0 2 0 (.array [1, 0, 2]) 1 (.array []), .setReturn 1 (.array [])]

/-- A state of the loop, after one run, with its parameters set again. -/
def swapLoopState : ExecState :=
  let m := runCalls Module.create swapLoop
  let s := (execSetParam m (execSetParam m (execSetParam m (freshState m) 0 (execI 32 1#64)).2
    1 (execI 32 2#64)).2 2 (execI 1 1#64)).2
  (execSetParam m (execRun m 0 s 3).2 0 (execI 32 7#64)).2

theorem execRun_refRun_swapLoop :
    ResultRel ValEq (execRun (runCalls Module.create swapLoop) 0 swapLoopState 5).1
        (refRun (runCalls Module.create swapLoop) 0 ([0, 1, 2].map swapLoopState.values)
          ⟨swapLoopState.mem.pages, 0#64⟩ 5).1 ∧
      (execRun (runCalls Module.create swapLoop) 0 swapLoopState 5).2.mem.pages =
        (refRun (runCalls Module.create swapLoop) 0 ([0, 1, 2].map swapLoopState.values)
          ⟨swapLoopState.mem.pages, 0#64⟩ 5).2.mem.pages :=
  execRun_refRun ⟨swapLoop, rfl⟩ (by decide)
    (.setParam 0 _ (.run 0 3 (.setParam 2 _ (.setParam 1 _ (.setParam 0 _
      (.create (execStateCreate_ok (by decide)))))))) 0 5 (by decide) 0#64

end Xair
