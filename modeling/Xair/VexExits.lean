import Xair.VexCalls
import Xair.VexVerified

/-!
# Leaving a block

A call that leaves a block writes its terminator and no operation, and a closed block stays as it
is.  So a module that is built later has the operations of the session in that block, and the
terminator of the call (`vexEmitExit_leaves`, `vexFinishJump_leaves`, `vexFinishReturn_leaves`).
When the module verifies, the edge to the continuation of an exit has as many arguments as the
continuation has parameters, so no register is read for the first time there (`vexInputs_locked`).
-/

namespace Xair

open PartialRun

/-! ### The operations of the other blocks -/

/-- No block has more operations than before. -/
def SameOps (a a' : VexAdapter) : Prop :=
  ∀ b, (a'.module.blockRec b).ops = (a.module.blockRec b).ops

section SameOps

variable {a a' a'' : VexAdapter}

theorem SameOps.refl (a : VexAdapter) : SameOps a a := fun _ => rfl

theorem SameOps.trans (h : SameOps a a') (h' : SameOps a' a'') : SameOps a a'' := fun b =>
  (h' b).trans (h b)

theorem blockAddParam_ops (m : Module) (c : Nat) (type : Ty) (name : Option Name) (b : Nat) :
    ((blockAddParam m c type name).1.blockRec b).ops = (m.blockRec b).ops := by
  rcases blockAddParam_cases m c type name with ⟨e, he⟩ | ⟨-, -, -, -, he⟩
  · rw [he]
  · rw [he, m.blockRec_withParam]
    split
    · next hcb => rw [hcb.1]; rfl
    · rfl

theorem vexTransferValue_ops (continuation : Nat) (text : Name) (old : Nat) (args : List Nat) :
    Effect.Leads SameOps (vexTransferValueToContinuation continuation text old args) :=
  Effect.leads_get_bind fun a => Effect.Leads.bind (fun _ _ _ => SameOps.trans)
    (fun a' b => blockAddParam_ops a'.module continuation (a.module.valueType old) (some text) b)
    fun _ => Effect.leads_pure SameOps.refl _

theorem vexTransferSlots_ops (continuation : Nat) (name : Nat → Name) (slots : Nat → Option Nat)
    (is : List Nat) (next : Option (Nat → Nat)) (args : List Nat) :
    Effect.Leads SameOps (vexTransferSlots continuation name slots is next args) := by
  induction is generalizing next args with
  | nil => exact Effect.leads_pure SameOps.refl _
  | cons i is ih =>
    unfold vexTransferSlots
    split
    · exact ih _ _
    · exact Effect.leads_throw SameOps.refl _
    · exact Effect.Leads.bind (fun _ _ _ => SameOps.trans) (vexTransferValue_ops _ _ _ _)
        fun _ => ih _ _

theorem vexTransferMemory_ops (continuation : Nat) (memory : Option Nat) :
    Effect.Leads SameOps (vexTransferMemory continuation memory) := by
  cases memory with
  | none => exact Effect.leads_pure SameOps.refl _
  | some memory => exact vexTransferValue_ops _ _ _ _

/-- The transfers of an exit make parameters only. -/
theorem vexTransferAll_ops (continuation : Nat) (a : VexAdapter) :
    Effect.Leads SameOps (vexTransferAll continuation a) :=
  Effect.Leads.bind (fun _ _ _ => SameOps.trans) (vexTransferMemory_ops _ _) fun _ =>
    Effect.Leads.bind (fun _ _ _ => SameOps.trans) (vexTransferSlots_ops _ _ _ _ _ _) fun _ =>
      Effect.Leads.bind (fun _ _ _ => SameOps.trans) (vexTransferSlots_ops _ _ _ _ _ _) fun _ =>
        Effect.Leads.bind (fun _ _ _ => SameOps.trans) (vexTransferSlots_ops _ _ _ _ _ _) fun _ =>
          Effect.leads_pure SameOps.refl _

end SameOps

/-! ### Closed blocks of a later module -/

section Closed

variable {m F : Module} {b : Nat} {s : VexSession} {a : VexAdapter} {u : Unit}

theorem later_withTerm {t : TermRec} {ids : List Nat} (hwf : (m.withTerm b t ids).WF)
    (hb : b < m.blocks.length) (hk : t.kind ≠ .none) (hl : (m.withTerm b t ids).Later F) :
    F.blockRec b = { m.blockRec b with term := t } ∧
      ∀ f, F.termArgsConst t f = (m.withTerm b t ids).termArgsConst t f := by
  have hself : (m.withTerm b t ids).blockRec b = { m.blockRec b with term := t } := by
    rw [m.blockRec_withTerm, if_pos ⟨rfl, hb⟩]
  refine ⟨?_, fun f => ?_⟩
  · rw [← hself]
    exact (hl.keepsBlock b).closed (by rw [hself]; exact hk)
  · have hterm := hwf.term b (by simpa [Module.withTerm] using hb)
    rw [hself] at hterm
    exact hl.grows.termArgsConst hterm f

/-- The later module has the operations of the session in the block, and a jump. -/
theorem vexFinishJump_leaves {target : Nat} {args : ArgArray} (hwf : s.adapter.module.WF)
    (h : vexFinishJump target args s.adapter = (.ok u, a)) (hl : a.module.Later F) :
    (F.blockRec s.adapter.current).ops = s.ops ∧
      (F.blockRec s.adapter.current).term.kind = .jump ∧
      (F.blockRec s.adapter.current).term.trueTarget = target ∧
      F.termArgsConst (F.blockRec s.adapter.current).term false = args.ids := by
  rw [vexFinishJump, Effect.get_bind] at h
  obtain ⟨m, hset, rfl⟩ := vexBuild_inv h
  have hwf' : m.WF := by
    have hstep :=
      wf_buildStep hwf (buildStep_setJump s.adapter.module s.adapter.current target args)
    rwa [hset] at hstep
  have hguard : s.adapter.module.isOpen s.adapter.current = true ∧ args.ids.length = args.count := by
    rw [setJump_eq] at hset
    split at hset
    · next hg => exact ⟨hg.1, hg.2.2⟩
    · cases hset
  obtain ⟨hopen, hlen⟩ := hguard
  obtain rfl := setJump_ok hset
  obtain ⟨hrec, hargs⟩ := later_withTerm hwf' (isOpen_iff.mp hopen).2.1 TermKind.noConfusion hl
  rw [hrec]
  refine ⟨rfl, rfl, rfl, (hargs false).trans ?_⟩
  show ((s.adapter.module.termArgs ++ args.ids).drop s.adapter.module.termArgs.length).take
    args.count = args.ids
  rw [List.drop_left, ← hlen, List.take_length]

/-- The later module has the operations of the session in the block, and a return. -/
theorem vexFinishReturn_leaves {values : ArgArray} (hwf : s.adapter.module.WF)
    (h : vexFinishReturn values s.adapter = (.ok u, a)) (hl : a.module.Later F) :
    (F.blockRec s.adapter.current).ops = s.ops ∧
      (F.blockRec s.adapter.current).term.kind = .ret ∧
      (F.blockRec s.adapter.current).term.trueArgCount = values.ids.length ∧
      F.termArgsConst (F.blockRec s.adapter.current).term false = values.ids := by
  rw [vexFinishReturn, Effect.get_bind] at h
  obtain ⟨m, hset, rfl⟩ := vexBuild_inv h
  have hwf' : m.WF := by
    have hstep := wf_buildStep hwf (buildStep_setReturn s.adapter.module s.adapter.current values)
    rwa [hset] at hstep
  have hguard : s.adapter.module.isOpen s.adapter.current = true ∧
      values.ids.length = values.count := by
    rw [setReturn_eq] at hset
    split at hset
    · next hg => exact hg
    · cases hset
  obtain ⟨hopen, hlen⟩ := hguard
  obtain rfl := setReturn_ok hset
  obtain ⟨hrec, hargs⟩ := later_withTerm hwf' (isOpen_iff.mp hopen).2.1 TermKind.noConfusion hl
  rw [hrec]
  refine ⟨rfl, rfl, hlen.symm, (hargs false).trans ?_⟩
  show ((s.adapter.module.termArgs ++ values.ids).drop s.adapter.module.termArgs.length).take
    values.count = values.ids
  rw [List.drop_left, ← hlen, List.take_length]

/-- What an exit that hands over `ts` has left behind in a later module. -/
structure VexExitIn (F : Module) (s : VexSession) (a : VexAdapter) (condition taken : Nat)
    (takenArgs : List Nat) (ts : List (VexTransfer VexKey)) : Prop where
  exit : VexExit s.adapter a ts
  ops : (F.blockRec s.adapter.current).ops = s.ops
  kind : (F.blockRec s.adapter.current).term.kind = .cbranch
  condition_eq : (F.blockRec s.adapter.current).term.condition = condition
  taken_eq : (F.blockRec s.adapter.current).term.trueTarget = taken
  continuation : (F.blockRec s.adapter.current).term.falseTarget = a.current
  args : F.termArgsConst (F.blockRec s.adapter.current).term false = takenArgs
  handed : F.termArgsConst (F.blockRec s.adapter.current).term true = ts.map VexTransfer.old
  empty : (a.module.blockRec a.current).ops = []

theorem vexEmitExit_leaves {condition taken : Nat} {takenArgs : ArgArray} {name : Option Name}
    (hready : s.adapter.Ready) (hwf : s.adapter.module.WF)
    (h : vexEmitExit condition taken takenArgs name s.adapter = (.ok u, a))
    (hl : a.module.Later F) : ∃ ts, VexExitIn F s a condition taken takenArgs.ids ts := by
  obtain ⟨ts, hexit, htaken⟩ :=
    (vexEmitExit_ensures hready.ok condition taken takenArgs name).ok h
  obtain ⟨text, b₁, b₂, c, r, hblock, htransfer, hset, hcurrent⟩ := vexEmitExit_inv h
  have hlt := hready.current_lt
  -- the new block is empty, and the transfers leave the operations alone
  obtain ⟨rfl, hm₁⟩ : c = s.adapter.module.blocks.length ∧
      b₁.module = s.adapter.module.withBlock
        (copyName (some text) [98, 98] s.adapter.module.blocks.length) := by
    rcases blockCreate_cases s.adapter.module (some text) with ⟨e, he⟩ | ⟨-, -, he⟩
    · rw [hblock] at he
      cases congrArg Prod.snd he
    · rw [hblock] at he
      exact ⟨Except.ok.inj (congrArg Prod.snd he), congrArg Prod.fst he⟩
  have hops₂ : ∀ b, (b₂.module.blockRec b).ops = (b₁.module.blockRec b).ops := by
    have hleads := vexTransferAll_ops s.adapter.module.blocks.length s.adapter b₁
    rwa [htransfer] at hleads
  have hwf' : a.module.WF := by
    have hlater := (VexCall.emitExit condition taken takenArgs name).frames.later s.adapter
    rw [VexCall.run, Effect.bind_of_ok h] at hlater
    exact Module.Later.wf hlater hwf
  obtain ⟨-, hself⟩ := setCbranch_self hset
  obtain ⟨hm₃, -⟩ := setCbranch_ok hset
  have hrec : F.blockRec s.adapter.current = a.module.blockRec s.adapter.current :=
    (hl.keepsBlock s.adapter.current).closed (by rw [hself]; exact TermKind.noConfusion)
  have hargs : ∀ f, F.termArgsConst (F.blockRec s.adapter.current).term f =
      a.module.termArgsConst (a.module.blockRec s.adapter.current).term f := fun f => by
    rw [hrec]
    exact hl.grows.termArgsConst (hwf'.term _ htaken.current_lt) f
  refine ⟨ts, hexit, ?_, ?_, ?_, ?_, ?_, (hargs false).trans htaken.args,
    (hargs true).trans hexit.args, ?_⟩
  · rw [hrec, hself]
    show (b₂.module.blockRec s.adapter.current).ops = s.ops
    rw [hops₂, hm₁, Module.blockRec_withBlock, if_pos hlt]
    rfl
  · rw [hrec]
    exact hexit.kind
  · rw [hrec, hself]
  · rw [hrec]
    exact htaken.target
  · rw [hrec]
    exact hexit.target
  · rw [hcurrent, hm₃, Module.blockRec_withTerm, if_neg fun hc => Nat.ne_of_lt hlt hc.1, hops₂, hm₁,
      Module.blockRec_withBlock, if_neg (Nat.lt_irrefl _), if_pos rfl]

/-! ### Late reads -/

/-- The edge to the current block has no room for another parameter. -/
def VexSession.Locked (s : VexSession) (F : Module) : Prop :=
  (F.blockRec s.adapter.current).params.length ≤
    (s.adapter.module.blockRec s.adapter.current).params.length

variable {c : VexCall} {id : Option Nat} {calls : List VexCall} {t : VexSession}

/-- The parameters of the continuation, when the later module verifies. -/
theorem VexExitIn.params {condition taken : Nat} {takenArgs : List Nat}
    {ts : List (VexTransfer VexKey)} (h : VexExitIn F s a condition taken takenArgs ts)
    (hver : F.Verified) (hlt : s.adapter.current < F.blocks.length) (hl : a.module.Later F) :
    (F.blockRec a.current).params = ts.map VexTransfer.new := by
  have hterm := (verifyModule_ok_iff.mp hver _ hlt).term
  rw [TermOk, h.kind] at hterm
  have hlen := hterm.2.2.2.args_ok.length_eq
  rw [h.handed, h.continuation] at hlen
  have hparams := (hl.keepsBlock a.current).params
  rw [h.exit.params] at hparams
  refine (hparams.eq_of_length ?_).symm
  rw [← hlen, List.length_map, List.length_map]

theorem next_adapter (s : VexSession) (c : VexCall) (id : Option Nat) (a : VexAdapter) :
    (s.next c id a).adapter = a := by
  cases c <;> rfl

theorem step_of_run (hrun : c.run s.adapter = (.ok id, a)) : s.step c = some (s.next c id a) := by
  rw [VexSession.step, hrun]

theorem current_call (hrun : c.run s.adapter = (.ok id, a)) (hexit : c.exits = false) :
    a.current = s.adapter.current ∧ (s.next c id a).written = s.written := by
  have hadapter := next_adapter s c id a
  have hwritten : (s.next c id a).written = s.written := by
    cases c <;> first | rfl | cases hexit
  refine ⟨?_, hwritten⟩
  have hstep := vexStep (step_of_run hrun)
  generalize hs' : s.next c id a = s' at hstep hadapter
  rw [← hadapter]
  cases hstep with
  | read => rfl
  | bind _ _ _ _ _ hcurrent => exact hcurrent
  | param => exact setReg_current _ _ _
  | op _ _ _ _ _ _ _ _ _ hcurrent => exact hcurrent
  | exit _ _ _ _ _ hc =>
    rw [hc] at hexit
    cases hexit
  | jump => rfl
  | ret => rfl

theorem later_run (hrun : c.run s.adapter = (.ok id, a)) : s.adapter.module.Later a.module := by
  have h := c.frames.later s.adapter
  rwa [hrun] at h

/-- A register that is read for the first time becomes the last parameter of the block. -/
theorem VexSession.input_param {p : Nat × Nat} (hrun : c.run s.adapter = (.ok id, a))
    (hp : s.input c id = some p) : (a.module.blockRec s.adapter.current).params =
      (s.adapter.module.blockRec s.adapter.current).params ++ [p.2] := by
  unfold VexSession.input at hp
  split at hp
  · next offset type name v =>
    split at hp
    · next hnone =>
      cases hp
      obtain ⟨w, hget, hv⟩ := returns_inv hrun
      cases hv
      obtain ⟨m, hparam, rfl⟩ := vexGetReg_param hget (Option.isNone_iff_eq_none.mp hnone)
      rcases blockAddParam_cases s.adapter.module s.adapter.current type name with
        ⟨e, he⟩ | ⟨-, hopen, -, -, he⟩
      · rw [hparam] at he
        cases he
      · rw [hparam] at he
        cases he
        rw [setReg_module]
        change ((s.adapter.module.withParam _ _ _).blockRec _).params = _
        rw [Module.blockRec_withParam, if_pos ⟨rfl, hopen.1⟩, BlockRec.appendParam]
    · cases hp
  · cases hp

/-- Under the lock no register is read for the first time. -/
theorem VexSession.Locked.input (h : s.Locked F) (hrun : c.run s.adapter = (.ok id, a))
    (hl : a.module.Later F) : s.input c id = none := by
  cases hp : s.input c id with
  | none => rfl
  | some p =>
    have hle := (hl.keepsBlock s.adapter.current).params.length_le
    rw [VexSession.input_param hrun hp, List.length_append, List.length_singleton] at hle
    have hlock : (F.blockRec s.adapter.current).params.length ≤ _ := h
    omega

/-- A call keeps the lock, and an exit locks the block that it leads to. -/
theorem VexSession.Locked.call (hver : F.Verified) (hready : s.adapter.Ready)
    (hwf : s.adapter.module.WF) (h : c.exits = false → s.Locked F)
    (hrun : c.run s.adapter = (.ok id, a)) (hl : a.module.Later F) :
    (s.next c id a).Locked F := by
  have hlater := later_run hrun
  rw [VexSession.Locked, next_adapter]
  by_cases hexit : c.exits = true
  · cases c with
    | emitExit condition taken takenArgs name =>
      obtain ⟨u, hemit, -⟩ := returns_inv hrun
      obtain ⟨ts, hin⟩ := vexEmitExit_leaves hready hwf hemit hl
      have hlt := ((hlater.trans hl).keepsBlock s.adapter.current).lt hready.current_lt
      rw [hin.params hver hlt hl, hin.exit.params]
    | _ => cases hexit
  · rw [Bool.not_eq_true] at hexit
    rw [(current_call hrun hexit).1]
    exact Nat.le_trans (h hexit) (hlater.keepsBlock s.adapter.current).params.length_le

theorem written_step {s' : VexSession} (hs : s.step c = some s') :
    s'.written.length = s.written.length + if c.exits then 1 else 0 := by
  obtain ⟨id, a, -, rfl⟩ := step_some hs
  cases c <;> rfl

/-- Calls only add to the module and to the blocks that were written. -/
theorem later_of_run (h : run VexSession.step s calls = some t) :
    s.adapter.module.Later t.adapter.module ∧ s.written.length ≤ t.written.length := by
  refine run_keeps (P := fun _ _ => True)
    (I := fun u : VexSession => s.adapter.module.Later u.adapter.module ∧
      s.written.length ≤ u.written.length)
    (fun u c u' hI _ hs => ?_) ⟨.refl _, Nat.le_refl _⟩ (fun _ _ => trivial) h
  exact ⟨hI.1.trans (step_later hs).1, by rw [written_step hs]; omega⟩

/-- **No register is read for the first time** after an exit. -/
theorem vexInputs_locked (hver : F.Verified) (hready : s.adapter.Ready)
    (hwf : s.adapter.module.WF) (h : s.Locked F) (hrun : run VexSession.step s calls = some t)
    (hl : t.adapter.module.Later F) : vexInputs s calls = [] := by
  induction calls generalizing s with
  | nil => rfl
  | cons c calls ih =>
    obtain ⟨s', hs, hrun⟩ := run_cons.mp hrun
    obtain ⟨id, a, hcall, rfl⟩ := step_some hs
    have hlater := later_run hcall
    have hla : a.module.Later F := by
      have h := (later_of_run hrun).1.trans hl
      rwa [next_adapter] at h
    rw [vexInputs_cons hcall, h.input hcall hla, Option.toList_none, List.nil_append]
    refine ih ?_ ?_ (VexSession.Locked.call hver hready hwf (fun _ => h) hcall hla) hrun
    · exact (step_later hs).2.1 hready
    · rw [next_adapter]
      exact hlater.wf hwf

/-- The registers that are read for the first time become parameters of the current block. -/
theorem vexInputs_params (hver : F.Verified) (hready : s.adapter.Ready)
    (hwf : s.adapter.module.WF) (hrun : run VexSession.step s calls = some t)
    (hl : t.adapter.module.Later F) :
    ∀ p ∈ vexInputs s calls, p.2 ∈ (F.blockRec s.adapter.current).params := by
  induction calls generalizing s with
  | nil => exact fun p hp => by cases hp
  | cons c calls ih =>
    obtain ⟨s', hs, hrun⟩ := run_cons.mp hrun
    obtain ⟨id, a, hcall, rfl⟩ := step_some hs
    have hlater := later_run hcall
    have hla : a.module.Later F := by
      have h := (later_of_run hrun).1.trans hl
      rwa [next_adapter] at h
    have hready' := (step_later hs).2.1 hready
    have hwf' : (s.next c id a).adapter.module.WF := by
      rw [next_adapter]
      exact hlater.wf hwf
    rw [vexInputs_cons hcall]
    intro p hp
    rcases List.mem_append.mp hp with hp | hp
    · have hparams := VexSession.input_param hcall (Option.mem_toList.mp hp)
      exact (hla.keepsBlock s.adapter.current).params.subset (by rw [hparams]; simp)
    · by_cases hexit : c.exits = true
      · rw [vexInputs_locked hver hready' hwf' (VexSession.Locked.call hver hready hwf
          (fun hno => absurd hexit (by simp [hno])) hcall hla) hrun hl] at hp
        cases hp
      · rw [Bool.not_eq_true] at hexit
        have hmem := ih hready' hwf' hrun p hp
        rwa [next_adapter, (current_call hcall hexit).1] at hmem

end Closed

end Xair
