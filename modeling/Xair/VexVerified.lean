import Xair.VexSession

/-!
# The adapter writes blocks that verify

As long as the current block is open, the bindings and the values that were handed out can be
used in it, and the blocks before are in order (`VexSession.Ok`).  An exit makes a new block
whose parameters fit the edge to it (`vexEmitExit_blocks`).  A register that is read for the
first time after an exit is one more parameter for which that edge has no argument
(`VexSession.Starved`): nothing that is built later repairs it.  So the blocks of a session
verify exactly when no register is read late (`vexWritten_verify_iff`).
-/

namespace Xair

open PartialRun

/-! ### The continuation of an exit -/

/-- A continuation with the parameters for `args`, made in `m₁`. -/
structure HandsOn (continuation : Nat) (m₁ : Module) (args : List Nat) (m : Module) : Prop where
  draft : Draft m continuation
  grows : GrowsIn continuation m₁ m
  accepts : m.Accepts continuation args
  args_lt : ∀ v ∈ args, v < m.values.length

section Continuation

variable {continuation : Nat} {m m' m₁ : Module} {a a' b b' : VexAdapter} {args : List Nat}

theorem lt_of_isValueType {v : Nat} (h : (m.valueType v).isValueType = true) :
    v < m.values.length := by
  by_contra hge
  have hrec : m.valueRec v = Module.defaultValue := List.getD_eq_default _ _ (Nat.le_of_not_lt hge)
  rw [Module.valueType, hrec] at h
  cases h

theorem HandsOn.param {old v : Nat} {name : Option Name} (h : HandsOn continuation m₁ args m)
    (hparam : blockAddParam m continuation (m.valueType old) name = (m', .ok v)) :
    HandsOn continuation m₁ (args ++ [old]) m' := by
  rcases blockAddParam_cases m continuation (m.valueType old) name with
    ⟨e, he⟩ | ⟨-, -, htype, hlt, he⟩
  · rw [he] at hparam
    cases hparam
  · rw [he] at hparam
    cases hparam
    have hold := lt_of_isValueType htype
    have hext := extends_withParam m continuation (m.valueType old)
      (copyName name [118] m.values.length)
    have hdraft := h.draft.withParam htype hlt (copyName name [118] m.values.length)
    have hrec : (m.withParam continuation (m.valueType old)
        (copyName name [118] m.values.length)).blockRec continuation =
        (m.blockRec continuation).appendParam m.values.length := by
      rw [m.blockRec_withParam, if_pos ⟨rfl, h.draft.isOpen.1⟩]
    refine ⟨hdraft, h.grows.trans hext, ?_, fun v hv => ?_⟩
    · have hargs := List.map_congr_left fun v hv => hext.grows.valueType (h.args_lt v hv)
      have hparams : ∀ p ∈ (m.blockRec continuation).params,
          (m.withParam continuation (m.valueType old)
            (copyName name [118] m.values.length)).valueType p = m.valueType p := fun p hp =>
        hext.grows.valueType
          ((h.draft.wf.block_params continuation h.draft.isOpen.1 p).mp hp).1
      have hnew : (m.withParam continuation (m.valueType old)
          (copyName name [118] m.values.length)).valueType m.values.length = m.valueType old := by
        rw [Module.valueType, Module.withParam_new]
      rw [Module.Accepts, hrec, BlockRec.appendParam, List.map_append, List.map_append, hargs,
        List.map_congr_left hparams, show args.map m.valueType = _ from h.accepts]
      simp only [List.map_cons, List.map_nil, hnew, hext.grows.valueType hold]
    · rcases List.mem_append.mp hv with hv | hv
      · exact Nat.lt_of_lt_of_le (h.args_lt v hv) hext.grows.values_le
      · rw [List.mem_singleton.mp hv]
        exact Nat.lt_of_lt_of_le hold hext.grows.values_le

theorem vexTransferValue_inv {text : Name} {old : Nat} {r : Nat × List Nat}
    (h : vexTransferValueToContinuation continuation text old args b = (.ok r, b')) :
    ∃ m, blockAddParam b.module continuation (b.module.valueType old) (some text) =
      (m, .ok r.1) ∧ b' = b.withModule m ∧ r.2 = args ++ [old] := by
  rw [vexTransferValueToContinuation, Effect.get_bind] at h
  obtain ⟨v, b₁, hb, hpure⟩ := Effect.bind_eq_ok.mp h
  obtain ⟨m, hparam, rfl⟩ := vexBuild_inv hb
  cases hpure
  exact ⟨m, hparam, rfl, rfl⟩

theorem handsOn_transferSlots {name : Nat → Name} {slots : Nat → Option Nat} {is : List Nat}
    {next : Option (Nat → Nat)} {r : Option (Nat → Nat) × List Nat}
    (hI : HandsOn continuation m₁ args b.module)
    (h : vexTransferSlots continuation name slots is next args b = (.ok r, b')) :
    HandsOn continuation m₁ r.2 b'.module := by
  induction is generalizing next args b with
  | nil =>
    cases h
    exact hI
  | cons i is ih =>
    cases hslot : slots i with
    | none =>
      rw [vexTransferSlots_skip hslot] at h
      exact ih hI h
    | some old =>
      cases next with
      | none =>
        rw [vexTransferSlots.eq_def] at h
        simp only [hslot] at h
        cases h
      | some next =>
        rw [vexTransferSlots_step hslot] at h
        obtain ⟨r₁, b₁, hvalue, hrest⟩ := Effect.bind_eq_ok.mp h
        obtain ⟨m, hparam, rfl, hargs⟩ := vexTransferValue_inv hvalue
        rw [hargs] at hrest
        exact ih (b := b.withModule m) (hI.param hparam) hrest

/-- The first pass of an exit makes a parameter for every value that it hands over. -/
theorem handsOn_transferAll {r : VexNext × List Nat} (hI : HandsOn continuation m₁ [] b.module)
    (h : vexTransferAll continuation a b = (.ok r, b')) :
    HandsOn continuation m₁ r.2 b'.module := by
  unfold vexTransferAll at h
  obtain ⟨⟨memory, args₁⟩, b₁, h₁, h⟩ := Effect.bind_eq_ok.mp h
  obtain ⟨⟨tmps, args₂⟩, b₂, h₂, h⟩ := Effect.bind_eq_ok.mp h
  obtain ⟨⟨regs, args₃⟩, b₃, h₃, h⟩ := Effect.bind_eq_ok.mp h
  obtain ⟨⟨sparse, args₄⟩, b₄, h₄, h⟩ := Effect.bind_eq_ok.mp h
  cases h
  have hI₁ : HandsOn continuation m₁ args₁ b₁.module := by
    unfold vexTransferMemory at h₁
    cases hmem : a.memory with
    | none =>
      rw [hmem] at h₁
      cases h₁
      exact hI
    | some old =>
      rw [hmem] at h₁
      obtain ⟨m, hparam, rfl, hargs⟩ := vexTransferValue_inv h₁
      dsimp only at hargs
      rw [hargs]
      exact hI.param hparam
  exact handsOn_transferSlots (handsOn_transferSlots (handsOn_transferSlots hI₁ h₂) h₃) h₄

/-- An exit that succeeds: the new block, the transfers and the branch. -/
theorem vexEmitExit_inv {condition taken : Nat} {takenArgs : ArgArray} {name : Option Name}
    {u : Unit} (h : vexEmitExit condition taken takenArgs name a = (.ok u, a')) :
    ∃ (text : Name) (b₁ b₂ : VexAdapter) (c : Nat) (r : VexNext × List Nat),
      blockCreate a.module (some text) = (b₁.module, .ok c) ∧
      vexTransferAll c a b₁ = (.ok r, b₂) ∧
      setCbranch b₂.module a.current condition taken takenArgs c (.array r.2) =
        (a'.module, .ok ()) ∧ a'.current = c := by
  rw [vexEmitExit, Effect.get_bind] at h
  split at h
  · cases h
  · obtain ⟨text, n, hname⟩ := vexContinuationName_run name a
    rw [Effect.bind_of_ok hname] at h
    obtain ⟨c, b₁, hcreate, h⟩ := Effect.bind_eq_ok.mp h
    obtain ⟨m₁, hblock, rfl⟩ := vexBuild_inv hcreate
    obtain ⟨r, b₂, htransfer, h⟩ := Effect.bind_eq_ok.mp h
    obtain ⟨⟨⟩, b₃, hbranch, h⟩ := Effect.bind_eq_ok.mp h
    obtain ⟨m₃, hset, rfl⟩ := vexBuild_inv hbranch
    cases h
    exact ⟨text, _, b₂, c, r, hblock, htransfer, hset, rfl⟩

/-- What an exit has done to the blocks. -/
structure ExitBlocks (a a' : VexAdapter) : Prop where
  draft : Draft a'.module a'.current
  writes : WritesIn a.current a.module a'.module
  blockOk : BlockOk a'.module a.current
  current : a'.current = a.module.blocks.length

/-- **The blocks of an exit.**  The block that it closes passes, and the continuation is a
draft. -/
theorem vexEmitExit_blocks (ha : a.Ok) (hd : Draft a.module a.current)
    (hbound : ∀ k v, a.lookup k = some v → a.module.Usable a.current v) {condition taken : Nat}
    {takenArgs : ArgArray} {name : Option Name} (hc : a.module.Usable a.current condition)
    (hi1 : (a.module.valueType condition).isI1 = true)
    (hu : ∀ v ∈ takenArgs.ids, a.module.Usable a.current v)
    (hm : a.module.Accepts taken takenArgs.ids) (ht : taken < a.module.blocks.length)
    (h : vexEmitExit condition taken takenArgs name a = (.ok (), a')) : ExitBlocks a a' := by
  obtain ⟨ts, hexit, -⟩ := (vexEmitExit_ensures ha condition taken takenArgs name).ok h
  obtain ⟨text, b₁, b₂, c, r, hblock, htransfer, hset, hcurrent⟩ := vexEmitExit_inv h
  -- the continuation before and after the transfers
  obtain ⟨hdraft₁, hc₁, nm, hm₁⟩ : BlockCreated a.module c b₁.module := by
    rcases blockCreate_draft hd.wf hd.unfrozen (some text) with ⟨c', m', he, hcreated⟩ | ⟨he, -⟩
    · rw [hblock] at he
      obtain ⟨rfl, rfl⟩ : b₁.module = m' ∧ c = c' := by
        cases he
        exact ⟨rfl, rfl⟩
      exact hcreated
    · rw [hblock] at he
      cases congrArg Prod.snd he
  have hI : HandsOn c b₁.module [] b₁.module := by
    refine ⟨hdraft₁, .refl c _, ?_, fun v hv => (by cases hv)⟩
    rw [Module.Accepts, hm₁, a.module.blockRec_withBlock, hc₁, if_neg (Nat.lt_irrefl _), if_pos rfl]
  have hI₂ := handsOn_transferAll hI htransfer
  have hgrown : GrowsIn a.module.blocks.length (a.module.withBlock nm) b₂.module := by
    rw [← hc₁, ← hm₁]
    exact hI₂.grows
  have hw : WritesIn a.current a.module b₂.module := writesIn_newBlock hgrown
  have hne : a.current ≠ c := by
    rw [hc₁]
    exact Nat.ne_of_lt hd.isOpen.1
  have hold : b₂.module.blockRec a.current = a.module.blockRec a.current := by
    rw [hI₂.grows.other _ hne, hm₁, a.module.blockRec_withBlock, if_pos hd.isOpen.1]
  have hdraft₂ : Draft b₂.module a.current :=
    hd.elsewhere hI₂.draft.wf hw.grows hw.blocks_le hold hI₂.draft.unfrozen
  have husable : ∀ v, a.module.Usable a.current v → b₂.module.Usable a.current v := fun v hv =>
    hv.grows hd.wf hI₂.draft.wf hd.isOpen.1 hw.blocks_le hw.grows
  -- the arguments of the edge to the continuation are the old bindings
  have hargs : ∀ v ∈ r.2, b₂.module.Usable a.current v := by
    obtain ⟨-, -, hfalse, -, -⟩ := setCbranch_branch hset
    intro v hv
    rw [← hfalse, hexit.args] at hv
    obtain ⟨t, hmem, rfl⟩ := List.mem_map.mp hv
    exact husable _ (hbound t.key t.old (hexit.moved t hmem).1)
  have hclosed := setCbranch_closes hdraft₂ hset (husable _ hc)
    (by rw [hw.grows.valueType hc.lt]; exact hi1) (fun v hv => husable v (hu v hv))
    (hm.writes hd.wf hw ht fun v hv => (hu v hv).lt) hargs hI₂.accepts
  have hwf₃ : a'.module.WF := by
    have hstep := wf_buildStep hI₂.draft.wf
      (buildStep_setCbranch b₂.module a.current condition taken takenArgs c (.array r.2))
    rwa [hset] at hstep
  obtain ⟨hm₃, -⟩ := setCbranch_ok hset
  have hw₃ : WritesIn a.current b₂.module a'.module := by
    rw [hm₃]
    exact writesIn_withTerm _ _ _ _
  refine ⟨?_, hw.trans hw₃, hclosed, hcurrent.trans hc₁⟩
  rw [hcurrent]
  refine hI₂.draft.elsewhere hwf₃ hw₃.grows hw₃.blocks_le
    (hw₃.other c hI₂.draft.isOpen.1 hne.symm) ?_
  rw [hm₃]
  exact hI₂.draft.unfrozen

end Continuation

/-! ### Sessions whose current block is open -/

/-- The current block is a draft, what the session has at hand can be used in it, and the blocks
before are in order. -/
structure VexSession.Ok (s : VexSession) : Prop where
  ready : s.adapter.Ready
  draft : Draft s.adapter.module s.adapter.current
  bound : ∀ k v, s.adapter.lookup k = some v → s.adapter.module.Usable s.adapter.current v
  memory : ∀ v, s.adapter.lookup .memory = some v → (s.adapter.module.valueType v).isMem = true
  obtained : ∀ v ∈ s.obtained, s.adapter.module.Usable s.adapter.current v
  current_written : s.adapter.current ∈ s.written
  written : ∀ b ∈ s.written, b ≠ s.adapter.current →
    b < s.adapter.module.blocks.length ∧ BlockOk s.adapter.module b
  entered : 1 < s.written.length → ∃ b ∈ s.written, b ≠ s.adapter.current ∧
    (s.adapter.module.blockRec b).term.kind = .cbranch ∧
    (s.adapter.module.blockRec b).term.falseTarget = s.adapter.current

/-- The current block is closed and every block that was written is in order. -/
structure VexSession.Finished (s : VexSession) : Prop where
  closed : (s.adapter.module.blockRec s.adapter.current).term.kind ≠ .none
  written : ∀ b ∈ s.written, BlockOk s.adapter.module b

/-- An edge to a continuation has too few arguments. -/
structure Module.Starves (m : Module) (b : Nat) : Prop where
  wf : m.WF
  lt : b < m.blocks.length
  kind : (m.blockRec b).term.kind = .cbranch
  short : (m.falseArgs b).length <
    (m.blockRec (m.blockRec b).term.falseTarget).params.length

/-- The adapter has written a block with such an edge. -/
def VexSession.Starved (s : VexSession) : Prop := ∃ b ∈ s.written, s.adapter.module.Starves b

section Sessions

variable {s s' : VexSession} {c : VexCall} {a : VexAdapter}

theorem Module.Starves.not_ok {m : Module} {b : Nat} (h : m.Starves b) : ¬ BlockOk m b := by
  intro hok
  have hterm := hok.term
  rw [TermOk, h.kind] at hterm
  have hlen := hterm.2.2.2.args_ok.length_eq
  exact Nat.lt_irrefl _ (hlen ▸ h.short)

theorem Module.Starves.later {m m' : Module} {b : Nat} (h : m.Starves b) (hl : m.Later m') :
    m'.Starves b := by
  have hkeep := hl.keepsBlock b
  have hrec := hkeep.closed (by rw [h.kind]; exact TermKind.noConfusion)
  refine ⟨hl.wf h.wf, hkeep.lt h.lt, by rw [hrec]; exact h.kind, ?_⟩
  rw [Module.falseArgs, hrec, hl.grows.termArgsConst (h.wf.term b h.lt)]
  exact Nat.lt_of_lt_of_le h.short (hl.keepsBlock _).params.length_le

theorem step_later (h : s.step c = some s') :
    s.adapter.module.Later s'.adapter.module ∧ (s.adapter.Ready → s'.adapter.Ready) ∧
      ∀ b ∈ s.written, b ∈ s'.written := by
  obtain ⟨id, a, hrun, rfl⟩ := step_some h
  have hl := c.frames.later s.adapter
  have hr := c.frames.ready s.adapter
  rw [hrun] at hl hr
  cases c <;> exact ⟨hl, hr, fun b hb => by simp [VexSession.next, hb]⟩

theorem VexSession.Starved.step (h : s.Starved) (hs : s.step c = some s') : s'.Starved := by
  obtain ⟨b, hb, hst⟩ := h
  obtain ⟨hl, -, hw⟩ := step_later hs
  exact ⟨b, hw b hb, hst.later hl⟩

theorem VexSession.Ok.update (h : s.Ok) {obtained : List Nat} (hready : a.Ready)
    (hcurrent : a.current = s.adapter.current) (hdraft : Draft a.module s.adapter.current)
    (hg : Grows s.adapter.module a.module)
    (hlen : s.adapter.module.blocks.length ≤ a.module.blocks.length)
    (hother : ∀ b ∈ s.written, b ≠ s.adapter.current → BlockOk a.module b ∧
      a.module.blockRec b = s.adapter.module.blockRec b)
    (hbound : ∀ k v, a.lookup k = some v → s.adapter.lookup k = some v ∨
      a.module.Usable s.adapter.current v ∧
        (k = .memory → (a.module.valueType v).isMem = true))
    (hobtained : ∀ v ∈ obtained, v ∈ s.obtained ∨ a.module.Usable s.adapter.current v) :
    VexSession.Ok ⟨a, obtained, s.written⟩ := by
  have husable : ∀ v, s.adapter.module.Usable s.adapter.current v →
      a.module.Usable s.adapter.current v := fun v hv =>
    hv.grows h.draft.wf hdraft.wf h.draft.isOpen.1 hlen hg
  refine ⟨hready, by rw [hcurrent]; exact hdraft, fun k v hk => ?_, fun v hk => ?_,
    fun v hv => ?_, by rw [hcurrent]; exact h.current_written, fun b hb hne => ?_, fun hl => ?_⟩
  · rw [hcurrent]
    exact (hbound k v hk).elim (fun hold => husable v (h.bound k v hold)) And.left
  · rcases hbound .memory v hk with hold | ⟨-, hmem⟩
    · rw [hg.valueType (h.bound .memory v hold).lt]
      exact h.memory v hold
    · exact hmem rfl
  · rw [hcurrent]
    exact (hobtained v hv).elim (fun hold => husable v (h.obtained v hold)) id
  · rw [hcurrent] at hne
    exact ⟨Nat.lt_of_lt_of_le (h.written b hb hne).1 hlen, (hother b hb hne).1⟩
  · obtain ⟨b, hb, hne, hkind, htarget⟩ := h.entered hl
    rw [hcurrent]
    refine ⟨b, hb, hne, ?_, ?_⟩
    · rw [(hother b hb hne).2]
      exact hkind
    · rw [(hother b hb hne).2]
      exact htarget

/-- A register that is bound to a new parameter of the current block. -/
theorem VexSession.Ok.param (h : s.Ok) {offset v : Nat} {type : Ty} {name : Option Name}
    {m : Module} (hready : ((s.adapter.withModule m).setReg offset v).Ready)
    (hparam : blockAddParam s.adapter.module s.adapter.current type name = (m, .ok v))
    (hfirst : ¬ 1 < s.written.length) :
    VexSession.Ok ⟨(s.adapter.withModule m).setReg offset v, v :: s.obtained, s.written⟩ := by
  have hadded : ParamAdded s.adapter.current type s.adapter.module v m := by
    rcases blockAddParam_cases s.adapter.module s.adapter.current type name with
      ⟨e, he⟩ | ⟨-, -, ht, -, -⟩
    · rw [he] at hparam
      cases hparam
    · rcases blockAddParam_draft h.draft ht name with ⟨w, m', he, hadded⟩ | ⟨he, -⟩
      · rw [hparam] at he
        cases he
        exact hadded
      · rw [hparam] at he
        cases he
  -- the current block is the only one that was written
  have honly : ∀ b ∈ s.written, b = s.adapter.current := by
    intro b hb
    have hmem := h.current_written
    match hw : s.written with
    | [] =>
      rw [hw] at hb
      cases hb
    | [x] =>
      rw [hw, List.mem_singleton] at hb hmem
      exact hb.trans hmem.symm
    | x :: y :: rest =>
      rw [hw] at hfirst
      exact absurd (by simp) hfirst
  refine h.update hready (setReg_current _ _ _) ?_ ?_ ?_ (fun b hb hne => absurd (honly b hb) hne)
    (fun k w hk => ?_) fun w hw => ?_
  · rw [setReg_module]
    exact hadded.draft
  · rw [setReg_module]
    exact hadded.extends_.grows
  · rw [setReg_module]
    exact Nat.le_of_eq hadded.extends_.blocks.symm
  · rw [lookup_setReg, lookup_withModule] at hk
    by_cases hkey : k = .reg offset
    · subst hkey
      rw [Function.update_self] at hk
      cases hk
      rw [setReg_module]
      exact .inr ⟨hadded.usable, fun h => by cases h⟩
    · rw [Function.update_of_ne hkey] at hk
      exact .inl hk
  · rcases List.mem_cons.mp hw with rfl | hw
    · rw [setReg_module]
      exact .inr hadded.usable
    · exact .inl hw

theorem VexSession.Ok.op (h : s.Ok) (hfits : s.Fits c) {k : OpKey} {name : Option Name}
    {key : VexKey} {v : Nat} (hready : a.Ready)
    (hadd : addOp s.adapter.module k name = (a.module, .ok v)) (hblock : k.block = s.adapter.current)
    (hsrcs : ∀ w ∈ k.srcs, w ∈ c.operands ∨ s.adapter.lookup .memory = some w)
    (htyped : c.Typed s.adapter →
      (∀ w, s.adapter.lookup .memory = some w → (s.adapter.module.valueType w).isMem = true) →
      k.type.isValueType = true →
      typeRule k.opcode k.type (k.srcs.map s.adapter.module.valueType) = true)
    (hcurrent : a.current = s.adapter.current)
    (hlookup : a.lookup = Function.update s.adapter.lookup key (some v))
    (hmem : key = .memory → ∃ w, s.adapter.lookup .memory = some w ∧
      k.type = s.adapter.module.valueType w) :
    VexSession.Ok { s with adapter := a } := by
  have husable : ∀ w ∈ k.srcs, s.adapter.module.Usable s.adapter.current w := by
    intro w hw
    rcases hsrcs w hw with hop | hbound
    · exact h.obtained w (hfits.operands w hop)
    · exact h.bound .memory w hbound
  have hres : (addOp s.adapter.module k name).2 = .ok v := by rw [hadd]
  have hvalue : k.type.isValueType = true := by
    obtain ⟨hwf', -, hc⟩ := addOp_computes h.draft.wf (fun w hw => (husable w hw).lt) hres
    rw [← hc.type hwf']
    exact hwf'.value_type v (hc.lt hwf')
  have hrule := htyped hfits.typed h.memory hvalue
  have hlen : k.srcs.length ≤ 3 := by
    by_contra hlong
    unfold addOp at hres
    rw [if_pos (by simp [Nat.not_le.mp hlong])] at hres
    cases hres
  have hadded : OpAdded k s.adapter.module v a.module := by
    rcases addOp_draft h.draft hblock hvalue husable hrule hlen name with
      ⟨w, m', he, hadded⟩ | ⟨m', he, -⟩
    · rw [hadd] at he
      obtain ⟨rfl, hw⟩ := Prod.ext_iff.mp he
      cases hw
      exact hadded
    · rw [hadd] at he
      cases congrArg Prod.snd he
  have hw := hadded.writesIn
  have hdraft := hadded.draft
  rw [hblock] at hw hdraft
  refine h.update hready hcurrent hdraft hw.grows hw.blocks_le (fun b hb hne => ?_)
    (fun key' w hk => ?_) fun w hw => .inl hw
  · obtain ⟨hlt, hok⟩ := h.written b hb hne
    exact ⟨hok.writes h.draft.wf hw hlt hne, hw.other b hlt hne⟩
  · rw [hlookup] at hk
    by_cases hkey : key' = key
    · subst hkey
      rw [Function.update_self] at hk
      cases hk
      refine .inr ⟨hblock ▸ hadded.usable, fun hm => ?_⟩
      obtain ⟨u, hu, htype⟩ := hmem hm
      rw [hadded.type, htype]
      exact h.memory u hu
    · rw [Function.update_of_ne hkey] at hk
      exact .inl hk

/-- The parameters of a continuation are bound instead of the old values. -/
theorem VexSession.Ok.exit (h : s.Ok) {condition taken : Nat} {takenArgs : ArgArray}
    {name : Option Name} (hfits : s.Fits (.emitExit condition taken takenArgs name))
    (hready : a.Ready)
    (hexit : vexEmitExit condition taken takenArgs name s.adapter = (.ok (), a)) :
    VexSession.Ok ⟨a, [], a.current :: s.written⟩ := by
  obtain ⟨ts, hts, htaken⟩ := (vexEmitExit_ensures h.ready.ok condition taken takenArgs name).ok hexit
  have hoperand : ∀ v ∈ condition :: takenArgs.ids,
      s.adapter.module.Usable s.adapter.current v := fun v hv =>
    h.obtained v (hfits.operands v hv)
  have hblocks := vexEmitExit_blocks h.ready.ok h.draft h.bound (hoperand _ List.mem_cons_self)
    hfits.typed.1 (fun v hv => hoperand v (List.mem_cons_of_mem _ hv)) hfits.typed.2 htaken.lt hexit
  have hne : ∀ b < s.adapter.module.blocks.length, b ≠ a.current := fun b hb => by
    rw [hblocks.current]
    exact Nat.ne_of_lt hb
  have hmoved : ∀ k v, a.lookup k = some v → ∃ t ∈ ts, t.key = k ∧ t.new = v := by
    intro k v hv
    cases hk : s.adapter.lookup k with
    | none =>
      rw [hts.unbound k hk] at hv
      cases hv
    | some old =>
      obtain ⟨t, ht, rfl⟩ := hts.all k (by rw [hk]; rfl)
      exact ⟨t, ht, rfl, Option.some.inj ((hts.moved t ht).2.symm.trans hv)⟩
  have hlt := hblocks.draft.isOpen.1
  refine ⟨hready, hblocks.draft, fun k v hv => ?_, fun v hv => ?_, fun v hv => (by cases hv),
    List.mem_cons_self, fun b hb hcur => ?_, fun _ => ?_⟩
  · obtain ⟨t, ht, -, rfl⟩ := hmoved k v hv
    refine usable_param hblocks.draft.wf hlt ?_
    rw [hts.params]
    exact List.mem_map_of_mem ht
  · -- the type of the new token is that of the old one, because the edge passes
    obtain ⟨t, ht, hkey, rfl⟩ := hmoved .memory v hv
    have hterm := hblocks.blockOk.term
    rw [TermOk, hts.kind] at hterm
    have hedge := hterm.2.2.2.accepts
    have htypes : ts.map (fun t => a.module.valueType t.old) =
        ts.map fun t => a.module.valueType t.new := by
      have hfalse : a.module.termArgsConst (a.module.blockRec s.adapter.current).term true =
          ts.map VexTransfer.old := hts.args
      rw [Module.Accepts, hfalse, hts.target, hts.params, List.map_map, List.map_map] at hedge
      exact hedge
    have hold : s.adapter.lookup .memory = some t.old := hkey ▸ (hts.moved t ht).1
    rw [← List.map_inj_left.mp htypes t ht,
      hblocks.writes.grows.valueType (h.bound .memory t.old hold).lt]
    exact h.memory t.old hold
  · have hb := (List.mem_cons.mp hb).resolve_left hcur
    by_cases hbc : b = s.adapter.current
    · subst hbc
      exact ⟨Nat.lt_of_lt_of_le h.draft.isOpen.1 hblocks.writes.blocks_le, hblocks.blockOk⟩
    · obtain ⟨hblt, hok⟩ := h.written b hb hbc
      exact ⟨Nat.lt_of_lt_of_le hblt hblocks.writes.blocks_le,
        hok.writes h.draft.wf hblocks.writes hblt hbc⟩
  · exact ⟨s.adapter.current, List.mem_cons_of_mem _ h.current_written, hne _ h.draft.isOpen.1,
      hts.kind, hts.target⟩

theorem VexSession.Ok.close (h : s.Ok) {m : Module} (hw : WritesIn s.adapter.current
    s.adapter.module m) (hok : BlockOk m s.adapter.current) :
    VexSession.Finished { s with adapter := s.adapter.withModule m } := by
  refine ⟨fun hkind => ?_, fun b hb => ?_⟩
  · have hterm := hok.term
    rw [TermOk, show (m.blockRec s.adapter.current).term.kind = .none from hkind] at hterm
    exact hterm
  · by_cases hbc : b = s.adapter.current
    · rw [hbc]
      exact hok
    · obtain ⟨hlt, hbok⟩ := h.written b hb hbc
      exact hbok.writes h.draft.wf hw hlt hbc

/-- **One call.**  A call that fits and does not read a register late keeps the session in
order. -/
theorem VexSession.Ok.step (h : s.Ok) (hfits : s.Fits c) (hlate : ¬ s.ReadsLate c)
    (hs : s.step c = some s') : s'.Ok ∨ s'.Finished := by
  obtain ⟨-, hready, -⟩ := step_later hs
  have hready := hready h.ready
  cases vexStep hs with
  | read k v hk =>
    refine .inl (h.update hready rfl h.draft (.refl _) (Nat.le_refl _)
      (fun b hb hne => ⟨(h.written b hb hne).2, rfl⟩) (fun _ _ => .inl) fun w hw => ?_)
    rcases List.mem_cons.mp hw with rfl | hw
    · exact .inr (h.bound k w hk)
    · exact .inl hw
  | bind k v a hv hmodule hcurrent hlookup hmem =>
    refine .inl (h.update hready hcurrent ?_ ?_ ?_ (fun b hb hne => ?_) (fun k' w hk => ?_)
      fun w hw => .inl hw)
    · rw [hmodule]
      exact h.draft
    · rw [hmodule]
      exact .refl _
    · rw [hmodule]
    · rw [hmodule]
      exact ⟨(h.written b hb hne).2, rfl⟩
    · rw [hlookup] at hk
      rw [hmodule]
      by_cases hkey : k' = k
      · subst hkey
        rw [Function.update_self] at hk
        cases hk
        refine .inr ⟨h.obtained v (hfits.operands v hv), fun hkm => ?_⟩
        rw [Ty.isMem, hmem hkm]
        rfl
      · rw [Function.update_of_ne hkey] at hk
        exact .inl hk
  | param offset type name v m hfirst hparam =>
    exact .inl (h.param hready hparam fun hl => hlate ⟨hl, hfirst⟩)
  | op k name key v a hadd hblock hsrcs htyped hcurrent hlookup hmem =>
    exact .inl (h.op hfits hready hadd hblock hsrcs htyped hcurrent hlookup hmem)
  | exit condition taken takenArgs name a hc hexit =>
    subst hc
    exact .inl (h.exit hfits hready hexit)
  | jump target args m hc hset =>
    subst hc
    refine .inr (h.close ?_ (setJump_closes h.draft hset
      (fun v hv => h.obtained v (hfits.operands v hv)) hfits.typed))
    rw [setJump_ok hset]
    exact writesIn_withTerm _ _ _ _
  | ret values m hc hset =>
    subst hc
    refine .inr (h.close ?_ (setReturn_closes h.draft hset
      fun v hv => h.obtained v (hfits.operands v hv)))
    rw [setReturn_ok hset]
    exact writesIn_withTerm _ _ _ _

/-- A parameter that the edge from `b` has no argument for. -/
theorem Module.Starves.withParam {m : Module} {b c : Nat} {type : Ty} (hwf : m.WF)
    (hlt : b < m.blocks.length) (hne : b ≠ c) (hok : BlockOk m b)
    (hkind : (m.blockRec b).term.kind = .cbranch) (htarget : (m.blockRec b).term.falseTarget = c)
    (hopen : m.OpenBlock c) (htype : type.isValueType = true)
    (hv : m.values.length < uint32Max) (text : Name) :
    (m.withParam c type text).Starves b := by
  have hterm := hok.term
  rw [TermOk, hkind] at hterm
  have hlen := hterm.2.2.2.args_ok.length_eq
  rw [htarget] at hlen
  have hrec : (m.withParam c type text).blockRec b = m.blockRec b := by
    rw [Module.blockRec_withParam, if_neg fun hh => hne hh.1.symm]
  refine ⟨hwf.withParam hopen htype hv text, by simpa [Module.withParam] using hlt, ?_, ?_⟩
  · rw [hrec, hkind]
  · rw [Module.falseArgs, hrec, htarget, Module.blockRec_withParam, if_pos ⟨rfl, hopen.1⟩,
      BlockRec.appendParam, List.length_append]
    exact Nat.lt_succ_of_le (Nat.le_of_eq hlen)

/-- A register that is read late leaves the edge to the continuation short of an argument. -/
theorem VexSession.Ok.starves (h : s.Ok) (hlate : s.ReadsLate c) (hs : s.step c = some s') :
    s'.Starved := by
  obtain ⟨hl, hfirst⟩ := hlate
  obtain ⟨b, hb, hne, hkind, htarget⟩ := h.entered hl
  obtain ⟨hlt, hok⟩ := h.written b hb hne
  cases c with
  | getReg offset type name =>
    have hnone : s.adapter.reg offset = none := Option.isNone_iff_eq_none.mp hfirst
    obtain ⟨id, a, hrun, rfl⟩ := step_some hs
    obtain ⟨v, hget, rfl⟩ := returns_inv hrun
    obtain ⟨m, hparam, rfl⟩ := vexGetReg_param hget hnone
    refine ⟨b, hb, ?_⟩
    show Module.Starves ((s.adapter.withModule m).setReg offset v).module b
    rw [setReg_module]
    show m.Starves b
    rcases blockAddParam_cases s.adapter.module s.adapter.current type name with
      ⟨e, he⟩ | ⟨-, hopen, ht, hv, he⟩
    · rw [he] at hparam
      cases hparam
    · rw [he] at hparam
      cases hparam
      exact .withParam h.draft.wf hlt hne hok hkind htarget hopen ht hv _
  | _ => cases hfirst

/-- **A closed block stays as it is.**  The calls that still succeed leave the module alone. -/
theorem closed_step (h : (s.adapter.module.blockRec s.adapter.current).term.kind ≠ .none)
    (hs : s.step c = some s') : s'.adapter.module = s.adapter.module ∧
      s'.adapter.current = s.adapter.current ∧ s'.written = s.written := by
  have hclosed : ¬ s.adapter.module.OpenBlock s.adapter.current := fun hopen => h hopen.2
  cases vexStep hs with
  | read k v hk => exact ⟨rfl, rfl, rfl⟩
  | bind k v a hv hmodule hcurrent => exact ⟨hmodule, hcurrent, rfl⟩
  | param offset type name v m _ hparam =>
    rcases blockAddParam_cases s.adapter.module s.adapter.current type name with
      ⟨e, he⟩ | ⟨-, hopen, -⟩
    · rw [he] at hparam
      cases hparam
    · exact absurd hopen hclosed
  | op k name key v a hadd hblock =>
    have hres : (addOp s.adapter.module k name).2 = .ok v := by rw [hadd]
    rw [← hblock] at h
    unfold addOp at hres
    split at hres
    · cases hres
    · cases hres
  | exit condition taken takenArgs name a _ hexit =>
    obtain ⟨text, b₁, b₂, c, r, hblock, htransfer, hset, -⟩ := vexEmitExit_inv hexit
    have hl₁ : s.adapter.module.Later b₁.module := by
      have hl := later_call s.adapter.module (c := .blockCreate (some text)) fun h => by cases h
      rw [Call.run, hblock] at hl
      exact hl
    have hl₂ : b₁.module.Later b₂.module := by
      have hl := (vexTransferAll_leads c s.adapter b₁).later
      rw [htransfer] at hl
      exact hl
    have hrec := ((hl₁.trans hl₂).keepsBlock s.adapter.current).closed h
    have hopen := (isOpen_iff.mp (setCbranch_checks hset).1).2.2
    rw [hrec] at hopen
    exact absurd hopen h
  | jump target args m _ hset =>
    rw [setJump_eq] at hset
    split at hset
    · next hg => exact absurd (isOpen_iff.mp hg.1).2 hclosed
    · cases hset
  | ret values m _ hset =>
    rw [setReturn_eq] at hset
    split at hset
    · next hg => exact absurd (isOpen_iff.mp hg.1).2 hclosed
    · cases hset

theorem VexSession.Finished.step (h : s.Finished) (hs : s.step c = some s') : s'.Finished := by
  obtain ⟨hm, hc, hw⟩ := closed_step h.closed hs
  exact ⟨by rw [hm, hc]; exact h.closed, by rw [hm, hw]; exact h.written⟩

/-- A register that is read for the first time is a new parameter of an open block. -/
theorem VexSession.Finished.not_late (h : s.Finished) (hs : s.step c = some s') :
    ¬ s.ReadsLate c := by
  rintro ⟨-, hfirst⟩
  cases c with
  | getReg offset type name =>
    obtain ⟨id, a, hrun, -⟩ := step_some hs
    obtain ⟨v, hget, -⟩ := returns_inv hrun
    obtain ⟨m, hparam, -⟩ := vexGetReg_param hget (Option.isNone_iff_eq_none.mp hfirst)
    rcases blockAddParam_cases s.adapter.module s.adapter.current type name with
      ⟨e, he⟩ | ⟨-, hopen, -⟩
    · rw [he] at hparam
      cases hparam
    · exact h.closed hopen.2
  | _ => cases hfirst

theorem closed_of_finishes (hc : c.finishes = true) (hs : s.step c = some s') :
    (s'.adapter.module.blockRec s'.adapter.current).term.kind ≠ .none := by
  have hkind : ∀ (t : TermRec) (ids : List Nat), t.kind ≠ .none →
      s.adapter.module.isOpen s.adapter.current = true →
      (Module.blockRec (s.adapter.module.withTerm s.adapter.current t ids)
        s.adapter.current).term.kind ≠ .none := by
    intro t ids ht hopen
    rw [Module.blockRec_withTerm, if_pos ⟨rfl, (isOpen_iff.mp hopen).2.1⟩]
    exact ht
  cases c with
  | finishJump target args =>
    obtain ⟨id, a, hrun, rfl⟩ := step_some hs
    obtain ⟨⟨⟩, hfinish, -⟩ := returns_inv hrun
    rw [vexFinishJump, Effect.get_bind] at hfinish
    obtain ⟨m, hset, rfl⟩ := vexBuild_inv hfinish
    rw [setJump_eq] at hset
    split at hset
    · next hg =>
      cases hset
      exact hkind _ _ TermKind.noConfusion hg.1
    · cases hset
  | finishReturn values =>
    obtain ⟨id, a, hrun, rfl⟩ := step_some hs
    obtain ⟨⟨⟩, hfinish, -⟩ := returns_inv hrun
    rw [vexFinishReturn, Effect.get_bind] at hfinish
    obtain ⟨m, hset, rfl⟩ := vexBuild_inv hfinish
    rw [setReturn_eq] at hset
    split at hset
    · next hg =>
      cases hset
      exact hkind _ _ TermKind.noConfusion hg.1
    · cases hset
  | _ => cases hc

theorem ok_start {m : Module} {entry memory : Nat} (hdraft : Draft m entry)
    (hcreate : vexAdapterCreate m entry memory = .ok a)
    (hmem : ∀ v ∈ a.memory, m.Usable entry v) : (VexSession.start a).Ok := by
  have hok := vexAdapterCreate_tables hcreate
  have hkind : memory ≠ invalidId → (m.valueType memory).isMem = true := by
    intro hne
    rw [vexAdapterCreate] at hcreate
    split at hcreate
    · cases hcreate
    · by_cases hk : (m.valueType memory).kind = .mem
      · simp [Ty.isMem, hk]
      · rw [if_pos hk] at hcreate
        cases hcreate
  obtain rfl := vexAdapterCreate_ok hcreate
  have hnone : ∀ k v, VexAdapter.lookup ⟨m, entry, if memory = invalidId then none else some memory,
      ⟨0, fun _ => none⟩, fun _ => none, 0, [], 0⟩ k = some v → k = .memory := by
    intro k v hk
    cases k with
    | memory => rfl
    | tmp t => simp [VexAdapter.lookup, vexDenseGet] at hk
    | reg o => simp [VexAdapter.lookup, VexAdapter.reg, vexFindEntry, KeyedList.lookup] at hk
  refine ⟨⟨hok, hdraft.isOpen.1⟩, hdraft, fun k v hk => ?_, fun v hk => ?_,
    fun v hv => (by cases hv), List.mem_cons_self, fun b hb hne => ?_, fun hl => ?_⟩
  · obtain rfl := hnone k v hk
    exact hmem v hk
  · by_cases hinv : memory = invalidId
    · simp [VexSession.start, VexAdapter.lookup, hinv] at hk
    · simp only [VexSession.start, VexAdapter.lookup, if_neg hinv] at hk
      cases hk
      exact hkind hinv
  · exact absurd (List.mem_singleton.mp hb) hne
  · exact absurd hl (by simp [VexSession.start])

end Sessions

/-- **When the blocks of an adapter verify.**  The adapter starts on a block that is in order so
far, with a memory token that can be used there; the caller passes values that were handed out
since the last exit, of the types that are asked for, and every call succeeds.  When the last
block is closed, every block that was written passes the verifier, unless a register was read for
the first time after an exit. -/
theorem vexWritten_verify_iff {m : Module} {entry memory : Nat} {a : VexAdapter}
    (hdraft : Draft m entry) (hcreate : vexAdapterCreate m entry memory = .ok a)
    (hmem : ∀ v ∈ a.memory, m.Usable entry v) {calls : List VexCall} {t : VexSession}
    (hfits : ∀ p ∈ trace VexSession.step (.start a) calls, p.1.Fits p.2)
    (hrun : run VexSession.step (.start a) calls = some t)
    (hfinish : ∃ c ∈ calls, c.finishes = true) :
    (∀ b ∈ t.written, verifyBlock t.adapter.module b = .ok ()) ↔
      ∀ p ∈ trace VexSession.step (.start a) calls, ¬ p.1.ReadsLate p.2 := by
  have hphases := run_switches (P := fun s c => s.Fits c)
    (I := fun s => s.Ok ∨ s.Finished) (Q := fun s c => s.ReadsLate c) (J := VexSession.Starved)
    (fun s c s' hI hfit hlate hs =>
      hI.elim (fun h => h.step hfit hlate hs) fun h => .inr (h.step hs))
    (fun s c s' hI _ hlate hs => hI.elim (fun h => h.starves hlate hs)
      fun h => absurd hlate (h.not_late hs))
    (fun s c s' h _ hs => h.step hs) (.inl (ok_start hdraft hcreate hmem)) hfits hrun
  have hclosed : (t.adapter.module.blockRec t.adapter.current).term.kind ≠ .none := by
    obtain ⟨c, hc, hfin⟩ := hfinish
    obtain ⟨u, hu⟩ := mem_trace hrun hc
    refine (run_switches (P := fun _ _ => True) (I := fun _ => True)
      (Q := fun _ c => c.finishes = true)
      (J := fun s => (s.adapter.module.blockRec s.adapter.current).term.kind ≠ .none)
      (fun _ _ _ _ _ _ _ => trivial) (fun _ _ _ _ _ hq hs => closed_of_finishes hq hs)
      (fun s c s' h _ hs => ?_) trivial (fun _ _ => trivial) hrun).2 ⟨(u, c), hu, hfin⟩
    obtain ⟨hm, hcur, -⟩ := closed_step h hs
    rw [hm, hcur]
    exact h
  constructor
  · intro hall p hp hlate
    obtain ⟨b, hb, hst⟩ := hphases.2 ⟨p, hp, hlate⟩
    exact hst.not_ok (verifyBlock_ok_iff.mp (hall b hb))
  · intro hnone b hb
    rcases hphases.1 hnone with hok | hfin
    · exact absurd hok.draft.isOpen.2 hclosed
    · exact verifyBlock_ok_iff.mpr (hfin.written b hb)

/-- A block with a memory parameter, and a target. -/
def sessionModule : Module :=
  runCalls Module.create
    [.blockCreate none, .blockCreate none, .blockAddParam 0 (typeMem 0 64) none]

/-- A block that reads a register, loads and leaves, and its continuation. -/
def sessionCalls : List VexCall :=
  [.getReg 16 (typeI 64) none, .emitConst 0 (typeI 1) 1 none, .getTmp 0,
    .emitConst 1 (typeAddr 64) 4096 none, .getTmp 1, .emitLoad 2 (typeI 32) 3 .le none,
    .emitExit 2 1 (.array []) none, .getReg 16 (typeI 64) none, .finishReturn (.array [])]

def sessionAdapter : VexAdapter :=
  ⟨sessionModule, 0, some 0, ⟨0, fun _ => none⟩, fun _ => none, 0, [], 0⟩

theorem draft_sessionModule : Draft sessionModule 0 :=
  ⟨wf_reachable ⟨_, rfl⟩, rfl, ⟨by decide, rfl⟩, trivial⟩

/-- The two blocks of the session are accepted. -/
theorem vexWritten_verify_session : ∃ t, run VexSession.step (.start sessionAdapter) sessionCalls =
    some t ∧ ∀ b ∈ t.written, verifyBlock t.adapter.module b = .ok () := by
  have hsome : (run VexSession.step (.start sessionAdapter) sessionCalls).isSome = true := by
    decide +kernel
  obtain ⟨t, hrun⟩ := Option.isSome_iff_exists.mp hsome
  have hcreate : vexAdapterCreate sessionModule 0 0 = .ok sessionAdapter := rfl
  have hmem : ∀ v ∈ sessionAdapter.memory, sessionModule.Usable 0 v := fun v hv => by
    cases hv
    exact usable_param draft_sessionModule.wf (by decide) (by decide)
  exact ⟨t, hrun, (vexWritten_verify_iff draft_sessionModule hcreate hmem (by decide +kernel)
    hrun ⟨.finishReturn (.array []), by decide, rfl⟩).mpr (by decide +kernel)⟩

end Xair
