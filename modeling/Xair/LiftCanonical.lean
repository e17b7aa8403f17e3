import Xair.LiftSimulates
import Xair.LiftInterface
import Xair.MemoryKept

/-!
# Lifting, canonicalizing and running

A lifted block has at most one memory parameter, takes the latest token in every access, and
returns the last one: lifting keeps a module threaded (`liftBasicBlock_threaded`), and the block
hands its token on.  So `xair_canonicalize_module` may run between the lift and the execution, and
the block still does what the machine does (`lift_canonicalize_simulates`).
-/

namespace Xair

variable {m m' m₁ : Module} {b : Nat} {image : Image} {options : LiftOptions} {s s' t : LiftState}
  {r : LiftResult}

/-! ### The types of the parameters -/

/-- The inputs have the types of registers and of the memory. -/
structure PortTypes (s : LiftState) : Prop where
  inputs : ∀ p ∈ s.result.inputRegs, s.HasValue p.2 (x86RegType s.arch)
  memoryIn : ∀ v, s.result.memoryIn = some v → s.HasValue v s.memoryType

theorem PortTypes.frame (h : PortTypes s) (hd : Draft s.module s.block) (hf : LiftFrame s s')
    (hinputs : s'.result.inputRegs = s.result.inputRegs)
    (hmemory : s'.result.memoryIn = s.result.memoryIn) : PortTypes s' := by
  refine ⟨fun p hp => ?_, fun v hv => ?_⟩
  · rw [hf.arch]
    exact hf.hasValue (h.inputs p (hinputs ▸ hp)) hd
  · rw [LiftState.memoryType, hf.memorySpace, hf.arch]
    exact hf.hasValue (h.memoryIn v (hmemory ▸ hv)) hd

theorem LiftStep.portTypes (hinv : LiftInv s) (h : PortTypes s) (hs : LiftStep s s') :
    PortTypes s' := by
  have hf := hs.frame hinv.draft
  have hframe := h.frame hinv.draft hf
  cases hs with
  | quiet hs =>
    cases hs with
    | @param reg v m' _ _ ha =>
      refine ⟨fun p hp => ?_, fun u hu => hf.hasValue (h.memoryIn u hu) hinv.draft⟩
      rcases List.mem_append.mp hp with hp | hp
      · exact hf.hasValue (h.inputs p hp) hinv.draft
      · rw [List.mem_singleton.mp hp]
        exact ⟨ha.usable, ha.type⟩
    | @memParam v m' _ ha =>
      refine ⟨fun p hp => hf.hasValue (h.inputs p hp) hinv.draft, fun u hu => ?_⟩
      cases hu
      exact ⟨ha.usable, ha.type⟩
    | op => exact hframe rfl rfl
    | same => exact hframe rfl rfl
  | load hs => cases hs with | load => exact hframe rfl rfl
  | store hs => cases hs with | store => exact hframe rfl rfl
  | note hs => cases hs <;> exact hframe rfl rfl

theorem LiftSteps.portTypes {n : Nat} (hinv : LiftInv s) (h : PortTypes s) (hs : LiftSteps n s s') :
    PortTypes s' :=
  (hs.induct (P := fun s => LiftInv s ∧ PortTypes s)
    (fun _ _ ha hab => ⟨hab.inv ha.1, hab.portTypes ha.1 ha.2⟩) ⟨hinv, h⟩).2

/-! ### Threading -/

/-- A block that a growing module does not touch stays threaded. -/
theorem Module.BlockThreaded.grows (hwf : m.WF) (huses : m.TermUsesValid) (hg : Grows m m')
    {c : Nat} (hc : c < m.blocks.length) (hrec : m'.blockRec c = m.blockRec c)
    (h : m.BlockThreaded c) : m'.BlockThreaded c := by
  obtain ⟨h1, h2, h3⟩ := h
  have hmem : m'.memParams c = m.memParams c := by
    rw [Module.memParams, Module.memParams, hrec]
    refine List.filter_congr fun v hv => ?_
    rw [hg.valueType ((hwf.block_params c hc v).mp hv).1]
  have hstart : m'.startToken c = m.startToken c := by
    rw [Module.startToken, Module.startToken, hmem]
  have hops : ∀ o ∈ (m.blockRec c).ops, o < m.ops.length := fun o ho => hwf.mem_ops_lt hc ho
  refine ⟨by rw [hmem]; exact h1, ?_, fun a ha htype => ?_⟩
  · rw [hstart, hrec]
    exact tokensOk_grows hwf hg hops h2
  · rw [Module.endToken, hstart, hrec, tokenAfter_grows hwf hg hops]
    have hsame : m'.termUses (m'.blockRec c).term = m.termUses (m.blockRec c).term := by
      simp only [Module.termUses, hrec, hg.termArgsConst (hwf.term c hc)]
    rw [hsame] at ha
    exact h3 a ha (by rw [← hg.valueType (huses c hc a ha)]; exact htype)

namespace LiftedFrom

variable (h : LiftedFrom m image options b m₁ t r s')
include h

theorem portTypes : PortTypes t :=
  h.ends.steps.portTypes (lifting_start h.created.draft options true).inv
    ⟨fun p hp => (by cases hp), fun v hv => (by cases hv)⟩

theorem mem_returnValues {v : Nat} (hv : v ∈ s'.result.returnValues) :
    t.memory = some v ∨ (s'.module.valueType v).isMem = false := by
  have hg := h.returned.extends_.grows
  have htype : ∀ {u ty}, t.HasValue u ty → s'.module.valueType u = ty := fun hu =>
    (hg.valueType hu.usable.lt).trans hu.type
  have hreturns := h.returnValues
  rw [LiftState.returns] at hreturns
  change s'.result.returnValues = t.memory.toList ++ t.outputs.map Prod.snd ++ _ at hreturns
  rw [hreturns] at hv
  rcases List.mem_append.mp hv with hv | hv
  · rcases List.mem_append.mp hv with hv | hv
    · exact .inl (Option.mem_toList.mp hv)
    · obtain ⟨p, hp, rfl⟩ := List.mem_map.mp hv
      have hinv := h.lifting.inv
      have hval := (hinv.regs p.1 p.2 (LiftState.mem_outputs hinv hp)).2
      exact .inr (by rw [htype hval]; rfl)
  · rcases h.condition with ⟨want, u, -, -, -, hcond, hz⟩ | ⟨-, -, hcond⟩
    · rw [hcond] at hv
      obtain rfl := List.mem_singleton.mp hv
      exact .inr (by rw [htype hz.value]; rfl)
    · rw [hcond] at hv
      cases hv

theorem termUses : s'.module.termUses (s'.module.blockRec b).term = s'.result.returnValues := by
  simp only [Module.termUses, h.returned.kind, h.returned.args]

/-- The memory parameter of the block is the incoming token. -/
theorem memParams : s'.module.memParams b = t.result.memoryIn.toList := by
  have hports := h.ends.steps.ports (lifting_start h.created.draft options true).inv
    (ports_liftStart h.created options true)
  have hg := h.returned.extends_.grows
  have hperm := hports.params
  rw [h.block_eq, ← h.returned.params] at hperm
  have hfilter := hperm.filter fun v => (s'.module.valueType v).isMem
  have hregs : (t.result.inputRegs.map Prod.snd).filter
      (fun v => (s'.module.valueType v).isMem) = [] := by
    refine List.filter_eq_nil_iff.mpr fun v hv => ?_
    obtain ⟨p, hp, rfl⟩ := List.mem_map.mp hv
    have hval := h.portTypes.inputs p hp
    rw [hg.valueType hval.usable.lt, hval.type]
    exact Bool.false_ne_true
  have htoken : t.result.memoryIn.toList.filter (fun v => (s'.module.valueType v).isMem) =
      t.result.memoryIn.toList := by
    refine List.filter_eq_self.mpr fun v hv => ?_
    have hval := h.portTypes.memoryIn v (Option.mem_toList.mp hv)
    rw [hg.valueType hval.usable.lt, hval.type]
    rfl
  rw [List.filter_append, hregs, htoken, List.nil_append] at hfilter
  cases hin : t.result.memoryIn with
  | none =>
    rw [hin] at hfilter
    exact List.perm_nil.mp hfilter
  | some v =>
    rw [hin] at hfilter
    exact List.perm_singleton.mp hfilter

theorem endToken : s'.module.endToken b = t.memory := by
  have hstart : s'.module.startToken b = t.result.memoryIn := by
    rw [Module.startToken, h.memParams]
    cases t.result.memoryIn <;> rfl
  rw [Module.endToken, hstart]
  exact h.tokens.2

/-- **The lifted block is threaded.** -/
theorem blockThreaded : s'.module.BlockThreaded b := by
  refine ⟨?_, ?_, fun a ha htype => ?_⟩
  · rw [h.memParams]
    cases t.result.memoryIn <;> simp
  · rw [Module.startToken, h.memParams]
    have htok := h.tokens.1
    cases hin : t.result.memoryIn <;> rw [hin] at htok <;> exact htok
  · rw [h.termUses] at ha
    rw [h.endToken]
    refine (h.mem_returnValues ha).resolve_right fun hf => ?_
    rw [htype] at hf
    cases hf

/-- The lifted block returns its last token. -/
theorem handsOnToken : s'.module.HandsOnToken b := by
  intro v hv
  rw [h.endToken] at hv
  rw [h.termUses, h.returnValues, LiftState.returns]
  exact List.mem_append_left _ (List.mem_append_left _ (Option.mem_toList.mpr hv))

theorem keepsMemory : s'.module.KeepsMemory b := by
  intro c hc
  induction hc with
  | refl => exact h.handsOnToken
  | @tail c d hbc hcd ih =>
    -- a block that returns has no successor
    have hne : c = b := by
      clear ih hcd
      induction hbc with
      | refl => rfl
      | tail _ hlast ih =>
        rw [ih] at hlast
        rcases hlast with ⟨hk, -⟩ | ⟨hk, -⟩ <;> rw [h.returned.kind] at hk <;> cases hk
    rw [hne] at hcd
    rcases hcd with ⟨hk, -⟩ | ⟨hk, -⟩ <;> rw [h.returned.kind] at hk <;> cases hk

/-- Lifting keeps the tokens of the other blocks threaded. -/
theorem threaded (hwf : m.WF) (hver : m.Verified) (hthr : m.Threaded) : s'.module.Threaded := by
  intro c hc
  by_cases hcb : c = b
  · rw [hcb]
    exact h.blockThreaded
  · have hret := h.returned
    have hext := h.frame.extends_
    obtain ⟨name, hchange⟩ := h.created.change
    have hlt : c < m.blocks.length := by
      rw [hret.extends_.blocks, hext.blocks] at hc
      change c < m₁.blocks.length at hc
      rw [hchange, Module.withBlock, List.length_append] at hc
      have hb := h.created.block
      simp only [List.length_singleton] at hc
      omega
    have hg : Grows m s'.module := by
      refine ((?_ : Grows m m₁).trans hext.grows).trans hret.extends_.grows
      rw [hchange]
      exact grows_withBlock m name
    refine (hthr c hlt).grows hwf (termUsesValid_of_verified hver) hg hlt ?_
    rw [hret.extends_.other c hcb, hext.other c hcb]
    show m₁.blockRec c = _
    rw [hchange, m.blockRec_withBlock, if_pos hlt]

end LiftedFrom

/-- **Lifting keeps a module threaded.** -/
theorem liftBasicBlock_threaded (h : m.Reachable) (hver : m.Verified) (hthr : m.Threaded)
    (image : Image) (options : LiftOptions)
    (hok : (liftBasicBlock m image options).status = .ok) :
    (liftBasicBlock m image options).module.Threaded := by
  obtain ⟨b, m₁, t, r, s', hl⟩ := liftBasicBlock_ok h hok
  rw [hl.out]
  exact hl.threaded (wf_reachable h) hver hthr

/-- `push rax; pop rbx; ret`. -/
def pushPopRbxImage : Image := ⟨[0x50#8, 0x5b#8, 0xc3#8], 0x1000#64⟩

/-- A push and a pop, lifted into a module whose two blocks store, load and hand a token on. -/
theorem liftBasicBlock_threaded_handOn :
    (liftBasicBlock (runCalls Module.create handOnSample) pushPopRbxImage
      addRetOptions).module.Threaded :=
  liftBasicBlock_threaded (m := runCalls Module.create handOnSample) ⟨handOnSample, rfl⟩
    (by decide +kernel) (by decide +kernel) pushPopRbxImage addRetOptions (by decide +kernel)

/-! ### The pipeline -/

/-- The pages after a call of `xair_exec_store_bytes`: one that fails stores nothing. -/
def storedPage (pages : List ExecPage) (c : StoreCall) : List ExecPage :=
  ((execStoreBytes pages c.space c.address c.data).toOption).getD pages

/-- The pages after a sequence of calls on a fresh state. -/
def storedPages (calls : List StoreCall) : List ExecPage := calls.foldl storedPage []

theorem storeBytesAll_eq (s : ExecState) (calls : List StoreCall) : storeBytesAll s calls =
    { s with mem := { s.mem with pages := calls.foldl storedPage s.mem.pages } } := by
  induction calls generalizing s with
  | nil => rfl
  | cons c calls ih =>
    show storeBytesAll (execStateStoreBytes s c.space c.address c.data).2 calls = _
    rw [ih, List.foldl_cons, execStateStoreBytes, storedPage]
    cases execStoreBytes s.mem.pages c.space c.address c.data <;> rfl

theorem reachable_storeBytesAll {s : ExecState} (h : s.Reachable m) (calls : List StoreCall) :
    (storeBytesAll s calls).Reachable m := by
  induction calls generalizing s with
  | nil => exact h
  | cons c calls ih => exact ih (h.storeBytes c.space c.address c.data)

theorem reachable_execSetParams {s s' : ExecState} {vs : List Nat} {xs : List ExecValue}
    (h : s.Reachable m) (hset : execSetParams m s vs xs = (.ok, s')) : s'.Reachable m := by
  induction vs generalizing s xs with
  | nil =>
    cases hset
    exact h
  | cons v vs ih =>
    cases xs with
    | nil =>
      cases hset
      exact h
    | cons x xs =>
      rw [execSetParams] at hset
      have hnext := h.setParam v x
      cases hp : execSetParam m s v x with
      | mk e s₁ =>
        rw [hp] at hset hnext
        cases e
        case ok => exact ih hnext hset
        all_goals cases hset

/-- A state that a caller prepares with public calls is reachable. -/
theorem reachable_execEnter (hver : m.Verified) {entry : Nat} {calls : List StoreCall}
    {args : List ExecValue} {s : ExecState}
    (hset : execEnter m entry (storedPages calls) args = (.ok, s)) : s.Reachable m := by
  have hstored := reachable_storeBytesAll (.create (execStateCreate_ok hver)) calls
  rw [storeBytesAll_eq] at hstored
  exact reachable_execSetParams hstored hset

/-- **Canonicalized lifted code simulates the machine.**  A block is lifted into a threaded
module, the module is canonicalized, and the block is entered with memory and parameters that
stand for a machine state: the run returns the registers and leaves the memory of the machine. -/
theorem lift_canonicalize_simulates (h : m.Reachable) (hver : m.Verified) (hthr : m.Threaded)
    (image : Image) (options : LiftOptions) (hok : (liftBasicBlock m image options).status = .ok)
    (hmax : (liftBasicBlock m image options).result.returnValues.length ≤ execMaxReturns) :
    let out := liftBasicBlock m image options
    ∃ b, out.result.block = some b ∧
      ∀ M M' : X86Machine options.arch, M.run (options.stream image).1 = some M' →
        ∀ calls args s limit, (out.module.blockRec b).params.length = args.length →
          execEnter out.module b (storedPages calls) args = (.ok, s) →
          StandsFor out.result options.memorySpace M s → 1 ≤ limit →
          ∃ s', execEnter (canonicalizeModule out.module).1 b (storedPages calls) args =
              (.ok, s') ∧
            RunSimulates out.result options.memorySpace b
              (if out.result.endKind = .directCbranch then (options.stream image).2.tests else none)
              M M' s (execRun (canonicalizeModule out.module).1 b s' limit) := by
  obtain ⟨b, m₁, t, r, s₁, hl⟩ := liftBasicBlock_ok h hok
  rw [hl.out] at hmax ⊢
  refine ⟨b, hl.result_block, ?_⟩
  intro M M' hrun calls args s limit hlen hset hM hlimit
  have hver₁ := hl.verified (wf_reachable h) hver
  have hsim := hl.runSimulates hmax (X86Machine.runThenRsp_of_run hrun)
    (reachable_execEnter hver₁ hset) hM hlimit
  obtain ⟨ids, tokens, htokens, hids, hresult⟩ := hsim.result
  obtain ⟨s', ⟨kind, block, code, returns⟩, hset', hrun', hk, hb, hc, hvalues, hpages⟩ :=
    canonicalizeModule_run hl.returned.wf hver₁ (hl.threaded (wf_reachable h) hver hthr)
      hl.keepsMemory hlen hset hresult HaltKind.noConfusion
  dsimp only at hk hb hc hvalues
  subst hk hb hc
  -- tokens stay tokens, and everything else is returned as before
  obtain ⟨front, conds, rfl, hfront, hconds⟩ := forall₂_append_split hvalues
  obtain ⟨tokens', regs, rfl, htokens', hregs⟩ := forall₂_append_split hfront
  have hplain : ∀ {xs ys : List ExecValue}, List.Forall₂ ValEq xs ys →
      (∀ x ∈ xs, x.type.kind ≠ .mem) → ys = xs := fun hxy hmem => by
    refine (forall₂_eq_map hxy (g := id) fun x hx y hxy => ?_).trans (List.map_id _)
    exact (hxy.eq (hmem x hx)).symm
  rw [hplain hregs (fun x hx => by
    obtain ⟨p, -, rfl⟩ := List.mem_map.mp hx
    exact fun hm => by cases hm)] at hrun'
  rw [hplain hconds (fun x hx => by
    obtain ⟨w, -, rfl⟩ := Option.map_eq_some_iff.mp (Option.mem_toList.mp hx)
    exact fun hm => by cases hm)] at hrun'
  refine ⟨s', hset', ⟨ids, tokens', htokens.trans htokens'.length_eq, hids, hrun'⟩, hsim.unlisted,
    fun a => ?_, fun space hne a => ?_⟩
  · rw [hpages]
    exact hsim.memory a
  · rw [hpages]
    exact hsim.otherSpaces space hne a

def pushPopRbxLift : Lifted := liftBasicBlock Module.create pushPopRbxImage addRetOptions

/-- `rax` is 7, and no byte of memory is defined. -/
def pushPopRbxMachine : X86Machine .x8664 :=
  ⟨fun r => if r = 0 then 7#64 else if r = 4 then 0x2000#64 else 0#64, fun _ => none, false⟩

def pushPopRbxArgs : List ExecValue := [execI 64 0x2000#64, execI 64 7#64, execMem 0 64]

def pushPopRbxState : ExecState := (execEnter pushPopRbxLift.module 0 [] pushPopRbxArgs).2

theorem standsFor_pushPopRbxState :
    StandsFor pushPopRbxLift.result addRetOptions.memorySpace pushPopRbxMachine pushPopRbxState := by
  have hpages : pushPopRbxState.mem.pages = [] := List.isEmpty_iff.mp (by decide +kernel)
  refine ⟨by decide +kernel, by decide +kernel, fun a => ?_⟩
  rw [hpages]
  rfl

/-- After canonicalization the block still moves `rax` to `rbx` through the stack. -/
theorem lift_canonicalize_simulates_pushPopRbx : ∃ M' s',
    pushPopRbxMachine.run (addRetOptions.stream pushPopRbxImage).1 = some M' ∧ (M'.regs 3).toNat = 7 ∧
      RunSimulates pushPopRbxLift.result addRetOptions.memorySpace 0
        (if pushPopRbxLift.result.endKind = .directCbranch then
          (addRetOptions.stream pushPopRbxImage).2.tests else none)
        pushPopRbxMachine M' pushPopRbxState
        (execRun (canonicalizeModule pushPopRbxLift.module).1 0 s' 1) := by
  have hval : (pushPopRbxMachine.run (addRetOptions.stream pushPopRbxImage).1).map
      (fun M => (M.regs 3).toNat) = some 7 := by decide +kernel
  obtain ⟨M', hrun, hrbx⟩ := Option.map_eq_some_iff.mp hval
  have hlift : liftBasicBlock Module.create pushPopRbxImage addRetOptions = pushPopRbxLift := rfl
  have hsim := lift_canonicalize_simulates (m := Module.create) ⟨[], rfl⟩ (by decide)
    (by decide) pushPopRbxImage addRetOptions (by decide +kernel) (by decide +kernel)
  rw [hlift] at hsim
  dsimp only at hsim
  obtain ⟨b, hb, hall⟩ := hsim
  have hblock : pushPopRbxLift.result.block = some 0 := by decide +kernel
  obtain rfl : (0 : Nat) = b := Option.some.inj (hblock.symm.trans hb)
  have hset : execEnter pushPopRbxLift.module 0 (storedPages []) pushPopRbxArgs =
      (.ok, pushPopRbxState) := execEnter_eq (by decide +kernel)
  have hlen : (pushPopRbxLift.module.blockRec 0).params.length = pushPopRbxArgs.length := by
    decide +kernel
  obtain ⟨s', -, hsim⟩ := hall pushPopRbxMachine M' hrun [] pushPopRbxArgs pushPopRbxState 1 hlen
    hset standsFor_pushPopRbxState (Nat.le_refl 1)
  exact ⟨M', s', hrun, hrbx, hsim⟩

end Xair
