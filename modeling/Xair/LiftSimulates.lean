import Xair.LiftExecutes
import Xair.ThreadedRun

/-!
# Lifted blocks simulate the machine

A run of a lifted block from a state that stands for a machine state `M` returns the
registers, and leaves the memory, of the machine state that the instruction stream makes
of `M` (`lift_simulates`).  The block has a denotation for the inputs of the run
(`denotes_meaning`), the lift agrees with the machine under it (`LiftEnds.simulates`),
and the run follows it (`carries_follows`).
-/

namespace Xair

variable {m m₁ : Module} {b : Nat} {image : Image} {options : LiftOptions} {t s' : LiftState}
  {r : LiftResult}

/-- The inputs of a lifted block are set to the machine state, and memory in the space
`sp` is the machine's. -/
structure StandsFor {arch : Arch} (res : LiftResult) (sp : Nat) (M : X86Machine arch)
    (s : ExecState) : Prop where
  regs : ∀ p ∈ res.inputRegs, s.defined p.2 = true ∧ s.values p.2 = arch.int (M.regs p.1)
  memoryIn : ∀ v, res.memoryIn = some v → s.defined v = true
  memory : ∀ a, execLoadByte s.mem.pages sp a = M.memory a

/-- What a run of a lifted block from `s` comes to, when the machine gets from `M` to `M'`
and the block tests the flag for `want`, if it does.  The values are returned in the
order of `returnValues`: the token, the output registers, the condition. -/
structure RunSimulates {arch : Arch} (res : LiftResult) (sp b : Nat) (want : Option Bool)
    (M M' : X86Machine arch) (s : ExecState) (out : RunResult × ExecState) : Prop where
  result : ∃ ids tokens, ids.length = tokens.length ∧
    res.returnValues = ids ++ res.outputRegs.map Prod.snd ++ res.branchCondition.toList ∧
    out.1 = .ok ⟨.ret, b, 0, tokens ++ res.outputRegs.map (fun p => arch.int (M'.regs p.1)) ++
      (want.map fun w => boolValue (M'.zf == w)).toList⟩
  unlisted : ∀ reg, (∀ p ∈ res.outputRegs, p.1 ≠ reg) → M'.regs reg = M.regs reg
  memory : ∀ a, execLoadByte out.2.mem.pages sp a = M'.memory a
  otherSpaces : ∀ space, space ≠ sp → ∀ a,
    execLoadByte out.2.mem.pages space a = execLoadByte s.mem.pages space a

/-! ### Tokens -/

theorem tokens_type {os : List Nat} {av : ValueSet} {tok : Option Nat} {e : Nat}
    (hops : OpsOk m b os av) (htok : m.TokensOk tok os) (he : m.tokenAfter tok os = some e) :
    (∀ v, tok = some v → m.valueType v = m.valueType e) ∧
      ∀ o ∈ os, (m.opRec o).opcode.isMemoryOp →
        m.valueType ((m.opRec o).srcAt 0) = m.valueType e := by
  induction os generalizing tok av with
  | nil =>
    change tok = some e at he
    refine ⟨fun v hv => ?_, fun o ho => by cases ho⟩
    rw [he] at hv
    cases hv
    rfl
  | cons o os ih =>
    obtain ⟨hok, hops⟩ := hops
    obtain ⟨hcur, htok⟩ := htok
    obtain ⟨h1, h2⟩ := ih hops htok he
    have hfirst : ∀ v, tok = some v → m.valueType v = m.valueType e := by
      intro v hv
      cases hmem : (m.valueType (m.opRec o).dst).isMem with
      | false => exact h1 v (by rw [Module.nextToken, if_neg (by simp [hmem]), hv])
      | true =>
        -- a store, whose token has the type of the one that it takes
        have hop := typeRule_mem hok.typed hmem
        have hsrc := hcur (.inr hop)
        rw [hv, Option.some.injEq] at hsrc
        have htyped := hok.typed
        rw [hop] at htyped
        obtain ⟨tm, ta, td, hs, -, -, hout, -⟩ := typeRule_store htyped
        obtain ⟨u, us, hsrcs, hu, -⟩ := List.map_eq_cons_iff.mp hs
        have h0 : (m.opRec o).srcAt 0 = u := by simp [OpRec.srcAt, hsrcs]
        rw [hsrc, h0, hu, ← hout]
        exact h1 _ (by rw [Module.nextToken, if_pos hmem])
    refine ⟨hfirst, fun p hp hop => ?_⟩
    rcases List.mem_cons.mp hp with rfl | hp
    · exact hfirst _ (hcur hop)
    · exact h2 p hp hop

namespace LiftedFrom

variable (h : LiftedFrom m image options b m₁ t r s')
include h

theorem ops_lt (o : Nat) (ho : o ∈ (t.module.blockRec b).ops) : o < t.module.ops.length := by
  have hd := h.lifting.inv.draft
  rw [← h.block_eq] at ho
  exact hd.wf.mem_ops_lt hd.isOpen.1 ho

theorem tokens : s'.module.TokensOk t.result.memoryIn (s'.module.blockRec b).ops ∧
    s'.module.tokenAfter t.result.memoryIn (s'.module.blockRec b).ops = t.memory := by
  have hwf := h.lifting.inv.draft.wf
  have hg := h.returned.extends_.grows
  rw [h.returned.ops]
  refine ⟨tokensOk_grows hwf hg h.ops_lt (h.block_eq ▸ h.runnable.tokens), ?_⟩
  rw [tokenAfter_grows hwf hg h.ops_lt, ← h.block_eq]
  exact h.runnable.token

/-- Every load and store of the finished block is in the memory space of the lift. -/
theorem space (o : Nat) (ho : o ∈ (s'.module.blockRec b).ops)
    (hop : (s'.module.opRec o).opcode.isMemoryOp) :
    (s'.module.valueType ((s'.module.opRec o).srcAt 0)).aux = options.memorySpace := by
  obtain ⟨htok, hend⟩ := h.tokens
  have hops := h.returned.blockOk.ops
  cases hmem : t.memory with
  | none =>
    -- then there is no token to take
    rw [hmem] at hend
    obtain ⟨pre, post, hsplit⟩ := List.append_of_mem ho
    rw [hsplit] at htok hend
    have hcur := (tokensOk_split pre htok).1 hop
    have hsome := tokenAfter_isSome (m := s'.module) (congrArg Option.isSome hcur) (o :: post)
    rw [Module.tokenAfter, List.foldl_append] at hend
    change s'.module.tokenAfter (s'.module.tokenAfter _ pre) (o :: post) = none at hend
    rw [hend] at hsome
    cases hsome
  | some e =>
    rw [hmem] at hend
    have hval := h.lifting.inv.memory e hmem
    rw [(tokens_type hops htok hend).2 o ho hop,
      h.returned.extends_.grows.valueType hval.usable.lt, hval.type, LiftState.memoryType,
      h.frame.memorySpace]
    rfl

end LiftedFrom

/-! ### The denotation of a run -/

/-- The meaning of the inputs of a run. -/
def inputMeaning (m : Module) (b : Nat) (s : ExecState) (g : ByteMap) : Meaning :=
  ⟨refStart m b ((m.blockRec b).params.map s.values) s.mem, fun _ => g⟩

/-- The denotation of the block in a run from `s`, with the map `g` in memory. -/
def runReading (m : Module) (b : Nat) (s : ExecState) (g : ByteMap) : Denotation :=
  ((inputMeaning m b s g).ops m (m.blockRec b).ops).reading m

theorem refRead_refStart (hwf : m.WF) {s : ExecState} (hs : s.Ok m) (hb : b < m.blocks.length)
    (hset : ∀ v ∈ (m.blockRec b).params, s.defined v = true) {v : Nat}
    (hv : v ∈ (m.blockRec b).params) :
    refRead m (refStart m b ((m.blockRec b).params.map s.values) s.mem) v = .ok (s.values v) := by
  obtain ⟨hlt, hop, -⟩ := (hwf.block_params b hb v).mp hv
  obtain ⟨hm, -, hready⟩ := mirrors_start hwf hs hb hset
  have hav : m.valueIsAvailable (m.availableAtStart b) v = true :=
    valueIsAvailable_iff.mpr ⟨hlt, .inl (availableAtStart_iff.mpr hv)⟩
  rw [← hm.read_eq hready hav, execReadValue, hs.slot hlt, hset v hv]
  rfl

/-- What the lift and a run of its block are about: the run stands for the machine. -/
theorem LiftedFrom.completes (h : LiftedFrom m image options b m₁ t r s')
    {M : X86Machine options.arch} {s : ExecState} (hs : s.Ok s'.module)
    (hM : StandsFor s'.result options.memorySpace M s) :
    Completes s'.module (runReading s'.module b s M.memory) M t ∧
      AgreeOn s'.module (s'.module.availableAtStart b) (inputMeaning s'.module b s M.memory)
        ((inputMeaning s'.module b s M.memory).ops s'.module (s'.module.blockRec b).ops) := by
  have hret := h.returned
  have hwf := hret.wf
  have hb : b < s'.module.blocks.length := by
    rw [hret.extends_.blocks, ← h.block_eq]
    exact h.lifting.inv.draft.isOpen.1
  have hset := h.params_set (fun p hp => (hM.regs p hp).1) hM.memoryIn
  obtain ⟨-, -, hready⟩ := mirrors_start hwf hs hb hset
  obtain ⟨hden, hagree⟩ := denotes_meaning hwf hb hret.blockOk.ops h.opRuns
    (L := inputMeaning s'.module b s M.memory) hready
  have hparam : ∀ v ∈ (t.module.blockRec t.block).params,
      (runReading s'.module b s M.memory).value v = s.values v ∧
        (runReading s'.module b s M.memory).memory v = M.memory := by
    intro v hv
    rw [h.block_eq, ← hret.params] at hv
    have hav : s'.module.valueIsAvailable (s'.module.availableAtStart b) v = true :=
      valueIsAvailable_iff.mpr ⟨((hwf.block_params b hb v).mp hv).1,
        .inl (availableAtStart_iff.mpr hv)⟩
    obtain ⟨h1, h2⟩ := hagree v hav
    exact ⟨readValue_eq (h1.trans (refRead_refStart hwf hs hb hset hv)), h2⟩
  refine ⟨⟨h.lifting.arch_eq, hwf, ?_, ?_, fun p hp => ?_, fun v hv => ?_⟩, hagree⟩
  · rw [h.block_eq]
    exact hret.extends_
  · rw [h.block_eq]
    exact hden
  · rw [(hparam _ (h.runnable.inputs p hp)).1]
    exact (hM.regs p (h.inputRegs ▸ hp)).2
  · exact (hparam v (h.runnable.memoryIn v hv)).2

theorem agrees_start (ρ : Denotation) (m₁ : Module) (options : LiftOptions) (b : Nat) (emit : Bool)
    (M : X86Machine options.arch) : Agrees ρ M (liftStart m₁ options b emit) M where
  regs := fun _ _ hv => by cases hv
  unread := fun _ _ => rfl
  unwritten := fun _ _ => rfl
  memory := fun _ hv => by cases hv
  untouched := fun _ => rfl
  zf := fun _ hv => by cases hv

/-- Under the denotation of the run the lift agrees with the machine, and every access
stays in bounds. -/
theorem LiftedFrom.agrees (h : LiftedFrom m image options b m₁ t r s')
    {M M' : X86Machine options.arch} (hrun : M.runThenRsp (options.stream image).1 = some M')
    {s : ExecState} (hs : s.Ok s'.module) (hM : StandsFor s'.result options.memorySpace M s) :
    Agrees (runReading s'.module b s M.memory) M t M' ∧
      ∀ o ∈ (s'.module.blockRec b).ops,
        (runReading s'.module b s M.memory).InBounds s'.module (s'.module.opRec o) := by
  obtain ⟨hc, -⟩ := h.completes hs hM
  obtain ⟨ha, hin⟩ := h.ends.simulates _ _ M M M' hc (agrees_start _ m₁ options b true M) hrun
  refine ⟨ha, fun o ho => ?_⟩
  have hempty : (m₁.blockRec b).ops = [] := by
    obtain ⟨name, rfl⟩ := h.created.change
    rw [h.created.block, m.blockRec_withBlock, if_neg (Nat.lt_irrefl _), if_pos rfl]
  have hin' := hin fun o ho => by
    change o ∈ (m₁.blockRec b).ops at ho
    rw [hempty] at ho
    cases ho
  rw [h.returned.ops] at ho
  exact inBounds_grows h.lifting.inv.draft.wf h.returned.extends_.grows (h.ops_lt o ho)
    (hin' o (by rw [h.block_eq]; exact ho))

/-! ### The values that are returned -/

theorem forall₂_eq_map {α β : Type} {R : α → β → Prop} {g : α → β} {l : List α} {xs : List β}
    (h : List.Forall₂ R l xs) (hR : ∀ a ∈ l, ∀ x, R a x → x = g a) : xs = l.map g := by
  induction h with
  | nil => rfl
  | @cons a x l xs hax _ ih =>
    rw [List.map_cons, hR a (by simp) x hax, ih fun c hc => hR c (by simp [hc])]

theorem forall₂_append_split {α β : Type} {R : α → β → Prop} {l₁ l₂ : List α} {xs : List β}
    (h : List.Forall₂ R (l₁ ++ l₂) xs) :
    ∃ xs₁ xs₂, xs = xs₁ ++ xs₂ ∧ List.Forall₂ R l₁ xs₁ ∧ List.Forall₂ R l₂ xs₂ :=
  ⟨xs.take l₁.length, xs.drop l₁.length, (List.take_append_drop _ _).symm,
    (List.forall₂_take_append xs l₁ l₂ h.flip).flip,
    (List.forall₂_drop_append xs l₁ l₂ h.flip).flip⟩

theorem LiftState.not_written {s : LiftState} (h : LiftInv s) {reg : X86Reg}
    (hn : ∀ p ∈ s.outputs, p.1 ≠ reg) : s.writtenRegs reg = false := by
  by_contra hw
  rw [Bool.not_eq_false] at hw
  obtain ⟨v, hv⟩ := h.written reg hw
  have hreg : reg < x86RegCount := by
    have hsup := (h.regs reg v hv).1
    simp only [x86RegSupported, Bool.and_eq_true, decide_eq_true_eq] at hsup
    exact hsup.1
  exact hn (reg, (s.regs reg).getD invalidId)
    (List.mem_filterMap.mpr ⟨reg, List.mem_range.mpr hreg, if_pos hw⟩) rfl

theorem LiftState.mem_outputs {s : LiftState} (h : LiftInv s) {p : X86Reg × Nat}
    (hp : p ∈ s.outputs) : s.regs p.1 = some p.2 := by
  obtain ⟨reg, -, hout⟩ := List.mem_filterMap.mp hp
  unfold LiftState.output at hout
  split at hout
  · next hw =>
    obtain ⟨v, hv⟩ := h.written reg hw
    rw [hv] at hout
    cases hout
    exact hv
  · cases hout

namespace LiftedFrom

variable (h : LiftedFrom m image options b m₁ t r s')
include h

theorem outputRegs : s'.result.outputRegs = t.outputs := by
  rw [h.ends.finished.result]
  rfl

theorem condition : (∃ want v, (options.stream image).2.tests = some want ∧
      s'.result.endKind = .directCbranch ∧ s'.result.branchCondition = some v ∧
      ({ t with result := r } : LiftState).condition = some v ∧
      IsBool t v fun M : X86Machine options.arch => M.zf == want) ∨
    (s'.result.endKind ≠ .directCbranch ∧ s'.result.branchCondition = none ∧
      ({ t with result := r } : LiftState).condition = none) := by
  have hkind : s'.result.endKind = r.endKind := by
    rw [h.ends.finished.result]
    rfl
  have hcond : s'.result.branchCondition = r.branchCondition := by
    rw [h.ends.finished.result]
    rfl
  rw [hkind, hcond]
  unfold LiftState.condition
  cases h.ends.ends.condition with
  | @tested want v ht _ hk hb hz =>
    refine .inl ⟨want, v, ht, hk, hb, ?_, hz⟩
    simp only [hk, hb]
  | untested _ hk hb =>
    refine .inr ⟨hk, hb, ?_⟩
    dsimp only
    split
    · exact hb
    · rfl

end LiftedFrom

theorem LiftedFrom.verified (h : LiftedFrom m image options b m₁ t r s') (hwf : m.WF)
    (hver : m.Verified) : s'.module.Verified := by
  have hothers := h.created.othersOk hwf hver
  exact h.returned.verified h.lifting.inv.draft.wf
    (hothers.extends h.created.draft.wf h.frame.extends_)

theorem LiftedFrom.follows_start (h : LiftedFrom m image options b m₁ t r s')
    {M : X86Machine options.arch} {s : ExecState} (hs : s.Reachable s'.module)
    (hM : StandsFor s'.result options.memorySpace M s) :
    Follows s'.module b (runReading s'.module b s M.memory) (flatOf s.mem.pages)
      options.memorySpace t.result.memoryIn []
      (refStart s'.module b ((s'.module.blockRec b).params.map s.values) s.mem) := by
  have hret := h.returned
  have hwf := hret.wf
  have hok := hs.ok hwf
  have hb : b < s'.module.blocks.length := by
    rw [hret.extends_.blocks, ← h.block_eq]
    exact h.lifting.inv.draft.isOpen.1
  have hset := h.params_set (fun p hp => (hM.regs p hp).1) hM.memoryIn
  obtain ⟨-, -, hready⟩ := mirrors_start hwf hok hb hset
  obtain ⟨hc, hagree⟩ := h.completes hok hM
  have hmap : (flatOf s.mem.pages).space options.memorySpace = M.memory := funext hM.memory
  refine ⟨fun v hv _ => ?_, ?_⟩
  · obtain ⟨x, hx, -⟩ := hready v hv
    have hx' := (hagree v hv).1.trans hx
    exact hx.trans (congrArg Except.ok (readValue_eq hx').symm)
  · have hcur : (runReading s'.module b s M.memory).current
        ((flatOf s.mem.pages).space options.memorySpace)
        (s'.module.tokenAfter t.result.memoryIn []) =
        (flatOf s.mem.pages).space options.memorySpace := by
      show Denotation.current _ _ t.result.memoryIn = _
      cases hin : t.result.memoryIn with
      | none => rfl
      | some v => exact (hc.memoryIn v hin).trans hmap.symm
    rw [hcur, FlatMemory.withSpace_space]
    exact hs.holdsFlat

/-- **One run of a lifted block**, from a state that stands for `M`. -/
theorem LiftedFrom.runSimulates (hl : LiftedFrom m image options b m₁ t r s')
    (hmax : s'.result.returnValues.length ≤ execMaxReturns) {M M' : X86Machine options.arch}
    (hrun : M.runThenRsp (options.stream image).1 = some M') {s : ExecState}
    (hs : s.Reachable s'.module) (hM : StandsFor s'.result options.memorySpace M s) {limit : Nat}
    (hlimit : 1 ≤ limit) :
    RunSimulates s'.result options.memorySpace b
      (if s'.result.endKind = .directCbranch then (options.stream image).2.tests else none)
      M M' s (execRun s'.module b s limit) := by
  have hret := hl.returned
  have hwf := hret.wf
  have hsok := hs.ok hwf
  obtain ⟨ha, hin⟩ := hl.agrees hrun hsok hM
  obtain ⟨hc, -⟩ := hl.completes hsok hM
  obtain ⟨htok, hend⟩ := hl.tokens
  obtain ⟨hden, hext, hinv⟩ : Denotes s'.module b (runReading s'.module b s M.memory) ∧
      Grows t.module s'.module ∧ LiftInv t :=
    ⟨hl.block_eq ▸ hc.denotes, hret.extends_.grows, hl.lifting.inv⟩
  obtain ⟨r', values, hm, -, hfol, hvalues, hout⟩ :=
    hl.execRun_returns hsok (fun p hp => (hM.regs p hp).1) hM.memoryIn (hl.follows_start hs hM)
      (carries_follows hret.blockOk.ops hden hin htok hl.space s) hlimit
  rw [hret.args] at hvalues
  rw [hret.count, if_neg (Nat.not_lt.mpr hmax)] at hout
  -- a value that is no token reads as it does in the denotation
  have hread : ∀ v ∈ s'.result.returnValues, (s'.module.valueType v).isMem = false →
      ∀ x, refRead s'.module r' v = .ok x → x = (runReading s'.module b s M.memory).value v := by
    intro v hv ht x hx
    have hterm := hret.blockOk.term
    unfold TermOk at hterm
    rw [hret.kind] at hterm
    have hav := hterm v (by rw [hret.args]; exact hv)
    rw [hfol.values v hav ht] at hx
    cases hx
    rfl
  have htype : ∀ v ty, t.HasValue v ty → s'.module.valueType v = ty := fun v ty hv =>
    (hext.valueType hv.usable.lt).trans hv.type
  have hreturns := hl.returnValues
  rw [LiftState.returns] at hreturns
  change s'.result.returnValues = t.memory.toList ++ t.outputs.map Prod.snd ++ _ at hreturns
  rw [hreturns] at hvalues
  obtain ⟨front, conds, rfl, hfront, hconds⟩ := forall₂_append_split hvalues
  obtain ⟨tokens, regs, rfl, htokens, hregs⟩ := forall₂_append_split hfront
  have hregs' : regs = t.outputs.map fun p => options.arch.int (M'.regs p.1) := by
    refine forall₂_eq_map (List.forall₂_map_left_iff.mp hregs) fun p hp x hx => ?_
    have hreg := LiftState.mem_outputs hinv hp
    have hval := (hinv.regs p.1 p.2 hreg).2
    rw [hl.lifting.arch_eq] at hval
    have hmem : p.2 ∈ s'.result.returnValues := by
      rw [hreturns]
      exact List.mem_append_left _ (List.mem_append_right _ (List.mem_map_of_mem hp))
    rw [hread p.2 hmem (by rw [htype _ _ hval]; rfl) x hx]
    exact ha.regs p.1 p.2 hreg
  have hconds' : conds = ((if s'.result.endKind = .directCbranch then (options.stream image).2.tests
        else none).map fun w => boolValue (M'.zf == w)).toList ∧
      ({ t with result := r } : LiftState).condition.toList =
        s'.result.branchCondition.toList := by
    rcases hl.condition with ⟨want, v, ht, hk, hb, hcond, hz⟩ | ⟨hk, hb, hcond⟩
    · rw [hcond] at hconds hreturns
      refine ⟨?_, by rw [hcond, hb]⟩
      rw [if_pos hk, ht]
      refine forall₂_eq_map (g := fun _ => boolValue (M'.zf == want)) hconds fun u hu x hx => ?_
      rw [Option.toList_some, List.mem_singleton] at hu
      subst hu
      have hmem : u ∈ s'.result.returnValues := by
        rw [hreturns]
        simp
      rw [hread u hmem (by rw [htype _ _ hz.value]; rfl) x hx]
      exact hz.meaning _ _ M M' hc ha
    · rw [hcond] at hconds
      refine ⟨?_, by rw [hcond, hb]⟩
      rw [if_neg hk]
      cases hconds
      rfl
  obtain ⟨hconds', hids⟩ := hconds'
  have hmem := hfol.memory
  rw [hend, ← hm.mem] at hmem
  have hmap : (flatOf s.mem.pages).space options.memorySpace = M.memory := funext hM.memory
  refine ⟨⟨t.memory.toList, tokens, htokens.length_eq, ?_, ?_⟩, fun reg hn => ?_, fun a => ?_,
    fun space hne a => ?_⟩
  · rw [hreturns, hl.outputRegs, hids]
  · rw [hout, hregs', hconds', hl.outputRegs]
  · rw [hl.outputRegs] at hn
    exact ha.unwritten reg (LiftState.not_written hinv hn)
  · rw [hmem.byte]
    show (FlatMemory.withSpace _ _ _).space options.memorySpace a = M'.memory a
    rw [FlatMemory.space_withSpace, hmap]
    cases htm : t.memory with
    | none => rw [ha.untouched htm]; rfl
    | some v => exact congrFun (ha.memory v htm) a
  · rw [hmem.byte]
    show (FlatMemory.withSpace _ _ _).space space a = _
    rw [FlatMemory.space_withSpace_ne _ _ hne]
    rfl

/-- **Lifted blocks simulate the machine.** -/
theorem lift_simulates (h : m.Reachable) (hver : m.Verified) (image : Image)
    (options : LiftOptions) (hok : (liftBasicBlock m image options).status = .ok)
    (hmax : (liftBasicBlock m image options).result.returnValues.length ≤ execMaxReturns) :
    let out := liftBasicBlock m image options
    out.module.Verified ∧ ∃ b, out.result.block = some b ∧
      ∀ M M' : X86Machine options.arch, M.run (options.stream image).1 = some M' →
        ∀ s limit, s.Reachable out.module → StandsFor out.result options.memorySpace M s →
          1 ≤ limit → RunSimulates out.result options.memorySpace b
            (if out.result.endKind = .directCbranch then (options.stream image).2.tests else none)
            M M' s (execRun out.module b s limit) := by
  obtain ⟨b, m₁, t, r, s', hl⟩ := liftBasicBlock_ok h hok
  rw [hl.out] at hmax ⊢
  refine ⟨hl.verified (wf_reachable h) hver, b, hl.result_block, ?_⟩
  intro M M' hrun s limit hs hM hlimit
  exact hl.runSimulates hmax (X86Machine.runThenRsp_of_run hrun) hs hM hlimit

/-- `rax` is 40 and `rbx` is 2. -/
def addRetMachine : X86Machine .x8664 :=
  ⟨fun r => if r = 0 then 40#64 else if r = 3 then 2#64 else 0#64, fun _ => none, false⟩

theorem lift_simulates_addRet : ∃ M' : X86Machine .x8664,
    addRetMachine.run (addRetOptions.stream addRetImage).1 = some M' ∧ (M'.regs 0).toNat = 42 ∧
      RunSimulates (liftBasicBlock Module.create addRetImage addRetOptions).result 0 0 none
        addRetMachine M' addRetState (execRun addRetModule 0 addRetState 1) := by
  have hval : (addRetMachine.run (addRetOptions.stream addRetImage).1).map
      (fun M => (M.regs 0).toNat) = some 42 := by decide +kernel
  obtain ⟨M', hrun, hrax⟩ := Option.map_eq_some_iff.mp hval
  refine ⟨M', hrun, hrax, ?_⟩
  obtain ⟨-, b, hb, hall⟩ := lift_simulates (m := Module.create) ⟨[], rfl⟩ (by decide) addRetImage
    addRetOptions (by decide +kernel) (by decide +kernel)
  have hblock : (liftBasicBlock Module.create addRetImage addRetOptions).result.block = some 0 := by
    decide +kernel
  rw [hblock] at hb
  cases hb
  have hwant : (if (liftBasicBlock Module.create addRetImage addRetOptions).result.endKind =
      .directCbranch then (addRetOptions.stream addRetImage).2.tests else none) = none := by
    decide +kernel
  rw [hwant] at hall
  refine hall addRetMachine _ hrun addRetState 1 addRetState_reachable ⟨?_, ?_, fun _ => rfl⟩
    (Nat.le_refl 1)
  · decide +kernel
  · decide +kernel

end Xair
