import Xair.LiftRecord

/-!
# The interface of a lifted block

The result record lists what a block takes and what it returns: the registers that are
read before they are written, the registers that are written, and the memory token.
The lists are those of an analysis of the lifted instructions (`liftBasicBlock_interface`).
-/

namespace Xair

open Effect (Ensures)

/-! ### What instructions read and write -/

/-- What an instruction reads and writes. -/
structure Footprint where
  reads : List X86Reg
  writes : X86Reg → Bool
  memory : Bool

/-- The footprint that the lifter gives an instruction. -/
def X86DecodedInst.footprint (inst : X86DecodedInst) : Footprint :=
  ⟨inst.readRegs, inst.writes, inst.touchesMemory⟩

/-- The footprint on the machine, where `RET` pops the address that it returns to. -/
def X86DecodedInst.archFootprint (inst : X86DecodedInst) : Footprint :=
  match inst.mnemonic with
  | .ret => ⟨[x86Rsp], fun r => r == x86Rsp, true⟩
  | _ => inst.footprint

/-- Some instruction reads the register, and none before it writes it. -/
def ExposedRead (fp : X86DecodedInst → Footprint) (insts : List (X86DecodedInst × Word))
    (reg : X86Reg) : Prop :=
  ∃ pre i post, insts = pre ++ i :: post ∧ reg ∈ (fp i.1).reads ∧
    ∀ j ∈ pre, (fp j.1).writes reg = false

/-- What the record of a lift says about the registers and the memory of its instructions,
`m₁` being the module in which the block `b` has been created. -/
structure LiftInterface (fp : X86DecodedInst → Footprint) (image : Image) (options : LiftOptions)
    (m₁ : Module) (b : Nat) (out : Lifted) : Prop where
  block : out.result.block = some b
  inputs : ∀ reg, reg ∈ out.result.inputRegs.map Prod.fst ↔
    ExposedRead fp (liftedInsts (options.stream image)) reg
  inputs_once : (out.result.inputRegs.map Prod.fst).Nodup
  params : (out.module.blockRec b).params.Perm
    (out.result.inputRegs.map Prod.snd ++ out.result.memoryIn.toList)
  params_once : (out.module.blockRec b).params.Nodup
  outputs : ∀ reg, reg ∈ out.result.outputRegs.map Prod.fst ↔
    ∃ i ∈ liftedInsts (options.stream image), (fp i.1).writes reg = true
  outputs_increasing : (out.result.outputRegs.map Prod.fst).Pairwise (· < ·)
  values : ∀ p ∈ out.result.outputRegs, ∃ pre i post s,
    liftedInsts (options.stream image) = pre ++ i :: post ∧ (fp i.1).writes p.1 = true ∧
    (∀ j ∈ post, (fp j.1).writes p.1 = false) ∧
    x86LiftInsts (pre ++ [i]) (liftStart m₁ options b true) = (.ok (), s) ∧ s.regs p.1 = some p.2
  memoryIn : out.result.memoryIn.isSome = true ↔
    ∃ i ∈ liftedInsts (options.stream image), (fp i.1).memory = true
  memoryOut : out.result.memoryOut.isSome = true ↔
    ∃ i ∈ liftedInsts (options.stream image), (fp i.1).memory = true
  token : ∃ s, x86LiftInsts (options.stream image).1 (liftStart m₁ options b true) = (.ok (), s) ∧
    out.result.memoryOut = s.memory
  condition : out.result.endKind = .directCbranch → out.result.branchCondition.isSome = true
  returns : out.result.returnValues =
    out.result.memoryOut.toList ++ out.result.outputRegs.map Prod.snd ++
      if out.result.endKind = .directCbranch then out.result.branchCondition.toList else []

/-! ### Inputs -/

section Analysis

variable {fp : X86DecodedInst → Footprint} {i : X86DecodedInst × Word}
  {insts : List (X86DecodedInst × Word)} {reg : X86Reg}

theorem exposedRead_nil : ¬ ExposedRead fp [] reg := by
  rintro ⟨pre, i, post, h, -⟩
  cases pre <;> cases h

theorem exposedRead_cons : ExposedRead fp (i :: insts) reg ↔
    reg ∈ (fp i.1).reads ∨ ((fp i.1).writes reg = false ∧ ExposedRead fp insts reg) := by
  constructor
  · rintro ⟨pre, j, post, h, hread, hpre⟩
    cases pre with
    | nil =>
      obtain ⟨rfl, rfl⟩ := List.cons.inj h
      exact .inl hread
    | cons k pre =>
      obtain ⟨rfl, rfl⟩ := List.cons.inj h
      exact .inr ⟨hpre i (List.mem_cons_self ..), pre, j, post, rfl, hread,
        fun k hk => hpre k (List.mem_cons_of_mem i hk)⟩
  · rintro (hread | ⟨hw, pre, j, post, rfl, hread, hpre⟩)
    · exact ⟨[], i, insts, rfl, hread, fun j hj => (by cases hj)⟩
    · refine ⟨i :: pre, j, post, rfl, hread, fun k hk => ?_⟩
      rcases List.mem_cons.mp hk with rfl | hk
      · exact hw
      · exact hpre k hk

theorem exists_lastWrite (h : ∃ i ∈ insts, (fp i.1).writes reg = true) :
    ∃ pre i post, insts = pre ++ i :: post ∧ (fp i.1).writes reg = true ∧
      ∀ j ∈ post, (fp j.1).writes reg = false := by
  induction insts with
  | nil =>
    obtain ⟨i, hi, -⟩ := h
    cases hi
  | cons k insts ih =>
    by_cases hrest : ∃ i ∈ insts, (fp i.1).writes reg = true
    · obtain ⟨pre, i, post, rfl, hw, hpost⟩ := ih hrest
      exact ⟨k :: pre, i, post, rfl, hw, hpost⟩
    · obtain ⟨i, hi, hw⟩ := h
      rcases List.mem_cons.mp hi with rfl | hi
      · refine ⟨[], i, insts, rfl, hw, fun j hj => ?_⟩
        exact Bool.eq_false_iff.mpr fun hj' => hrest ⟨j, hj, hj'⟩
      · exact absurd ⟨i, hi, hw⟩ hrest

theorem known_reads (regs : List X86Reg) (l : Ledger) :
    (l.reads regs).known reg = (decide (reg ∈ regs) || l.known reg) ∧
      (reg ∈ (l.reads regs).inputs ↔ reg ∈ l.inputs ∨ (l.known reg = false ∧ reg ∈ regs)) := by
  induction regs generalizing l with
  | nil => exact ⟨by simp [Ledger.reads], by simp [Ledger.reads]⟩
  | cons r regs ih =>
    obtain ⟨hknown, hinputs⟩ := ih (l.read r)
    change (l.reads (r :: regs)).known reg = _ at hknown
    change reg ∈ (l.reads (r :: regs)).inputs ↔ _ at hinputs
    rw [hknown, hinputs]
    unfold Ledger.read
    by_cases hr : reg = r
    · subst hr
      cases hk : l.known reg <;> simp [hk]
    · have hne : (reg == r) = false := beq_eq_false_iff_ne.mpr hr
      split <;> simp [hr, hne]

/-- **The inputs are the exposed reads.** -/
theorem mem_inputs_foldl (insts : List (X86DecodedInst × Word)) (l : Ledger) :
    reg ∈ (insts.foldl Ledger.step l).inputs ↔ reg ∈ l.inputs ∨
      (l.known reg = false ∧ ExposedRead X86DecodedInst.footprint insts reg) := by
  induction insts generalizing l with
  | nil => simp [exposedRead_nil]
  | cons i insts ih =>
    obtain ⟨hknown, hinputs⟩ := @known_reads reg i.1.readRegs l
    have hin : (l.step i).inputs = (l.reads i.1.readRegs).inputs := rfl
    have hkn : (l.step i).known reg = (i.1.writes reg || (l.reads i.1.readRegs).known reg) := rfl
    rw [List.foldl_cons, ih, exposedRead_cons, hin, hkn, hinputs, hknown]
    show _ ↔ _ ∨ (_ ∧ (reg ∈ i.1.readRegs ∨ (i.1.writes reg = false ∧ _)))
    by_cases hmem : reg ∈ i.1.readRegs
    · simp [hmem]
    · simp only [hmem, decide_false, Bool.false_or, Bool.or_eq_false_iff, and_false, or_false,
        false_or]
      tauto

end Analysis

/-! ### Parameters -/

/-- The parameters of the block are the inputs and the memory token, and there is a token when
memory has been touched. -/
structure Ports (s : LiftState) : Prop where
  params : (s.module.blockRec s.block).params.Perm
    (s.result.inputRegs.map Prod.snd ++ s.result.memoryIn.toList)
  memoryIn : s.memory = none ↔ s.result.memoryIn = none
  memoryOut : s.memory = none → s.result.memoryOut = none

section Ports

variable {s s' : LiftState} {n : Nat}

/-- A step that leaves the parameters and the record alone. -/
theorem Ports.build (h : Ports s) {m' : Module}
    (hp : (m'.blockRec s.block).params = (s.module.blockRec s.block).params) :
    Ports { s with module := m' } :=
  ⟨(List.Perm.of_eq hp).trans h.params, h.memoryIn, h.memoryOut⟩

theorem OpAdded.params {k : OpKey} {m m' : Module} {v : Nat} (hb : k.block < m.blocks.length)
    (h : OpAdded k m v m') : (m'.blockRec k.block).params = (m.blockRec k.block).params := by
  rcases h.blockRec hb with hrec | ⟨hrec, -⟩ <;> rw [hrec]
  rfl

theorem LiftStep.ports (hinv : LiftInv s) (h : Ports s) (hs : LiftStep s s') : Ports s' := by
  have hb := hinv.draft.isOpen.1
  cases hs with
  | quiet hs =>
    cases hs with
    | @param reg v m' _ _ ha =>
      refine ⟨?_, h.memoryIn, h.memoryOut⟩
      show (m'.blockRec s.block).params.Perm
        ((s.result.inputRegs ++ [(reg, v)]).map Prod.snd ++ s.result.memoryIn.toList)
      rw [ha.blockRec hb, List.map_append, List.append_assoc]
      refine (List.perm_append_singleton v _).trans ?_
      exact ((List.Perm.cons v h.params).trans List.perm_middle.symm)
    | @memParam v m' hnone ha =>
      refine ⟨?_, by simp, fun hn => by cases hn⟩
      show (m'.blockRec s.block).params.Perm (s.result.inputRegs.map Prod.snd ++ [v])
      have hp := h.params
      rw [h.memoryIn.mp hnone, Option.toList_none, List.append_nil] at hp
      rw [ha.blockRec hb]
      exact List.Perm.append_right [v] hp
    | op hk _ _ ha => exact h.build (by rw [← hk]; exact ha.params (hk ▸ hb))
    | same hc _ => exact h.build (by rw [hc.blockRec])
  | load hs =>
    cases hs with
    | load hk _ _ _ ha => exact h.build (by rw [← hk]; exact ha.params (hk ▸ hb))
  | store hs =>
    cases hs with
    | @store k v m' hk _ _ hmem _ ha =>
      have hp : (m'.blockRec s.block).params = (s.module.blockRec s.block).params := by
        rw [← hk]
        exact ha.params (hk ▸ hb)
      have hin : s.result.memoryIn ≠ none := fun hn => by
        rw [h.memoryIn.mpr hn] at hmem
        cases hmem
      exact ⟨(List.Perm.of_eq hp).trans h.params, by simpa using hin, fun hn => by cases hn⟩
  | note hs => cases hs <;> exact ⟨h.params, h.memoryIn, h.memoryOut⟩

/-- **The parameters** after any number of steps. -/
theorem LiftSteps.ports (hinv : LiftInv s) (h : Ports s) (hs : LiftSteps n s s') : Ports s' :=
  (hs.induct (P := fun s => LiftInv s ∧ Ports s)
    (fun _ _ ha hab => ⟨hab.inv ha.1, hab.ports ha.1 ha.2⟩) ⟨hinv, h⟩).2

end Ports

/-! ### Outputs -/

section Outputs

variable {m m₁ : Module} {b : Nat} {image : Image} {options : LiftOptions} {s s₁ s' t : LiftState}
  {r : LiftResult}

theorem mem_outputs_iff (s : LiftState) (p : X86Reg × Nat) : p ∈ s.outputs ↔
    p.1 < x86RegCount ∧ s.writtenRegs p.1 = true ∧ p.2 = (s.regs p.1).getD invalidId := by
  rw [LiftState.outputs, List.mem_filterMap]
  constructor
  · rintro ⟨reg, hreg, ho⟩
    unfold LiftState.output at ho
    split at ho
    · next hw =>
      cases ho
      exact ⟨List.mem_range.mp hreg, hw, rfl⟩
    · cases ho
  · rintro ⟨hreg, hw, hv⟩
    refine ⟨p.1, List.mem_range.mpr hreg, ?_⟩
    rw [LiftState.output, if_pos hw, ← hv]

/-- The outputs are listed in the order of the registers. -/
theorem outputs_map_fst (s : LiftState) :
    s.outputs.map Prod.fst = (List.range x86RegCount).filter s.writtenRegs := by
  rw [LiftState.outputs, List.map_filterMap, ← List.filterMap_eq_filter]
  refine congrArg (fun f => (List.range x86RegCount).filterMap f) (funext fun reg => ?_)
  unfold LiftState.output Option.guard
  split <;> rfl

theorem outputs_increasing (s : LiftState) : (s.outputs.map Prod.fst).Pairwise (· < ·) := by
  rw [outputs_map_fst]
  exact List.Pairwise.filter _ List.pairwise_lt_range

/-- An instruction of the middle of the block is followed by its value until the next write. -/
theorem value_kept {pre post : List (X86DecodedInst × Word)} {i : X86DecodedInst × Word}
    (h : Lifting options.arch s) (hc : Consecutive image options.arch s.pc (pre ++ i :: post))
    (hi : ∀ j ∈ pre ++ i :: post, Inner options.arch j.1)
    (hrun : x86LiftInsts (pre ++ i :: post) s = (.ok (), s')) {reg : X86Reg}
    (hw : i.1.writes reg = true) (hpost : ∀ j ∈ post, j.1.writes reg = false) :
    ∃ s₀ v, x86LiftInsts (pre ++ [i]) s = (.ok (), s₀) ∧ s₀.regs reg = some v ∧
      s'.regs reg = some v := by
  rw [List.append_cons] at hc hi hrun
  obtain ⟨hc₁, hc₂⟩ := consecutive_append.mp hc
  rw [x86LiftInsts_append] at hrun
  rcases hrun₀ : x86LiftInsts (pre ++ [i]) s with ⟨e | ⟨⟩, s₀⟩
  · rw [Effect.bind_of_error hrun₀] at hrun
    cases hrun
  · rw [Effect.bind_of_ok hrun₀] at hrun
    obtain ⟨⟨n, hsteps⟩, hl, -, -⟩ := (x86LiftInsts_steps (pre ++ [i]) h hc₁
      fun j hj => hi j (List.mem_append_left _ hj)).ok hrun₀
    have hpc : s₀.pc = endPc s.pc (pre ++ [i]) := by
      have hp := congrArg Ledger.pc hl
      rw [foldl_step_pc] at hp
      exact hp
    have hknown : s₀.ledger.known reg = true := by
      rw [hl, List.foldl_append]
      show (i.1.writes reg || _) = true
      rw [hw, Bool.true_or]
    obtain ⟨v, hv⟩ := Option.isSome_iff_exists.mp hknown
    obtain ⟨-, -, hk, -⟩ := (x86LiftInsts_steps post (h.lift hsteps) (hpc ▸ hc₂)
      fun j hj => hi j (List.mem_append_right _ hj)).ok hrun
    refine ⟨s₀, v, rfl, hv, hk reg v ?_ hv⟩
    rw [List.any_eq_false]
    exact fun j hj => Bool.eq_false_iff.mp (hpost j hj)

end Outputs

/-! ### The interface -/

section Interface

variable {m m₁ : Module} {b : Nat} {image : Image} {options : LiftOptions} {s₁ s' t : LiftState}
  {r : LiftResult}

theorem ports_liftStart (h : BlockCreated m b m₁) (options : LiftOptions) (emit : Bool) :
    Ports (liftStart m₁ options b emit) := by
  have hparams : (m₁.blockRec b).params = [] := by
    obtain ⟨name, rfl⟩ := h.change
    rw [h.block, m.blockRec_withBlock, if_neg (Nat.lt_irrefl _), if_pos rfl]
  exact ⟨List.Perm.of_eq hparams, Iff.rfl, fun _ => rfl⟩

/-- What ends the block writes no register and touches no memory. -/
theorem mem_lifted {zf : Bool} {i : X86DecodedInst × Word}
    (hi : i ∈ (options.stream image).2.lifted zf) :
    (i.1.writes = fun _ => false) ∧ i.1.touchesMemory = false := by
  have hb := (x86Stream_consecutive image options.arch options.limit options.address).2.2
  change ∀ a inst, (options.stream image).2 = .branch a inst → _ at hb
  cases hstop : (options.stream image).2 with
  | branch pc inst =>
    obtain ⟨-, hat, he⟩ := hb pc inst hstop
    rw [hstop] at hi
    dsimp only [StreamEnd.lifted] at hi
    split at hi
    · cases hi
    · rw [List.mem_singleton] at hi
      rw [hi]
      exact (ends_registers hat.shaped he).2
  | limit =>
    rw [hstop] at hi
    cases hi
  | cutOff =>
    rw [hstop] at hi
    cases hi
  | unsupported =>
    rw [hstop] at hi
    cases hi

/-- Only the instructions of the stream write registers. -/
theorem exists_writes {reg : X86Reg} :
    (∃ i ∈ liftedInsts (options.stream image), i.1.writes reg = true) ↔
      ((options.stream image).1.any fun i => i.1.writes reg) = true := by
  rw [List.any_eq_true]
  constructor
  · rintro ⟨i, hi, hw⟩
    rcases List.mem_append.mp hi with hi | hi
    · exact ⟨i, hi, hw⟩
    · rw [(mem_lifted hi).1] at hw
      cases hw
  · rintro ⟨i, hi, hw⟩
    exact ⟨i, List.mem_append_left _ hi, hw⟩

theorem exists_touchesMemory :
    (∃ i ∈ liftedInsts (options.stream image), i.1.touchesMemory = true) ↔
      ((options.stream image).1.any fun i => i.1.touchesMemory) = true := by
  rw [List.any_eq_true]
  constructor
  · rintro ⟨i, hi, hw⟩
    rcases List.mem_append.mp hi with hi | hi
    · exact ⟨i, hi, hw⟩
    · rw [(mem_lifted hi).2] at hw
      cases hw
  · rintro ⟨i, hi, hw⟩
    exact ⟨i, List.mem_append_left _ hi, hw⟩

theorem EndRecord.memoryOut_eq (h₁ : StreamLifted image options m₁ b s₁)
    (hb : BlockCreated m b m₁) (h : EndRecord (options.stream image).2 s₁ t r) :
    ({ t with result := r } : LiftState).finished.memoryOut = s₁.memory := by
  obtain ⟨n, hsteps⟩ := h₁.steps
  have hports := hsteps.ports (lifting_start hb.draft options true).inv
    (ports_liftStart hb options true)
  show t.memory.or r.memoryOut = s₁.memory
  rw [h.memory, h.memoryOut]
  cases hm : s₁.memory with
  | some v => rfl
  | none => exact hports.memoryOut hm

/-- The values of the outputs are those of the last writes. -/
theorem EndRecord.lastWrite (h₁ : StreamLifted image options m₁ b s₁)
    (hb : BlockCreated m b m₁) (h : EndRecord (options.stream image).2 s₁ t r)
    {p : X86Reg × Nat} (hp : p ∈ t.outputs)
    (hw : ((options.stream image).1.any fun i => i.1.writes p.1) = true) :
    ∃ pre i post s, liftedInsts (options.stream image) = pre ++ i :: post ∧
      i.1.writes p.1 = true ∧ (∀ j ∈ post, j.1.writes p.1 = false) ∧
      x86LiftInsts (pre ++ [i]) (liftStart m₁ options b true) = (.ok (), s) ∧
      s.regs p.1 = some p.2 := by
  obtain ⟨hc, hi, -⟩ := x86Stream_consecutive image options.arch options.limit options.address
  obtain ⟨pre, i, post, hsplit, hwi, hpost⟩ :=
    @exists_lastWrite X86DecodedInst.footprint _ _ (List.any_eq_true.mp hw)
  change (x86Stream image options.arch options.limit options.address).1 = _ at hsplit
  rw [hsplit] at hc hi
  have hrun := h₁.run
  change x86LiftInsts (x86Stream image options.arch options.limit options.address).1 _ = _ at hrun
  rw [hsplit] at hrun
  obtain ⟨s₀, v, hrun₀, hv₀, hv⟩ := value_kept (lifting_start hb.draft options true) hc hi hrun
    hwi hpost
  have hval : p.2 = v := by
    rw [((mem_outputs_iff t p).mp hp).2.2, h.regs, hv]
    rfl
  refine ⟨pre, i, post ++ (options.stream image).2.lifted
    ((options.stream image).1.any fun i => i.1.mnemonic.isAlu), s₀, ?_, hwi, ?_, hrun₀, hval ▸ hv₀⟩
  · show (options.stream image).1 ++ _ = _
    rw [← List.cons_append, ← List.append_assoc, ← hsplit]
    rfl
  · intro j hj
    rcases List.mem_append.mp hj with hj | hj
    · exact hpost j hj
    · rw [(mem_lifted hj).1]

/-- **The interface of a lifted block** describes what its instructions read and write, a `RET`
that ends the block being taken to read and write nothing. -/
theorem liftBasicBlock_interface (h : m.Reachable)
    (hok : (liftBasicBlock m image options).status = .ok) :
    ∃ b m₁, blockCreate m (some (liftBlockName options)) = (m₁, .ok b) ∧
      LiftInterface X86DecodedInst.footprint image options m₁ b
        (liftBasicBlock m image options) := by
  obtain ⟨b, m₁, t, r, s', hl, hcreate, hloop⟩ := liftBasicBlock_loop h hok
  obtain ⟨s₁, h₁, t', r', hend, hres⟩ := hloop.middle hl.created.draft
  have hrec := hloop.record hl.created.draft
  have hports := hl.ends.steps.ports (lifting_start hl.created.draft options true).inv
    (ports_liftStart hl.created options true)
  have hinv := hl.lifting.inv
  have houts : s'.result.outputRegs = t.outputs := by
    rw [hl.ends.finished.result]
    rfl
  have houts' : s'.result.outputRegs = t'.outputs := by
    rw [hres]
    rfl
  have htoken : s'.result.memoryOut = s₁.memory := by
    rw [hres]
    exact hend.memoryOut_eq h₁ hl.created
  have hwritten : ∀ reg, t.writtenRegs reg = true ↔
      ∃ i ∈ liftedInsts (options.stream image), i.1.writes reg = true := by
    intro reg
    rw [exists_writes, hl.ends.notes.written]
    rfl
  refine ⟨b, m₁, hcreate, ?_⟩
  rw [hl.out]
  constructor
  case block => exact hl.result_block
  case inputs =>
    intro reg
    rw [hrec.inputs, mem_inputs_foldl]
    simp
  case inputs_once =>
    rw [hl.inputRegs]
    exact hinv.inputs_nodup
  case params =>
    have hp := hports.params
    rw [hl.block_eq, ← hl.returned.params, ← hl.inputRegs, ← hl.memoryIn] at hp
    exact hp
  case params_once =>
    refine hl.returned.wf.params_nodup b ?_
    rw [hl.returned.extends_.blocks, ← hl.block_eq]
    exact hinv.draft.isOpen.1
  case outputs =>
    intro reg
    show reg ∈ s'.result.outputRegs.map Prod.fst ↔
      ∃ i ∈ liftedInsts (options.stream image), i.1.writes reg = true
    rw [houts, outputs_map_fst, List.mem_filter, List.mem_range, ← hwritten]
    refine and_iff_right_of_imp fun hw => ?_
    obtain ⟨v, hv⟩ := hinv.written reg hw
    exact x86RegSupported_lt (hinv.regs reg v hv).1
  case outputs_increasing =>
    rw [houts]
    exact outputs_increasing t
  case values =>
    intro p hp
    refine hend.lastWrite h₁ hl.created (houts' ▸ hp) (exists_writes.mp ((hwritten p.1).mp ?_))
    exact ((mem_outputs_iff t p).mp (houts ▸ hp)).2.1
  case memoryIn =>
    show s'.result.memoryIn.isSome = true ↔
      ∃ i ∈ liftedInsts (options.stream image), i.1.touchesMemory = true
    have hmem : t.memory.isSome = (options.stream image).1.any fun i => i.1.touchesMemory :=
      hl.ends.notes.memory.trans (Bool.false_or _)
    rw [exists_touchesMemory, ← hmem, hl.memoryIn, Option.isSome_iff_ne_none,
      Option.isSome_iff_ne_none, ne_eq, ne_eq, hports.memoryIn]
  case memoryOut =>
    show s'.result.memoryOut.isSome = true ↔
      ∃ i ∈ liftedInsts (options.stream image), i.1.touchesMemory = true
    rw [htoken, exists_touchesMemory, h₁.notes.memory]
    rfl
  case token => exact ⟨s₁, h₁.run, htoken⟩
  case condition =>
    show s'.result.endKind = .directCbranch → s'.result.branchCondition.isSome = true
    rw [hl.ends.finished.result]
    intro hk
    cases hl.ends.ends.condition with
    | tested _ _ _ hb _ => exact Option.isSome_iff_exists.mpr ⟨_, hb⟩
    | untested _ hne _ => exact absurd hk hne
  case returns =>
    show s'.result.returnValues = s'.result.memoryOut.toList ++ _ ++ _
    have hreturns : s'.result.returnValues = t'.memory.toList ++ t'.outputs.map Prod.snd ++
        ({ t' with result := r' } : LiftState).condition.toList := by
      rw [hres]
      rfl
    have hkind : s'.result.endKind = r'.endKind ∧
        s'.result.branchCondition = r'.branchCondition := by
      rw [hres]
      exact ⟨rfl, rfl⟩
    rw [hreturns, htoken, houts', hend.memory, hkind.1, hkind.2, LiftState.condition]
    cases r'.endKind <;> rfl

/-- `mov rax, [rbx]; mov [rsp + 8], rax; cmp rax, rcx; je`. -/
def loadCompareImage : Image :=
  ⟨[0x48#8, 0x8b#8, 0x03#8, 0x48#8, 0x89#8, 0x44#8, 0x24#8, 0x08#8, 0x48#8, 0x39#8, 0xc8#8,
    0x74#8, 0x02#8], 0x1000#64⟩

theorem liftBasicBlock_interface_loadCompare :
    (liftBasicBlock Module.create loadCompareImage addRetOptions).result.endKind = .directCbranch ∧
      ∃ b m₁, blockCreate Module.create (some (liftBlockName addRetOptions)) = (m₁, .ok b) ∧
        LiftInterface X86DecodedInst.footprint loadCompareImage addRetOptions m₁ b
          (liftBasicBlock Module.create loadCompareImage addRetOptions) :=
  ⟨by decide +kernel, liftBasicBlock_interface ⟨[], rfl⟩ (by decide +kernel)⟩

/-- A lone `RET`. -/
def retImage : Image := ⟨[0xc3#8], 0#64⟩

def retLift : Lifted := liftBasicBlock Module.create retImage ⟨.x8664, 0#64, 0, 1, none⟩

/-- The pop of a `RET` is not in the interface. -/
theorem liftBasicBlock_interface_ret : retLift.status = .ok ∧
    ∀ m₁ b, ¬ LiftInterface X86DecodedInst.archFootprint retImage ⟨.x8664, 0#64, 0, 1, none⟩ m₁ b
      retLift := by
  have hinputs : retLift.result.inputRegs = [] := by decide +kernel
  have hinsts : liftedInsts (LiftOptions.stream ⟨.x8664, 0#64, 0, 1, none⟩ retImage) =
      [(⟨.ret, 1, 0xc3#8, 0#8, []⟩, 1#64)] := by decide +kernel
  refine ⟨by decide +kernel, fun m₁ b h => ?_⟩
  have hread := (h.inputs x86Rsp).mpr (by
    rw [hinsts]
    exact ⟨[], _, [], rfl, List.mem_singleton.mpr rfl, fun j hj => by cases hj⟩)
  rw [hinputs] at hread
  cases hread

end Interface

end Xair
