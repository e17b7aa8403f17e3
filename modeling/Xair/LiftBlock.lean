import Xair.LiftInst

/-!
# Lifting a block

The loop of `lift_x86_basic_block` against the instruction stream: a lift is the instructions
of its stream, one after the other, and then the end (`x86LiftLoop_eq`).  A lift that gets to
the end of the stream has done what the stream does to the machine (`BlockLifted`), its
result lists what the state maps to values, and the return closes the block.  It fails
only when the image cuts an instruction off or the value ids run out.
-/

namespace Xair

open Effect (Ensures)

variable {arch : Arch} {s s' t : LiftState} {n : Nat}

/-! ### Finishing a block -/

namespace LiftState

variable (s : LiftState)

/-- The entry of a register among the outputs. -/
def output (reg : X86Reg) : Option (X86Reg × Nat) :=
  if s.writtenRegs reg then some (reg, (s.regs reg).getD invalidId) else none

/-- The registers written, with their values. -/
def outputs : List (X86Reg × Nat) := (List.range x86RegCount).filterMap s.output

/-- The condition that is returned. -/
def condition : Option Nat :=
  match s.result.endKind with
  | .directCbranch => s.result.branchCondition
  | _ => none

/-- The returned values: memory, registers, condition. -/
def returns : List Nat := s.memory.toList ++ s.outputs.map Prod.snd ++ s.condition.toList

/-- The result record that `x86_finish_block` leaves. -/
def finished : LiftResult :=
  { s.result with
    bytesRead := (s.pc - s.result.start).toNat
    next := s.pc
    instructions := s.instructions
    memoryOut := s.memory.or s.result.memoryOut
    outputRegs := s.outputs
    returnValues := s.returns }

theorem length_outputs_le : s.outputs.length ≤ x86RegCount := by
  have h := List.length_filterMap_le s.output (List.range x86RegCount)
  rw [List.length_range] at h
  exact h

end LiftState

/-- The loop over the registers appends what they map to. -/
theorem x86FinishRegs_eq (regs : List X86Reg) (s : LiftState)
    (ho : s.result.outputRegs.length + regs.length ≤ liftMaxRegOutputs)
    (hr : s.result.returnValues.length + regs.length ≤ liftMaxReturns) :
    x86FinishRegs regs s = (.ok (), { s with result := { s.result with
      outputRegs := s.result.outputRegs ++ regs.filterMap s.output
      returnValues := s.result.returnValues ++ (regs.filterMap s.output).map Prod.snd } }) := by
  induction regs generalizing s with
  | nil => simp [x86FinishRegs, Pure.pure]
  | cons reg regs ih =>
    rw [List.length_cons] at ho hr
    show (if s.writtenRegs reg then _ else _ : Lift Unit) s = _
    by_cases hw : s.writtenRegs reg = true
    · have hout : s.output reg = some (reg, (s.regs reg).getD invalidId) := if_pos hw
      rw [if_pos hw, if_neg (by omega), List.filterMap_cons_some hout]
      let s₁ : LiftState := { s with result := { s.result with
        outputRegs := s.result.outputRegs ++ [(reg, (s.regs reg).getD invalidId)]
        returnValues := s.result.returnValues ++ [(s.regs reg).getD invalidId] } }
      have happend : x86AppendReturn ((s.regs reg).getD invalidId) { s with result := { s.result with
          outputRegs := s.result.outputRegs ++ [(reg, (s.regs reg).getD invalidId)] } } =
          (.ok (), s₁) := by
        show (if liftMaxReturns ≤ s.result.returnValues.length then _ else _ : Lift Unit) _ = _
        rw [if_neg (by omega)]
        rfl
      rw [Effect.modify_bind, Effect.bind_of_ok happend, ih s₁ (by simp [s₁]; omega) (by simp [s₁]; omega)]
      have hsame : s₁.output = s.output := rfl
      rw [hsame]
      simp [s₁]
    · have hout : s.output reg = none := if_neg hw
      rw [if_neg hw, List.filterMap_cons_none hout]
      exact ih s (by omega) (by omega)

theorem x86AppendReturn_eq (v : Nat) (h : ¬ liftMaxReturns ≤ s.result.returnValues.length) :
    x86AppendReturn v s = (.ok (), { s with result := { s.result with
      returnValues := s.result.returnValues ++ [v] } }) := by
  show (if liftMaxReturns ≤ s.result.returnValues.length then _ else _ : Lift Unit) s = _
  rw [if_neg h]
  rfl

theorem x86FinishMemory_eq (hr : s.result.returnValues = []) :
    x86FinishMemory s = (.ok (), { s with result := { s.result with
      memoryOut := s.memory.or s.result.memoryOut, returnValues := s.memory.toList } }) := by
  rcases s with ⟨m, r, arch, block, pc, emit, space, instructions, regs, written, memory, zf⟩
  cases memory with
  | none =>
    cases r
    cases hr
    rfl
  | some v =>
    unfold x86FinishMemory
    rw [Effect.get_bind]
    dsimp only
    rw [Effect.modify_bind, x86AppendReturn_eq]
    · dsimp only at hr ⊢
      rw [hr]
      rfl
    · dsimp only at hr ⊢
      rw [hr]
      decide

theorem x86FinishCondition_eq (h : ¬ liftMaxReturns ≤ s.result.returnValues.length) :
    x86FinishCondition s = (.ok (), { s with result := { s.result with
      returnValues := s.result.returnValues ++ s.condition.toList } }) := by
  unfold x86FinishCondition LiftState.condition
  rw [Effect.get_bind]
  cases hk : s.result.endKind <;> cases hc : s.result.branchCondition <;> dsimp only
  case directCbranch.some v => exact x86AppendReturn_eq v h
  all_goals
    simp only [Option.toList, List.append_nil]
    rfl

/-- `x86_finish_block`, up to the terminator. -/
theorem x86FinishBlock_eq (ho : s.result.outputRegs = []) (hr : s.result.returnValues = []) :
    x86FinishBlock s = (if s.emitReturnTerminator then
        build fun m => setReturn m s.block (.array s.returns) else pure () : Lift Unit)
      { s with result := s.finished } := by
  let s₁ : LiftState := { s with result := { s.result with
    bytesRead := (s.pc - s.result.start).toNat
    next := s.pc
    instructions := s.instructions } }
  let s₂ : LiftState := { s₁ with result := { s₁.result with
    memoryOut := s.memory.or s.result.memoryOut, returnValues := s.memory.toList } }
  let s₃ : LiftState := { s₂ with result := { s₂.result with
    outputRegs := s.outputs, returnValues := s.memory.toList ++ s.outputs.map Prod.snd } }
  have h1 : s.memory.toList.length ≤ 1 := by cases s.memory <;> simp
  have hmem : x86FinishMemory s₁ = (.ok (), s₂) := x86FinishMemory_eq hr
  have hregs : x86FinishRegs (List.range x86RegCount) s₂ = (.ok (), s₃) := by
    have houts : s₂.result.outputRegs = [] := ho
    have hlen : s₂.result.returnValues.length ≤ 1 := h1
    rw [x86FinishRegs_eq _ s₂ (by rw [houts]; decide) (by
      rw [List.length_range]
      exact Nat.le_trans (Nat.add_le_add_right hlen _) (by decide)), houts]
    rfl
  have hcond : x86FinishCondition s₃ = (.ok (), { s with result := s.finished }) := by
    refine x86FinishCondition_eq (s := s₃) (Nat.not_le.mpr ?_)
    show (s.memory.toList ++ s.outputs.map Prod.snd).length < liftMaxReturns
    rw [List.length_append, List.length_map]
    calc s.memory.toList.length + s.outputs.length ≤ 1 + x86RegCount :=
          Nat.add_le_add h1 s.length_outputs_le
      _ < liftMaxReturns := by decide
  unfold x86FinishBlock
  rw [Effect.modify_bind, Effect.bind_of_ok hmem, Effect.bind_of_ok hregs, Effect.bind_of_ok hcond,
    Effect.get_bind]
  rfl

/-- What `x86_finish_block` leaves. -/
structure Finished (s s' : LiftState) : Prop where
  result : s'.result = s.finished
  closed : s.emitReturnTerminator = true → Returned s.block s.returns s.module s'.module
  unclosed : s.emitReturnTerminator = false → s'.module = s.module

theorem LiftInv.returns_usable (h : LiftInv t) {r : LiftResult}
    (hc : ∀ v, ({ t with result := r } : LiftState).condition = some v → t.HasValue v (typeI 1)) :
    ∀ v ∈ ({ t with result := r } : LiftState).returns, t.module.Usable t.block v := by
  intro v hv
  rcases List.mem_append.mp hv with hv | hv
  · rcases List.mem_append.mp hv with hv | hv
    · exact (h.memory v (Option.mem_toList.mp hv)).usable
    · obtain ⟨p, hp, rfl⟩ := List.mem_map.mp hv
      obtain ⟨reg, -, hout⟩ := List.mem_filterMap.mp hp
      unfold LiftState.output at hout
      split at hout
      · next hw =>
        obtain ⟨u, hu⟩ := h.written reg hw
        have hreg : (({ t with result := r } : LiftState).regs reg).getD invalidId = u := by
          show (t.regs reg).getD invalidId = u
          rw [hu]
          rfl
        rw [hreg] at hout
        cases hout
        exact (h.regs reg u hu).2.usable
      · cases hout
  · exact (hc v (Option.mem_toList.mp hv)).usable

/-- **Finishing a block.** -/
theorem x86FinishBlock_finished (h : LiftInv t) {r : LiftResult} (ho : r.outputRegs = [])
    (hr : r.returnValues = [])
    (hc : ∀ v, ({ t with result := r } : LiftState).condition = some v → t.HasValue v (typeI 1)) :
    ∃ s', x86FinishBlock { t with result := r } = (.ok (), s') ∧
      Finished { t with result := r } s' := by
  rw [x86FinishBlock_eq (s := { t with result := r }) ho hr]
  by_cases he : t.emitReturnTerminator = true
  · obtain ⟨m', hset, hret⟩ := setReturn_draft h.draft (h.returns_usable hc)
    refine ⟨{ t with result := ({ t with result := r } : LiftState).finished, module := m' }, ?_,
      rfl, fun _ => hret, fun hf => ?_⟩
    · show (if t.emitReturnTerminator then _ else _ : Lift Unit) _ = _
      rw [if_pos he]
      exact build_of_ok hset
    · exact absurd (he.symm.trans hf) (by decide)
  · refine ⟨{ t with result := ({ t with result := r } : LiftState).finished }, ?_, rfl,
      fun hf => absurd hf he, fun _ => rfl⟩
    show (if t.emitReturnTerminator then _ else _ : Lift Unit) _ = _
    rw [if_neg he]
    rfl

/-! ### The end of the stream -/

/-- Whether the block returns a condition, and what it stands for. -/
inductive EndCondition (arch : Arch) (stop : StreamEnd) (t : LiftState) (r : LiftResult) : Prop
  | tested {want v} : stop.tests = some want → t.zf.isSome = true → r.endKind = .directCbranch →
      r.branchCondition = some v → (IsBool t v fun M : X86Machine arch => M.zf == want) →
      EndCondition arch stop t r
  | untested : stop.tests = none ∨ t.zf.isSome = false → r.endKind ≠ .directCbranch →
      r.branchCondition = none → EndCondition arch stop t r

/-- How the result record says where the block ends. -/
structure EndsAs (arch : Arch) (stop : StreamEnd) (t : LiftState) (r : LiftResult) : Prop where
  block : r.block = t.result.block
  inputs : r.inputRegs = t.result.inputRegs
  memoryIn : r.memoryIn = t.result.memoryIn
  outputs : r.outputRegs = []
  returns : r.returnValues = []
  condition : EndCondition arch stop t r

theorem EndCondition.usable {stop : StreamEnd} {r : LiftResult} (h : EndCondition arch stop t r)
    (v : Nat) (hv : ({ t with result := r } : LiftState).condition = some v) :
    t.HasValue v (typeI 1) := by
  unfold LiftState.condition at hv
  cases h with
  | tested _ _ hk hb hz =>
    simp only [hk, hb] at hv
    cases hv
    exact hz.value
  | untested _ hk _ =>
    dsimp only at hv
    split at hv
    · next he => exact absurd he hk
    · cases hv

/-- What the lift notes of a sequence of instructions. -/
structure RunNotes (insts : List (X86DecodedInst × Word)) (s s' : LiftState) : Prop where
  written : ∀ r, s'.writtenRegs r = (s.writtenRegs r || insts.any fun i => i.1.writes r)
  memory : s'.memory.isSome = (s.memory.isSome || insts.any fun i => i.1.touchesMemory)
  zf : s'.zf.isSome = (s.zf.isSome || insts.any fun i => i.1.mnemonic.isAlu)

/-- A lift from `s` that gets to the end `stop` of the stream: it reaches `t`, and then
finishes with the record `r` in `s'`. -/
structure LiftEnds (arch : Arch) (insts : List (X86DecodedInst × Word)) (stop : StreamEnd)
    (s t : LiftState) (r : LiftResult) (s' : LiftState) : Prop where
  steps : LiftSteps (11 * insts.length + 2) s t
  simulates : Simulates s t fun M : X86Machine arch => M.runThenRsp insts
  notes : RunNotes insts s t
  ends : EndsAs arch stop t r
  finished : Finished { t with result := r } s'

/-- A lift that gets to the end of the stream. -/
def BlockLifted (arch : Arch) (insts : List (X86DecodedInst × Word)) (stop : StreamEnd)
    (s s' : LiftState) : Prop := ∃ t r, LiftEnds arch insts stop s t r s'

/-- A lift that builds nothing for the machine to do. -/
structure Idle (n : Nat) (arch : Arch) (s t : LiftState) : Prop where
  steps : LiftSteps n s t
  agrees : ∀ F ρ (M₀ M : X86Machine arch), Completes F ρ M₀ t → (Agrees ρ M₀ t M ↔ Agrees ρ M₀ s M)
  inBounds : ∀ ρ, s.InBounds ρ → t.InBounds ρ
  notes : RunNotes [] s t

theorem Quiet.idle (h : Lifting arch s) (hq : Quiet n s t) : Idle n arch s t := by
  obtain ⟨hw, hz⟩ := hq.steps.notes
  refine ⟨hq.steps.lift, fun F ρ M₀ M hc => hq.steps.agrees h.inv hc,
    fun ρ => hq.steps.inBounds h.inv, fun r => ?_, ?_, ?_⟩
  · rw [hw, List.any_nil, Bool.or_false]
  · rw [hq.memory, List.any_nil, Bool.or_false]
  · rw [hz, List.any_nil, Bool.or_false]

/-- The state after `x86Advance`. -/
def LiftState.advance (s : LiftState) (pc : Word) : LiftState :=
  { s with pc := pc, instructions := s.instructions + 1 }

theorem Idle.advance (h : Idle n arch s t) (pc : Word) : Idle n arch s (t.advance pc) := by
  have hnote : NoteStep t (t.advance pc) := .advance pc
  refine ⟨.note h.steps hnote, fun F ρ M₀ M hc => ?_, h.inBounds, h.notes.written, h.notes.memory,
    h.notes.zf⟩
  have hc' : Completes F ρ M₀ t :=
    ⟨hc.arch_eq, hc.wf, hc.extends_, hc.denotes, hc.inputs, hc.memoryIn⟩
  rw [← h.agrees F ρ M₀ M hc']
  exact ⟨fun ha => ⟨ha.regs, ha.unread, ha.unwritten, ha.memory, ha.untouched, ha.zf⟩,
    fun ha => ⟨ha.regs, ha.unread, ha.unwritten, ha.memory, ha.untouched, ha.zf⟩⟩

theorem IsBool.advance {v : Nat} {c : X86Machine arch → Bool} (h : IsBool t v c) (pc : Word) :
    IsBool (t.advance pc) v c := by
  refine ⟨⟨h.value.usable, h.value.type⟩, fun F ρ M₀ M hc ha => ?_⟩
  exact h.meaning F ρ M₀ M
    ⟨hc.arch_eq, hc.wf, hc.extends_, hc.denotes, hc.inputs, hc.memoryIn⟩
    ⟨ha.regs, ha.unread, ha.unwritten, ha.memory, ha.untouched, ha.zf⟩

theorem finish_ends (h : Lifting arch s) (hi : Idle 2 arch s t) {stop : StreamEnd} {r : LiftResult}
    (he : EndsAs arch stop t r) :
    Ensures x86FinishBlock { t with result := r }
      (fun _ s' => s'.result.endKind = r.endKind ∧ BlockLifted arch [] stop s s')
      (fun _ _ => False) := by
  obtain ⟨s', hrun, hf⟩ :=
    x86FinishBlock_finished (h.lift hi.steps).inv he.outputs he.returns he.condition.usable
  refine Effect.ensures_of_ok hrun ⟨by rw [hf.result]; rfl, t, r, hi.steps, ?_, hi.notes, he, hf⟩
  intro F ρ M₀ M M' hc ha hM
  cases hM
  exact ⟨(hi.agrees F ρ M₀ M hc).mpr ha, hi.inBounds ρ⟩

theorem endsAs_untested (h : Lifting arch t) {stop : StreamEnd} {r : LiftResult}
    (hr : r.block = t.result.block ∧ r.inputRegs = t.result.inputRegs ∧
      r.memoryIn = t.result.memoryIn ∧ r.outputRegs = t.result.outputRegs ∧
      r.returnValues = t.result.returnValues ∧ r.branchCondition = t.result.branchCondition)
    (hk : r.endKind ≠ .directCbranch) (hs : stop.tests = none ∨ t.zf.isSome = false) :
    EndsAs arch stop t r := by
  obtain ⟨h1, h2, h3, h4, h5, h6⟩ := hr
  exact ⟨h1, h2, h3, h4.trans h.inv.outputs, h5.trans h.inv.returns,
    .untested hs hk (h6.trans h.inv.noCondition)⟩

/-- `x86_finish_unsupported`. -/
theorem x86FinishUnsupported_ends (h : Lifting arch s) (stop : StreamEnd)
    (hs : stop.tests = none ∨ s.zf.isSome = false) (address : Word) (opcode : Byte) :
    Ensures (x86FinishUnsupported address opcode) s
      (fun _ s' => s'.result.endKind = .unsupported ∧ BlockLifted arch [] stop s s')
      (fun _ _ => False) :=
  finish_ends h (Quiet.idle h ⟨.refl 2 s, rfl⟩)
    (endsAs_untested h ⟨rfl, rfl, rfl, rfl, rfl, rfl⟩ (by simp) hs)

/-- `x86_finish_fallthrough`. -/
theorem x86FinishFallthrough_ends (h : Lifting arch s) (stop : StreamEnd)
    (hs : stop.tests = none) :
    Ensures x86FinishFallthrough s (fun _ s' => BlockLifted arch [] stop s s')
      (fun _ _ => False) :=
  Ensures.mono (finish_ends h (Quiet.idle h ⟨.refl 2 s, rfl⟩)
    (endsAs_untested h ⟨rfl, rfl, rfl, rfl, rfl, rfl⟩ (by simp) (.inl hs)))
    (fun _ _ hq => hq.2) fun _ _ hf => hf

/-- `x86_condition_from_zf`, when the flag has been set. -/
theorem x86ConditionFromZf_quietly (h : Lifting arch s) {zf : Nat} (hz : s.zf = some zf)
    (want : Bool) :
    Quietly 2 (x86ConditionFromZf want) s fun v s' =>
      IsBool s' v fun M : X86Machine arch => M.zf == want := by
  have hbool : IsBool s zf fun M : X86Machine arch => M.zf :=
    ⟨h.inv.zf zf hz, fun F ρ M₀ M _ ha => ha.zf zf hz⟩
  refine Quietly.get ?_
  rw [hz]
  cases want with
  | true =>
    have heq : (fun M : X86Machine arch => M.zf == true) = fun M => M.zf := by
      funext M
      cases M.zf <;> rfl
    rw [heq]
    exact Quietly.pure hbool
  | false =>
    refine (constFalse_quietly h _).bind (k := 1) fun f s₁ hq hf => ?_
    refine (not_quietly (h.quiet hq) (hbool.quiet h.inv hq.steps) hf _).weaken fun v s' _ hv => ?_
    have heq : (fun M : X86Machine arch => M.zf == false) = fun M => !M.zf := by
      funext M
      cases M.zf <;> rfl
    rw [heq]
    exact hv

/-- `x86_condition_from_zf`, when no instruction has set the flag. -/
theorem x86ConditionFromZf_none (hz : s.zf = none) (want : Bool) :
    Effect.attempt (x86ConditionFromZf want) s = (.ok (.error .errUnsupported), s) := by
  unfold x86ConditionFromZf Effect.attempt
  rw [Effect.get_bind, hz]
  rfl

/-! ### One instruction -/

section Inst

variable {inst : X86DecodedInst}

/-- What the lifter does for a conditional branch to `target`. -/
def x86LiftCbranch (inst : X86DecodedInst) (pc target : Word) (want : Bool) : Lift Bool := do
  match ← Effect.attempt (x86ConditionFromZf want) with
  | .error .errUnsupported => do
    x86FinishUnsupported pc inst.rawOpcode
    pure false
  | .error e => Effect.throw e
  | .ok condition => do
    x86Advance (inst.next pc)
    x86FinishDirectCbranch target (inst.next pc) condition
    pure true

/-- How an instruction at `pc` that ends a block is lifted: a conditional branch builds its
condition first. -/
inductive EndingLift (inst : X86DecodedInst) (pc : Word) (s : LiftState) : Prop
  | plain {kind target} : (StreamEnd.branch pc inst).tests = none →
      kind = .directJump ∨ kind = .ret →
      (kind = .directJump → ∃ n rel, inst.operands = [.immediate n rel] ∧
        target = x86AddI64 (inst.next pc) rel) →
      x86LiftInst inst pc s = (x86FinishBlock >>= fun _ => pure true)
        { s.advance (inst.next pc) with
          result := { s.result with endKind := kind, target := target } } → EndingLift inst pc s
  | cbranch {want n rel} : (StreamEnd.branch pc inst).tests = some want →
      inst.operands = [.immediate n rel] →
      x86LiftInst inst pc s = x86LiftCbranch inst pc (x86AddI64 (inst.next pc) rel) want s →
      EndingLift inst pc s

theorem endingLift (hs : Shaped arch inst) (he : inst.mnemonic.endsBlock = true) (pc : Word)
    (s : LiftState) : EndingLift inst pc s := by
  unfold Shaped at hs
  generalize hm : inst.mnemonic = mn at hs he
  generalize hops : inst.operands = ops at hs
  cases hs with
  | @jmp n rel =>
    refine .plain (by simp only [StreamEnd.tests, hm]) (.inl rfl) (fun _ => ⟨n, rel, hops, rfl⟩) ?_
    unfold x86LiftInst X86DecodedInst.operand
    simp only [hm, hops, List.getElem?_cons_zero]
    rfl
  | @jz n rel =>
    refine @EndingLift.cbranch inst pc s true n rel (by simp only [StreamEnd.tests, hm]) hops ?_
    unfold x86LiftInst X86DecodedInst.operand
    simp only [hm, hops, List.getElem?_cons_zero]
    rfl
  | @jnz n rel =>
    refine @EndingLift.cbranch inst pc s false n rel (by simp only [StreamEnd.tests, hm]) hops ?_
    unfold x86LiftInst X86DecodedInst.operand
    simp only [hm, hops, List.getElem?_cons_zero]
    rfl
  | ret =>
    refine @EndingLift.plain inst pc s .ret s.result.target (by simp only [StreamEnd.tests, hm])
      (.inr rfl) (fun hk => by cases hk) ?_
    unfold x86LiftInst X86DecodedInst.operand
    simp only [hm]
    rfl
  | aluReg ha => cases mn <;> simp [X86Mnemonic.isAlu, X86Mnemonic.endsBlock] at ha he
  | aluImm ha => cases mn <;> simp [X86Mnemonic.isAlu, X86Mnemonic.endsBlock] at ha he
  | _ => cases he

/-- A conditional branch, whether the flag has been set or not. -/
theorem x86LiftCbranch_ends (h : Lifting arch s) {want : Bool} {pc : Word}
    (ht : StreamEnd.tests (.branch pc inst) = some want) (target : Word) :
    Ensures (x86LiftCbranch inst pc target want) s
      (fun done s' => (done = true ∨ s'.result.endKind = .unsupported) ∧
        BlockLifted arch [] (.branch pc inst) s s')
      (Fails 2 s) := by
  cases hz : s.zf with
  | none =>
    refine Effect.ensures_bind_of_ok (x86ConditionFromZf_none hz want) ?_
    have hstop : s.zf.isSome = false := by rw [hz]; rfl
    have hfin := x86FinishUnsupported_ends h (.branch pc inst) (.inr hstop) pc inst.rawOpcode
    exact Ensures.bind (Ensures.mono hfin (fun _ _ hq => hq) fun _ _ hf => hf.elim) fun _ s' hq =>
      Effect.ensures_pure ⟨.inr hq.1, hq.2⟩
  | some zf =>
    have hcond := x86ConditionFromZf_quietly h hz want
    refine Ensures.bind (Q := fun c s₁ => (∃ v, c = .ok v ∧ Quiet 2 s s₁ ∧
      IsBool s₁ v fun M : X86Machine arch => M.zf == want) ∨
      (c = .error .errRange ∧ Fails 2 s .errRange s₁)) (Effect.ensures_attempt ?_) ?_
    · refine Ensures.mono hcond (fun v s₁ hq => .inl ⟨v, rfl, hq.1, hq.2⟩) fun e s₁ hf => ?_
      obtain ⟨rfl, hf⟩ := hf
      exact .inr ⟨rfl, rfl, hf⟩
    · rintro c s₁ (⟨v, rfl, hq, hv⟩ | ⟨rfl, hf⟩)
      swap
      · exact Effect.ensures_throw hf
      have hi := (Quiet.idle h hq).advance (inst.next pc)
      have hstep : Ensures (x86FinishDirectCbranch target (inst.next pc) v)
          (s₁.advance (inst.next pc)) (fun _ s' => BlockLifted arch [] (.branch pc inst) s s')
          (Fails 2 s) := by
        have h₁ := (h.lift hi.steps).inv
        refine Ensures.mono (finish_ends h hi ⟨rfl, rfl, rfl, h₁.outputs, h₁.returns,
          .tested ht ?_ rfl rfl (hv.advance _)⟩) (fun _ _ hq => hq.2) fun _ _ hf => hf.elim
        show s₁.zf.isSome = true
        rw [hq.steps.notes.2, hz]
        rfl
      have hdone : Ensures (x86FinishDirectCbranch target (inst.next pc) v >>= fun _ => pure true)
          (s₁.advance (inst.next pc)) (fun done s' => (done = true ∨
            s'.result.endKind = .unsupported) ∧ BlockLifted arch [] (.branch pc inst) s s')
          (Fails 2 s) := Ensures.bind hstep fun _ s' hs' => Effect.ensures_pure ⟨.inl rfl, hs'⟩
      exact hdone

/-- **An instruction that ends a block.** -/
theorem x86LiftInst_ends (h : Lifting arch s) (hs : Shaped arch inst)
    (he : inst.mnemonic.endsBlock = true) (pc : Word) :
    Ensures (x86LiftInst inst pc) s
      (fun done s' => (done = true ∨ s'.result.endKind = .unsupported) ∧
        BlockLifted arch [] (.branch pc inst) s s')
      (Fails 2 s) := by
  cases endingLift hs he pc s with
  | @plain kind target ht hk _ hrun =>
    have hi := (Quiet.idle h ⟨.refl 2 s, rfl⟩).advance (inst.next pc)
    have hne : kind ≠ .directCbranch := by rcases hk with rfl | rfl <;> simp
    have hends : EndsAs arch (.branch pc inst) (s.advance (inst.next pc))
        { s.result with endKind := kind, target := target } :=
      endsAs_untested (h.lift hi.steps) ⟨rfl, rfl, rfl, rfl, rfl, rfl⟩ hne (.inl ht)
    refine Ensures.congr ?_ hrun
    exact Ensures.bind (Ensures.mono (finish_ends h hi hends) (fun _ _ hq => hq.2)
      fun _ _ hf => hf.elim) fun _ s' hs' => Effect.ensures_pure ⟨.inl rfl, hs'⟩
  | cbranch ht _ hrun => exact (x86LiftCbranch_ends h ht _).congr hrun

/-- The code for an instruction that does not end a block. -/
theorem x86LiftInst_eq (hne : inst.mnemonic.endsBlock = false) (pc : Word) :
    x86LiftInst inst pc = (do
      match ← Effect.attempt (x86LiftDecoded inst (inst.next pc)) with
      | .error .errUnsupported => do
        x86FinishUnsupported pc inst.rawOpcode
        pure false
      | .error e => Effect.throw e
      | .ok () => do
        x86Advance (inst.next pc)
        pure false : Lift Bool) := by
  unfold x86LiftInst
  generalize hm : inst.mnemonic = mn at hne
  cases mn <;> first | rfl | cases hne

/-- **An instruction that does not end a block.** -/
theorem x86LiftInst_goes (h : Lifting arch s) (hs : Shaped arch inst)
    (hne : inst.mnemonic.endsBlock = false) (pc : Word) :
    Lifts 11 (x86LiftInst inst pc) s fun done s' => done = false ∧ s'.pc = inst.next pc ∧
      InstLifted arch inst (inst.next pc) s s' := by
  rw [x86LiftInst_eq hne]
  refine Ensures.bind (Q := fun c s₁ => (c = .ok () ∧ LiftSteps 11 s s₁ ∧
    InstLifted arch inst (inst.next pc) s s₁) ∨ (c = .error .errRange ∧ Fails 11 s .errRange s₁))
    (Effect.ensures_attempt ?_) ?_
  · refine Ensures.mono (x86LiftDecoded_lifts h hs hne (inst.next pc))
      (fun _ s₁ hq => .inl ⟨rfl, hq⟩) fun e s₁ hf => ?_
    obtain ⟨rfl, hf⟩ := hf
    exact .inr ⟨rfl, rfl, hf⟩
  · rintro c s₁ (⟨rfl, hsteps, hi⟩ | ⟨rfl, hf⟩)
    · have hnote : NoteStep s₁ (s₁.advance (inst.next pc)) := .advance _
      have hs' : LiftSteps 11 s (s₁.advance (inst.next pc)) := .note hsteps hnote
      have hsim : Simulates s (s₁.advance (inst.next pc))
          fun M : X86Machine arch => M.stepThenRsp inst (inst.next pc) := by
        intro F ρ M₀ M M' hc ha hM
        obtain ⟨ha', hin⟩ := hi.simulates F ρ M₀ M M'
          ⟨hc.arch_eq, hc.wf, hc.extends_, hc.denotes, hc.inputs, hc.memoryIn⟩ ha hM
        exact ⟨⟨ha'.regs, ha'.unread, ha'.unwritten, ha'.memory, ha'.untouched, ha'.zf⟩, hin⟩
      exact show LiftSteps 11 s _ ∧ _ from
        ⟨hs', rfl, rfl, hsim, hi.notes.written, hi.notes.memory, hi.notes.zf⟩
    · exact Effect.ensures_throw hf

end Inst

/-! ### The loop -/

theorem BlockLifted.cons {inst : X86DecodedInst} {next : Word}
    {insts : List (X86DecodedInst × Word)} {stop : StreamEnd} (h : Lifting arch s)
    (hs : LiftSteps 11 s t) (hi : InstLifted arch inst next s t)
    (hb : BlockLifted arch insts stop t s') : BlockLifted arch ((inst, next) :: insts) stop s s' := by
  obtain ⟨u, r, hu⟩ := hb
  refine ⟨u, r, ?_, ?_, ?_, hu.ends, hu.finished⟩
  · refine (hs.trans hu.steps).mono ?_
    rw [List.length_cons]
    omega
  · intro F ρ M₀ M M' hc ha hM
    simp only [X86Machine.runThenRsp] at hM
    split at hM
    · cases hM
    · next M₁ hM₁ =>
      have hc' := hc.back (h.lift hs).inv hu.steps
      obtain ⟨ha₁, hin₁⟩ := hi.simulates F ρ M₀ M M₁ hc' ha hM₁
      obtain ⟨ha', hin'⟩ := hu.simulates F ρ M₀ M₁ M' hc ha₁ hM
      exact ⟨ha', fun h₀ => hin' (hin₁ h₀)⟩
  · refine ⟨fun r => ?_, ?_, ?_⟩
    · rw [hu.notes.written, hi.notes.written, List.any_cons, Bool.or_assoc]
    · rw [hu.notes.memory, hi.notes.memory, List.any_cons, Bool.or_assoc]
    · rw [hu.notes.zf, hi.notes.zf, List.any_cons, Bool.or_assoc]

/-- A lift of the stream `st`: it fails only at a cut-off instruction or for want of
value ids. -/
def LiftsStream (arch : Arch) (st : List (X86DecodedInst × Word) × StreamEnd) (x : Lift Unit)
    (s : LiftState) : Prop :=
  Ensures x s (fun _ s' => st.2 ≠ .cutOff ∧ BlockLifted arch st.1 st.2 s s')
    (fun e s' => e = .errRange ∧ LiftSteps (11 * st.1.length + 2) s s' ∧
      (st.2 = .cutOff ∨ s'.module.values.length = uint32Max))

/-- Lifting one instruction inside the image. -/
theorem x86LiftOne_eq (h : Lifting arch s) {image : Image} {offset : Nat}
    (ho : imageOffset image s.pc = some offset) : x86LiftOne image s =
      (match x86Decode arch (image.bytes.drop offset) with
        | .error (.unsupported opcode _) => do
          x86FinishUnsupported s.pc opcode
          pure false
        | .error .range => Effect.throw .errRange
        | .error .badArg => Effect.throw .errBadArg
        | .ok inst => x86LiftInst inst s.pc : Lift Bool) s := by
  unfold x86LiftOne
  rw [Effect.get_bind, ho]
  dsimp only
  rewrite [h.arch_eq]
  cases x86Decode arch (image.bytes.drop offset) with
  | error e => cases e <;> rfl
  | ok inst => rfl

/-- The instructions of a stream are lifted one after the other. -/
def x86LiftInsts : List (X86DecodedInst × Word) → Lift Unit
  | [] => pure ()
  | i :: insts => do
    let s ← Effect.get
    let _ ← x86LiftInst i.1 s.pc
    x86LiftInsts insts

theorem x86LiftInsts_append (insts insts' : List (X86DecodedInst × Word)) :
    x86LiftInsts (insts ++ insts') = x86LiftInsts insts >>= fun _ => x86LiftInsts insts' := by
  induction insts with
  | nil => rfl
  | cons i insts ih =>
    funext s
    show (x86LiftInst i.1 s.pc >>= fun _ => x86LiftInsts (insts ++ insts')) s =
      ((Effect.get >>= fun s => x86LiftInst i.1 s.pc >>= fun _ => x86LiftInsts insts) >>=
        fun _ => x86LiftInsts insts') s
    rw [ih, Effect.bind_assoc, Effect.get_bind, Effect.bind_assoc]

/-- The end of a stream. -/
def x86LiftEnd : StreamEnd → Lift Unit
  | .limit _ => x86FinishFallthrough
  | .unsupported pc opcode => x86FinishUnsupported pc opcode
  | .branch pc inst => do
    let _ ← x86LiftInst inst pc
    pure ()
  | .cutOff => Effect.throw .errRange

/-- The instructions of a stream and its end. -/
def x86LiftStream (st : List (X86DecodedInst × Word) × StreamEnd) : Lift Unit := do
  x86LiftInsts st.1
  x86LiftEnd st.2

theorem x86LiftStream_cons (i : X86DecodedInst × Word) (insts : List (X86DecodedInst × Word))
    (stop : StreamEnd) (s : LiftState) :
    x86LiftStream (i :: insts, stop) s =
      (x86LiftInst i.1 s.pc >>= fun _ => x86LiftStream (insts, stop)) s := by
  show ((Effect.get >>= fun s => x86LiftInst i.1 s.pc >>= fun _ => x86LiftInsts insts) >>=
    fun _ => x86LiftEnd stop) s = _
  rw [Effect.bind_assoc, Effect.get_bind, Effect.bind_assoc]
  rfl

theorem x86LiftLoop_succ (image : Image) (n : Nat) {x : Lift Bool} (hx : x86LiftOne image s = x s)
    (h : ∀ done s', x s = (.ok done, s') → done = true ∨ s'.result.endKind = .unsupported) :
    x86LiftLoop image (n + 1) s = (x >>= fun _ => pure ()) s := by
  rw [x86LiftLoop]
  rcases hr : x s with ⟨e | done, s'⟩
  · rw [Effect.bind_of_error (hx.trans hr), Effect.bind_of_error hr]
  · rw [Effect.bind_of_ok (hx.trans hr), Effect.bind_of_ok hr, Effect.get_bind,
      if_pos (h done s' hr)]

theorem x86LiftLoop_eq (image : Image) (n : Nat) (h : Lifting arch s) :
    x86LiftLoop image n s = x86LiftStream (x86Stream image arch n s.pc) s := by
  induction n generalizing s with
  | zero => rfl
  | succ n ih =>
    -- an error is handed on
    have hcut : ∀ {e}, x86LiftOne image s = (.error e, s) →
        x86LiftLoop image (n + 1) s = (.error e, s) := by
      intro e he
      rw [x86LiftLoop]
      exact Effect.bind_of_error he _
    cases ho : imageOffset image s.pc with
    | none =>
      rw [x86Stream, ho]
      refine hcut ?_
      unfold x86LiftOne
      rw [Effect.get_bind, ho]
      rfl
    | some offset =>
      have hone := x86LiftOne_eq h ho
      obtain ⟨hshape, hbad⟩ := x86Decode_image ho arch
      cases hd : x86Decode arch (image.bytes.drop offset) with
      | error e =>
        rw [hd] at hone
        rw [x86Stream, ho]
        simp only [hd]
        cases e with
        | unsupported opcode op2 =>
          have hfin := x86FinishUnsupported_ends h (.unsupported s.pc opcode) (.inl rfl) s.pc opcode
          refine (x86LiftLoop_succ image n hone fun done s' hr => ?_).trans ?_
          · obtain ⟨u, s₁, hu, hr⟩ := Effect.bind_eq_ok.mp hr
            cases hr
            exact .inr (hfin.ok hu).1
          · show _ = x86FinishUnsupported s.pc opcode s
            rw [Effect.bind_assoc]
            rcases hu : x86FinishUnsupported s.pc opcode s with ⟨e | u, s₁⟩
            · exact Effect.bind_of_error hu _
            · exact Effect.bind_of_ok hu _
        | range => exact hcut hone
        | badArg => exact absurd hd hbad
      | ok inst =>
        rw [hd] at hone
        have hs := hshape inst hd
        cases he : inst.mnemonic.endsBlock with
        | true =>
          rw [x86Stream, ho]
          simp only [hd, he, if_true]
          exact x86LiftLoop_succ image n hone fun done s' hr =>
            ((x86LiftInst_ends h hs he s.pc).ok hr).1
        | false =>
          rw [x86Stream, ho]
          simp only [hd, he]
          refine Eq.trans ?_ (x86LiftStream_cons (inst, inst.next s.pc) _ _ s).symm
          rw [x86LiftLoop]
          rcases hrun : x86LiftInst inst s.pc s with ⟨e | done, s₁⟩
          · rw [Effect.bind_of_error (hone.trans hrun), Effect.bind_of_error hrun]
          · obtain ⟨hsteps, rfl, hpc, -⟩ := (x86LiftInst_goes h hs he s.pc).ok hrun
            have h₁ := h.lift hsteps
            have hgoes : ¬ (false = true ∨ s₁.result.endKind = .unsupported) := by
              rw [h₁.inv.running]
              simp
            rw [Effect.bind_of_ok (hone.trans hrun), Effect.bind_of_ok hrun, Effect.get_bind,
              if_neg hgoes, ih h₁, hpc]

/-- The end of a stream, from a state in which its instructions have been lifted. -/
theorem x86LiftStream_ok {st : List (X86DecodedInst × Word) × StreamEnd} :
    x86LiftStream st s = (.ok (), s') ↔
      ∃ s₁, x86LiftInsts st.1 s = (.ok (), s₁) ∧ x86LiftEnd st.2 s₁ = (.ok (), s') := by
  rw [x86LiftStream, Effect.bind_eq_ok]
  exact ⟨fun ⟨_, s₁, h⟩ => ⟨s₁, h⟩, fun ⟨s₁, h⟩ => ⟨(), s₁, h⟩⟩

/-- The instruction that ends a stream ends a block. -/
def EndShaped (arch : Arch) (stop : StreamEnd) : Prop :=
  ∀ pc inst, stop = .branch pc inst → Shaped arch inst ∧ inst.mnemonic.endsBlock = true

theorem endShaped_x86Stream (image : Image) (arch : Arch) (n : Nat) (pc : Word) :
    EndShaped arch (x86Stream image arch n pc).2 := by
  intro a inst h
  obtain ⟨-, hat, he⟩ := (x86Stream_consecutive image arch n pc).2.2 a inst h
  exact ⟨hat.shaped, he⟩

theorem x86LiftEnd_lifts (h : Lifting arch s) {stop : StreamEnd} (hstop : EndShaped arch stop) :
    LiftsStream arch ([], stop) (x86LiftEnd stop) s := by
  cases stop with
  | limit a =>
    exact Ensures.mono (x86FinishFallthrough_ends h (.limit a) rfl)
      (fun _ s' hq => ⟨by simp, hq⟩) fun _ _ hf => hf.elim
  | unsupported a opcode =>
    exact Ensures.mono (x86FinishUnsupported_ends h (.unsupported a opcode) (.inl rfl) a opcode)
      (fun _ s' hq => ⟨by simp, hq.2⟩) fun _ _ hf => hf.elim
  | branch a inst =>
    obtain ⟨hs, he⟩ := hstop a inst rfl
    refine Ensures.bind (Ensures.mono (x86LiftInst_ends h hs he a) (fun _ _ hq => hq)
      fun e s' hf => ⟨hf.1, hf.2.1, .inr hf.2.2⟩) fun _ s' hq => ?_
    exact Effect.ensures_pure ⟨by simp, hq.2⟩
  | cutOff => exact Effect.ensures_throw ⟨rfl, .refl _ _, .inl rfl⟩

/-- Consecutive instructions are lifted one after the other, and then the end. -/
theorem x86LiftStream_lifts {image : Image} (insts : List (X86DecodedInst × Word))
    {stop : StreamEnd} (h : Lifting arch s) (hc : Consecutive image arch s.pc insts)
    (hi : ∀ i ∈ insts, Inner arch i.1) (hstop : EndShaped arch stop) :
    LiftsStream arch (insts, stop) (x86LiftStream (insts, stop)) s := by
  induction insts generalizing s with
  | nil => exact x86LiftEnd_lifts h hstop
  | cons i insts ih =>
    obtain ⟨inst, next⟩ := i
    obtain ⟨-, rfl, hrest⟩ := hc
    obtain ⟨hs, hne⟩ := hi _ (List.mem_cons_self ..)
    refine Ensures.congr ?_ (x86LiftStream_cons (inst, inst.next s.pc) insts stop s)
    refine Ensures.bind (Ensures.mono (x86LiftInst_goes h hs hne s.pc) (fun _ _ hq => hq)
      fun e s' hf => ⟨hf.1, hf.2.1.mono ?_, .inr hf.2.2⟩) ?_
    · rw [List.length_cons]
      omega
    · rintro done s₁ ⟨hsteps, -, hpc, hlift⟩
      refine Ensures.mono (ih (h.lift hsteps) (hpc ▸ hrest) fun j hj =>
        hi j (List.mem_cons_of_mem _ hj)) (fun _ s' hq => ⟨hq.1, hq.2.cons h hsteps hlift⟩)
        fun e s' hf => ⟨hf.1, (hsteps.trans hf.2.1).mono ?_, hf.2.2⟩
      show 11 + (11 * insts.length + 2) ≤ 11 * (insts.length + 1) + 2
      omega

/-- **The loop lifts the stream.** -/
theorem x86LiftLoop_lifts (image : Image) (n : Nat) (h : Lifting arch s) :
    LiftsStream arch (x86Stream image arch n s.pc) (x86LiftLoop image n) s := by
  obtain ⟨hc, hi, -⟩ := x86Stream_consecutive image arch n s.pc
  exact (x86LiftStream_lifts _ h hc hi (endShaped_x86Stream image arch n s.pc)).congr
    (x86LiftLoop_eq image n h)

end Xair
