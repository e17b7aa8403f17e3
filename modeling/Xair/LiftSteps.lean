import Xair.X86Stream
import Xair.Draft

/-!
# What the lifter can do to its state

Every function of the lifter changes the state by a few kinds of steps: it adds a
parameter for a register or for memory, it adds an operation, it loads or stores, or it
notes that a register or the flag has a new value.  `LiftStep` lists them with what holds
when they happen, and `LiftSteps n` is a sequence that takes at most `n` value ids.
What holds of all steps is proved here once: they keep the invariant `LiftInv`, they
only add to the block, and they keep the block executable and its tokens threaded.
-/

namespace Xair

/-- `v` can be used at the end of block `b` and has type `t`. -/
structure Module.HasValue (m : Module) (b v : Nat) (t : Ty) : Prop where
  usable : m.Usable b v
  type : m.valueType v = t

/-- The value can be used in the block of the lift. -/
abbrev LiftState.HasValue (s : LiftState) (v : Nat) (t : Ty) : Prop :=
  s.module.HasValue s.block v t

/-- The type of the memory of the lift. -/
def LiftState.memoryType (s : LiftState) : Ty := typeMem s.memorySpace s.arch.bits

/-- The invariant of the lift state until the block is finished. -/
structure LiftInv (s : LiftState) : Prop where
  draft : Draft s.module s.block
  regs : ∀ r v, s.regs r = some v → x86RegSupported s.arch r = true ∧
    s.HasValue v (x86RegType s.arch)
  written : ∀ r, s.writtenRegs r = true → ∃ v, s.regs r = some v
  memory : ∀ v, s.memory = some v → s.HasValue v s.memoryType
  memoryIn : s.memory = none → s.result.memoryIn = none
  zf : ∀ v, s.zf = some v → s.HasValue v (typeI 1)
  inputs : ∀ p ∈ s.result.inputRegs, ∃ v, s.regs p.1 = some v
  inputs_nodup : (s.result.inputRegs.map Prod.fst).Nodup
  outputs : s.result.outputRegs = []
  returns : s.result.returnValues = []
  running : s.result.endKind = .fallthrough
  noCondition : s.result.branchCondition = none

/-- An operation with the key is never unsupported when its sources have their types. -/
def KeyRuns (m : Module) (k : OpKey) : Prop :=
  ∀ (dst : Nat) (read : Nat → Except Status ExecValue) (mem : ExecMemory),
    (∀ s ∈ k.srcs, ∃ x, read s = .ok x ∧ x.type = m.valueType s) →
    execOpValue k.type read mem ⟨k.opcode, dst, k.srcs, k.endian, k.imm⟩ ≠ .error .errUnsupported

/-- A step that leaves registers, memory and flag as they were. -/
inductive QuietStep (s : LiftState) : LiftState → Prop
  | param {reg v m'} : s.regs reg = none → x86RegSupported s.arch reg = true →
      ParamAdded s.block (x86RegType s.arch) s.module v m' →
      QuietStep s { s with
        module := m'
        regs := fun r => if r = reg then some v else s.regs r
        result := { s.result with inputRegs := s.result.inputRegs ++ [(reg, v)] } }
  | memParam {v m'} : s.memory = none → ParamAdded s.block s.memoryType s.module v m' →
      QuietStep s { s with
        module := m', memory := some v, result := { s.result with memoryIn := some v } }
  | op {k v m'} : k.block = s.block → ¬ k.opcode.isMemoryOp → KeyRuns s.module k →
      OpAdded k s.module v m' → QuietStep s { s with module := m' }
  | same {m'} : SameCore s.module m' → m'.frozen = s.module.frozen →
      QuietStep s { s with module := m' }

/-- A load from the memory of the state. -/
inductive LoadStep (s : LiftState) : LiftState → Prop
  | load {k v m'} : k.block = s.block → k.opcode = .load →
      s.memory = some (k.srcs.getD 0 invalidId) → KeyRuns s.module k → OpAdded k s.module v m' →
      LoadStep s { s with module := m' }

/-- A store, whose token becomes the memory of the state. -/
inductive StoreStep (s : LiftState) : LiftState → Prop
  | store {k v m'} : k.block = s.block → k.opcode = .store → k.type = s.memoryType →
      s.memory = some (k.srcs.getD 0 invalidId) → KeyRuns s.module k → OpAdded k s.module v m' →
      StoreStep s { s with
        module := m', memory := some v, result := { s.result with memoryOut := some v } }

/-- A step that builds nothing. -/
inductive NoteStep (s : LiftState) : LiftState → Prop
  | writeReg {reg v} : x86RegSupported s.arch reg = true → s.HasValue v (x86RegType s.arch) →
      NoteStep s { s with
        regs := fun r => if r = reg then some v else s.regs r
        writtenRegs := fun r => if r = reg then true else s.writtenRegs r }
  | setZf {v} : s.HasValue v (typeI 1) → NoteStep s { s with zf := some v }
  | advance (pc : Word) : NoteStep s { s with pc := pc, instructions := s.instructions + 1 }

/-- A step of the lifter. -/
inductive LiftStep (s s' : LiftState) : Prop
  | quiet : QuietStep s s' → LiftStep s s'
  | load : LoadStep s s' → LiftStep s s'
  | store : StoreStep s s' → LiftStep s s'
  | note : NoteStep s s' → LiftStep s s'

/-- Steps that build at most `n` times. -/
inductive LiftSteps : Nat → LiftState → LiftState → Prop
  | refl (n : Nat) (s : LiftState) : LiftSteps n s s
  | build {n s s' s''} : LiftSteps n s s' → LiftStep s' s'' → LiftSteps (n + 1) s s''
  | note {n s s' s''} : LiftSteps n s s' → NoteStep s' s'' → LiftSteps n s s''

/-- Quiet steps, at most `n` of them. -/
inductive QuietSteps : Nat → LiftState → LiftState → Prop
  | refl (n : Nat) (s : LiftState) : QuietSteps n s s
  | step {n s s' s''} : QuietSteps n s s' → QuietStep s' s'' → QuietSteps (n + 1) s s''

section Sequences

variable {s s' s'' : LiftState} {n k : Nat}

theorem QuietSteps.trans (h : QuietSteps n s s') (h' : QuietSteps k s' s'') :
    QuietSteps (n + k) s s'' := by
  induction h' with
  | refl k s' =>
    induction h with
    | refl n s => exact .refl _ _
    | @step n _ _ _ _ hq ih =>
      rw [Nat.add_right_comm]
      exact .step ih hq
  | step _ hq ih => exact .step (ih h) hq

theorem LiftSteps.mono (h : LiftSteps n s s') (hn : n ≤ k) : LiftSteps k s s' := by
  induction h generalizing k with
  | refl n s => exact .refl _ _
  | build _ hs ih =>
    obtain ⟨j, rfl⟩ : ∃ j, k = j + 1 := ⟨k - 1, by omega⟩
    exact .build (ih (by omega)) hs
  | note _ hs ih => exact .note (ih hn) hs

theorem LiftSteps.trans (h : LiftSteps n s s') (h' : LiftSteps k s' s'') :
    LiftSteps (n + k) s s'' := by
  induction h' with
  | refl k s' => exact h.mono (Nat.le_add_right n k)
  | build _ hs ih => exact .build (ih h) hs
  | note _ hs ih => exact .note (ih h) hs

theorem QuietSteps.lift (h : QuietSteps n s s') : LiftSteps n s s' := by
  induction h with
  | refl n s => exact .refl _ _
  | step _ hq ih => exact .build ih (.quiet hq)

/-- What every step keeps, a sequence keeps. -/
theorem LiftSteps.induct {P : LiftState → Prop} (hstep : ∀ s s', P s → LiftStep s s' → P s')
    (h : LiftSteps n s s') (hs : P s) : P s' := by
  induction h with
  | refl n s => exact hs
  | build _ hb ih => exact hstep _ _ (ih hs) hb
  | note _ hb ih => exact hstep _ _ (ih hs) (.note hb)

end Sequences

/-! ### The module -/

section Module

variable {s s' : LiftState} {n : Nat}

/-- What a step does to the module and leaves of the rest. -/
structure LiftFrame (s s' : LiftState) : Prop where
  draft : Draft s'.module s'.block
  extends_ : GrowsIn s.block s.module s'.module
  arch : s'.arch = s.arch
  block : s'.block = s.block
  memorySpace : s'.memorySpace = s.memorySpace
  emit : s'.emitReturnTerminator = s.emitReturnTerminator
  endKind : s'.result.endKind = s.result.endKind
  condition : s'.result.branchCondition = s.result.branchCondition
  outputs : s'.result.outputRegs = s.result.outputRegs
  returns : s'.result.returnValues = s.result.returnValues
  start : s'.result.start = s.result.start
  resultBlock : s'.result.block = s.result.block

theorem LiftFrame.refl (hd : Draft s.module s.block) : LiftFrame s s :=
  ⟨hd, .refl _ _, rfl, rfl, rfl, rfl, rfl, rfl, rfl, rfl, rfl, rfl⟩

theorem LiftFrame.trans {s'' : LiftState} (h : LiftFrame s s') (h' : LiftFrame s' s'') :
    LiftFrame s s'' := by
  have hext := h'.extends_
  rw [h.block] at hext
  exact ⟨h'.draft, h.extends_.trans hext, h'.arch.trans h.arch, h'.block.trans h.block,
    h'.memorySpace.trans h.memorySpace, h'.emit.trans h.emit, h'.endKind.trans h.endKind,
    h'.condition.trans h.condition, h'.outputs.trans h.outputs, h'.returns.trans h.returns,
    h'.start.trans h.start, h'.resultBlock.trans h.resultBlock⟩

/-- A step that changes the module as a call on the draft does. -/
theorem liftFrame_module {m' : Module} (hd : Draft m' s.block)
    (he : GrowsIn s.block s.module m') : LiftFrame s { s with module := m' } :=
  ⟨hd, he, rfl, rfl, rfl, rfl, rfl, rfl, rfl, rfl, rfl, rfl⟩

theorem QuietStep.frame (hd : Draft s.module s.block) (h : QuietStep s s') : LiftFrame s s' := by
  cases h with
  | param _ _ ha => exact ⟨ha.draft, ha.extends_, rfl, rfl, rfl, rfl, rfl, rfl, rfl, rfl, rfl, rfl⟩
  | memParam _ ha => exact ⟨ha.draft, ha.extends_, rfl, rfl, rfl, rfl, rfl, rfl, rfl, rfl, rfl, rfl⟩
  | op hb _ _ ha =>
    exact liftFrame_module (hb ▸ ha.draft) (hb ▸ ha.extends_)
  | same hc hf =>
    have hfr := hf.trans hd.unfrozen
    exact liftFrame_module (hd.congr hc hfr) (hd.extends_congr hc hfr)

theorem LiftStep.frame (hd : Draft s.module s.block) (h : LiftStep s s') : LiftFrame s s' := by
  cases h with
  | quiet h => exact h.frame hd
  | load h =>
    cases h with
    | load hb _ _ _ ha => exact liftFrame_module (hb ▸ ha.draft) (hb ▸ ha.extends_)
  | store h =>
    cases h with
    | store hb _ _ _ _ ha =>
      exact ⟨hb ▸ ha.draft, hb ▸ ha.extends_, rfl, rfl, rfl, rfl, rfl, rfl, rfl, rfl, rfl, rfl⟩
  | note h =>
    cases h with
    | writeReg _ _ => exact ⟨hd, .refl _ _, rfl, rfl, rfl, rfl, rfl, rfl, rfl, rfl, rfl, rfl⟩
    | setZf _ => exact ⟨hd, .refl _ _, rfl, rfl, rfl, rfl, rfl, rfl, rfl, rfl, rfl, rfl⟩
    | advance _ => exact ⟨hd, .refl _ _, rfl, rfl, rfl, rfl, rfl, rfl, rfl, rfl, rfl, rfl⟩

theorem LiftSteps.frame (hd : Draft s.module s.block) (h : LiftSteps n s s') : LiftFrame s s' := by
  refine h.induct (P := fun s' => LiftFrame s s') (fun a b ha hab => ?_) (.refl hd)
  exact ha.trans (hab.frame ha.draft)

theorem LiftStep.values_le (h : LiftStep s s') :
    s'.module.values.length ≤ s.module.values.length + 1 := by
  have hparam : ∀ {t v m'}, ParamAdded s.block t s.module v m' →
      m'.values.length ≤ s.module.values.length + 1 := by
    intro t v m' ha
    obtain ⟨name, hm⟩ := ha.change
    rw [hm]
    simp [Module.withParam]
  cases h with
  | quiet h =>
    cases h with
    | param _ _ ha => exact hparam ha
    | memParam _ ha => exact hparam ha
    | op _ _ _ ha => exact ha.values_le
    | same hc _ =>
      show _ ≤ _
      rw [hc.values]
      omega
  | load h =>
    cases h with
    | load _ _ _ _ ha => exact ha.values_le
  | store h =>
    cases h with
    | store _ _ _ _ _ ha => exact ha.values_le
  | note h => cases h <;> exact Nat.le_succ _

/-- A sequence builds at most as many values as it is allowed. -/
theorem LiftSteps.values_le (h : LiftSteps n s s') :
    s'.module.values.length ≤ s.module.values.length + n := by
  induction h with
  | refl n s => omega
  | build _ hs ih =>
    have := hs.values_le
    omega
  | note _ hs ih => cases hs <;> exact ih

end Module

/-! ### The invariant -/

section Invariant

variable {s s' : LiftState} {n : Nat}

theorem LiftFrame.hasValue {v : Nat} {t : Ty} (hv : s.HasValue v t)
    (hd : Draft s.module s.block) (h : LiftFrame s s') : s'.HasValue v t := by
  refine ⟨?_, ?_⟩
  · rw [h.block]
    exact hv.usable.extends hd.wf h.draft.wf hd.isOpen.1 h.extends_
  · rw [h.extends_.grows.valueType hv.usable.lt]
    exact hv.type

theorem QuietStep.inv (h : LiftInv s) (hs : QuietStep s s') : LiftInv s' := by
  have hf := hs.frame h.draft
  have hval : ∀ {v t}, s.HasValue v t → s'.HasValue v t := fun hv => hf.hasValue hv h.draft
  cases hs with
  | @param reg v m' hnone hsup ha =>
    have hnew : LiftState.HasValue { s with
        module := m'
        regs := fun r => if r = reg then some v else s.regs r
        result := { s.result with inputRegs := s.result.inputRegs ++ [(reg, v)] } } v
        (x86RegType s.arch) := ⟨ha.usable, ha.type⟩
    refine ⟨ha.draft, ?_, ?_, fun u hu => hval (h.memory u hu), h.memoryIn,
      fun u hu => hval (h.zf u hu), ?_, ?_, h.outputs, h.returns, h.running, h.noCondition⟩
    · intro r u hu
      dsimp only at hu
      split at hu
      · next hr =>
        cases hu
        rw [hr]
        exact ⟨hsup, hnew⟩
      · exact ⟨(h.regs r u hu).1, hval (h.regs r u hu).2⟩
    · intro r hr
      dsimp only
      split
      · exact ⟨v, rfl⟩
      · exact h.written r hr
    · intro p hp
      dsimp only
      split
      · exact ⟨v, rfl⟩
      · next hne =>
        rcases List.mem_append.mp hp with hp | hp
        · exact h.inputs p hp
        · rw [List.mem_singleton] at hp
          exact absurd (by rw [hp]) hne
    · -- the register had no value, so it is not yet among the inputs
      show ((s.result.inputRegs ++ [(reg, v)]).map Prod.fst).Nodup
      rw [List.map_append, List.nodup_append]
      refine ⟨h.inputs_nodup, List.nodup_singleton _, ?_⟩
      intro a ha b hb hab
      obtain ⟨p, hp, rfl⟩ := List.mem_map.mp ha
      simp only [List.map_cons, List.map_nil, List.mem_singleton] at hb
      obtain ⟨u, hu⟩ := h.inputs p hp
      rw [hab, hb, hnone] at hu
      cases hu
  | @memParam v m' hnone ha =>
    refine ⟨ha.draft, fun r u hu => ⟨(h.regs r u hu).1, hval (h.regs r u hu).2⟩, h.written, ?_,
      (fun hn => by cases hn), fun u hu => hval (h.zf u hu), h.inputs, h.inputs_nodup, h.outputs,
      h.returns, h.running, h.noCondition⟩
    intro u hu
    cases hu
    exact ⟨ha.usable, ha.type⟩
  | op hb _ _ ha =>
    exact ⟨hf.draft, fun r u hu => ⟨(h.regs r u hu).1, hval (h.regs r u hu).2⟩, h.written,
      fun u hu => hval (h.memory u hu), h.memoryIn, fun u hu => hval (h.zf u hu), h.inputs,
      h.inputs_nodup, h.outputs, h.returns, h.running, h.noCondition⟩
  | same hc hfr =>
    exact ⟨hf.draft, fun r u hu => ⟨(h.regs r u hu).1, hval (h.regs r u hu).2⟩, h.written,
      fun u hu => hval (h.memory u hu), h.memoryIn, fun u hu => hval (h.zf u hu), h.inputs,
      h.inputs_nodup, h.outputs, h.returns, h.running, h.noCondition⟩

/-- **Every step keeps the invariant.** -/
theorem LiftStep.inv (h : LiftInv s) (hs : LiftStep s s') : LiftInv s' := by
  have hf := hs.frame h.draft
  have hval : ∀ {v t}, s.HasValue v t → s'.HasValue v t := fun hv => hf.hasValue hv h.draft
  cases hs with
  | quiet hs => exact hs.inv h
  | load hs =>
    cases hs with
    | load hb _ _ _ ha =>
      exact ⟨hf.draft, fun r u hu => ⟨(h.regs r u hu).1, hval (h.regs r u hu).2⟩, h.written,
        fun u hu => hval (h.memory u hu), h.memoryIn, fun u hu => hval (h.zf u hu), h.inputs,
        h.inputs_nodup, h.outputs, h.returns, h.running, h.noCondition⟩
  | store hs =>
    cases hs with
    | @store k v m' hb _ ht hmem _ ha =>
      refine ⟨hf.draft, fun r u hu => ⟨(h.regs r u hu).1, hval (h.regs r u hu).2⟩, h.written, ?_,
        (fun hn => by cases hn), fun u hu => hval (h.zf u hu), h.inputs, h.inputs_nodup, h.outputs,
        h.returns, h.running, h.noCondition⟩
      intro u hu
      cases hu
      exact ⟨hb ▸ ha.usable, ha.type.trans ht⟩
  | note hs =>
    cases hs with
    | @writeReg reg v hsup hv =>
      refine ⟨h.draft, ?_, ?_, h.memory, h.memoryIn, h.zf, ?_, h.inputs_nodup, h.outputs, h.returns,
        h.running, h.noCondition⟩
      · intro r u hu
        dsimp only at hu
        split at hu
        · next hr =>
          cases hu
          rw [hr]
          exact ⟨hsup, hv⟩
        · exact h.regs r u hu
      · intro r hr
        dsimp only at hr ⊢
        split
        · exact ⟨v, rfl⟩
        · next hne =>
          rw [if_neg hne] at hr
          exact h.written r hr
      · intro p hp
        dsimp only
        split
        · exact ⟨v, rfl⟩
        · exact h.inputs p hp
    | setZf hv =>
      exact ⟨h.draft, h.regs, h.written, h.memory, h.memoryIn, (fun u hu => by cases hu; exact hv),
        h.inputs, h.inputs_nodup, h.outputs, h.returns, h.running, h.noCondition⟩
    | advance pc =>
      exact ⟨h.draft, h.regs, h.written, h.memory, h.memoryIn, h.zf, h.inputs, h.inputs_nodup,
        h.outputs, h.returns, h.running, h.noCondition⟩

theorem LiftSteps.inv (h : LiftInv s) (hs : LiftSteps n s s') : LiftInv s' :=
  hs.induct (fun _ _ ha hab => hab.inv ha) h

end Invariant

end Xair
