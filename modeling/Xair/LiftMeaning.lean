import Xair.LiftSteps
import Xair.Denotation

/-!
# The lift state and the machine

A lift state stands for a machine state in every run of the finished block: the value
that a register maps to stands for the word in it, the current token for memory, the
flag value for `ZF`.  `Completes` says that a module and a denotation belong to a run
of what the lift builds from the state on, started from the machine state `M₀`;
`Agrees` says that the lift state stands for the machine state `M` in it.  Quiet steps
change nothing about that (`QuietSteps.agrees`).
-/

namespace Xair

namespace Arch

variable (arch : Arch)

theorem bits_le : arch.bits ≤ 64 := by
  cases arch <;> decide

/-- The value of a register that holds `x`. -/
def int (x : BitVec arch.bits) : ExecValue := wordValue (typeI arch.bits) x

/-- The value of an address. -/
def addr (x : BitVec arch.bits) : ExecValue := wordValue (typeAddr arch.bits) x

theorem int_inj {x y : BitVec arch.bits} (h : arch.int x = arch.int y) : x = y :=
  wordValue_inj arch.bits_le h

end Arch

variable {arch : Arch}

/-- `F` and `ρ` belong to a run, from the machine state `M₀`, of a block that the lift
goes on to build from `s`. -/
structure Completes (F : Module) (ρ : Denotation) (M₀ : X86Machine arch) (s : LiftState) : Prop where
  arch_eq : s.arch = arch
  wf : F.WF
  extends_ : GrowsIn s.block s.module F
  denotes : Denotes F s.block ρ
  inputs : ∀ p ∈ s.result.inputRegs, ρ.value p.2 = arch.int (M₀.regs p.1)
  memoryIn : ∀ v, s.result.memoryIn = some v → ρ.memory v = M₀.memory

/-- The lift state stands for the machine state `M`. -/
structure Agrees (ρ : Denotation) (M₀ : X86Machine arch) (s : LiftState) (M : X86Machine arch) :
    Prop where
  regs : ∀ r v, s.regs r = some v → ρ.value v = arch.int (M.regs r)
  unread : ∀ r, s.regs r = none → M.regs r = M₀.regs r
  unwritten : ∀ r, s.writtenRegs r = false → M.regs r = M₀.regs r
  memory : ∀ v, s.memory = some v → ρ.memory v = M.memory
  untouched : s.memory = none → M.memory = M₀.memory
  zf : ∀ v, s.zf = some v → ρ.value v = boolValue M.zf

section Steps

variable {F : Module} {ρ : Denotation} {M₀ M : X86Machine arch} {s s' : LiftState} {n : Nat}

/-- A run of what is built from a later state is one of what is built from an earlier. -/
theorem Completes.back_step (h : LiftInv s) (hs : LiftStep s s') (hc : Completes F ρ M₀ s') :
    Completes F ρ M₀ s := by
  have hf := hs.frame h.draft
  have hext := hc.extends_
  have hden := hc.denotes
  rw [hf.block] at hext hden
  have hsub : ∀ p ∈ s.result.inputRegs, p ∈ s'.result.inputRegs := by
    intro p hp
    cases hs with
    | quiet hs => cases hs <;> first | exact hp | exact List.mem_append_left _ hp
    | load hs => cases hs; exact hp
    | store hs => cases hs; exact hp
    | note hs => cases hs <;> exact hp
  have hmem : ∀ v, s.result.memoryIn = some v → s'.result.memoryIn = some v := by
    intro v hv
    cases hs with
    | quiet hs =>
      cases hs with
      | memParam hnone _ =>
        rw [h.memoryIn hnone] at hv
        cases hv
      | _ => exact hv
    | load hs => cases hs; exact hv
    | store hs => cases hs; exact hv
    | note hs => cases hs <;> exact hv
  exact ⟨hf.arch.symm.trans hc.arch_eq, hc.wf, hf.extends_.trans hext, hden,
    fun p hp => hc.inputs p (hsub p hp), fun v hv => hc.memoryIn v (hmem v hv)⟩

theorem Completes.back (h : LiftInv s) (hs : LiftSteps n s s') (hc : Completes F ρ M₀ s') :
    Completes F ρ M₀ s := by
  induction hs with
  | refl n s => exact hc
  | build hss hb ih => exact ih h (hc.back_step (hss.inv h) hb)
  | note hss hb ih => exact ih h (hc.back_step (hss.inv h) (.note hb))

/-- A quiet step changes nothing about what the state stands for. -/
theorem QuietStep.agrees (hs : QuietStep s s') (hc : Completes F ρ M₀ s') :
    Agrees ρ M₀ s' M ↔ Agrees ρ M₀ s M := by
  cases hs with
  | @param reg v m' hnone _ _ =>
    have hin : ρ.value v = arch.int (M₀.regs reg) := hc.inputs (reg, v) (by simp)
    constructor
    · intro h
      refine ⟨?_, ?_, h.unwritten, h.memory, h.untouched, h.zf⟩
      · intro r u hu
        refine h.regs r u ?_
        dsimp only
        rw [if_neg]
        · exact hu
        · rintro rfl
          rw [hnone] at hu
          cases hu
      · intro r hr
        by_cases hreg : r = reg
        · subst hreg
          have hv := h.regs r v (by simp)
          rw [hin] at hv
          exact (arch.int_inj hv).symm
        · exact h.unread r (by dsimp only; rw [if_neg hreg]; exact hr)
    · intro h
      refine ⟨?_, ?_, h.unwritten, h.memory, h.untouched, h.zf⟩
      · intro r u hu
        dsimp only at hu
        split at hu
        · next hreg =>
          cases hu
          rw [hin, hreg, h.unread reg hnone]
        · exact h.regs r u hu
      · intro r hr
        dsimp only at hr
        split at hr
        · cases hr
        · exact h.unread r hr
  | @memParam v m' hnone _ =>
    have hin : ρ.memory v = M₀.memory := hc.memoryIn v rfl
    constructor
    · intro h
      refine ⟨h.regs, h.unread, h.unwritten, fun u hu => ?_, fun _ => ?_, h.zf⟩
      · rw [hnone] at hu
        cases hu
      · rw [← h.memory v rfl, hin]
    · intro h
      refine ⟨h.regs, h.unread, h.unwritten, fun u hu => ?_, (fun hn => by cases hn), h.zf⟩
      cases hu
      rw [hin, h.untouched hnone]
  | op _ _ _ _ =>
    exact ⟨fun h => ⟨h.regs, h.unread, h.unwritten, h.memory, h.untouched, h.zf⟩,
      fun h => ⟨h.regs, h.unread, h.unwritten, h.memory, h.untouched, h.zf⟩⟩
  | same _ _ =>
    exact ⟨fun h => ⟨h.regs, h.unread, h.unwritten, h.memory, h.untouched, h.zf⟩,
      fun h => ⟨h.regs, h.unread, h.unwritten, h.memory, h.untouched, h.zf⟩⟩

theorem QuietSteps.agrees (h : LiftInv s) (hs : QuietSteps n s s') (hc : Completes F ρ M₀ s') :
    Agrees ρ M₀ s' M ↔ Agrees ρ M₀ s M := by
  induction hs with
  | refl n s => exact .rfl
  | step hss hq ih =>
    have hback := hc.back_step (hss.lift.inv h) (.quiet hq)
    exact (hq.agrees hc).trans (ih h hback)

theorem LoadStep.agrees (hs : LoadStep s s') : Agrees ρ M₀ s' M ↔ Agrees ρ M₀ s M := by
  cases hs
  exact ⟨fun h => ⟨h.regs, h.unread, h.unwritten, h.memory, h.untouched, h.zf⟩,
    fun h => ⟨h.regs, h.unread, h.unwritten, h.memory, h.untouched, h.zf⟩⟩

/-- Writing a register. -/
theorem Agrees.writeReg (h : Agrees ρ M₀ s M) {reg : X86Reg} {v : Nat} {x : BitVec arch.bits}
    (hv : ρ.value v = arch.int x) :
    Agrees ρ M₀ { s with
      regs := fun r => if r = reg then some v else s.regs r
      writtenRegs := fun r => if r = reg then true else s.writtenRegs r } (M.setReg reg x) := by
  refine ⟨?_, ?_, ?_, h.memory, h.untouched, h.zf⟩
  · intro r u hu
    dsimp only at hu
    by_cases hr : r = reg
    · rw [if_pos hr] at hu
      cases hu
      rw [hr, hv, M.setReg_regs_self]
    · rw [if_neg hr] at hu
      rw [h.regs r u hu, M.setReg_regs_ne hr]
  · intro r hu
    dsimp only at hu
    by_cases hr : r = reg
    · rw [if_pos hr] at hu
      cases hu
    · rw [if_neg hr] at hu
      rw [M.setReg_regs_ne hr]
      exact h.unread r hu
  · intro r hu
    dsimp only at hu
    by_cases hr : r = reg
    · rw [if_pos hr] at hu
      cases hu
    · rw [if_neg hr] at hu
      rw [M.setReg_regs_ne hr]
      exact h.unwritten r hu

/-- Noting the flag. -/
theorem Agrees.setZf (h : Agrees ρ M₀ s M) {v : Nat} {c : Bool} (hv : ρ.value v = boolValue c) :
    Agrees ρ M₀ { s with zf := some v } { M with zf := c } := by
  refine ⟨h.regs, h.unread, h.unwritten, h.memory, h.untouched, ?_⟩
  intro u hu
  cases hu
  exact hv

end Steps

/-! ### Loads and stores so far -/

/-- Every load and store that is built so far stays in bounds. -/
def LiftState.InBounds (s : LiftState) (ρ : Denotation) : Prop :=
  ∀ o ∈ (s.module.blockRec s.block).ops, ρ.InBounds s.module (s.module.opRec o)

section InBounds

variable {ρ : Denotation} {s s' : LiftState} {n : Nat}

theorem inBounds_grows {m m' : Module} (hwf : m.WF) (h : Grows m m') {o : Nat}
    (ho : o < m.ops.length) (hin : ρ.InBounds m (m.opRec o)) : ρ.InBounds m' (m'.opRec o) := by
  have htype := h.valueType (hwf.op_dst o ho).1
  unfold Denotation.InBounds at hin ⊢
  rw [h.opRec o ho, htype]
  exact hin

theorem inBounds_of_not_memoryOp {m : Module} {op : OpRec} (h : ¬ op.opcode.isMemoryOp) :
    ρ.InBounds m op := by
  unfold Denotation.InBounds
  split
  · next heq => exact absurd (.inl heq) h
  · next heq => exact absurd (.inr heq) h
  · trivial

/-- An operation that stays in bounds is added. -/
theorem LiftState.InBounds.add (hin : s.InBounds ρ) (h : LiftInv s) {k : OpKey} {v : Nat}
    {m' : Module} (hb : k.block = s.block) (ha : OpAdded k s.module v m')
    (hnew : ρ.InBounds m' ⟨k.opcode, v, k.srcs, k.endian, k.imm⟩) :
    ({ s with module := m' } : LiftState).InBounds ρ := by
  have hlt := h.draft.isOpen.1
  have hold : ∀ o ∈ (s.module.blockRec s.block).ops, ρ.InBounds m' (m'.opRec o) := fun o ho =>
    inBounds_grows h.draft.wf ha.extends_.grows ((h.draft.wf.block_ops _ hlt o).mp ho).1 (hin o ho)
  intro o ho
  change o ∈ (m'.blockRec s.block).ops at ho
  have hrec := ha.blockRec (hb ▸ hlt)
  rw [hb] at hrec
  rcases hrec with hrec | ⟨hrec, hop⟩
  · rw [hrec] at ho
    exact hold o ho
  · rw [hrec] at ho
    rcases List.mem_append.mp ho with ho | ho
    · exact hold o ho
    · rw [List.mem_singleton] at ho
      show ρ.InBounds m' (m'.opRec o)
      rw [ho, hop]
      exact hnew

theorem QuietStep.inBounds (h : LiftInv s) (hs : QuietStep s s') (hin : s.InBounds ρ) :
    s'.InBounds ρ := by
  have hlt := h.draft.isOpen.1
  have hkeep : ∀ {m' : Module}, Grows s.module m' →
      (m'.blockRec s.block).ops = (s.module.blockRec s.block).ops →
      ∀ o ∈ (m'.blockRec s.block).ops, ρ.InBounds m' (m'.opRec o) := by
    intro m' hg hops o ho
    rw [hops] at ho
    exact inBounds_grows h.draft.wf hg ((h.draft.wf.block_ops _ hlt o).mp ho).1 (hin o ho)
  cases hs with
  | param _ _ ha => exact hkeep ha.extends_.grows (by rw [ha.blockRec hlt]; rfl)
  | memParam _ ha => exact hkeep ha.extends_.grows (by rw [ha.blockRec hlt]; rfl)
  | op hb hop _ ha => exact hin.add h hb ha (inBounds_of_not_memoryOp hop)
  | same hc _ => exact hkeep (grows_sameCore hc) (by rw [hc.blockRec])

theorem QuietSteps.inBounds (h : LiftInv s) (hs : QuietSteps n s s') (hin : s.InBounds ρ) :
    s'.InBounds ρ := by
  induction hs with
  | refl n s => exact hin
  | step hss hq ih => exact hq.inBounds (hss.lift.inv h) (ih h hin)

end InBounds

/-! ### Values of the lift -/

/-- The value `v` stands for the register-wide word `x` of the machine state. -/
structure IsInt (s : LiftState) (v : Nat) (x : X86Machine arch → BitVec arch.bits) : Prop where
  value : s.HasValue v (typeI arch.bits)
  meaning : ∀ F ρ M₀ M, Completes F ρ M₀ s → Agrees ρ M₀ s M → ρ.value v = arch.int (x M)

/-- The value `v` stands for the address `x` of the machine state. -/
structure IsAddr (s : LiftState) (v : Nat) (x : X86Machine arch → BitVec arch.bits) : Prop where
  value : s.HasValue v (typeAddr arch.bits)
  meaning : ∀ F ρ M₀ M, Completes F ρ M₀ s → Agrees ρ M₀ s M → ρ.value v = arch.addr (x M)

/-- The value `v` is a flags word whose `ZF` is the condition `c`. -/
structure IsFlags (s : LiftState) (v : Nat) (c : X86Machine arch → Bool) : Prop where
  value : s.HasValue v (typeFlags 6)
  meaning : ∀ F ρ M₀ M, Completes F ρ M₀ s → Agrees ρ M₀ s M →
    ((ρ.value v).lo &&& execFlagZf != 0#64) = c M

/-- The value `v` stands for the condition `c` of the machine state. -/
structure IsBool (s : LiftState) (v : Nat) (c : X86Machine arch → Bool) : Prop where
  value : s.HasValue v (typeI 1)
  meaning : ∀ F ρ M₀ M, Completes F ρ M₀ s → Agrees ρ M₀ s M → ρ.value v = boolValue (c M)

section Persist

variable {s s' : LiftState} {n v : Nat} (h : LiftInv s) (hs : QuietSteps n s s')
include h hs

theorem IsInt.quiet {x : X86Machine arch → BitVec arch.bits} (hv : IsInt s v x) : IsInt s' v x :=
  ⟨(hs.lift.frame h.draft).hasValue hv.value h.draft, fun F ρ M₀ M hc ha =>
    hv.meaning F ρ M₀ M (hc.back h hs.lift) ((hs.agrees h hc).mp ha)⟩

theorem IsAddr.quiet {x : X86Machine arch → BitVec arch.bits} (hv : IsAddr s v x) : IsAddr s' v x :=
  ⟨(hs.lift.frame h.draft).hasValue hv.value h.draft, fun F ρ M₀ M hc ha =>
    hv.meaning F ρ M₀ M (hc.back h hs.lift) ((hs.agrees h hc).mp ha)⟩

theorem IsFlags.quiet {c : X86Machine arch → Bool} (hv : IsFlags s v c) : IsFlags s' v c :=
  ⟨(hs.lift.frame h.draft).hasValue hv.value h.draft, fun F ρ M₀ M hc ha =>
    hv.meaning F ρ M₀ M (hc.back h hs.lift) ((hs.agrees h hc).mp ha)⟩

theorem IsBool.quiet {c : X86Machine arch → Bool} (hv : IsBool s v c) : IsBool s' v c :=
  ⟨(hs.lift.frame h.draft).hasValue hv.value h.draft, fun F ρ M₀ M hc ha =>
    hv.meaning F ρ M₀ M (hc.back h hs.lift) ((hs.agrees h hc).mp ha)⟩

end Persist

end Xair
