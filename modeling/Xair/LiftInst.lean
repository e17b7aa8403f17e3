import Xair.LiftValues

/-!
# Lifting one instruction

`Simulates s s' f` says that going from the lift state `s` to `s'` is what `f` does to
the machine.  Every instruction that does not end a block is lifted to what it means,
with at most eleven values.
-/

namespace Xair

open Effect (Ensures)

variable {arch : Arch} {s s' s₁ : LiftState} {n k : Nat}

/-- From `s` to `s'` the lift does what `f` does to the machine, and where the machine can
do it, so can the loads and stores that are built. -/
def Simulates (s s' : LiftState) (f : X86Machine arch → Option (X86Machine arch)) : Prop :=
  ∀ F ρ (M₀ M M' : X86Machine arch), Completes F ρ M₀ s' → Agrees ρ M₀ s M → f M = some M' →
    Agrees ρ M₀ s' M' ∧ (s.InBounds ρ → s'.InBounds ρ)

theorem Simulates.quiet (h : LiftInv s) (hq : QuietSteps n s s₁) (hs : LiftSteps k s₁ s')
    {f : X86Machine arch → Option (X86Machine arch)} (hf : Simulates s₁ s' f) :
    Simulates s s' f := by
  intro F ρ M₀ M M' hc ha hM
  have hc₁ := hc.back (hq.lift.inv h) hs
  obtain ⟨ha', hin⟩ := hf F ρ M₀ M M' hc ((hq.agrees h hc₁).mpr ha) hM
  exact ⟨ha', fun h₀ => hin (hq.inBounds h h₀)⟩

/-- What the lift notes of an instruction. -/
structure Notes (inst : X86DecodedInst) (s s' : LiftState) : Prop where
  written : ∀ r, s'.writtenRegs r = (s.writtenRegs r || inst.writes r)
  memory : s'.memory.isSome = (s.memory.isSome || inst.touchesMemory)
  zf : s'.zf.isSome = (s.zf.isSome || inst.mnemonic.isAlu)

theorem QuietSteps.notes (hq : QuietSteps n s s') :
    s'.writtenRegs = s.writtenRegs ∧ s'.zf = s.zf := by
  induction hq with
  | refl n s => exact ⟨rfl, rfl⟩
  | step _ hs ih => cases hs <;> exact ih

/-! ### Writing registers and the flag -/

/-- The state after a register is written. -/
def LiftState.withReg (s : LiftState) (reg : X86Reg) (v : Nat) : LiftState :=
  { s with
    regs := fun r => if r = reg then some v else s.regs r
    writtenRegs := fun r => if r = reg then true else s.writtenRegs r }

/-- The state after the flag is set. -/
def LiftState.withZf (s : LiftState) (v : Nat) : LiftState := { s with zf := some v }

section Notes

variable {reg : X86Reg} {v zf : Nat} {x : X86Machine arch → BitVec arch.bits}
  {c : X86Machine arch → Bool}

theorem Lifting.withReg (h : Lifting arch s) (hs : x86RegSupported arch reg = true)
    (hv : s.HasValue v (typeI arch.bits)) : NoteStep s (s.withReg reg v) := by
  rw [← h.arch_eq] at hs
  refine .writeReg hs ?_
  rw [h.regType]
  exact hv

theorem Lifting.withZf (hv : s.HasValue zf (typeI 1)) : NoteStep s (s.withZf zf) := .setZf hv

/-- `x86_write_reg`. -/
theorem x86WriteReg_lifts (h : Lifting arch s) (hs : x86RegSupported arch reg = true)
    (hv : s.HasValue v (typeI arch.bits)) :
    Lifts 0 (x86WriteReg reg v) s fun _ s' => s' = s.withReg reg v :=
  ⟨.note (.refl 0 s) (h.withReg hs hv), rfl⟩

theorem simulates_withReg (h : Lifting arch s) (hs : x86RegSupported arch reg = true)
    (hv : IsInt s v x) : Simulates s (s.withReg reg v) fun M => some (M.setReg reg (x M)) := by
  intro F ρ M₀ M M' hc ha hM
  cases hM
  have hc' := hc.back_step h.inv (.note (h.withReg hs hv.value))
  exact ⟨ha.writeReg (hv.meaning F ρ M₀ M hc' ha), id⟩

theorem simulates_withZf (h : Lifting arch s) (hz : IsBool s zf c) :
    Simulates s (s.withZf zf) fun M => some { M with zf := c M } := by
  intro F ρ M₀ M M' hc ha hM
  cases hM
  have hc' := hc.back_step h.inv (.note (Lifting.withZf hz.value))
  exact ⟨ha.setZf (hz.meaning F ρ M₀ M hc' ha), id⟩

/-- Setting the flag and writing a register, both with values at hand. -/
theorem simulates_withZf_withReg (h : Lifting arch s) (hs : x86RegSupported arch reg = true)
    (hz : IsBool s zf c) (hv : IsInt s v x) :
    Simulates s ((s.withZf zf).withReg reg v) fun M =>
      some (({ M with zf := c M } : X86Machine arch).setReg reg (x M)) := by
  intro F ρ M₀ M M' hc ha hM
  cases hM
  have hstep := Lifting.withZf hz.value
  have hz' := h.lift (.note (.refl 0 s) hstep)
  have hc₁ := hc.back_step hz'.inv (.note (hz'.withReg hs hv.value))
  have hc' := hc₁.back_step h.inv (.note hstep)
  exact ⟨(ha.setZf (hz.meaning F ρ M₀ M hc' ha)).writeReg (hv.meaning F ρ M₀ M hc' ha), id⟩

/-- `x86_set_zf_from_flags`. -/
theorem x86SetZfFromFlags_lifts (h : Lifting arch s) (hf : IsFlags s v c) :
    Lifts 1 (x86SetZfFromFlags v) s fun _ s' =>
      ∃ s₁ zf, Quiet 1 s s₁ ∧ IsBool s₁ zf c ∧ s' = s₁.withZf zf := by
  refine (flagZf_quietly h hf _).bindLifts (k := 0) fun zf s₁ hq hz => ?_
  exact ⟨.note (.refl 0 s₁) (Lifting.withZf hz.value), s₁, zf, hq, hz, rfl⟩

/-- `x86_set_zf_from_value`. -/
theorem x86SetZfFromValue_lifts (h : Lifting arch s) (hv : IsInt s v x) :
    Lifts 2 (x86SetZfFromValue v) s fun _ s' =>
      ∃ s₁ zf, Quiet 2 s s₁ ∧ IsBool s₁ zf (fun M => x M == 0) ∧ s' = s₁.withZf zf := by
  refine (flagsLogic_quietly h hv _).bindLifts (k := 1) fun flags s₁ hq hf => ?_
  refine (x86SetZfFromFlags_lifts (h.quiet hq) hf).weaken fun _ s' _ ⟨s₂, zf, hq', hz, heq⟩ => ?_
  exact ⟨s₂, zf, hq.trans hq', hz, heq⟩

end Notes

/-! ### Loads and stores -/

section Memory

variable {mem a d : Nat} {x y : X86Machine arch → BitVec arch.bits}

theorem Lifting.memory (h : Lifting arch s) (hm : s.memory = some mem) :
    s.HasValue mem (typeMem s.memorySpace arch.bits) := by
  have hv := h.inv.memory mem hm
  rw [LiftState.memoryType, h.arch_eq] at hv
  exact hv

theorem Arch.eight_bytes (arch : Arch) : 8 * arch.bytes = arch.bits := by
  cases arch <;> rfl

/-- An access that the machine can make does not pass the last address of the executor. -/
theorem not_wraps_of_machine {a : BitVec arch.bits} (h : ¬ X86Machine.Wraps a) :
    ¬ FlatMemory.Wraps (arch.addr a).lo arch.bytes := by
  have hpow : 2 ^ arch.bits ≤ 2 ^ 64 := Nat.pow_le_pow_right (by decide) arch.bits_le
  have hlo : (arch.addr a).lo.toNat = a.toNat := toNat_setWidth_64 arch.bits_le a
  unfold X86Machine.Wraps at h
  rw [FlatMemory.Wraps, hlo]
  omega

theorem loadU64_of_machine {M : X86Machine arch} {a w : BitVec arch.bits} {f : ByteMap}
    (hf : f = M.memory) (hw : M.load a = some w) :
    ¬ X86Machine.Wraps a ∧ ∃ word, f.loadU64 (arch.addr a).lo arch.bytes .le = some word ∧
      execValueMake (typeI arch.bits) word 0#64 = arch.int w := by
  subst hf
  unfold X86Machine.load at hw
  split at hw
  · cases hw
  · next hwrap =>
    refine ⟨hwrap, ?_⟩
    have haddr : (arch.addr a).lo = a.setWidth 64 := rfl
    rw [ByteMap.loadU64, haddr]
    cases hread : M.memory.read (a.setWidth 64) arch.bytes with
    | none =>
      rw [hread] at hw
      cases hw
    | some bytes =>
      rw [hread] at hw
      cases hw
      have hlen : bytes.length = arch.bytes := ByteMap.length_read hread
      refine ⟨_, rfl, ?_⟩
      dsimp only
      rw [decodeU64_le hlen, execValueMake_word (.inl rfl) rfl arch.bits_le, Arch.int,
        ← BitVec.setWidth_ofNat_of_le arch.bits_le]
      rfl

/-- What a load leaves of the rest. -/
structure Loaded (arch : Arch) (s s' : LiftState) : Prop where
  steps : LiftSteps 1 s s'
  memory : s'.memory = s.memory
  written : s'.writtenRegs = s.writtenRegs
  zf : s'.zf = s.zf
  agrees : ∀ ρ (M₀ M : X86Machine arch), Agrees ρ M₀ s' M ↔ Agrees ρ M₀ s M

theorem IsInt.loaded {v : Nat} (h : LiftInv s) (hl : Loaded arch s s') (hv : IsInt s v x) :
    IsInt s' v x :=
  ⟨(hl.steps.frame h.draft).hasValue hv.value h.draft, fun F ρ M₀ M hc ha =>
    hv.meaning F ρ M₀ M (hc.back h hl.steps) ((hl.agrees ρ M₀ M).mp ha)⟩

/-- A load of a register-wide word: where the machine can load, the load is in bounds and
the value stands for what the machine loads. -/
theorem load_lifts (h : Lifting arch s) {t : Ty} (ht : t = typeI arch.bits)
    (hm : s.memory = some mem) (ha : IsAddr s a x) (name : Name) :
    Lifts 1 (x86BuildLoad t mem a name) s fun v s' => s'.HasValue v (typeI arch.bits) ∧
      Loaded arch s s' ∧ ∀ F ρ (M₀ M : X86Machine arch) w, Completes F ρ M₀ s' →
        Agrees ρ M₀ s M → M.load (x M) = some w →
          ρ.value v = arch.int w ∧ (s.InBounds ρ → s'.InBounds ρ) := by
  subst ht
  have hmem := h.memory hm
  let k : OpKey := ⟨s.block, .load, typeI arch.bits, [mem, a], 0#64, .le⟩
  have hcall : buildLoad s.module s.block (typeI arch.bits) mem a .le (some name) =
      addOp s.module k (some name) := by
    unfold buildLoad
    rw [if_neg (by simp [Module.validValue, hmem.usable.lt, ha.value.usable.lt])]
  have htyped : typeRule .load (typeI arch.bits) ([mem, a].map s.module.valueType) = true := by
    have hval := arch.intType
    simp only [List.map_cons, List.map_nil, hmem.type, ha.value.type, typeRule, hval]
    simp [typeMem, typeAddr, typeI, Ty.isMem, Ty.isAddr]
  have hsrc : ∀ src ∈ [mem, a], s.module.Usable s.block src := by
    simp only [List.mem_cons, List.not_mem_nil, or_false, forall_eq_or_imp, forall_eq]
    exact ⟨hmem.usable, ha.value.usable⟩
  have hlen : k.srcs.length ≤ 3 := Nat.le_succ 2
  let call : Module → Module × Except Status Nat := fun m =>
    buildLoad m s.block (typeI arch.bits) mem a .le (some name)
  have hget : x86BuildLoad (typeI arch.bits) mem a name s = build call s := rfl
  rcases build_addOp h.inv call hcall rfl arch.intType hsrc htyped hlen with
    ⟨v, m', he, hadd⟩ | ⟨s', he, hf⟩
  swap
  · exact Effect.ensures_of_error (hget.trans he) hf
  have hstep : LoadStep s { s with module := m' } :=
    .load (k := k) rfl rfl hm (keyRuns_load arch) hadd
  have hsteps : LiftSteps 1 s { s with module := m' } := .build (.refl 0 s) (.load hstep)
  have h' := (h.lift hsteps).inv
  have hv : LiftState.HasValue { s with module := m' } v (typeI arch.bits) :=
    hasValue_of_computes h' hadd.computes rfl
  have hload : ∀ F ρ (M₀ M : X86Machine arch) w, Completes F ρ M₀ { s with module := m' } →
      Agrees ρ M₀ s M → M.load (x M) = some w → ρ.value v = arch.int w ∧
        (s.InBounds ρ → ({ s with module := m' } : LiftState).InBounds ρ) := by
    intro F ρ M₀ M w hF hM hw
    have hF₀ := hF.back_step h.inv (.load hstep)
    have haddr := ha.meaning F ρ M₀ M hF₀ hM
    obtain ⟨hwrap, word, hword, hval⟩ := loadU64_of_machine (hM.memory mem hm) hw
    have hsize := execByteSizedScalar_word arch (.inl rfl)
    refine ⟨?_, fun hin => hin.add h.inv rfl hadd ?_⟩
    · have htype := hF.type h' hadd.computes
      have hfit := hF.fits h' hadd.computes (by simp [k]) rfl
      have hfit := hfit arch.bytes word (by rw [htype]; exact hsize)
      rw [htype] at hfit
      rw [← hval]
      refine hfit ?_
      show (ρ.memory mem).loadU64 (ρ.value a).lo arch.bytes .le = some word
      rw [haddr]
      exact hword
    · refine ⟨arch.bytes, word, ?_, ?_, ?_⟩
      · dsimp only
        rw [hadd.type]
        exact hsize
      · show ¬ FlatMemory.Wraps (ρ.value a).lo arch.bytes
        rw [haddr]
        exact not_wraps_of_machine hwrap
      · show (ρ.memory mem).loadU64 (ρ.value a).lo arch.bytes .le = some word
        rw [haddr]
        exact hword
  exact Effect.ensures_of_ok (hget.trans he)
    ⟨hsteps, hv, ⟨hsteps, rfl, rfl, rfl, fun ρ M₀ M => hstep.agrees⟩, hload⟩

theorem store_lifts (h : Lifting arch s) (hm : s.memory = some mem) (ha : IsAddr s a x)
    (hd : IsInt s d y) (name : Name) :
    Lifts 1 (x86BuildStore mem a d name >>= x86WriteMemory) s fun _ s' =>
      Simulates s s' (fun M => M.store (x M) (y M)) ∧ s'.writtenRegs = s.writtenRegs ∧
        s'.memory.isSome = true ∧ s'.zf = s.zf := by
  have hmem := h.memory hm
  have hkt : s.module.valueType mem = s.memoryType := (h.inv.memory mem hm).type
  let k : OpKey := ⟨s.block, .store, s.module.valueType mem, [mem, a, d], 0#64, .le⟩
  have hcall : buildStore s.module s.block mem a d .le (some name) =
      addOp s.module k (some name) := by
    unfold buildStore
    rw [if_neg (by simp [Module.validValue, hmem.usable.lt, ha.value.usable.lt, hd.value.usable.lt])]
  have htyped : typeRule .store (s.module.valueType mem) ([mem, a, d].map s.module.valueType) =
      true := by
    have hval := arch.intType
    simp only [List.map_cons, List.map_nil, hmem.type, ha.value.type, hd.value.type, typeRule, hval]
    simp [typeMem, typeAddr, typeI, Ty.isMem, Ty.isAddr]
  have hvt : (s.module.valueType mem).isValueType = true := by
    rw [hmem.type]
    cases arch <;> simp [typeMem, Ty.isValueType, Ty.isValid, validAddrBits, Arch.bits]
  have hsrc : ∀ src ∈ [mem, a, d], s.module.Usable s.block src := by
    simp only [List.mem_cons, List.not_mem_nil, or_false, forall_eq_or_imp, forall_eq]
    exact ⟨hmem.usable, ha.value.usable, hd.value.usable⟩
  have hlen : k.srcs.length ≤ 3 := Nat.le_refl 3
  let call : Module → Module × Except Status Nat := fun m =>
    buildStore m s.block mem a d .le (some name)
  have hget : x86BuildStore mem a d name s = build call s := rfl
  rcases build_addOp h.inv call hcall rfl hvt hsrc htyped hlen with
    ⟨v, m', he, hadd⟩ | ⟨s', he, hf⟩
  swap
  · exact Effect.ensures_bind_of_error (hget.trans he) hf
  have hstep : StoreStep s { s with
      module := m', memory := some v, result := { s.result with memoryOut := some v } } :=
    .store (k := k) rfl rfl hkt hm (keyRuns_store arch hd.value.type) hadd
  refine Effect.ensures_bind_of_ok (hget.trans he)
    ⟨.build (.refl 0 s) (.store hstep), ?_, rfl, rfl, rfl⟩
  intro F ρ M₀ M M' hF hM hM'
  have hinv' := LiftStep.inv h.inv (.store hstep)
  have hF₀ := hF.back_step h.inv (.store hstep)
  have haddr := ha.meaning F ρ M₀ M hF₀ hM
  have hdata := hd.meaning F ρ M₀ M hF₀ hM
  have hsize : execByteSizedScalar (ρ.value d).type = some arch.bytes := by
    rw [hdata]
    exact execByteSizedScalar_word arch (.inl rfl)
  have hmap : ρ.memory v = (ρ.memory mem).storeU64 (ρ.value a).lo (ρ.value d).lo arch.bytes .le :=
    hF.fits hinv' hadd.computes (by simp [k]) rfl arch.bytes hsize
  dsimp only [X86Machine.store] at hM'
  split at hM'
  · cases hM'
  · next hwrap =>
    cases hM'
    refine ⟨⟨hM.regs, hM.unread, hM.unwritten, fun u hu => ?_, (fun hn => by cases hn), hM.zf⟩,
      fun hin => ?_⟩
    · cases hu
      rw [hmap, hM.memory mem hm, haddr, hdata, ByteMap.storeU64]
      change M.memory.write ((x M).setWidth 64) (encodeU64 ((y M).setWidth 64) arch.bytes .le) = _
      rw [encodeU64_le arch.bits_le (Nat.le_of_eq arch.eight_bytes)]
    · have hstay : ρ.InBounds m' ⟨k.opcode, v, k.srcs, k.endian, k.imm⟩ := by
        refine ⟨arch.bytes, hsize, ?_⟩
        show ¬ FlatMemory.Wraps (ρ.value a).lo arch.bytes
        rw [haddr]
        exact not_wraps_of_machine hwrap
      exact hin.add h.inv rfl hadd hstay

end Memory

/-! ### Instructions -/

/-- What lifting an instruction achieves. -/
structure InstLifted (arch : Arch) (inst : X86DecodedInst) (next : Word) (s s' : LiftState) :
    Prop where
  simulates : Simulates s s' fun M : X86Machine arch => M.stepThenRsp inst next
  notes : Notes inst s s'

section Instructions

variable {inst : X86DecodedInst} {next : Word} {w j : Nat}

/-- An instruction that only writes a register with a value at hand. -/
theorem instLifted_withReg (h : Lifting arch s) (hq : Quiet n s s₁) {dst : X86Reg} {v : Nat}
    {x : X86Machine arch → BitVec arch.bits} (hs : x86RegSupported arch dst = true)
    (hv : IsInt s₁ v x) (hstep : ∀ M : X86Machine arch, M.stepThenRsp inst next = some (M.setReg dst (x M)))
    (hw : ∀ r, inst.writes r = (r == dst)) (hm : inst.touchesMemory = false)
    (hz : inst.mnemonic.isAlu = false) : InstLifted arch inst next s (s₁.withReg dst v) := by
  have h₁ := h.quiet hq
  obtain ⟨hwr, hzf⟩ := hq.steps.notes
  refine ⟨?_, ?_, ?_, ?_⟩
  · simp only [hstep]
    exact (simulates_withReg h₁ hs hv).quiet h.inv hq.steps
      (.note (.refl 0 s₁) (h₁.withReg hs hv.value))
  · intro r
    rw [hw]
    show (if r = dst then true else s₁.writtenRegs r) = _
    rw [hwr]
    by_cases hr : r = dst <;> simp [hr]
  · rw [hm, Bool.or_false]
    show s₁.memory.isSome = _
    rw [hq.memory]
  · rw [hz, Bool.or_false]
    show s₁.zf.isSome = _
    rw [hzf]

theorem x86LiftMov_imm (h : Lifting arch s) {dst : X86Reg} {imm : Word} (hm : inst.mnemonic = .mov)
    (hops : inst.operands = [.register w dst, .immediate j imm])
    (hs : x86RegSupported arch dst = true) :
    Lifts 1 (x86LiftMovDecoded inst next) s fun _ s' => InstLifted arch inst next s s' := by
  unfold x86LiftMovDecoded X86DecodedInst.operand
  rw [hops]
  refine Lifts.get ((constInt_quietly h h.regType imm _).bindLifts (k := 0) fun v s₁ hq hv => ?_)
  refine (x86WriteReg_lifts (h.quiet hq) hs hv.value).weaken fun _ s' _ heq => ?_
  rw [heq]
  exact instLifted_withReg h hq hs hv (fun M => by simp only [X86Machine.stepThenRsp, X86Machine.step, hm, hops])
    (fun r => by simp only [X86DecodedInst.writes, hm, hops])
    (by simp only [X86DecodedInst.touchesMemory, hm, hops]) (by rw [hm]; rfl)

theorem x86LiftMov_reg (h : Lifting arch s) {dst src : X86Reg} (hm : inst.mnemonic = .mov)
    (hops : inst.operands = [.register w dst, .register j src])
    (hd : x86RegSupported arch dst = true) (hs : x86RegSupported arch src = true) :
    Lifts 1 (x86LiftMovDecoded inst next) s fun _ s' => InstLifted arch inst next s s' := by
  unfold x86LiftMovDecoded X86DecodedInst.operand
  rw [hops]
  refine (x86EnsureReg_quietly h hs).bindLifts (k := 0) fun v s₁ hq hv => ?_
  refine (x86WriteReg_lifts (h.quiet hq) hd hv.value).weaken fun _ s' _ heq => ?_
  rw [heq]
  exact instLifted_withReg h hq hd hv (fun M => by simp only [X86Machine.stepThenRsp, X86Machine.step, hm, hops])
    (fun r => by simp only [X86DecodedInst.writes, hm, hops])
    (by simp only [X86DecodedInst.touchesMemory, hm, hops]) (by rw [hm]; rfl)

theorem x86LiftLea (h : Lifting arch s) {dst : X86Reg} {mem : X86MemoryOperand}
    (hm : inst.mnemonic = .lea) (hops : inst.operands = [.register w dst, .memory j mem])
    (hd : x86RegSupported arch dst = true) (hs : mem.Supported arch) :
    Lifts 9 (x86LiftLeaDecoded inst next) s fun _ s' => InstLifted arch inst next s s' := by
  unfold x86LiftLeaDecoded X86DecodedInst.operand
  rw [hops]
  refine (x86BuildMemoryAddress_quietly h hs next).bindLifts (k := 1) fun a s₁ hq ha => ?_
  refine (x86AddrToInt_quietly (h.quiet hq) ha).bindLifts (k := 0) fun v s₂ hq' hv => ?_
  have hq₂ := hq.trans hq'
  refine (x86WriteReg_lifts (h.quiet hq₂) hd hv.value).weaken fun _ s' _ heq => ?_
  rw [heq]
  exact instLifted_withReg h hq₂ hd hv (fun M => by simp only [X86Machine.stepThenRsp, X86Machine.step, hm, hops])
    (fun r => by simp only [X86DecodedInst.writes, hm, hops])
    (by simp only [X86DecodedInst.touchesMemory, hm, hops]) (by rw [hm]; rfl)

/-! ### Arithmetic and logic -/

section Alu

variable {dst : X86Reg} {l r v zf : Nat} {x y : X86Machine arch → BitVec arch.bits}
  {c : X86Machine arch → Bool}

/-- The flag and the result of an arithmetic or logical instruction are at hand. -/
structure AluReady (n : Nat) (s s₁ : LiftState) (zf v : Nat)
    (x : X86Machine arch → BitVec arch.bits) : Prop where
  quiet : Quiet n s s₁
  zf : IsBool s₁ zf fun M => x M == 0
  value : IsInt s₁ v x

/-- `x86_lift_add_sub_values`. -/
theorem x86LiftAddSubValues_lifts (h : Lifting arch s) {op flagsOp : Opcode}
    (hop : (op = .add ∧ flagsOp = .flagsAdd) ∨ (op = .sub ∧ flagsOp = .flagsSub))
    (hd : x86RegSupported arch dst = true) (hl : IsInt s l x) (hr : IsInt s r y) :
    Lifts 3 (x86LiftAddSubValues op flagsOp dst l r) s fun _ s' =>
      ∃ s₁ zf v, AluReady 3 s s₁ zf v (fun M => wordOp op (x M) (y M)) ∧
        s' = (s₁.withZf zf).withReg dst v := by
  have hword : op.isWordOp = true ∧ op ≠ .addrAdd := by
    rcases hop with ⟨rfl, -⟩ | ⟨rfl, -⟩ <;> decide
  have hflags : flagsOp = .flagsAdd ∨ flagsOp = .flagsSub := hop.imp And.right And.right
  have hres : ∀ a b : BitVec arch.bits, (if flagsOp = .flagsAdd then a + b else a - b) =
      wordOp op a b := by
    rcases hop with ⟨rfl, rfl⟩ | ⟨rfl, rfl⟩ <;> intro a b <;> rfl
  refine Lifts.get ((word_quietly h h.regType hword.1 hword.2 hl hr _).bindLifts (k := 2)
    fun v s₁ hq hv => ?_)
  have h₁ := h.quiet hq
  refine (flags_quietly h₁ hflags (hl.quiet h.inv hq.steps) (hr.quiet h.inv hq.steps) _).bindLifts
    (k := 1) fun flags s₂ hq₂ hf => ?_
  have h₂ := h₁.quiet hq₂
  refine (x86SetZfFromFlags_lifts h₂ hf).bind (k := 0) fun _ s₃ _ ⟨s₄, zf, hq₃, hz, heq⟩ => ?_
  subst heq
  have h₄ := h₂.quiet hq₃
  have hv₄ := (hv.quiet h₁.inv hq₂.steps).quiet h₂.inv hq₃.steps
  have hnote := Lifting.withZf hz.value
  have h₅ := h₄.lift (.note (.refl 0 s₄) hnote)
  refine (x86WriteReg_lifts h₅ hd hv₄.value).weaken fun _ s' _ heq => ?_
  refine ⟨s₄, zf, v, ⟨(hq.trans hq₂).trans hq₃, ?_, hv₄⟩, heq⟩
  simp only [hres] at hz
  exact hz

/-- `x86_lift_logic_values`. -/
theorem x86LiftLogicValues_lifts (h : Lifting arch s) (op : Opcode)
    (hop : op.isWordOp = true ∧ op ≠ .addrAdd) (hd : x86RegSupported arch dst = true)
    (hl : IsInt s l x) (hr : IsInt s r y) :
    Lifts 3 (x86LiftLogicValues op dst l r) s fun _ s' =>
      ∃ s₁ zf v, AluReady 3 s s₁ zf v (fun M => wordOp op (x M) (y M)) ∧
        s' = (s₁.withZf zf).withReg dst v := by
  refine Lifts.get ((word_quietly h h.regType hop.1 hop.2 hl hr _).bindLifts (k := 2)
    fun v s₁ hq hv => ?_)
  have h₁ := h.quiet hq
  refine (x86SetZfFromValue_lifts h₁ hv).bind (k := 0) fun _ s₃ _ ⟨s₄, zf, hq₃, hz, heq⟩ => ?_
  subst heq
  have h₄ := h₁.quiet hq₃
  have hv₄ := hv.quiet h₁.inv hq₃.steps
  have h₅ := h₄.lift (.note (.refl 0 s₄) (Lifting.withZf hz.value))
  refine (x86WriteReg_lifts h₅ hd hv₄.value).weaken fun _ s' _ heq => ?_
  exact ⟨s₄, zf, v, ⟨hq.trans hq₃, hz, hv₄⟩, heq⟩

/-- `x86_lift_cmp_values`. -/
theorem x86LiftCmpValues_lifts (h : Lifting arch s) (hl : IsInt s l x) (hr : IsInt s r y) :
    Lifts 3 (x86LiftCmpValues l r) s fun _ s' =>
      ∃ s₁ zf, Quiet 3 s s₁ ∧ IsBool s₁ zf (fun M => x M - y M == 0) ∧ s' = s₁.withZf zf := by
  refine (flags_quietly h (.inr rfl) hl hr _).bindLifts (k := 2) fun flags s₁ hq hf => ?_
  refine (x86SetZfFromFlags_lifts (h.quiet hq) hf).mono (by omega) |>.weaken
    fun _ s' _ ⟨s₂, zf, hq₂, hz, heq⟩ => ⟨s₂, zf, ?_, hz, heq⟩
  have hq₃ := hq.trans hq₂
  exact ⟨hq₃.steps.mono (by omega), hq₃.memory⟩

/-- `x86_lift_test_values`. -/
theorem x86LiftTestValues_lifts (h : Lifting arch s) (hl : IsInt s l x) (hr : IsInt s r y) :
    Lifts 3 (x86LiftTestValues l r) s fun _ s' =>
      ∃ s₁ zf, Quiet 3 s s₁ ∧ IsBool s₁ zf (fun M => x M &&& y M == 0) ∧ s' = s₁.withZf zf := by
  refine Lifts.get ((word_quietly h h.regType rfl (by decide) hl hr _).bindLifts (k := 2)
    fun v s₁ hq hv => ?_)
  refine (x86SetZfFromValue_lifts (h.quiet hq) hv).weaken
    fun _ s' _ ⟨s₂, zf, hq₂, hz, heq⟩ => ⟨s₂, zf, hq.trans hq₂, hz, heq⟩

theorem instLifted_result (h : Lifting arch s) (hq : Quiet n s s₁) (ha : AluReady k s₁ s' zf v x)
    (hd : x86RegSupported arch dst = true)
    (hstep : ∀ M : X86Machine arch, M.stepThenRsp inst next =
      some (({ M with zf := x M == 0 } : X86Machine arch).setReg dst (x M)))
    (hw : ∀ r, inst.writes r = (r == dst)) (hm : inst.touchesMemory = false)
    (hz : inst.mnemonic.isAlu = true) :
    InstLifted arch inst next s ((s'.withZf zf).withReg dst v) := by
  have hq' := hq.trans ha.quiet
  have h₁ := h.quiet hq'
  obtain ⟨hwr, -⟩ := hq'.steps.notes
  have hnote := Lifting.withZf ha.zf.value
  have h₂ := h₁.lift (.note (.refl 0 s') hnote)
  have hsteps : LiftSteps 0 s' ((s'.withZf zf).withReg dst v) :=
    .note (.note (.refl 0 s') hnote) (h₂.withReg hd ha.value.value)
  refine ⟨?_, ?_, ?_, ?_⟩
  · simp only [hstep]
    exact (simulates_withZf_withReg h₁ hd ha.zf ha.value).quiet h.inv hq'.steps hsteps
  · intro r
    rw [hw]
    show (if r = dst then true else s'.writtenRegs r) = _
    rw [hwr]
    by_cases hr : r = dst <;> simp [hr]
  · rw [hm, Bool.or_false]
    show s'.memory.isSome = _
    rw [hq'.memory]
  · rw [hz, Bool.or_true]
    rfl

theorem instLifted_flag (h : Lifting arch s) (hq : Quiet n s s₁) (hz : IsBool s₁ zf c)
    (hstep : ∀ M : X86Machine arch, M.stepThenRsp inst next = some { M with zf := c M })
    (hw : ∀ r, inst.writes r = false) (hm : inst.touchesMemory = false)
    (halu : inst.mnemonic.isAlu = true) : InstLifted arch inst next s (s₁.withZf zf) := by
  have h₁ := h.quiet hq
  obtain ⟨hwr, -⟩ := hq.steps.notes
  refine ⟨?_, ?_, ?_, ?_⟩
  · simp only [hstep]
    exact (simulates_withZf h₁ hz).quiet h.inv hq.steps
      (.note (.refl 0 s₁) (Lifting.withZf hz.value))
  · intro r
    rw [hw, Bool.or_false]
    show s₁.writtenRegs r = _
    rw [hwr]
  · rw [hm, Bool.or_false]
    show s₁.memory.isSome = _
    rw [hq.memory]
  · rw [halu, Bool.or_true]
    rfl

theorem x86OperandValue_reg (h : Lifting arch s) {src : X86Reg}
    (hs : x86RegSupported arch src = true) :
    Quietly 1 (x86OperandValue (some (.register j src))) s fun v s' =>
      IsInt s' v fun M : X86Machine arch => M.regs src := x86EnsureReg_quietly h hs

theorem x86OperandValue_imm (h : Lifting arch s) (imm : Word) :
    Quietly 1 (x86OperandValue (some (.immediate j imm))) s fun v s' =>
      IsInt s' v fun _ : X86Machine arch => imm.setWidth arch.bits := x86ConstInt_quietly h imm _

/-- `x86_lift_alu_decoded`, for a right operand that is a register or an immediate. -/
theorem x86LiftAlu_lifts (h : Lifting arch s) {op : X86Operand}
    (hops : inst.operands = [.register w dst, op]) (halu : inst.mnemonic.isAlu = true)
    (hd : x86RegSupported arch dst = true)
    (hop : ∀ s : LiftState, Lifting arch s → Quietly 1 (x86OperandValue (some op)) s fun v s' =>
      IsInt s' v y)
    (hstep : ∀ M : X86Machine arch, M.stepThenRsp inst next = M.alu inst.mnemonic dst (y M)) :
    Lifts 5 (x86LiftAluDecoded inst) s fun _ s' => InstLifted arch inst next s s' := by
  unfold x86LiftAluDecoded X86DecodedInst.operand
  rw [hops]
  refine (x86EnsureReg_quietly h hd).bindLifts (k := 4) fun l s₁ hq₁ hl => ?_
  have h₁ := h.quiet hq₁
  refine (hop s₁ h₁).bindLifts (k := 3) fun r s₂ hq₂ hr => ?_
  have h₂ := h₁.quiet hq₂
  have hq := hq₁.trans hq₂
  have hl₂ := hl.quiet h₁.inv hq₂.steps
  have hw : ∀ b, X86Machine.writesResult inst.mnemonic = b →
      ∀ r, inst.writes r = (b && r == dst) := by
    intro b hb r
    rw [← hb]
    cases hmn : inst.mnemonic <;> simp [hmn, X86Mnemonic.isAlu] at halu <;>
      simp [X86DecodedInst.writes, hmn, hops, X86Mnemonic.isAlu]
  have htouch : inst.touchesMemory = false := by
    cases hmn : inst.mnemonic <;> simp [hmn, X86Mnemonic.isAlu] at halu <;>
      simp [X86DecodedInst.touchesMemory, hmn]
  -- the mnemonics that keep their result, then the two that only set the flag
  have hres : ∀ {op : Opcode}, (∀ M : X86Machine arch, X86Machine.aluResult inst.mnemonic
      (M.regs dst) (y M) = some (wordOp op (M.regs dst) (y M))) →
      X86Machine.writesResult inst.mnemonic = true → ∀ s',
      (∃ s₃ zf v, AluReady 3 s₂ s₃ zf v (fun M => wordOp op (M.regs dst) (y M)) ∧
        s' = (s₃.withZf zf).withReg dst v) → InstLifted arch inst next s s' := by
    rintro op hval hwr s' ⟨s₃, zf, v, ha, rfl⟩
    refine instLifted_result h hq ha hd (fun M => ?_) (fun r => by rw [hw true hwr]; rfl) htouch halu
    rw [hstep, X86Machine.alu, hval, Option.map_some, if_pos hwr]
  have hflag : ∀ {c : X86Machine arch → BitVec arch.bits}, (∀ M : X86Machine arch,
      X86Machine.aluResult inst.mnemonic (M.regs dst) (y M) = some (c M)) →
      X86Machine.writesResult inst.mnemonic = false → ∀ s',
      (∃ s₃ zf, Quiet 3 s₂ s₃ ∧ IsBool s₃ zf (fun M => c M == 0) ∧ s' = s₃.withZf zf) →
      InstLifted arch inst next s s' := by
    rintro c hval hwr s' ⟨s₃, zf, hq₃, hz, rfl⟩
    refine instLifted_flag h (hq.trans hq₃) hz (fun M => ?_) (fun r => by rw [hw false hwr]; rfl)
      htouch halu
    rw [hstep, X86Machine.alu, hval, Option.map_some, hwr]
    rfl
  have hlogic := fun op hop => x86LiftLogicValues_lifts h₂ op hop hd hl₂ hr
  cases hmn : inst.mnemonic <;> simp only [hmn, X86Mnemonic.isAlu, Bool.false_eq_true] at halu <;>
    rw [hmn] at hres hflag
  case add =>
    exact (x86LiftAddSubValues_lifts h₂ (.inl ⟨rfl, rfl⟩) hd hl₂ hr).weaken fun _ s' _ hs =>
      hres (fun _ => rfl) rfl s' hs
  case sub =>
    exact (x86LiftAddSubValues_lifts h₂ (.inr ⟨rfl, rfl⟩) hd hl₂ hr).weaken fun _ s' _ hs =>
      hres (fun _ => rfl) rfl s' hs
  case and =>
    exact (hlogic .and (by decide)).weaken fun _ s' _ hs => hres (fun _ => rfl) rfl s' hs
  case or =>
    exact (hlogic .or (by decide)).weaken fun _ s' _ hs => hres (fun _ => rfl) rfl s' hs
  case xor =>
    exact (hlogic .xor (by decide)).weaken fun _ s' _ hs => hres (fun _ => rfl) rfl s' hs
  case cmp =>
    exact (x86LiftCmpValues_lifts h₂ hl₂ hr).weaken fun _ s' _ hs =>
      hflag (fun _ => rfl) rfl s' hs
  case test =>
    exact (x86LiftTestValues_lifts h₂ hl₂ hr).weaken fun _ s' _ hs =>
      hflag (fun _ => rfl) rfl s' hs

end Alu

/-! ### Memory instructions -/

section MemoryInst

/-- `x86_lift_mem_load`. -/
theorem x86LiftMov_load (h : Lifting arch s) {dst : X86Reg} {mem : X86MemoryOperand}
    (hm : inst.mnemonic = .mov) (hops : inst.operands = [.register w dst, .memory j mem])
    (hd : x86RegSupported arch dst = true) (hs : mem.Supported arch) :
    Lifts 10 (x86LiftMovDecoded inst next) s fun _ s' => InstLifted arch inst next s s' := by
  unfold x86LiftMovDecoded X86DecodedInst.operand
  rw [hops]
  refine Lifts.get ((x86EnsureMemory_lifts h).bind (k := 9) fun tok s₁ hs₁ ⟨hq₁, htok⟩ => ?_)
  have h₁ := h.lift hs₁
  refine (x86BuildMemoryAddress_quietly h₁ hs next).bindLifts (k := 1) fun a s₂ hq₂ ha => ?_
  have h₂ := h₁.quiet hq₂
  refine (load_lifts h₂ h.regType (hq₂.memory.trans htok) ha _).bind (k := 0)
    fun v s₃ hs₃ ⟨hv, hl, hload⟩ => ?_
  have h₃ := h₂.lift hs₃
  have hq := hq₁.trans hq₂.steps
  refine (x86WriteReg_lifts h₃ hd hv).weaken fun _ s' _ heq => ?_
  subst heq
  have hnote := h₃.withReg hd hv
  obtain ⟨hwr, hzf⟩ := hq.notes
  refine ⟨Simulates.quiet h.inv hq (.note hs₃ hnote) ?_, ?_, ?_, ?_⟩
  · intro F ρ M₀ M M' hc ha' hM
    have hc₃ := hc.back_step h₃.inv (.note hnote)
    simp only [X86Machine.stepThenRsp, X86Machine.step, hm, hops] at hM
    cases hw : M.load (M.address mem next) with
    | none =>
      rw [hw] at hM
      cases hM
    | some x =>
      rw [hw] at hM
      cases hM
      obtain ⟨hx, hin⟩ := hload F ρ M₀ M x hc₃ ha' hw
      exact ⟨((hl.agrees ρ M₀ M).mpr ha').writeReg hx, hin⟩
  · intro r
    have hw : inst.writes r = (r == dst) := by simp only [X86DecodedInst.writes, hm, hops]
    show (if r = dst then true else s₃.writtenRegs r) = _
    rw [hw, hl.written, hwr]
    by_cases hr : r = dst <;> simp [hr]
  · have htouch : inst.touchesMemory = true := by
      simp only [X86DecodedInst.touchesMemory, hm, hops]
    show s₃.memory.isSome = _
    rw [htouch, Bool.or_true, hl.memory, hq₂.memory, htok]
    rfl
  · have halu : inst.mnemonic.isAlu = false := by rw [hm]; rfl
    show s₃.zf.isSome = _
    rw [halu, Bool.or_false, hl.zf, hzf]

/-- `x86_lift_mem_store`. -/
theorem x86LiftMov_store (h : Lifting arch s) {src : X86Reg} {mem : X86MemoryOperand}
    (hm : inst.mnemonic = .mov) (hops : inst.operands = [.memory w mem, .register j src])
    (hsrc : x86RegSupported arch src = true) (hs : mem.Supported arch) :
    Lifts 11 (x86LiftMovDecoded inst next) s fun _ s' => InstLifted arch inst next s s' := by
  unfold x86LiftMovDecoded X86DecodedInst.operand
  rw [hops]
  refine (x86EnsureReg_quietly h hsrc).bindLifts (k := 10) fun d s₁ hq₁ hd => ?_
  have h₁ := h.quiet hq₁
  refine (x86EnsureMemory_lifts h₁).bind (k := 9) fun tok s₂ hs₂ ⟨hq₂, htok⟩ => ?_
  have h₂ := h₁.lift hs₂
  refine (x86BuildMemoryAddress_quietly h₂ hs next).bindLifts (k := 1) fun a s₃ hq₃ ha => ?_
  have h₃ := h₂.quiet hq₃
  have hq := (hq₁.steps.trans hq₂).trans hq₃.steps
  have hd₃ := (hd.quiet h₁.inv hq₂).quiet h₂.inv hq₃.steps
  refine (store_lifts h₃ (hq₃.memory.trans htok) ha hd₃ _).weaken
    fun _ s' hs' ⟨hsim, hw', hm', hz'⟩ => ?_
  obtain ⟨hwr, hzf⟩ := hq.notes
  refine ⟨Simulates.quiet h.inv hq hs' ?_, fun r => ?_, ?_, ?_⟩
  · simp only [X86Machine.stepThenRsp, X86Machine.step, hm, hops]
    exact hsim
  · have hw : inst.writes r = false := by
      simp only [X86DecodedInst.writes, hm, hops]
    rw [hw', hwr, hw, Bool.or_false]
  · have htouch : inst.touchesMemory = true := by
      simp only [X86DecodedInst.touchesMemory, hm, hops]
    rw [hm', htouch, Bool.or_true]
  · have halu : inst.mnemonic.isAlu = false := by rw [hm]; rfl
    rw [hz', hzf, halu, Bool.or_false]

theorem Arch.stackBytes_setWidth (arch : Arch) :
    arch.stackBytes.setWidth arch.bits = BitVec.ofNat arch.bits arch.bytes := by
  cases arch <;> rfl

theorem x86RegSupported_rsp (arch : Arch) : x86RegSupported arch x86Rsp = true := by
  cases arch <;> decide

/-- `x86_lift_push_decoded`. -/
theorem x86LiftPush (h : Lifting arch s) {src : X86Reg} (hm : inst.mnemonic = .push)
    (hops : inst.operands = [.register w src]) (hsrc : x86RegSupported arch src = true) :
    Lifts 7 (x86LiftPushDecoded inst) s fun _ s' => InstLifted arch inst next s s' := by
  unfold x86LiftPushDecoded X86DecodedInst.operand
  rw [hops]
  have hsp := x86RegSupported_rsp arch
  refine Lifts.get ((x86EnsureReg_quietly h hsp).bindLifts (k := 6) fun rsp s₁ hq₁ hrsp => ?_)
  have h₁ := h.quiet hq₁
  refine (x86EnsureReg_quietly h₁ hsrc).bindLifts (k := 5) fun d s₂ hq₂ hd => ?_
  have h₂ := h₁.quiet hq₂
  have hrsp₂ := hrsp.quiet h₁.inv hq₂.steps
  refine (constInt_quietly h₂ h.regType s.arch.stackBytes _).bindLifts (k := 4)
    fun size s₃ hq₃ hsize => ?_
  have h₃ := h₂.quiet hq₃
  refine (word_quietly h₃ h.regType rfl (by decide) (hrsp₂.quiet h₂.inv hq₃.steps) hsize _).bindLifts
    (k := 3) fun sp s₄ hq₄ hnew => ?_
  have h₄ := h₃.quiet hq₄
  refine (x86IntToAddr_quietly h₄ hnew).bindLifts (k := 2) fun a s₅ hq₅ ha => ?_
  have h₅ := h₄.quiet hq₅
  refine (x86EnsureMemory_lifts h₅).bind (k := 1) fun tok s₆ hs₆ ⟨hq₆, htok⟩ => ?_
  have h₆ := h₅.lift hs₆
  have hq₂₆ := ((hq₃.steps.trans hq₄.steps).trans hq₅.steps).trans hq₆
  have hq := (hq₁.steps.trans hq₂.steps).trans hq₂₆
  have hd₆ := hd.quiet h₂.inv hq₂₆
  have hnew₆ := hnew.quiet h₄.inv (hq₅.steps.trans hq₆)
  have hstores := (store_lifts h₆ htok (ha.quiet h₅.inv hq₆) hd₆ (literalName "push")).bind (k := 0)
    (f := fun _ => x86WriteReg x86Rsp sp) (R := fun _ s' => InstLifted arch inst next s s')
    fun _ s₇ hs₇ ⟨hsim, hw', hm', hz'⟩ => ?_
  · rw [Effect.bind_assoc] at hstores
    exact hstores
  have h₇ := h₆.lift hs₇
  have hnew₇ := (hs₇.frame h₆.inv.draft).hasValue hnew₆.value h₆.inv.draft
  refine (x86WriteReg_lifts h₇ hsp hnew₇).weaken fun _ s' _ heq => ?_
  subst heq
  have hnote := h₇.withReg hsp hnew₇
  obtain ⟨hwr, hzf⟩ := hq.notes
  refine ⟨Simulates.quiet h.inv hq (.note hs₇ hnote) ?_, fun r => ?_, ?_, ?_⟩
  · intro F ρ M₀ M M' hc ha' hM
    have hc₇ := hc.back_step h₇.inv (.note hnote)
    have hsp₆ := hnew₆.meaning F ρ M₀ M (hc₇.back h₆.inv hs₇) ha'
    simp only [X86Machine.stepThenRsp, X86Machine.step, hm, hops, X86Machine.push] at hM
    simp only [h.arch_eq, arch.stackBytes_setWidth, wordOp] at hsim hsp₆
    cases hst : M.store (M.regs x86Rsp - BitVec.ofNat arch.bits arch.bytes) (M.regs src) with
    | none =>
      rw [hst] at hM
      cases hM
    | some M₁ =>
      rw [hst] at hM
      cases hM
      obtain ⟨ha₇, hin⟩ := hsim F ρ M₀ M M₁ hc₇ ha' hst
      exact ⟨ha₇.writeReg hsp₆, hin⟩
  · have hw : inst.writes r = (r == x86Rsp) := by simp only [X86DecodedInst.writes, hm]
    show (if r = x86Rsp then true else s₇.writtenRegs r) = _
    rw [hw, hw', hwr]
    by_cases hr : r = x86Rsp <;> simp [hr]
  · have htouch : inst.touchesMemory = true := by simp only [X86DecodedInst.touchesMemory, hm]
    show s₇.memory.isSome = _
    rw [hm', htouch, Bool.or_true]
  · have halu : inst.mnemonic.isAlu = false := by rw [hm]; rfl
    show s₇.zf.isSome = _
    rw [hz', hzf, halu, Bool.or_false]

/-- `x86_lift_pop_decoded`. -/
theorem x86LiftPop (h : Lifting arch s) {dst : X86Reg} (hm : inst.mnemonic = .pop)
    (hops : inst.operands = [.register w dst]) (hd : x86RegSupported arch dst = true) :
    Lifts 6 (x86LiftPopDecoded inst) s fun _ s' => InstLifted arch inst next s s' := by
  unfold x86LiftPopDecoded X86DecodedInst.operand
  rw [hops]
  have hsp := x86RegSupported_rsp arch
  refine Lifts.get ((x86EnsureReg_quietly h hsp).bindLifts (k := 5) fun rsp s₁ hq₁ hrsp => ?_)
  have h₁ := h.quiet hq₁
  refine (x86IntToAddr_quietly h₁ hrsp).bindLifts (k := 4) fun a s₂ hq₂ ha => ?_
  have h₂ := h₁.quiet hq₂
  refine (x86EnsureMemory_lifts h₂).bind (k := 3) fun tok s₃ hs₃ ⟨hq₃, htok⟩ => ?_
  have h₃ := h₂.lift hs₃
  refine (load_lifts h₃ h.regType htok (ha.quiet h₂.inv hq₃) _).bind (k := 2)
    fun v s₄ hs₄ ⟨hv, hl, hload⟩ => ?_
  have h₄ := h₃.lift hs₄
  have hq := (hq₁.steps.trans hq₂.steps).trans hq₃
  have hrsp₄ := (hrsp.quiet h₁.inv (hq₂.steps.trans hq₃)).loaded h₃.inv hl
  refine (constInt_quietly h₄ h.regType s.arch.stackBytes _).bindLifts (k := 1)
    fun size s₅ hq₅ hsize => ?_
  have h₅ := h₄.quiet hq₅
  refine (word_quietly h₅ h.regType rfl (by decide) (hrsp₄.quiet h₄.inv hq₅.steps) hsize _).bindLifts
    (k := 0) fun sp s₆ hq₆ hnew => ?_
  have h₆ := h₅.quiet hq₆
  have hq₄₆ := hq₅.steps.trans hq₆.steps
  have hv₆ := (hq₄₆.lift.frame h₄.inv.draft).hasValue hv h₄.inv.draft
  refine (x86WriteReg_lifts h₆ hd hv₆).bind (k := 0) fun _ s₇ hs₇ heq => ?_
  subst heq
  have h₇ := h₆.lift hs₇
  have hnew₇ := (hs₇.frame h₆.inv.draft).hasValue hnew.value h₆.inv.draft
  refine (x86WriteReg_lifts h₇ hsp hnew₇).weaken fun _ s' _ heq => ?_
  subst heq
  have hnote := h₇.withReg hsp hnew₇
  obtain ⟨hwr, hzf⟩ := hq.notes
  obtain ⟨hwr', hzf'⟩ := hq₄₆.notes
  refine ⟨Simulates.quiet h.inv hq (.note ((hs₄.trans hq₄₆.lift).trans hs₇) hnote) ?_,
    fun r => ?_, ?_, ?_⟩
  · intro F ρ M₀ M M' hc ha' hM
    have hc₇ := hc.back_step h₇.inv (.note hnote)
    have hc₆ := hc₇.back h₆.inv hs₇
    have hc₄ := hc₆.back h₄.inv hq₄₆.lift
    have ha₆ := (hq₄₆.agrees h₄.inv hc₆).mpr ((hl.agrees ρ M₀ M).mpr ha')
    have hsp₆ := hnew.meaning F ρ M₀ M hc₆ ha₆
    simp only [h.arch_eq, arch.stackBytes_setWidth, wordOp] at hsp₆
    simp only [X86Machine.stepThenRsp, hm, hops, X86Machine.popThenRsp] at hM
    cases hw : M.load (M.regs x86Rsp) with
    | none =>
      rw [hw] at hM
      cases hM
    | some x =>
      rw [hw] at hM
      cases hM
      obtain ⟨hx, hin⟩ := hload F ρ M₀ M x hc₄ ha' hw
      have hin₆ : s₃.InBounds ρ → s₆.InBounds ρ := fun h₀ => hq₄₆.inBounds h₄.inv (hin h₀)
      exact ⟨(ha₆.writeReg hx).writeReg hsp₆, hin₆⟩
  · have hw : inst.writes r = (r == dst || r == x86Rsp) := by
      simp only [X86DecodedInst.writes, hm, hops]
    show (if r = x86Rsp then true else if r = dst then true else s₆.writtenRegs r) = _
    rw [hw, hwr', hl.written, hwr]
    by_cases hr : r = x86Rsp <;> by_cases hr' : r = dst <;> simp [hr, hr']
  · have htouch : inst.touchesMemory = true := by simp only [X86DecodedInst.touchesMemory, hm]
    show s₆.memory.isSome = _
    rw [htouch, Bool.or_true, hq₆.memory, hq₅.memory, hl.memory, htok]
    rfl
  · have halu : inst.mnemonic.isAlu = false := by rw [hm]; rfl
    show s₆.zf.isSome = _
    rw [hzf', hl.zf, hzf, halu, Bool.or_false]

end MemoryInst

/-- **Lifting an instruction that does not end a block.** -/
theorem x86LiftDecoded_lifts (h : Lifting arch s) (hs : Shaped arch inst)
    (hne : inst.mnemonic.endsBlock = false) (next : Word) :
    Lifts 11 (x86LiftDecoded inst next) s fun _ s' => InstLifted arch inst next s s' := by
  unfold Shaped at hs
  unfold x86LiftDecoded
  generalize hm : inst.mnemonic = mn at hs hne
  generalize hops : inst.operands = ops at hs
  cases hs with
  | nop =>
    refine Lifts.pure ⟨?_, fun r => ?_, ?_, ?_⟩
    · intro F ρ M₀ M M' _ ha hM
      simp only [X86Machine.stepThenRsp, X86Machine.step, hm, hops] at hM
      cases hM
      exact ⟨ha, id⟩
    · simp [X86DecodedInst.writes, hm, hops]
    · simp [X86DecodedInst.touchesMemory, hm, hops]
    · simp [X86Mnemonic.isAlu, hm]
  | movImm hd => exact (x86LiftMov_imm h hm hops hd).mono (by omega)
  | movReg hd hsrc => exact (x86LiftMov_reg h hm hops hd hsrc).mono (by omega)
  | movLoad hd hmem => exact (x86LiftMov_load h hm hops hd hmem).mono (by omega)
  | movStore hmem hsrc => exact x86LiftMov_store h hm hops hsrc hmem
  | lea hd hmem => exact (x86LiftLea h hm hops hd hmem).mono (by omega)
  | aluReg ha hd hsrc =>
    have hlift : Lifts 11 (x86LiftAluDecoded inst) s fun _ s' => InstLifted arch inst next s s' := by
      refine Lifts.mono ?_ (by omega : 5 ≤ 11)
      rw [← hm] at ha
      refine x86LiftAlu_lifts h hops ha hd (fun t ht => x86OperandValue_reg ht hsrc) fun M => ?_
      cases hmn : inst.mnemonic <;> simp [hmn, X86Mnemonic.isAlu] at ha <;>
        simp only [X86Machine.stepThenRsp, X86Machine.step, hmn, hops]
    cases mn <;> first | exact hlift | cases ha
  | aluImm ha hd =>
    have hlift : Lifts 11 (x86LiftAluDecoded inst) s fun _ s' => InstLifted arch inst next s s' := by
      refine Lifts.mono ?_ (by omega : 5 ≤ 11)
      rw [← hm] at ha
      refine x86LiftAlu_lifts h hops ha hd (fun t ht => x86OperandValue_imm ht _) fun M => ?_
      cases hmn : inst.mnemonic <;> simp [hmn, X86Mnemonic.isAlu] at ha <;>
        simp only [X86Machine.stepThenRsp, X86Machine.step, hmn, hops]
    cases mn <;> first | exact hlift | cases ha
  | push hsrc => exact (x86LiftPush h hm hops hsrc).mono (by omega)
  | pop hd => exact (x86LiftPop h hm hops hd).mono (by omega)
  | jmp => cases hne
  | jz => cases hne
  | jnz => cases hne
  | ret => cases hne

end Instructions

end Xair
