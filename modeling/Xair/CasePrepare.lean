import Xair.CaseRun
import Xair.LiftCanonical
import Xair.LiftInterface

/-!
# Preparing the execution of a case

What a lift asks for and what `xair_case_run` offers: the inputs of a lifted block have the types
of registers and of memory (`LiftedFrom.input`, `LiftedFrom.memoryInput`), and the tool sets them
to 64-bit values and to a token with 64-bit addresses.  The state is prepared unless one of them
does not fit or bytes do not fit into the address space (`LiftedFrom.casePrepare`).
-/

namespace Xair

/-! ### The types of the inputs -/

/-- The inputs have the types of registers and of memory. -/
structure TypedInputs (s : LiftState) : Prop where
  regs : ∀ p ∈ s.result.inputRegs, s.HasValue p.2 (x86RegType s.arch)
  memory : ∀ v, s.result.memoryIn = some v → s.HasValue v s.memoryType

section Types

variable {s s' : LiftState} {n : Nat}

theorem LiftStep.typedInputs (hd : Draft s.module s.block) (h : TypedInputs s)
    (hs : LiftStep s s') : TypedInputs s' := by
  have hf := hs.frame hd
  have hregs : ∀ p ∈ s.result.inputRegs, s'.HasValue p.2 (x86RegType s'.arch) := fun p hp => by
    rw [hf.arch]
    exact hf.hasValue (h.regs p hp) hd
  have hmem : ∀ v, s.result.memoryIn = some v → s'.HasValue v s'.memoryType := fun v hv => by
    rw [LiftState.memoryType, hf.arch, hf.memorySpace]
    exact hf.hasValue (h.memory v hv) hd
  cases hs with
  | quiet hs =>
    cases hs with
    | @param reg v m' _ _ ha =>
      refine ⟨fun p hp => ?_, hmem⟩
      rcases List.mem_append.mp hp with hp | hp
      · exact hregs p hp
      · rw [List.mem_singleton] at hp
        subst hp
        exact ⟨ha.usable, ha.type⟩
    | @memParam v m' _ ha =>
      refine ⟨hregs, fun u hu => ?_⟩
      cases hu
      exact ⟨ha.usable, ha.type⟩
    | op _ _ _ _ => exact ⟨hregs, hmem⟩
    | same _ _ => exact ⟨hregs, hmem⟩
  | load hs =>
    cases hs
    exact ⟨hregs, hmem⟩
  | store hs =>
    cases hs
    exact ⟨hregs, hmem⟩
  | note hs => cases hs <;> exact ⟨hregs, hmem⟩

theorem LiftSteps.typedInputs (hd : Draft s.module s.block) (h : TypedInputs s)
    (hs : LiftSteps n s s') : TypedInputs s' :=
  (hs.induct (P := fun s => Draft s.module s.block ∧ TypedInputs s)
    (fun _ _ ha hab => ⟨(hab.frame ha.1).draft, hab.typedInputs ha.1 ha.2⟩) ⟨hd, h⟩).2

end Types

section Inputs

variable {m m₁ : Module} {image : Image} {options : LiftOptions} {b : Nat} {t s' : LiftState}
  {r : LiftResult}

theorem LiftedFrom.typedInputs (h : LiftedFrom m image options b m₁ t r s') : TypedInputs t :=
  h.ends.steps.typedInputs h.created.draft
    ⟨fun _ hp => (by cases hp), fun _ hv => (by cases hv)⟩

theorem LiftedFrom.param (h : LiftedFrom m image options b m₁ t r s') {v : Nat} {ty : Ty}
    (hv : v ∈ (t.module.blockRec t.block).params) (ht : t.HasValue v ty) :
    v < s'.module.values.length ∧ (s'.module.valueRec v).op = none ∧
      s'.module.valueType v = ty := by
  have hret := h.returned
  have hlt := h.lifting.inv.draft.isOpen.1
  rw [h.block_eq, ← hret.params] at hv
  rw [h.block_eq, ← hret.extends_.blocks] at hlt
  obtain ⟨hlen, hop, -⟩ := (hret.wf.block_params b hlt v).mp hv
  exact ⟨hlen, hop, (hret.extends_.grows.valueType ht.usable.lt).trans ht.type⟩

/-- The inputs of a lifted block are parameters of the types of registers. -/
theorem LiftedFrom.input (h : LiftedFrom m image options b m₁ t r s') {p : X86Reg × Nat}
    (hp : p ∈ s'.result.inputRegs) : p.2 < s'.module.values.length ∧
      (s'.module.valueRec p.2).op = none ∧ s'.module.valueType p.2 = typeI options.arch.bits := by
  rw [h.inputRegs] at hp
  have ht := h.typedInputs.regs p hp
  rw [h.lifting.regType] at ht
  exact h.param (h.runnable.inputs p hp) ht

theorem LiftedFrom.memoryInput (h : LiftedFrom m image options b m₁ t r s') {v : Nat}
    (hv : s'.result.memoryIn = some v) : v < s'.module.values.length ∧
      (s'.module.valueRec v).op = none ∧
      s'.module.valueType v = typeMem options.memorySpace options.arch.bits := by
  rw [h.memoryIn] at hv
  have ht := h.typedInputs.memory v hv
  rw [LiftState.memoryType, h.lifting.arch_eq, h.frame.memorySpace] at ht
  exact h.param (h.runnable.memoryIn v hv) ht

theorem LiftedFrom.inputs_nodup (h : LiftedFrom m image options b m₁ t r s') :
    (s'.result.inputRegs.map Prod.snd).Nodup := by
  have hlt := h.lifting.inv.draft.isOpen.1
  have hports := h.ends.steps.ports (lifting_start h.created.draft options true).inv
    (ports_liftStart h.created options true)
  have hnodup := hports.params.nodup_iff.mp (h.lifting.inv.draft.wf.params_nodup t.block hlt)
  rw [h.inputRegs]
  exact (List.nodup_append.mp hnodup).1

end Inputs

/-! ### The execution -/

section Execute

variable {m : Module} {s : ExecState}

theorem execSetParam_ok {v : Nat} {x : ExecValue} (hs : s.Ok m) (hv : v < m.values.length)
    (hop : (m.valueRec v).op = none) (ht : m.valueType v = x.type) :
    execSetParam m s v x = (.ok, { s with
      values := fun u => if u = v then x else s.values u
      defined := fun u => if u = v then true else s.defined u }) := by
  have hslot := hs.slot hv
  rw [execSetParam, execDefineValue, hslot, if_neg (by decide), if_neg (not_not.mpr hop),
    if_neg (by decide), if_neg (not_not.mpr ht)]

theorem execSetParam_errBadArg {v : Nat} {x : ExecValue} (ht : m.valueType v ≠ x.type) :
    execSetParam m s v x = (.errBadArg, s) := by
  by_cases hslot : execSlotOk m s v = true
  · simp [execSetParam, execDefineValue, hslot, ht]
  · simp [execSetParam, hslot]

/-- The bytes of the configuration are stored when no entry wraps. -/
theorem foldlM_memoryStore (entries : List StoreCall) (s : ExecState) :
    entries.foldlM (fun s e => caseStep .memoryStore
      (execStateStoreBytes s e.space e.address e.data)) s =
      if ∃ e ∈ entries, FlatMemory.Wraps e.address e.data.length then
        .error (.memoryStore .errBadArg)
      else .ok (storeBytesAll s entries) := by
  induction entries generalizing s with
  | nil => rw [if_neg fun ⟨_, he, _⟩ => by cases he]; rfl
  | cons e entries ih =>
    rw [List.foldlM_cons, execStateStoreBytes, execStoreBytes]
    by_cases hw : FlatMemory.Wraps e.address e.data.length
    · rw [if_pos ((execRangeWraps_iff _ _).mpr hw), if_pos ⟨e, List.mem_cons_self, hw⟩]
      rfl
    · rw [if_neg fun h => hw ((execRangeWraps_iff _ _).mp h)]
      refine (ih _).trans ?_
      have hiff : (∃ e' ∈ e :: entries, FlatMemory.Wraps e'.address e'.data.length) ↔
          ∃ e' ∈ entries, FlatMemory.Wraps e'.address e'.data.length := by
        simp [hw]
      have hstore : storeBytesAll s (e :: entries) = storeBytesAll
          (execStateStoreBytes s e.space e.address e.data).2 entries := rfl
      simp only [hiff, hstore]
      rw [execStateStoreBytes, execStoreBytes, if_neg fun h => hw ((execRangeWraps_iff _ _).mp h)]

theorem foldlM_registerParam {inputs : List (X86Reg × Nat)} {x : X86Reg → ExecValue}
    (hwf : m.WF) (hs : s.Reachable m)
    (hinputs : ∀ p ∈ inputs, p.2 < m.values.length ∧ (m.valueRec p.2).op = none ∧
      m.valueType p.2 = (x p.1).type) (hnodup : (inputs.map Prod.snd).Nodup) :
    ∃ s', inputs.foldlM (fun s p => caseStep .registerParam (execSetParam m s p.2 (x p.1))) s =
        .ok s' ∧ s'.Reachable m ∧ s'.mem = s.mem ∧
      (∀ p ∈ inputs, s'.defined p.2 = true ∧ s'.values p.2 = x p.1) ∧
      ∀ u, u ∉ inputs.map Prod.snd → s'.defined u = s.defined u ∧ s'.values u = s.values u := by
  induction inputs generalizing s with
  | nil =>
    exact ⟨s, rfl, hs, rfl, fun p hp => (by cases hp), fun u _ => ⟨rfl, rfl⟩⟩
  | cons p inputs ih =>
    obtain ⟨hv, hop, ht⟩ := hinputs p List.mem_cons_self
    obtain ⟨hp, hnodup⟩ := List.nodup_cons.mp hnodup
    have hset := execSetParam_ok (hs.ok hwf) hv hop ht
    have hnext := hs.setParam p.2 (x p.1)
    rw [List.foldlM_cons, hset]
    rw [hset] at hnext
    obtain ⟨s', hfold, hs', hmem, hall, hothers⟩ :=
      ih hnext (fun q hq => hinputs q (List.mem_cons_of_mem _ hq)) hnodup
    refine ⟨s', hfold, hs', hmem, fun q hq => ?_, fun u hu => ?_⟩
    · rcases List.mem_cons.mp hq with rfl | hq
      · obtain ⟨h1, h2⟩ := hothers q.2 hp
        exact ⟨h1.trans (if_pos rfl), h2.trans (if_pos rfl)⟩
      · exact hall q hq
    · rw [List.map_cons, List.mem_cons, not_or] at hu
      obtain ⟨h1, h2⟩ := hothers u hu.2
      exact ⟨h1.trans (if_neg hu.1), h2.trans (if_neg hu.1)⟩

end Execute

/-! ### The prepared state -/

section Prepare

variable {m m₁ : Module} {image : Image} {options : LiftOptions} {b : Nat} {t s' : LiftState}
  {r : LiftResult} {config : CaseConfig}

theorem caseStep_error {α : Type} {stop : Status → CaseStop} {e : Status} (he : e ≠ .ok) (x : α) :
    caseStep stop (e, x) = .error (stop e) := by
  cases e with
  | ok => exact absurd rfl he
  | _ => rfl

/-- The memory parameter: a token of space 0 with 64-bit addresses is set, and is refused when
the block has addresses of another size. -/
theorem LiftedFrom.setMemory (hl : LiftedFrom m image options b m₁ t r s')
    (hspace : options.memorySpace = 0) {s : ExecState} (hs : s.Reachable s'.module) {v : Nat}
    (hv : s'.result.memoryIn = some v) :
    execSetParam s'.module s v (execMem 0 64) =
      if options.arch.bits = 64 then (.ok, { s with
        values := fun u => if u = v then execMem 0 64 else s.values u
        defined := fun u => if u = v then true else s.defined u })
      else (.errBadArg, s) := by
  obtain ⟨hlt, hop, hty⟩ := hl.memoryInput hv
  rw [hspace] at hty
  split
  · next hbits =>
    rw [hbits] at hty
    exact execSetParam_ok (hs.ok hl.returned.wf) hlt hop hty
  · next hbits =>
    refine execSetParam_errBadArg ?_
    rw [hty]
    exact fun h => hbits (congrArg Ty.bits h)

theorem LiftedFrom.prepareMemory (hl : LiftedFrom m image options b m₁ t r s')
    (hspace : options.memorySpace = 0) {s : ExecState} (hs : s.Reachable s'.module)
    (hfit : s'.result.memoryIn.isSome = true → options.arch.bits = 64) :
    ∃ s₁, caseSetMemory s'.module s s'.result.memoryIn = .ok s₁ ∧ s₁.Reachable s'.module ∧
      s₁.mem = s.mem ∧ ∀ v, s'.result.memoryIn = some v → s₁.defined v = true := by
  cases hm : s'.result.memoryIn with
  | none => exact ⟨s, rfl, hs, rfl, fun v hv => by cases hv⟩
  | some v =>
    have hset := hl.setMemory hspace hs hm
    rw [if_pos (hfit (by rw [hm]; rfl))] at hset
    have hnext := hs.setParam v (execMem 0 64)
    rw [caseSetMemory, hset]
    rw [hset] at hnext
    refine ⟨_, rfl, hnext, rfl, fun u hu => ?_⟩
    cases hu
    exact if_pos rfl

/-- What the tool prepares before it runs the block. -/
structure CasePrepared (config : CaseConfig) (m : Module) (lift : LiftResult) (s : ExecState) :
    Prop where
  reachable : s.Reachable m
  memory : HoldsFlat s.mem.pages (FlatMemory.empty.storeAll config.memory)
  regs : ∀ p ∈ lift.inputRegs, s.defined p.2 = true ∧ s.values p.2 = execI 64 (config.regs p.1)
  memoryIn : ∀ v, lift.memoryIn = some v → s.defined v = true

/-- Why the state cannot be prepared. -/
def caseRefusal (config : CaseConfig) (lift : LiftResult) : Option CaseStop :=
  if lift.memoryIn.isSome ∧ config.arch.bits ≠ 64 then some (.memoryParam .errBadArg)
  else if ∃ e ∈ config.memory, FlatMemory.Wraps e.address e.data.length then
    some (.memoryStore .errBadArg)
  else if lift.inputRegs ≠ [] ∧ config.arch.bits ≠ 64 then some (.registerParam .errBadArg)
  else none

/-- The registers are set on x86_64; on x86_32 the first of them is refused. -/
theorem LiftedFrom.prepareRegs (hl : LiftedFrom m image options b m₁ t r s')
    (harch : options.arch = config.arch) {s : ExecState} (hs : s.Reachable s'.module) :
    (s'.result.inputRegs ≠ [] ∧ config.arch.bits ≠ 64 →
      s'.result.inputRegs.foldlM (fun s p => caseStep .registerParam
        (execSetParam s'.module s p.2 (execI 64 (config.regs p.1)))) s =
          .error (.registerParam .errBadArg)) ∧
    (¬ (s'.result.inputRegs ≠ [] ∧ config.arch.bits ≠ 64) →
      ∃ s₁, s'.result.inputRegs.foldlM (fun s p => caseStep .registerParam
        (execSetParam s'.module s p.2 (execI 64 (config.regs p.1)))) s = .ok s₁ ∧
        s₁.Reachable s'.module ∧ s₁.mem = s.mem ∧
        (∀ p ∈ s'.result.inputRegs,
          s₁.defined p.2 = true ∧ s₁.values p.2 = execI 64 (config.regs p.1)) ∧
        ∀ u, u ∉ s'.result.inputRegs.map Prod.snd →
          s₁.defined u = s.defined u ∧ s₁.values u = s.values u) := by
  constructor
  · rintro ⟨hne, hbits⟩
    obtain ⟨p, ps, hps⟩ := List.exists_cons_of_ne_nil hne
    have hin := hl.input (p := p) (by rw [hps]; exact List.mem_cons_self)
    have hset : execSetParam s'.module s p.2 (execI 64 (config.regs p.1)) = (.errBadArg, s) := by
      refine execSetParam_errBadArg ?_
      rw [hin.2.2, harch]
      exact fun h => hbits (congrArg Ty.bits h)
    rw [hps, List.foldlM_cons, hset, caseStep_error (by decide)]
    rfl
  · intro hfit
    refine foldlM_registerParam (x := fun reg => execI 64 (config.regs reg)) hl.returned.wf hs
      (fun p hp => ?_) hl.inputs_nodup
    obtain ⟨hlt, hop, hty⟩ := hl.input hp
    refine ⟨hlt, hop, ?_⟩
    have hbits : config.arch.bits = 64 := by
      by_contra hb
      exact hfit ⟨List.ne_nil_of_mem hp, hb⟩
    rw [hty, harch, hbits]
    rfl

/-- **Preparing the state** fails for one of three reasons. -/
theorem LiftedFrom.casePrepare (config : CaseConfig)
    (hl : LiftedFrom m image options b m₁ t r s') (hver : s'.module.Verified)
    (hspace : options.memorySpace = 0) (harch : options.arch = config.arch) :
    (∀ stop, caseRefusal config s'.result = some stop →
      Xair.casePrepare config s'.module s'.result = .error stop) ∧
    (caseRefusal config s'.result = none → ∃ s, CasePrepared config s'.module s'.result s ∧
      Xair.casePrepare config s'.module s'.result = .ok s) := by
  have hfresh : (freshState s'.module).Reachable s'.module := .create (execStateCreate_ok hver)
  unfold caseRefusal Xair.casePrepare
  rw [execStateCreate_ok hver, ← harch]
  by_cases hmem : s'.result.memoryIn.isSome ∧ options.arch.bits ≠ 64
  · -- the token of another type is refused
    rw [if_pos hmem]
    obtain ⟨v, hv⟩ := Option.isSome_iff_exists.mp hmem.1
    have hset := hl.setMemory hspace hfresh hv
    rw [if_neg hmem.2] at hset
    refine ⟨fun stop hstop => ?_, fun h => by cases h⟩
    cases hstop
    show (caseSetMemory s'.module (freshState s'.module) s'.result.memoryIn >>= _) = _
    rw [hv, caseSetMemory, hset, caseStep_error (by decide)]
    rfl
  · rw [if_neg hmem]
    obtain ⟨s₁, hs₁, hreach₁, hmem₁, hin₁⟩ := hl.prepareMemory hspace hfresh fun h => by
      by_contra hb
      exact hmem ⟨h, hb⟩
    have hstart : ∀ k : ExecState → Except CaseStop ExecState,
        (Except.mapError CaseStop.execStateCreate (.ok (freshState s'.module)) >>= fun s =>
          caseSetMemory s'.module s s'.result.memoryIn >>= k) = k s₁ := fun k => by
      show (caseSetMemory s'.module (freshState s'.module) s'.result.memoryIn >>= k) = _
      rw [hs₁]
      rfl
    rw [hstart, foldlM_memoryStore]
    by_cases hwraps : ∃ e ∈ config.memory, FlatMemory.Wraps e.address e.data.length
    · rw [if_pos hwraps, if_pos hwraps]
      exact ⟨fun stop hstop => by cases hstop; rfl, fun h => by cases h⟩
    · rw [if_neg hwraps, if_neg hwraps]
      have hreach₂ := reachable_storeBytesAll hreach₁ config.memory
      obtain ⟨hrefused, hset⟩ := hl.prepareRegs harch hreach₂
      rw [← harch] at hrefused hset
      by_cases hregs : s'.result.inputRegs ≠ [] ∧ options.arch.bits ≠ 64
      · rw [if_pos hregs]
        exact ⟨fun stop hstop => by cases hstop; exact hrefused hregs, fun h => by cases h⟩
      · rw [if_neg hregs]
        obtain ⟨s₂, hfold, hreach, hmem₂, hall, hothers⟩ := hset hregs
        refine ⟨fun stop hstop => (by cases hstop), fun _ => ⟨s₂, ⟨hreach, ?_, hall, ?_⟩, hfold⟩⟩
        · rw [hmem₂]
          refine HoldsFlat.storeAll ?_ config.memory
          rw [hmem₁]
          exact holdsFlat_nil
        · intro v hv
          by_cases hu : v ∈ s'.result.inputRegs.map Prod.snd
          · obtain ⟨p, hp, rfl⟩ := List.mem_map.mp hu
            exact (hall p hp).1
          · rw [(hothers v hu).1, storeBytesAll_eq]
            exact hin₁ v hv

end Prepare

end Xair
