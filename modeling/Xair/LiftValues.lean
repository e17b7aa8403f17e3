import Mathlib.Data.List.Perm.Subperm
import Xair.LiftSpec

/-!
# The values that the lifter builds

What each value stands for, function by function: constants, registers, the results of
arithmetic, flags, addresses and loads.  A function that only builds values is quiet,
so a value that stood for something before it still does.
-/

namespace Xair

/-- A lift for `arch` in order. -/
structure Lifting (arch : Arch) (s : LiftState) : Prop where
  inv : LiftInv s
  arch_eq : s.arch = arch

variable {arch : Arch} {s s' : LiftState} {n : Nat}

theorem Lifting.lift (h : Lifting arch s) (hs : LiftSteps n s s') : Lifting arch s' :=
  ⟨hs.inv h.inv, (hs.frame h.inv.draft).arch.trans h.arch_eq⟩

theorem Lifting.quiet (h : Lifting arch s) (hs : Quiet n s s') : Lifting arch s' :=
  h.lift hs.steps.lift

theorem Lifting.regType (h : Lifting arch s) : x86RegType s.arch = typeI arch.bits := by
  rw [h.arch_eq]
  rfl

theorem Lifting.addrType (h : Lifting arch s) : x86AddrType s.arch = typeAddr arch.bits := by
  rw [h.arch_eq]
  rfl

theorem Arch.intType (arch : Arch) : (typeI arch.bits).isValueType = true := by
  cases arch <;> decide

theorem Arch.addrType (arch : Arch) : (typeAddr arch.bits).isValueType = true := by
  cases arch <;> decide

/-! ### One operation -/

section Build

variable {opcode : Opcode} {t tl tr : Ty} {l r : Nat}

/-- `x86_build_const_u64`. -/
theorem const_quietly (h : Lifting arch s) (hk : t.kind = .int ∨ t.kind = .addr)
    (hb : t.bits ≤ 64) (ht : t.isValueType = true) (value : Word) (name : Name) :
    Quietly 1 (x86BuildConstU64 t value name) s fun v s' => s'.HasValue v t ∧
      ∀ F ρ (M₀ : X86Machine arch), Completes F ρ M₀ s' →
        ρ.value v = execValueMake t value 0#64 := by
  have hcall : buildConstU64 s.module s.block t value (some name) =
      addOp s.module ⟨s.block, .constU64, t, [], value, .le⟩ (some name) := by
    unfold buildConstU64
    rw [if_neg]
    rcases hk with hk | hk <;> simp [hk, hb]
  have htyped : typeRule .constU64 t [] = true := by
    rcases hk with hk | hk <;> simp [typeRule, Ty.isInt, Ty.isAddr, hk, hb]
  refine (build_quietly h.inv hcall rfl ht (by simp) htyped (by simp)
    (by rintro (he | he) <;> cases he)
    keyRuns_const).get.weaken fun v s' hq hv => ?_
  obtain ⟨hc, hblock⟩ := hv
  have h' := (h.quiet hq).inv
  exact ⟨hasValue_of_computes h' hc hblock.symm, fun F ρ M₀ hm =>
    hm.denotes.const hm.wf (hm.computes h' hc) rfl⟩

/-- `xair_build_unary`. -/
theorem unary_quietly (h : Lifting arch s) (hop : opcode.arity = 1) (hl : s.HasValue l tl)
    (ht : t.isValueType = true) (htyped : typeRule opcode t [tl] = true)
    (hruns : ∀ x : ExecValue, x.type = tl → ∃ y, execUnaryOp opcode t x = .ok y) (name : Name) :
    Quietly 1 (x86BuildUnary opcode t l name) s fun v s' => s'.HasValue v t ∧
      ∀ F ρ (M₀ : X86Machine arch), Completes F ρ M₀ s' →
        execUnaryOp opcode t (ρ.value l) = .ok (ρ.value v) := by
  have hcall : buildUnary s.module s.block opcode t l (some name) =
      addOp s.module ⟨s.block, opcode, t, [l], 0#64, .le⟩ (some name) := by
    unfold buildUnary
    rw [if_neg (by simp [Module.validValue, hl.usable.lt])]
  have hmem := not_memoryOp_of_unary hop
  refine (build_quietly h.inv hcall rfl ht (by simpa using hl.usable) (by simpa [hl.type] using htyped)
    (by simp) hmem (keyRuns_unary hop (by simpa [hl.type] using hruns))).get.weaken
    fun v s' hq hv => ?_
  obtain ⟨hc, hblock⟩ := hv
  have h' := (h.quiet hq).inv
  exact ⟨hasValue_of_computes h' hc hblock.symm, fun F ρ M₀ hm =>
    hm.unary h' hc hblock.symm hop⟩

/-- `xair_build_binary`. -/
theorem binary_quietly (h : Lifting arch s) (hop : opcode.arity = 2 ∧ opcode ≠ .load)
    (hl : s.HasValue l tl) (hr : s.HasValue r tr) (ht : t.isValueType = true)
    (htyped : typeRule opcode t [tl, tr] = true)
    (hruns : ∀ x y : ExecValue, x.type = tl → y.type = tr → ∃ z, execBinaryOp opcode t x y = .ok z)
    (name : Name) :
    Quietly 1 (x86BuildBinary opcode t l r name) s fun v s' => s'.HasValue v t ∧
      ∀ F ρ (M₀ : X86Machine arch), Completes F ρ M₀ s' →
        execBinaryOp opcode t (ρ.value l) (ρ.value r) = .ok (ρ.value v) := by
  have hcall : buildBinary s.module s.block opcode t l r (some name) =
      addOp s.module ⟨s.block, opcode, t, [l, r], 0#64, .le⟩ (some name) := by
    unfold buildBinary
    rw [if_neg (by simp [Module.validValue, hl.usable.lt, hr.usable.lt])]
  have hmem := not_memoryOp_of_binary hop
  refine (build_quietly h.inv hcall rfl ht ?_ (by simpa [hl.type, hr.type] using htyped)
    (by simp) hmem (keyRuns_binary hop (by simpa [hl.type, hr.type] using hruns))).get.weaken
    fun v s' hq hv => ?_
  · simp only [List.mem_cons, List.not_mem_nil, or_false, forall_eq_or_imp, forall_eq]
    exact ⟨hl.usable, hr.usable⟩
  · obtain ⟨hc, hblock⟩ := hv
    have h' := (h.quiet hq).inv
    exact ⟨hasValue_of_computes h' hc hblock.symm, fun F ρ M₀ hm =>
      hm.binary h' hc hblock.symm hop⟩

end Build

/-! ### Words, addresses and flags -/

section Words

variable {t : Ty} {l r : Nat} {x y : X86Machine arch → BitVec arch.bits} {c : X86Machine arch → Bool}

theorem constInt_quietly (h : Lifting arch s) (ht : t = typeI arch.bits) (value : Word) (name : Name) :
    Quietly 1 (x86BuildConstU64 t value name) s fun v s' =>
      IsInt s' v fun _ : X86Machine arch => value.setWidth arch.bits := by
  subst ht
  refine (const_quietly h (.inl rfl) arch.bits_le arch.intType value name).weaken
    fun v s' hq hv => ⟨hv.1, fun F ρ M₀ M hc _ => ?_⟩
  rw [hv.2 F ρ M₀ hc]
  exact execValueMake_word (.inl rfl) rfl arch.bits_le value

theorem constAddr_quietly (h : Lifting arch s) (ht : t = typeAddr arch.bits) (value : Word)
    (name : Name) :
    Quietly 1 (x86BuildConstU64 t value name) s fun v s' =>
      IsAddr s' v fun _ : X86Machine arch => value.setWidth arch.bits := by
  subst ht
  refine (const_quietly h (.inr rfl) arch.bits_le arch.addrType value name).weaken
    fun v s' hq hv => ⟨hv.1, fun F ρ M₀ M hc _ => ?_⟩
  rw [hv.2 F ρ M₀ hc]
  exact execValueMake_word (.inr rfl) rfl arch.bits_le value

theorem constFalse_quietly (h : Lifting arch s) (name : Name) :
    Quietly 1 (x86BuildConstU64 (typeI 1) 0#64 name) s fun v s' =>
      IsBool s' v fun _ : X86Machine arch => false := by
  refine (const_quietly h (.inl rfl) (by decide) (by decide) 0#64 name).weaken
    fun v s' hq hv => ⟨hv.1, fun F ρ M₀ M hc _ => ?_⟩
  rw [hv.2 F ρ M₀ hc]
  exact execValueMake_bool false

/-- `x86_const_int`. -/
theorem x86ConstInt_quietly (h : Lifting arch s) (value : Word) (name : Name) :
    Quietly 1 (x86ConstInt value name) s fun v s' =>
      IsInt s' v fun _ : X86Machine arch => value.setWidth arch.bits :=
  (constInt_quietly h h.regType value name).get

/-- An arithmetic or logical operation on words. -/
theorem word_quietly (h : Lifting arch s) (ht : t = typeI arch.bits) {opcode : Opcode}
    (hop : opcode.isWordOp = true) (hne : opcode ≠ .addrAdd) (hl : IsInt s l x) (hr : IsInt s r y)
    (name : Name) :
    Quietly 1 (x86BuildBinary opcode t l r name) s fun v s' =>
      IsInt s' v fun M => wordOp opcode (x M) (y M) := by
  subst ht
  have htyped : typeRule opcode (typeI arch.bits) [typeI arch.bits, typeI arch.bits] = true := by
    cases opcode <;> simp [Opcode.isWordOp] at hop hne <;> simp [typeRule, typeI, Ty.isInt]
  have harity : opcode.arity = 2 ∧ opcode ≠ .load := by
    cases opcode <;> simp [Opcode.isWordOp] at hop <;> decide
  refine (binary_quietly h harity hl.value hr.value arch.intType htyped ?_ name).weaken
    fun v s' hq hv => ⟨hv.1, fun F ρ M₀ M hc ha => ?_⟩
  · intro a b hat hbt
    obtain ⟨w, hw⟩ := execBinaryOp_words (typeI arch.bits) (.inl hop)
      (execScalarU64Type_iff.mpr ⟨.inl (by rw [hat]; rfl), by rw [hat]; exact arch.bits_le⟩)
      (by rw [hbt]; exact arch.bits_le)
    exact ⟨_, hw⟩
  · have hl' := (hl.quiet h.inv hq.steps).meaning F ρ M₀ M hc ha
    have hr' := (hr.quiet h.inv hq.steps).meaning F ρ M₀ M hc ha
    have heval := hv.2 F ρ M₀ hc
    rw [hl', hr', Arch.int, Arch.int, execBinaryOp_wordOp hop arch.bits_le (.inl rfl) rfl rfl
      (.inl rfl) rfl] at heval
    exact (Except.ok.inj heval).symm

theorem addrAdd_quietly (h : Lifting arch s) (ht : t = typeAddr arch.bits) (hl : IsAddr s l x)
    (hr : IsInt s r y) (name : Name) :
    Quietly 1 (x86BuildBinary .addrAdd t l r name) s fun v s' => IsAddr s' v fun M => x M + y M := by
  subst ht
  have htyped : typeRule .addrAdd (typeAddr arch.bits) [typeAddr arch.bits, typeI arch.bits] = true := by
    simp [typeRule, typeI, typeAddr, Ty.isInt, Ty.isAddr]
  refine (binary_quietly h ⟨rfl, by decide⟩ hl.value hr.value arch.addrType htyped ?_ name).weaken
    fun v s' hq hv => ⟨hv.1, fun F ρ M₀ M hc ha => ?_⟩
  · intro a b hat hbt
    have hop : Opcode.isWordOp .addrAdd = true := rfl
    obtain ⟨w, hw⟩ := execBinaryOp_words (typeAddr arch.bits) (.inl hop)
      (execScalarU64Type_iff.mpr ⟨.inr (by rw [hat]; rfl), by rw [hat]; exact arch.bits_le⟩)
      (by rw [hbt]; exact arch.bits_le)
    exact ⟨_, hw⟩
  · have hl' := (hl.quiet h.inv hq.steps).meaning F ρ M₀ M hc ha
    have hr' := (hr.quiet h.inv hq.steps).meaning F ρ M₀ M hc ha
    have heval := hv.2 F ρ M₀ hc
    rw [hl', hr', Arch.addr, Arch.int, execBinaryOp_wordOp rfl arch.bits_le (.inr rfl) rfl rfl
      (.inr rfl) rfl] at heval
    exact (Except.ok.inj heval).symm

/-- The flags of an addition or a subtraction. -/
theorem flags_quietly (h : Lifting arch s) {opcode : Opcode}
    (hop : opcode = .flagsAdd ∨ opcode = .flagsSub) (hl : IsInt s l x) (hr : IsInt s r y)
    (name : Name) :
    Quietly 1 (x86BuildBinary opcode (typeFlags 6) l r name) s fun v s' =>
      IsFlags s' v fun M => (if opcode = .flagsAdd then x M + y M else x M - y M) == 0 := by
  have htyped : typeRule opcode (typeFlags 6) [typeI arch.bits, typeI arch.bits] = true := by
    rcases hop with rfl | rfl <;> simp [typeRule, typeI, typeFlags, Ty.isInt, Ty.isFlags]
  have harity : opcode.arity = 2 ∧ opcode ≠ .load := by
    rcases hop with rfl | rfl <;> decide
  refine (binary_quietly h harity hl.value hr.value (by decide) htyped ?_ name).weaken
    fun v s' hq hv => ⟨hv.1, fun F ρ M₀ M hc ha => ?_⟩
  · intro a b hat hbt
    have hscalar : execScalarU64Type a.type = true :=
      execScalarU64Type_iff.mpr ⟨.inl (by rw [hat]; rfl), by rw [hat]; exact arch.bits_le⟩
    have hal : ¬ 64 < a.type.bits := by rw [hat]; exact Nat.not_lt.mpr arch.bits_le
    have hbl : ¬ 64 < b.type.bits := by rw [hbt]; exact Nat.not_lt.mpr arch.bits_le
    have hint : a.type.isInt = true := by rw [hat]; rfl
    unfold execBinaryOp
    rcases hop with rfl | rfl <;> simp [hscalar, hal, hbl, hint]
  · have hl' := (hl.quiet h.inv hq.steps).meaning F ρ M₀ M hc ha
    have hr' := (hr.quiet h.inv hq.steps).meaning F ρ M₀ M hc ha
    have heval := hv.2 F ρ M₀ hc
    obtain ⟨w, hw, hzf⟩ := execBinaryOp_flags hop (typeFlags 6) arch.bits_le (x M) (y M)
    rw [hl', hr', Arch.int, Arch.int, hw] at heval
    rw [← Except.ok.inj heval, ← hzf]
    rfl

/-- Comparing a condition with false. -/
theorem not_quietly (h : Lifting arch s) (hl : IsBool s l c)
    (hr : IsBool s r fun _ : X86Machine arch => false) (name : Name) :
    Quietly 1 (x86BuildBinary .eq (typeI 1) l r name) s fun v s' => IsBool s' v fun M => !(c M) := by
  refine (binary_quietly h ⟨rfl, by decide⟩ hl.value hr.value (by decide) (by decide) ?_ name).weaken
    fun v s' hq hv => ⟨hv.1, fun F ρ M₀ M hc ha => ?_⟩
  · intro a b hat hbt
    obtain ⟨w, hw⟩ := execBinaryOp_words (typeI 1) (.inr rfl)
      (execScalarU64Type_iff.mpr ⟨.inl (by rw [hat]; rfl), by rw [hat]; decide⟩)
      (by rw [hbt]; decide)
    exact ⟨_, hw⟩
  · have hl' := (hl.quiet h.inv hq.steps).meaning F ρ M₀ M hc ha
    have hr' := (hr.quiet h.inv hq.steps).meaning F ρ M₀ M hc ha
    have heval := hv.2 F ρ M₀ hc
    rw [hl', hr', execBinaryOp_not] at heval
    exact (Except.ok.inj heval).symm

theorem execUnaryOp_cast_ok {opcode : Opcode} (hop : opcode = .intToAddr ∨ opcode = .addrToInt)
    {out : Ty} {a : ExecValue} (hout : execScalarU64Type out = true)
    (ha : execScalarU64Type a.type = true) : ∃ z, execUnaryOp opcode out a = .ok z := by
  rcases hop with rfl | rfl <;> simp [execUnaryOp, hout, ha]

/-- `x86_int_to_addr`. -/
theorem x86IntToAddr_quietly (h : Lifting arch s) (hl : IsInt s l x) :
    Quietly 1 (x86IntToAddr l) s fun v s' => IsAddr s' v x := by
  have hint : execScalarU64Type (typeI arch.bits) = true :=
    execScalarU64Type_iff.mpr ⟨.inl rfl, arch.bits_le⟩
  have haddr : execScalarU64Type (typeAddr arch.bits) = true :=
    execScalarU64Type_iff.mpr ⟨.inr rfl, arch.bits_le⟩
  refine Quietly.get ?_
  rw [h.addrType]
  refine (unary_quietly h rfl hl.value arch.addrType (by simp [typeRule, typeI, typeAddr, Ty.isInt,
    Ty.isAddr]) (fun a ha => execUnaryOp_cast_ok (.inl rfl) haddr (by rw [ha]; exact hint)) _).weaken
    fun v s' hq hv => ⟨hv.1, fun F ρ M₀ M hc ha => ?_⟩
  have hl' := (hl.quiet h.inv hq.steps).meaning F ρ M₀ M hc ha
  have heval := hv.2 F ρ M₀ hc
  rw [hl', Arch.int, execUnaryOp_cast (.inl rfl) arch.bits_le (.inl rfl) rfl (.inr rfl) rfl] at heval
  exact (Except.ok.inj heval).symm

/-- `x86_addr_to_int`. -/
theorem x86AddrToInt_quietly (h : Lifting arch s) (hl : IsAddr s l x) :
    Quietly 1 (x86AddrToInt l) s fun v s' => IsInt s' v x := by
  have hint : execScalarU64Type (typeI arch.bits) = true :=
    execScalarU64Type_iff.mpr ⟨.inl rfl, arch.bits_le⟩
  have haddr : execScalarU64Type (typeAddr arch.bits) = true :=
    execScalarU64Type_iff.mpr ⟨.inr rfl, arch.bits_le⟩
  refine Quietly.get ?_
  rw [h.regType]
  refine (unary_quietly h rfl hl.value arch.intType (by simp [typeRule, typeI, typeAddr, Ty.isInt,
    Ty.isAddr]) (fun a ha => execUnaryOp_cast_ok (.inr rfl) hint (by rw [ha]; exact haddr)) _).weaken
    fun v s' hq hv => ⟨hv.1, fun F ρ M₀ M hc ha => ?_⟩
  have hl' := (hl.quiet h.inv hq.steps).meaning F ρ M₀ M hc ha
  have heval := hv.2 F ρ M₀ hc
  rw [hl', Arch.addr, execUnaryOp_cast (.inr rfl) arch.bits_le (.inr rfl) rfl (.inl rfl) rfl] at heval
  exact (Except.ok.inj heval).symm

/-- The flags of a logical result. -/
theorem flagsLogic_quietly (h : Lifting arch s) (hl : IsInt s l x) (name : Name) :
    Quietly 1 (x86BuildUnary .flagsLogic (typeFlags 6) l name) s fun v s' =>
      IsFlags s' v fun M => x M == 0 := by
  refine (unary_quietly h rfl hl.value (by decide) (by simp [typeRule, typeI, typeFlags, Ty.isInt,
    Ty.isFlags]) ?_ name).weaken fun v s' hq hv => ⟨hv.1, fun F ρ M₀ M hc ha => ?_⟩
  · intro a hat
    have hbits : ¬ 64 < a.type.bits := by rw [hat]; exact Nat.not_lt.mpr arch.bits_le
    have hint : a.type.isInt = true := by rw [hat]; rfl
    simp [execUnaryOp, hint, hbits, typeFlags, Ty.isFlags]
  · have hl' := (hl.quiet h.inv hq.steps).meaning F ρ M₀ M hc ha
    have heval := hv.2 F ρ M₀ hc
    have hout : (typeFlags 6).isFlags = true := rfl
    obtain ⟨w, hw, hzf⟩ := execUnaryOp_flagsLogic hout arch.bits_le (x M)
    rw [hl', Arch.int, hw] at heval
    rw [← Except.ok.inj heval, ← hzf]
    rfl

/-- The zero flag of a flags word. -/
theorem flagZf_quietly (h : Lifting arch s) (hl : IsFlags s l c) (name : Name) :
    Quietly 1 (x86BuildUnary .flagZf (typeI 1) l name) s fun v s' => IsBool s' v c := by
  refine (unary_quietly h rfl hl.value (by decide) (by decide) (fun a _ => ⟨_, rfl⟩) name).weaken
    fun v s' hq hv => ⟨hv.1, fun F ρ M₀ M hc ha => ?_⟩
  have hl' := (hl.quiet h.inv hq.steps).meaning F ρ M₀ M hc ha
  have heval := hv.2 F ρ M₀ hc
  have hbool : execUnaryOp .flagZf (typeI 1) (ρ.value l) = .ok (boolValue (c M)) := by
    show Except.ok (execValueMake (typeI 1) (boolU64 _) 0#64) = _
    rw [hl', execValueMake_bool]
  rw [hbool] at heval
  exact (Except.ok.inj heval).symm

end Words

/-! ### Registers and memory -/

theorem x86RegSupported_lt {reg : X86Reg} (h : x86RegSupported arch reg = true) :
    reg < x86RegCount := by
  unfold x86RegSupported at h
  rw [Bool.and_eq_true, decide_eq_true_eq] at h
  exact h.1

/-- There is room for every register among the inputs. -/
theorem LiftInv.inputs_lt (h : LiftInv s) {reg : X86Reg} (hs : x86RegSupported s.arch reg = true)
    (hnone : s.regs reg = none) : s.result.inputRegs.length < liftMaxRegOutputs := by
  have hnd : (reg :: s.result.inputRegs.map Prod.fst).Nodup := by
    refine List.nodup_cons.mpr ⟨fun hmem => ?_, h.inputs_nodup⟩
    obtain ⟨p, hp, rfl⟩ := List.mem_map.mp hmem
    obtain ⟨v, hv⟩ := h.inputs p hp
    rw [hnone] at hv
    cases hv
  have hsub : reg :: s.result.inputRegs.map Prod.fst ⊆ List.range x86RegCount := by
    intro r hr
    rw [List.mem_range]
    rcases List.mem_cons.mp hr with rfl | hr
    · exact x86RegSupported_lt hs
    · obtain ⟨p, hp, rfl⟩ := List.mem_map.mp hr
      obtain ⟨v, hv⟩ := h.inputs p hp
      exact x86RegSupported_lt (h.regs _ v hv).1
  have hlen := (List.Nodup.subperm hnd hsub).length_le
  rw [List.length_cons, List.length_map, List.length_range] at hlen
  exact hlen

/-- The value of a register stands for what is in it. -/
theorem Lifting.reg (h : Lifting arch s) {reg : X86Reg} {v : Nat} (hv : s.regs reg = some v) :
    IsInt s v fun M : X86Machine arch => M.regs reg := by
  refine ⟨?_, fun F ρ M₀ M _ ha => ha.regs reg v hv⟩
  have hval := (h.inv.regs reg v hv).2
  rw [h.regType] at hval
  exact hval

/-- `x86_ensure_reg`. -/
theorem x86EnsureReg_quietly (h : Lifting arch s) {reg : X86Reg}
    (hs : x86RegSupported arch reg = true) :
    Quietly 1 (x86EnsureReg reg) s fun v s' => IsInt s' v fun M : X86Machine arch => M.regs reg := by
  refine Quietly.get ?_
  rw [← h.arch_eq] at hs
  rw [if_neg (by simp [hs])]
  cases hreg : s.regs reg with
  | some v => exact Quietly.pure (h.reg hreg)
  | none =>
    have htype : (x86RegType s.arch).isValueType = true := s.arch.intType
    rcases blockAddParam_draft h.inv.draft htype (some (x86RegNameForState s.arch reg)) with
      ⟨v, m', he, ha⟩ | ⟨he, hfull⟩
    · have hroom := h.inv.inputs_lt hs hreg
      have hq := (QuietSteps.refl 0 s).step (.param hreg hs ha)
      have hint := (h.lift hq.lift).reg (v := v) (if_pos rfl)
      refine Effect.ensures_bind_of_ok (build_of_ok he) ?_
      exact Effect.ensures_ite (fun hc => absurd hc (Nat.not_le.mpr hroom)) fun _ =>
        ⟨⟨hq, rfl⟩, hint⟩
    · exact Effect.ensures_bind_of_error (build_of_error he) ⟨rfl, .refl _ _, hfull⟩

/-- `x86_ensure_memory`. -/
theorem x86EnsureMemory_lifts (h : Lifting arch s) :
    Lifts 1 x86EnsureMemory s fun v s' => QuietSteps 1 s s' ∧ s'.memory = some v := by
  refine Lifts.get ?_
  cases hmem : s.memory with
  | some v => exact Lifts.pure ⟨.refl 1 s, hmem⟩
  | none =>
    have htype : s.memoryType.isValueType = true := by
      cases ha : s.arch <;> simp [LiftState.memoryType, typeMem, Ty.isValueType, Ty.isValid,
        validAddrBits, ha, Arch.bits]
    rcases blockAddParam_draft h.inv.draft htype (some (literalName "mem")) with
      ⟨v, m', he, ha⟩ | ⟨he, hfull⟩
    · have hq := (QuietSteps.refl 0 s).step (.memParam hmem ha)
      exact Effect.ensures_bind_of_ok (build_of_ok he) ⟨hq.lift, hq, rfl⟩
    · exact Effect.ensures_bind_of_error (build_of_error he) ⟨rfl, .refl _ _, hfull⟩

/-! ### Addresses -/

section Address

variable {x y : X86Machine arch → BitVec arch.bits} {mem : X86MemoryOperand}

theorem IsInt.congr {v : Nat} (hv : IsInt s v x) (hxy : ∀ M, x M = y M) : IsInt s v y :=
  ⟨hv.value, fun F ρ M₀ M hc ha => (hv.meaning F ρ M₀ M hc ha).trans (by rw [hxy])⟩

theorem IsAddr.congr {v : Nat} (hv : IsAddr s v x) (hxy : ∀ M, x M = y M) : IsAddr s v y :=
  ⟨hv.value, fun F ρ M₀ M hc ha => (hv.meaning F ρ M₀ M hc ha).trans (by rw [hxy])⟩

/-- An address under construction: no value yet stands for zero. -/
def PartAddr (s : LiftState) (v : Option Nat) (x : X86Machine arch → BitVec arch.bits) : Prop :=
  match v with
  | none => ∀ M, x M = 0
  | some v => IsAddr s v x

theorem PartAddr.quiet (h : LiftInv s) (hs : QuietSteps n s s') {v : Option Nat}
    (hv : PartAddr s v x) : PartAddr s' v x := by
  cases v with
  | none => exact hv
  | some v => exact IsAddr.quiet h hs hv

theorem x86MemoryBase_quietly (h : Lifting arch s)
    (hs : mem.hasBase = true → x86RegSupported arch mem.base = true) :
    Quietly 2 (x86MemoryBase mem) s fun v s' =>
      PartAddr s' v fun M : X86Machine arch => if mem.hasBase then M.regs mem.base else 0 := by
  unfold x86MemoryBase
  by_cases hb : mem.hasBase = true
  · simp only [hb, if_true]
    refine (x86EnsureReg_quietly h (hs hb)).bind (k := 1) fun v s₁ hq hv => ?_
    refine (x86IntToAddr_quietly (h.quiet hq) hv).bind (k := 0) fun a s₂ _ ha => ?_
    exact Quietly.pure ha
  · simp only [hb]
    exact Quietly.pure fun _ => rfl

theorem x86ScaledIndex_quietly (h : Lifting arch s) {index : Nat} (hv : IsInt s index x) :
    Quietly 2 (x86ScaledIndex mem index) s fun v s' =>
      IsInt s' v fun M => x M * BitVec.ofNat arch.bits mem.scale := by
  unfold x86ScaledIndex
  split
  · refine Quietly.get ((x86ConstInt_quietly h _ _).bind (k := 1) fun c s₁ hq hc => ?_)
    refine (word_quietly (h.quiet hq) h.regType rfl (by decide) (hv.quiet h.inv hq.steps) hc _).weaken
      fun a s₂ _ ha => ha.congr fun M => ?_
    rw [BitVec.setWidth_ofNat_of_le arch.bits_le]
    rfl
  · next hscale =>
    refine Quietly.pure (hv.congr fun M => ?_)
    rw [not_not.mp hscale]
    exact (BitVec.mul_one _).symm

theorem x86MemoryIndex_quietly (h : Lifting arch s)
    (hs : mem.hasIndex = true → x86RegSupported arch mem.index = true) {addr : Option Nat}
    (ha : PartAddr s addr x) :
    Quietly 4 (x86MemoryIndex mem addr) s fun v s' => PartAddr s' v fun M => x M +
      if mem.hasIndex then M.regs mem.index * BitVec.ofNat arch.bits mem.scale else 0 := by
  unfold x86MemoryIndex
  by_cases hi : mem.hasIndex = true
  · simp only [hi, if_true]
    refine Quietly.get ((x86EnsureReg_quietly h (hs hi)).bind (k := 3) fun index s₁ hq hv => ?_)
    have h₁ := h.quiet hq
    refine (x86ScaledIndex_quietly h₁ hv).bind (k := 1) fun scaled s₂ hq' hv' => ?_
    have h₂ := h₁.quiet hq'
    have ha' := (ha.quiet h.inv hq.steps).quiet h₁.inv hq'.steps
    cases addr with
    | none =>
      refine (x86IntToAddr_quietly h₂ hv').bind (k := 0) fun a s₃ _ hv'' => ?_
      refine Quietly.pure (IsAddr.congr hv'' fun M => ?_)
      rw [ha' M]
      exact (BitVec.zero_add _).symm
    | some a =>
      refine (addrAdd_quietly h₂ h.addrType ha' hv' _).bind (k := 0) fun a s₃ _ hv'' => ?_
      exact Quietly.pure hv''
  · simp only [hi]
    refine Quietly.pure ?_
    cases addr with
    | none => exact fun M => (BitVec.add_zero _).trans (ha M)
    | some a => exact IsAddr.congr ha fun M => (BitVec.add_zero _).symm

theorem x86AddI64_eq (a b : Word) : x86AddI64 a b = a + b := by
  unfold x86AddI64
  split
  · rw [BitVec.sub_neg]
  · rfl

/-- `x86_build_memory_address`. -/
theorem x86BuildMemoryAddress_quietly (h : Lifting arch s) (hs : mem.Supported arch) (next : Word) :
    Quietly 8 (x86BuildMemoryAddress mem next) s fun v s' =>
      IsAddr s' v fun M : X86Machine arch => M.address mem next := by
  refine Quietly.get ?_
  rcases hs with hk | ⟨hk, hbase, hindex⟩
  · rw [hk]
    refine (constAddr_quietly h h.addrType _ _).mono (by omega) |>.weaken fun v s' _ hv =>
      hv.congr fun M => ?_
    rw [X86Machine.address, hk, x86AddI64_eq]
  · rw [hk]
    dsimp only
    refine (x86MemoryBase_quietly h hbase).bind (k := 6) fun addr s₁ hq ha => ?_
    have h₁ := h.quiet hq
    refine (x86MemoryIndex_quietly h₁ hindex ha).bind (k := 2) fun addr' s₂ hq' ha' => ?_
    have h₂ := h₁.quiet hq'
    cases addr' with
    | none =>
      refine (constAddr_quietly h₂ h.addrType _ _).mono (by omega) |>.weaken fun v s' _ hv =>
        hv.congr fun M => ?_
      have hz := ha' M
      dsimp only at hz
      simp only [X86Machine.address, hk]
      rw [hz]
      exact (BitVec.zero_add _).symm
    | some a =>
      refine Effect.ensures_ite (fun _ => ?_) fun hd => ?_
      · refine Quietly.get ((x86ConstInt_quietly h₂ _ _).bind (k := 1) fun d s₃ hq'' hd => ?_)
        refine (addrAdd_quietly (h₂.quiet hq'') h₂.addrType (IsAddr.quiet h₂.inv hq''.steps ha') hd _).weaken
          fun v s' _ hv => hv.congr fun M => ?_
        simp only [X86Machine.address, hk]
      · refine Quietly.pure (IsAddr.congr ha' fun M => ?_)
        simp only [X86Machine.address, hk, not_not.mp hd]
        rw [BitVec.setWidth_zero, BitVec.add_zero]

end Address

end Xair
