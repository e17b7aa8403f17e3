import Xair.LiftBlock

/-!
# Lifted blocks verify

`xair_lift_basic_block` returns `XAIR_OK` or `XAIR_ERR_RANGE`, the latter only when the
image cuts the stream off or the ids run out, and the module of a successful lift
passes the verifier (`lift_verified`).  A lift that fails after the block was created
leaves the block open (`failedLift_intact_iff`).
-/

namespace Xair

variable {m : Module} {b : Nat} {image : Image} {options : LiftOptions} {emit : Bool}

/-- The stream of a lift. -/
def LiftOptions.stream (options : LiftOptions) (image : Image) :
    List (X86DecodedInst × Word) × StreamEnd :=
  x86Stream image options.arch options.limit options.address

theorem lifting_start (h : Draft m b) (options : LiftOptions) (emit : Bool) :
    Lifting options.arch (liftStart m options b emit) where
  inv :=
    { draft := h
      regs := fun _ _ hv => by cases hv
      written := fun _ hw => by cases hw
      memory := fun _ hv => by cases hv
      memoryIn := fun _ => rfl
      zf := fun _ hv => by cases hv
      inputs := fun _ hp => by cases hp
      inputs_nodup := List.nodup_nil
      outputs := rfl
      returns := rfl
      running := rfl
      noCondition := rfl }
  arch_eq := rfl

/-- How a lift into a draft ends. -/
inductive LiftOutcome (image : Image) (options : LiftOptions) (s : LiftState) (out : Lifted) : Prop
  | ok {s' : LiftState} : out = ⟨.ok, s'.module, s'.result⟩ →
      (options.stream image).2 ≠ .cutOff →
      BlockLifted options.arch (options.stream image).1 (options.stream image).2 s s' →
      LiftOutcome image options s out
  | failed {s' : LiftState} : out = ⟨.errRange, s'.module, s'.result⟩ →
      LiftSteps (11 * (options.stream image).1.length + 2) s s' →
      (options.stream image).2 = .cutOff ∨ s'.module.values.length = uint32Max →
      LiftOutcome image options s out

theorem liftFrom_outcome (h : Draft m b) (image : Image) (options : LiftOptions) (emit : Bool) :
    LiftOutcome image options (liftStart m options b emit)
      (liftFrom image options (liftStart m options b emit)) := by
  have hloop := x86LiftLoop_lifts image options.limit (lifting_start h options emit)
  change LiftsStream options.arch (options.stream image) _ _ at hloop
  unfold LiftsStream at hloop
  unfold liftFrom
  rcases hx : x86LiftLoop image options.limit (liftStart m options b emit) with ⟨e | ⟨⟩, s'⟩
  · obtain ⟨rfl, hs, hwhy⟩ := hloop.error hx
    exact .failed rfl hs hwhy
  · obtain ⟨hne, hb⟩ := hloop.ok hx
    exact .ok rfl hne hb

/-- The entry or the bytes of an instruction lie outside the image. -/
def LiftOptions.CutOff (options : LiftOptions) (image : Image) : Prop :=
  imageOffset image options.address = none ∨ (options.stream image).2 = .cutOff

/-- There are value ids for every instruction of the stream. -/
def LiftOptions.ValueRoom (options : LiftOptions) (image : Image) (m : Module) : Prop :=
  m.values.length + (11 * (options.stream image).1.length + 2) < uint32Max

theorem LiftEnds.returns {s t s' : LiftState} {r : LiftResult} {arch : Arch}
    {insts : List (X86DecodedInst × Word)} {stop : StreamEnd} (hs : Lifting arch s)
    (h : LiftEnds arch insts stop s t r s') : LiftFrame s t ∧ s'.result.returnValues =
      ({ t with result := r } : LiftState).returns ∧
      ∀ v ∈ s'.result.returnValues, t.module.Usable t.block v := by
  have hinv := (hs.lift h.steps).inv
  have hret : s'.result.returnValues = ({ t with result := r } : LiftState).returns := by
    rw [h.finished.result]
    rfl
  refine ⟨h.steps.frame hs.inv.draft, hret, ?_⟩
  rw [hret]
  exact hinv.returns_usable h.ends.condition.usable

theorem LiftEnds.returned {s t s' : LiftState} {r : LiftResult} {arch : Arch}
    {insts : List (X86DecodedInst × Word)} {stop : StreamEnd} (hs : Lifting arch s)
    (h : LiftEnds arch insts stop s t r s') (he : s.emitReturnTerminator = true) :
    ∃ m', GrowsIn s.block s.module m' ∧ m'.WF ∧
      Returned s.block s'.result.returnValues m' s'.module := by
  obtain ⟨hf, hret, -⟩ := h.returns hs
  have hclosed := h.finished.closed (hf.emit.trans he)
  refine ⟨t.module, hf.extends_, hf.draft.wf, ?_⟩
  rw [hret, ← hf.block]
  exact hclosed

theorem LiftOutcome.errRange {out : Lifted}
    (h : LiftOutcome image options (liftStart m options b emit) out) :
    (out.status = .ok ∨ out.status = .errRange) ∧
      (out.status = .errRange → options.CutOff image ∨
        out.module.values.length = uint32Max ∧ ¬ options.ValueRoom image m) := by
  cases h with
  | ok hout _ _ =>
    subst hout
    exact ⟨.inl rfl, fun he => by cases he⟩
  | failed hout hs hwhy =>
    subst hout
    refine ⟨.inr rfl, fun _ => hwhy.imp .inr fun hfull => ⟨hfull, ?_⟩⟩
    have hle := hs.values_le
    rw [hfull] at hle
    change uint32Max ≤ m.values.length + (11 * (options.stream image).1.length + 2) at hle
    exact Nat.not_lt.mpr hle

/-- **Lifted blocks verify.** -/
theorem lift_verified (h : m.Reachable) (hf : m.frozen = false) (image : Image)
    (options : LiftOptions) :
    (m.Verified →
      let out := liftBasicBlock m image options
      (out.status = .ok ∨ out.status = .errRange) ∧
      (out.status = .errRange → options.CutOff image ∨ m.blocks.length = uint32Max ∨
        out.module.values.length = uint32Max ∧ ¬ options.ValueRoom image m) ∧
      (out.status = .ok → out.module.Verified)) ∧
    ∀ b, m.OpenBlock b → OpsOk m b (m.blockRec b).ops (m.availableAtStart b) → m.OthersOk b →
      let out := liftBlockBodyInto m image options b
      (out.status = .ok ∨ out.status = .errRange) ∧
      (out.status = .errRange → options.CutOff image ∨
        out.module.values.length = uint32Max ∧ ¬ options.ValueRoom image m) ∧
      (out.status = .ok → ∃ m',
        setReturn out.module b (.array out.result.returnValues) = (m', .ok ()) ∧ m'.Verified) := by
  have hwf := wf_reachable h
  refine ⟨fun hver => ?_, fun b hopen hops hothers => ?_⟩
  · dsimp only
    unfold liftBasicBlock
    cases hoff : imageOffset image options.address with
    | none => exact ⟨.inr rfl, fun _ => .inl (.inl hoff), fun he => by cases he⟩
    | some offset =>
      rcases blockCreate_draft hwf hf (some (liftBlockName options)) with
        ⟨b, m₁, hrun, hb⟩ | ⟨hrun, hfull⟩
      · rw [hrun]
        dsimp only
        have hout := liftFrom_outcome hb.draft image options true
        obtain ⟨h1, h2⟩ := hout.errRange
        refine ⟨h1, fun he => (h2 he).imp id fun hr => .inr ⟨hr.1, ?_⟩, fun hok => ?_⟩
        · obtain ⟨name, hm₁⟩ := hb.change
          rw [hm₁] at hr
          exact hr.2
        · cases hout with
          | ok heq _ hl =>
            obtain ⟨t, r, hl⟩ := hl
            obtain ⟨m₂, hg, hwf₂, hret⟩ := hl.returned (lifting_start hb.draft options true) rfl
            rw [heq]
            exact hret.verified hwf₂ ((hb.othersOk hwf hver).extends hb.draft.wf hg)
          | failed heq _ _ =>
            rw [heq] at hok
            cases hok
      · rw [hrun]
        exact ⟨.inr rfl, fun _ => .inr (.inl hfull), fun he => by cases he⟩
  · dsimp only
    unfold liftBlockBodyInto
    rw [if_neg (by simp [Module.validBlock, hopen.1])]
    cases hoff : imageOffset image options.address with
    | none => exact ⟨.inr rfl, fun _ => .inl (.inl hoff), fun he => by cases he⟩
    | some offset =>
      dsimp only
      have hdraft : Draft m b := ⟨hwf, hf, hopen, hops⟩
      have hout := liftFrom_outcome hdraft image options false
      obtain ⟨h1, h2⟩ := hout.errRange
      refine ⟨h1, h2, fun hok => ?_⟩
      cases hout with
      | ok heq _ hl =>
        obtain ⟨t, r, hl⟩ := hl
        obtain ⟨hfr, -, hus⟩ := hl.returns (lifting_start hdraft options false)
        have hmod := hl.finished.unclosed hfr.emit
        have hblock : t.block = b := hfr.block
        have hd := hfr.draft
        rw [hblock] at hd hus
        rw [heq]
        dsimp only
        rw [hmod]
        obtain ⟨m', hset, hret⟩ := setReturn_draft hd hus
        exact ⟨m', hset, hret.verified hd.wf (hothers.extends hwf hfr.extends_)⟩
      | failed heq _ _ =>
        rw [heq] at hok
        cases hok

/-- `add rax, rbx; ret` at address `0x1000`. -/
def addRetImage : Image := ⟨[0x48#8, 0x01#8, 0xd8#8, 0xc3#8], 0x1000#64⟩

def addRetOptions : LiftOptions := ⟨.x8664, 0x1000#64, 0, 8, none⟩

theorem lift_verified_addRet :
    (liftBasicBlock Module.create addRetImage addRetOptions).module.Verified ∧
      ∃ m', setReturn
        (liftBlockBodyInto (runCalls Module.create [.blockCreate none]) addRetImage addRetOptions
          0).module 0 (.array (liftBlockBodyInto (runCalls Module.create [.blockCreate none])
            addRetImage addRetOptions 0).result.returnValues) = (m', .ok ()) ∧ m'.Verified :=
  ⟨((lift_verified ⟨[], rfl⟩ rfl addRetImage addRetOptions).1 (by decide)).2.2 (by decide +kernel),
    ((lift_verified ⟨[.blockCreate none], rfl⟩ rfl addRetImage addRetOptions).2 0
      ⟨by decide, by decide⟩ trivial (fun c hc hne => absurd (Nat.lt_one_iff.mp hc) hne)).2.2
      (by decide +kernel)⟩

/-! ### Lifts that fail -/

/-- The failing lift leaves the module as it was. -/
def FailsIntact (m : Module) (image : Image) (options : LiftOptions) : Prop :=
  let out := liftBasicBlock m image options
  out.status ≠ .ok → SameCore m out.module ∧ (m.Verified → out.module.Verified)

/-- **A failing lift leaves its open block behind.**  The module stays as it was when the
entry is outside the image, when no block id is left, or when no instruction of the
stream is cut off and the value ids suffice; and whenever it does, one of the three
holds, except for the value ids. -/
theorem failedLift_intact_iff (h : m.Reachable) (hf : m.frozen = false) (image : Image)
    (options : LiftOptions) :
    (FailsIntact m image options → imageOffset image options.address = none ∨
      m.blocks.length = uint32Max ∨ (options.stream image).2 ≠ .cutOff) ∧
    ((imageOffset image options.address = none ∨ m.blocks.length = uint32Max ∨
      ((options.stream image).2 ≠ .cutOff ∧ options.ValueRoom image m)) →
      FailsIntact m image options) := by
  have hwf := wf_reachable h
  unfold FailsIntact liftBasicBlock
  cases hoff : imageOffset image options.address with
  | none => exact ⟨fun _ => .inl rfl, fun _ _ => ⟨.refl m, id⟩⟩
  | some offset =>
    rcases blockCreate_draft hwf hf (some (liftBlockName options)) with
      ⟨b, m₁, hrun, hb⟩ | ⟨hrun, hfull⟩
    · have hroom : m.blocks.length ≠ uint32Max := by
        intro hfull
        rw [blockCreate, if_neg (by simp [hf]), if_pos (Nat.le_of_eq hfull.symm)] at hrun
        cases hrun
      rw [hrun]
      dsimp only
      have hout := liftFrom_outcome hb.draft image options true
      obtain ⟨-, h2⟩ := hout.errRange
      refine ⟨fun hintact => ?_, fun hc hne => ?_⟩
      · by_cases hcut : (options.stream image).2 = .cutOff
        · cases hout with
          | ok _ hne _ => exact absurd hcut hne
          | failed heq hs _ =>
            -- the block that was created is still there
            have hlen := (hs.frame hb.draft).extends_.blocks
            obtain ⟨name, hm₁⟩ := hb.change
            have hsame := (hintact (by rw [heq]; simp)).1
            rw [heq] at hsame
            have hb' := congrArg List.length hsame.blocks
            change _ = m₁.blocks.length at hlen
            rw [hm₁] at hlen
            simp only [Module.withBlock, List.length_append, List.length_singleton] at hlen
            dsimp only at hb'
            omega
        · exact .inr (.inr hcut)
      · rcases hc with hc | hc | ⟨hcut, hvals⟩
        · cases hc
        · exact absurd hc hroom
        · exfalso
          have hvals' : options.ValueRoom image m₁ := by
            obtain ⟨name, hm₁⟩ := hb.change
            rw [hm₁]
            exact hvals
          rcases hout.errRange.1 with hok | herr
          · exact hne hok
          · rcases h2 herr with (hc | hc) | hc
            · rw [hoff] at hc
              cases hc
            · exact hcut hc
            · exact hc.2 hvals'
    · rw [hrun]
      exact ⟨fun _ => .inr (.inl hfull), fun _ _ => ⟨.refl m, id⟩⟩

/-- `nop`, and the first two bytes of a `mov rax, imm64`. -/
def cutMovImage : Image := ⟨[0x90#8, 0x48#8, 0xb8#8], 0x1000#64⟩

/-- The room is counted on the stream, not on the limit, which may be the largest there is. -/
theorem failedLift_intact_iff_addRet :
    FailsIntact Module.create addRetImage { addRetOptions with maxInstructions := 2 ^ 64 - 1 } ∧
      ¬ FailsIntact Module.create cutMovImage addRetOptions := by
  refine ⟨(failedLift_intact_iff ⟨[], rfl⟩ rfl addRetImage
    { addRetOptions with maxInstructions := 2 ^ 64 - 1 }).2
    (.inr (.inr ⟨by decide +kernel, by unfold LiftOptions.ValueRoom; decide +kernel⟩)),
    fun h => ?_⟩
  have hcut := (failedLift_intact_iff ⟨[], rfl⟩ rfl cutMovImage addRetOptions).1 h
  revert hcut
  decide +kernel

/-- The second instruction is cut off: the block that the lift created stays, with no
terminator, and the verifier refuses the module. -/
theorem failedLift_not_intact :
    (liftBasicBlock Module.create cutMovImage addRetOptions).status = .errRange ∧
      Module.create.Verified ∧
      ¬ (liftBasicBlock Module.create cutMovImage addRetOptions).module.Verified ∧
      ¬ FailsIntact Module.create cutMovImage addRetOptions := by
  have hstatus : (liftBasicBlock Module.create cutMovImage addRetOptions).status = .errRange := by
    decide +kernel
  have hver : Module.create.Verified := by decide
  have hbad : ¬ (liftBasicBlock Module.create cutMovImage addRetOptions).module.Verified := by
    decide +kernel
  refine ⟨hstatus, hver, hbad, fun h => ?_⟩
  exact hbad ((h (by rw [hstatus]; decide)).2 hver)

end Xair
