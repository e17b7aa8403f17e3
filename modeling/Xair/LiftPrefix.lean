import Xair.LiftRecord

/-!
# Lifting with a smaller limit

With a smaller limit the stream is shorter (`x86Stream_take`), so the block is a prefix of the
block of the longer lift, with the same ids.  An instruction that is refused builds nothing: the
lift that stops in front of it leaves the same module (`liftBasicBlock_prefix`).
-/

namespace Xair

open Effect (Ensures)

variable {arch : Arch} {s s' t : LiftState} {n : Nat} {image : Image}

/-! ### A shorter stream -/

theorem x86Stream_take (image : Image) (arch : Arch) {n N : Nat} {pc : Word}
    (h : n ≤ (x86Stream image arch N pc).1.length) :
    ∃ a, x86Stream image arch n pc = ((x86Stream image arch N pc).1.take n, .limit a) := by
  induction n generalizing N pc with
  | zero => exact ⟨pc, by rw [List.take_zero]; rfl⟩
  | succ n ih =>
    cases N with
    | zero => exact absurd h (by simp [x86Stream])
    | succ N =>
      cases x86Stream_step image arch N pc with
      | @goes inst hat he hst =>
        rw [hst] at h ⊢
        obtain ⟨a, ha⟩ := ih (Nat.le_of_succ_le_succ h)
        obtain ⟨offset, ho, hd⟩ := hat
        refine ⟨a, ?_⟩
        rw [x86Stream, ho]
        simp only [hd, he]
        rw [ha]
        rfl
      | ends _ _ hst =>
        rw [hst] at h
        exact absurd h (by simp)
      | stops _ hst _ _ =>
        rw [hst] at h
        exact absurd h (by simp)

/-! ### Prefixes of a block -/

/-- Block `b` of `m` is a prefix of block `b` of `m'`: its ids come first, and their records are
the same. -/
structure BlockPrefix (b : Nat) (m m' : Module) : Prop where
  params : (m.blockRec b).params <+: (m'.blockRec b).params
  ops : (m.blockRec b).ops <+: (m'.blockRec b).ops
  values_le : m.values.length ≤ m'.values.length
  ops_le : m.ops.length ≤ m'.ops.length
  valueRec : ∀ v < m.values.length, m'.valueRec v = m.valueRec v
  opRec : ∀ o < m.ops.length, m'.opRec o = m.opRec o

section Prefix

variable {b : Nat} {m m' m'' : Module}

theorem BlockPrefix.of_grows (h : Grows m m')
    (hp : (m.blockRec b).params <+: (m'.blockRec b).params)
    (ho : (m.blockRec b).ops <+: (m'.blockRec b).ops) : BlockPrefix b m m' :=
  ⟨hp, ho, h.values_le, h.ops_le, h.valueRec, h.opRec⟩

theorem BlockPrefix.refl (b : Nat) (m : Module) : BlockPrefix b m m :=
  .of_grows (.refl m) (List.prefix_refl _) (List.prefix_refl _)

theorem BlockPrefix.trans (h : BlockPrefix b m m') (h' : BlockPrefix b m' m'') :
    BlockPrefix b m m'' where
  params := h.params.trans h'.params
  ops := h.ops.trans h'.ops
  values_le := Nat.le_trans h.values_le h'.values_le
  ops_le := Nat.le_trans h.ops_le h'.ops_le
  valueRec v hv := by
    rw [h'.valueRec v (Nat.lt_of_lt_of_le hv h.values_le), h.valueRec v hv]
  opRec o ho := by
    rw [h'.opRec o (Nat.lt_of_lt_of_le ho h.ops_le), h.opRec o ho]

theorem blockPrefix_sameCore (h : SameCore m m') : BlockPrefix b m m' :=
  .of_grows (grows_sameCore h) (prefix_of_eq (congrArg BlockRec.params (h.blockRec b).symm))
    (prefix_of_eq (congrArg BlockRec.ops (h.blockRec b).symm))

theorem ParamAdded.blockPrefix {c : Nat} {ty : Ty} {v : Nat} (h : ParamAdded c ty m v m') :
    BlockPrefix b m m' := by
  obtain ⟨name, hm⟩ := h.change
  refine .of_grows h.extends_.grows ?_ ?_ <;> rw [hm, m.blockRec_withParam] <;> split
  · next hc =>
    obtain ⟨rfl, -⟩ := hc
    exact List.prefix_append _ _
  · exact List.prefix_refl _
  · next hc =>
    obtain ⟨rfl, -⟩ := hc
    exact List.prefix_refl _
  · exact List.prefix_refl _

theorem OpAdded.blockPrefix {k : OpKey} {v : Nat} (h : OpAdded k m v m') : BlockPrefix b m m' := by
  rcases h.change with hc | ⟨-, name, hc⟩
  · exact blockPrefix_sameCore hc
  · refine .of_grows h.extends_.grows ?_ ?_ <;> rw [hc.blockRec, m.blockRec_withOp] <;> split
    · next hb =>
      obtain ⟨rfl, -⟩ := hb
      exact List.prefix_refl _
    · exact List.prefix_refl _
    · next hb =>
      obtain ⟨rfl, -⟩ := hb
      exact List.prefix_append _ _
    · exact List.prefix_refl _

theorem LiftStep.blockPrefix (h : LiftStep s s') : BlockPrefix b s.module s'.module := by
  cases h with
  | quiet h =>
    cases h with
    | param _ _ ha => exact ha.blockPrefix
    | memParam _ ha => exact ha.blockPrefix
    | op _ _ _ ha => exact ha.blockPrefix
    | same hc _ => exact blockPrefix_sameCore hc
  | load h =>
    cases h with
    | load _ _ _ _ ha => exact ha.blockPrefix
  | store h =>
    cases h with
    | store _ _ _ _ _ ha => exact ha.blockPrefix
  | note h => cases h <;> exact .refl _ _

theorem LiftSteps.blockPrefix (h : LiftSteps n s s') : BlockPrefix b s.module s'.module :=
  h.induct (P := fun t => BlockPrefix b s.module t.module)
    (fun _ _ ht hs => ht.trans hs.blockPrefix) (.refl b s.module)

/-- The terminator is not part of the block's contents. -/
theorem withTerm_blockPrefix (m : Module) (b c : Nat) (term : TermRec) (ids : List Nat) :
    BlockPrefix b (m.withTerm c term ids) m := by
  refine ⟨?_, ?_, Nat.le_refl _, Nat.le_refl _, fun _ _ => rfl, fun _ _ => rfl⟩ <;>
    rw [m.blockRec_withTerm] <;> split
  · next h =>
    obtain ⟨rfl, -⟩ := h
    exact List.prefix_refl _
  · exact List.prefix_refl _
  · next h =>
    obtain ⟨rfl, -⟩ := h
    exact List.prefix_refl _
  · exact List.prefix_refl _

theorem Returned.blockPrefix {c : Nat} {vs : List Nat} (h : Returned c vs m m') :
    BlockPrefix b m m' := by
  by_cases hb : b = c
  · subst hb
    exact .of_grows h.extends_.grows (prefix_of_eq h.params.symm) (prefix_of_eq h.ops.symm)
  · have hrec := (h.extends_.other b hb).symm
    exact .of_grows h.extends_.grows (prefix_of_eq (congrArg BlockRec.params hrec))
      (prefix_of_eq (congrArg BlockRec.ops hrec))

theorem Finished.blockPrefix (h : Finished s s') : BlockPrefix b s.module s'.module := by
  cases he : s.emitReturnTerminator with
  | true => exact (h.closed he).blockPrefix
  | false =>
    rw [h.unclosed he]
    exact .refl b _

theorem BlockLifted.blockPrefix {insts : List (X86DecodedInst × Word)} {stop : StreamEnd}
    (h : BlockLifted arch insts stop s s') : BlockPrefix b s.module s'.module := by
  obtain ⟨t, r, hl⟩ := h
  exact hl.steps.blockPrefix.trans hl.finished.blockPrefix

theorem x86FinishBlock_blockPrefix (b : Nat) (ho : s.result.outputRegs = [])
    (hr : s.result.returnValues = []) :
    Ensures x86FinishBlock s (fun _ s' => s'.result = s.finished ∧
      BlockPrefix b s'.module s.module) fun _ _ => True := by
  unfold Ensures
  rw [x86FinishBlock_eq ho hr]
  refine Effect.ensures_ite (fun _ => ?_) fun _ => Effect.ensures_pure ⟨rfl, .refl b _⟩
  rcases hset : setReturn s.module s.block (.array s.returns) with ⟨m', e | u⟩
  · exact Effect.ensures_of_error (build_of_error hset) trivial
  · refine Effect.ensures_of_ok (build_of_ok hset) ⟨rfl, ?_⟩
    obtain rfl := setReturn_ok hset
    exact withTerm_blockPrefix s.module b s.block _ _

end Prefix

/-! ### The end of a lift -/

/-- `x86_finish_fallthrough` succeeds. -/
theorem x86FinishFallthrough_ok (h : Lifting arch s) :
    ∃ s', x86FinishFallthrough s = (.ok (), s') := by
  obtain ⟨s', hrun, -⟩ := x86FinishBlock_finished h.inv
    (r := { s.result with endKind := .fallthrough, fallthrough := s.pc }) h.inv.outputs
    h.inv.returns fun v hv => by cases hv
  exact ⟨s', hrun⟩

/-- What `x86_finish_fallthrough` leaves. -/
theorem x86FinishFallthrough_leaves (h : Lifting arch s) (b : Nat)
    (hrun : x86FinishFallthrough s = (.ok (), s')) :
    s'.result.endKind = .fallthrough ∧ s'.result.instructions = s.instructions ∧
      s'.result.block = s.result.block ∧ BlockPrefix b s'.module s.module := by
  obtain ⟨hr, hp⟩ := (x86FinishBlock_blockPrefix b h.inv.outputs h.inv.returns
    (s := { s with result := { s.result with endKind := .fallthrough, fallthrough := s.pc } })).ok
    hrun
  rw [hr]
  exact ⟨rfl, rfl, rfl, hp⟩

/-! ### Two limits -/

/-- Some instructions of a stream have been lifted from `s`. -/
theorem x86LiftInsts_after (h : Lifting arch s) {insts : List (X86DecodedInst × Word)}
    (hc : Consecutive image arch s.pc insts) (hi : ∀ i ∈ insts, Inner arch i.1)
    (hrun : x86LiftInsts insts s = (.ok (), s')) :
    Lifting arch s' ∧ (∃ n, LiftSteps n s s') ∧ s'.pc = endPc s.pc insts ∧
      s'.instructions = s.instructions + insts.length ∧ s'.result.block = s.result.block := by
  obtain ⟨⟨n, hsteps⟩, hledger, -⟩ := (x86LiftInsts_steps insts h hc hi).ok hrun
  have hpc := congrArg Ledger.pc hledger
  have hcount := congrArg Ledger.instructions hledger
  rw [foldl_step_pc] at hpc
  rw [foldl_step_instructions] at hcount
  exact ⟨h.lift hsteps, ⟨n, hsteps⟩, hpc, hcount, (hsteps.frame h.inv.draft).resultBlock⟩

/-- **A smaller limit** lifts a prefix of the block. -/
theorem x86LiftLoop_prefix (h : Lifting arch s) (b : Nat) {N : Nat}
    (hrun : x86LiftLoop image N s = (.ok (), s'))
    (hn : n ≤ (x86Stream image arch N s.pc).1.length) :
    ∃ t, x86LiftLoop image n s = (.ok (), t) ∧ t.result.endKind = .fallthrough ∧
      t.result.instructions = s.instructions + n ∧ t.result.block = s.result.block ∧
      BlockPrefix b t.module s'.module := by
  rw [x86LiftLoop_eq image N h] at hrun
  obtain ⟨s₁, hinsts, hend⟩ := x86LiftStream_ok.mp hrun
  obtain ⟨hc, hi, -⟩ := x86Stream_consecutive image arch N s.pc
  -- the first `n` instructions are the stream of the smaller limit
  rw [← List.take_append_drop n (x86Stream image arch N s.pc).1] at hinsts hc
  rw [x86LiftInsts_append] at hinsts
  obtain ⟨u, sₙ, htake, hdrop⟩ := Effect.bind_eq_ok.mp hinsts
  obtain ⟨hctake, hcdrop⟩ := consecutive_append.mp hc
  obtain ⟨hₙ, -, hpc, hcount, hblock⟩ :=
    x86LiftInsts_after h hctake (fun i hm => hi i (List.mem_of_mem_take hm)) htake
  rw [← hpc] at hcdrop
  obtain ⟨h₁, ⟨k, hsteps⟩, -⟩ :=
    x86LiftInsts_after hₙ hcdrop (fun i hm => hi i (List.mem_of_mem_drop hm)) hdrop
  obtain ⟨t, ht⟩ := x86FinishFallthrough_ok hₙ
  obtain ⟨hkind, hinstr, hb, hpre⟩ := x86FinishFallthrough_leaves hₙ b ht
  obtain ⟨a, ha⟩ := x86Stream_take image arch hn
  refine ⟨t, ?_, hkind, ?_, hb.trans hblock, ?_⟩
  · rw [x86LiftLoop_eq image n h, ha]
    exact x86LiftStream_ok.mpr ⟨sₙ, htake, ht⟩
  · rw [hinstr, hcount, List.length_take, Nat.min_eq_left hn]
  · -- the other instructions and the end add to the block
    exact hpre.trans (hsteps.blockPrefix.trans
      ((x86LiftEnd_lifts h₁ (endShaped_x86Stream image arch N s.pc)).ok hend).2.blockPrefix)

/-! ### A refused instruction -/

theorem x86FinishBlock_supported {r : LiftResult} (hk : r.endKind ≠ .unsupported)
    (ho : r.outputRegs = []) (hr : r.returnValues = []) (s : LiftState) :
    Ensures (x86FinishBlock >>= fun _ => pure true) { s with result := r }
      (fun _ s' => s'.result.endKind ≠ .unsupported) fun _ _ => True := by
  refine Ensures.bind (Ensures.mono (x86FinishBlock_result (s := { s with result := r }) ho hr)
    (fun _ s' hq => ?_) fun _ _ _ => trivial) fun _ _ hq => Effect.ensures_pure hq
  rw [hq]
  exact hk

/-- A conditional branch is refused before anything is built for it. -/
theorem x86LiftCbranch_refused (h : Lifting arch s) (inst : X86DecodedInst) (want : Bool)
    (pc target : Word) :
    Ensures (x86LiftCbranch inst pc target want) s (fun _ s' => s'.result.endKind = .unsupported →
      x86FinishUnsupported pc inst.rawOpcode s = (.ok (), s')) fun _ _ => True := by
  cases hz : s.zf with
  | none =>
    refine Effect.ensures_bind_of_ok (x86ConditionFromZf_none hz want) ?_
    rcases hfin : x86FinishUnsupported pc inst.rawOpcode s with ⟨e | u, s'⟩
    · exact Effect.ensures_of_error (Effect.bind_of_error hfin _) trivial
    · exact Effect.ensures_of_ok (Effect.bind_of_ok hfin _) fun _ => rfl
  | some zf =>
    refine Ensures.bind (x86ConditionFromZf_some h hz want) ?_
    rintro c s₁ (⟨v, m', rfl, rfl⟩ | rfl)
    · exact Ensures.mono (x86FinishBlock_supported (r := { s.result with
          endKind := .directCbranch, target := target, fallthrough := inst.next pc,
          branchCondition := some v }) (by simp) h.inv.outputs h.inv.returns
        (({ s with module := m' } : LiftState).advance (inst.next pc)))
        (fun _ _ hq hk => absurd hk hq) fun _ _ _ => trivial
    · exact Effect.ensures_throw trivial

/-- **An instruction that ends a block** is refused before anything is built for it. -/
theorem x86LiftInst_refused (h : Lifting arch s) {inst : X86DecodedInst} (hs : Shaped arch inst)
    (he : inst.mnemonic.endsBlock = true) (pc : Word) :
    Ensures (x86LiftInst inst pc) s (fun _ s' => s'.result.endKind = .unsupported →
      x86FinishUnsupported pc inst.rawOpcode s = (.ok (), s')) fun _ _ => True := by
  cases endingLift hs he pc s with
  | @plain kind target _ hk _ hrun =>
    have hne : kind ≠ .unsupported := by rcases hk with rfl | rfl <;> simp
    refine Ensures.congr ?_ hrun
    exact Ensures.mono (x86FinishBlock_supported
      (r := { s.result with endKind := kind, target := target }) hne h.inv.outputs h.inv.returns
      (s.advance (inst.next pc))) (fun _ _ hq hu => absurd hu hq) fun _ _ _ => trivial
  | cbranch _ _ hrun => exact (x86LiftCbranch_refused h inst _ pc _).congr hrun

/-- A stream that ends `UNSUPPORTED` ends in the state in which its instructions have been
lifted. -/
theorem x86LiftEnd_refused (h : Lifting arch s) {stop : StreamEnd} (hstop : EndShaped arch stop)
    (hrun : x86LiftEnd stop s = (.ok (), s')) (hk : s'.result.endKind = .unsupported) :
    ∃ a opcode, x86FinishUnsupported a opcode s = (.ok (), s') := by
  cases stop with
  | limit a =>
    obtain ⟨hfall, -⟩ := x86FinishFallthrough_leaves h 0 hrun
    rw [hfall] at hk
    cases hk
  | unsupported a opcode => exact ⟨a, opcode, hrun⟩
  | branch a inst =>
    obtain ⟨hs, he⟩ := hstop a inst rfl
    obtain ⟨done, t, hinst, hrest⟩ := Effect.bind_eq_ok.mp hrun
    cases hrest
    exact ⟨a, inst.rawOpcode, (x86LiftInst_refused h hs he a).ok hinst hk⟩
  | cutOff => cases hrun

/-- The record with the end of another one. -/
def LiftResult.withEnd (r r' : LiftResult) : LiftResult :=
  { r with
    endKind := r'.endKind
    fallthrough := r'.fallthrough
    unsupportedAddress := r'.unsupportedAddress
    unsupportedOpcode := r'.unsupportedOpcode }

/-- Falling through instead of refusing an instruction: the block is the same. -/
theorem x86FinishUnsupported_fallthrough (h : Lifting arch s) {a : Word} {opcode : Byte}
    (hrun : x86FinishUnsupported a opcode s = (.ok (), s')) :
    ∃ t, x86FinishFallthrough s = (.ok (), t) ∧ t.module = s'.module ∧
      t.result = s'.result.withEnd t.result := by
  let refused : LiftState := { s with result := { s.result with
    endKind := .unsupported, unsupportedAddress := a, unsupportedOpcode := opcode } }
  let falls : LiftState := { s with result := { s.result with
    endKind := .fallthrough, fallthrough := s.pc } }
  have hreturns : falls.returns = refused.returns := rfl
  have hresult : falls.finished = refused.finished.withEnd falls.finished := rfl
  have hrefused := (x86FinishBlock_eq (s := refused) h.inv.outputs h.inv.returns).symm.trans hrun
  have hfalls := x86FinishBlock_eq (s := falls) h.inv.outputs h.inv.returns
  rw [hreturns] at hfalls
  cases he : s.emitReturnTerminator with
  | false =>
    rw [if_neg (by rw [he]; decide)] at hrefused hfalls
    cases hrefused
    exact ⟨_, hfalls, rfl, hresult⟩
  | true =>
    rw [if_pos he] at hrefused hfalls
    rcases hset : setReturn s.module s.block (.array refused.returns) with ⟨m', e | u⟩
    · rw [build_of_error hset] at hrefused
      cases hrefused
    · rw [build_of_ok hset] at hrefused hfalls
      cases hrefused
      exact ⟨_, hfalls, rfl, hresult⟩

/-- **A refused instruction leaves no trace**: the loop that stops in front of it leaves the
same module. -/
theorem x86LiftLoop_refused (h : Lifting arch s) {N : Nat}
    (hrun : x86LiftLoop image N s = (.ok (), s')) (hk : s'.result.endKind = .unsupported) :
    s'.result.instructions = s.instructions + (x86Stream image arch N s.pc).1.length ∧
    ∃ t, x86LiftLoop image (x86Stream image arch N s.pc).1.length s = (.ok (), t) ∧
      t.module = s'.module ∧ t.result = s'.result.withEnd t.result := by
  rw [x86LiftLoop_eq image N h] at hrun
  obtain ⟨s₁, hinsts, hend⟩ := x86LiftStream_ok.mp hrun
  obtain ⟨hc, hi, -⟩ := x86Stream_consecutive image arch N s.pc
  obtain ⟨h₁, -, -, hcount, -⟩ := x86LiftInsts_after h hc hi hinsts
  obtain ⟨a, opcode, hrefused⟩ :=
    x86LiftEnd_refused h₁ (endShaped_x86Stream image arch N s.pc) hend hk
  refine ⟨?_, ?_⟩
  · obtain ⟨hr, -⟩ := (x86FinishBlock_blockPrefix 0 h₁.inv.outputs h₁.inv.returns (s := { s₁ with
      result := { s₁.result with
        endKind := .unsupported, unsupportedAddress := a, unsupportedOpcode := opcode } })).ok
      hrefused
    rw [hr]
    exact hcount
  · obtain ⟨t, ht, hm, hr⟩ := x86FinishUnsupported_fallthrough h₁ hrefused
    obtain ⟨a', ha'⟩ :=
      x86Stream_take image arch (Nat.le_refl (x86Stream image arch N s.pc).1.length)
    refine ⟨t, ?_, hm, hr⟩
    rw [x86LiftLoop_eq image _ h, ha', List.take_length]
    exact x86LiftStream_ok.mpr ⟨s₁, hinsts, ht⟩

/-! ### The lifter -/

section Lifter

variable {m : Module} {options : LiftOptions}

/-- The options with another limit. -/
def LiftOptions.withLimit (options : LiftOptions) (n : Nat) : LiftOptions :=
  { options with maxInstructions := n }

/-- The loop of a successful lift goes from `s` to `s'`, and with another limit it starts in
`s` too. -/
structure LiftRun (m : Module) (image : Image) (options : LiftOptions) (b : Nat)
    (s s' : LiftState) : Prop where
  lifting : Lifting options.arch s
  pc : s.pc = options.address
  instructions : s.instructions = 0
  block : s.result.block = some b
  outBlock : s'.result.block = some b
  run : x86LiftLoop image options.limit s = (.ok (), s')
  out : liftBasicBlock m image options = ⟨.ok, s'.module, s'.result⟩
  withLimit : ∀ {n t}, 1 ≤ n → x86LiftLoop image n s = (.ok (), t) →
    liftBasicBlock m image (options.withLimit n) = ⟨.ok, t.module, t.result⟩

theorem liftBasicBlock_liftRun (h : m.Reachable)
    (hok : (liftBasicBlock m image options).status = .ok) :
    ∃ b s s', LiftRun m image options b s s' := by
  obtain ⟨b, m₁, s', hcreate, hb, hx, hout⟩ := liftBasicBlock_run h hok
  have hstart := lifting_start hb.draft options true
  obtain ⟨-, t, r, hl⟩ := (x86LiftLoop_lifts image options.limit hstart).ok hx
  have hfrom : LiftedFrom m image options b m₁ t r s' := ⟨hout, hb, hl⟩
  refine ⟨b, liftStart m₁ options b true, s', hstart, rfl, rfl, rfl, hfrom.result_block, hx, hout,
    fun {n t} hn ht => ?_⟩
  have hlimit : (options.withLimit n).limit = n := if_neg (Nat.ne_of_gt hn)
  cases hoff : imageOffset image options.address with
  | none =>
    rw [liftBasicBlock, hoff] at hok
    cases hok
  | some offset =>
    have hoff' : imageOffset image (options.withLimit n).address = some offset := hoff
    have hcreate' : blockCreate m (some (liftBlockName (options.withLimit n))) = (m₁, .ok b) :=
      hcreate
    rw [liftBasicBlock, hoff']
    dsimp only
    rw [hcreate']
    show liftFrom image (options.withLimit n) (liftStart m₁ options b true) = _
    rw [liftFrom, hlimit, ht]

/-- Behind its stream a lift counts at most the instruction that ends the block. -/
theorem liftBasicBlock_instructions_le (h : m.Reachable)
    (hok : (liftBasicBlock m image options).status = .ok) :
    (liftBasicBlock m image options).result.instructions ≤ (options.stream image).1.length + 1 := by
  rw [(liftBasicBlock_record h hok).instructions, liftedInsts, List.length_append]
  refine Nat.add_le_add_left ?_ _
  unfold StreamEnd.lifted
  split
  · split
    · exact Nat.zero_le 1
    · exact Nat.le_refl 1
  · exact Nat.zero_le 1

/-- **Lifting is prefix-stable.**  A lift with a smaller limit succeeds and falls through after
as many instructions as the limit says, and its block is a prefix of the block of the longer
lift.  A lift that is refused an instruction leaves the module of the lift that stops in front
of it. -/
theorem liftBasicBlock_prefix (h : m.Reachable) (image : Image) (options : LiftOptions)
    (hok : (liftBasicBlock m image options).status = .ok) :
    (∀ n, 1 ≤ n → n < (liftBasicBlock m image options).result.instructions →
      (liftBasicBlock m image (options.withLimit n)).status = .ok ∧
      (liftBasicBlock m image (options.withLimit n)).result.endKind = .fallthrough ∧
      (liftBasicBlock m image (options.withLimit n)).result.instructions = n ∧
      ∃ b, (liftBasicBlock m image options).result.block = some b ∧
        (liftBasicBlock m image (options.withLimit n)).result.block = some b ∧
        BlockPrefix b (liftBasicBlock m image (options.withLimit n)).module
          (liftBasicBlock m image options).module) ∧
    ∀ k, 1 ≤ k → k = (liftBasicBlock m image options).result.instructions →
      (liftBasicBlock m image options).result.endKind = .unsupported →
      (liftBasicBlock m image (options.withLimit k)).status = .ok ∧
      (liftBasicBlock m image (options.withLimit k)).module =
        (liftBasicBlock m image options).module ∧
      (liftBasicBlock m image (options.withLimit k)).result =
        (liftBasicBlock m image options).result.withEnd
          (liftBasicBlock m image (options.withLimit k)).result := by
  have hle := liftBasicBlock_instructions_le h hok
  obtain ⟨b, s, s', hl⟩ := liftBasicBlock_liftRun h hok
  have hstream : options.stream image = x86Stream image options.arch options.limit s.pc := by
    rw [hl.pc]
    rfl
  rw [hstream] at hle
  rw [hl.out] at hle ⊢
  refine ⟨fun n hn hlt => ?_, fun k hk heq hrefused => ?_⟩
  · obtain ⟨t, ht, hkind, hcount, hblock, hpre⟩ :=
      x86LiftLoop_prefix hl.lifting b hl.run (Nat.le_of_lt_succ (Nat.lt_of_lt_of_le hlt hle))
    rw [hl.withLimit hn ht]
    refine ⟨rfl, hkind, ?_, b, hl.outBlock, hblock.trans hl.block, hpre⟩
    rw [hcount, hl.instructions, Nat.zero_add]
  · obtain ⟨hcount, t, ht, hmodule, hresult⟩ := x86LiftLoop_refused hl.lifting hl.run hrefused
    rw [hl.instructions, Nat.zero_add] at hcount
    rw [← hcount, ← heq] at ht
    rw [hl.withLimit hk ht]
    exact ⟨rfl, hmodule, hresult⟩

/-- `add rax, rbx`, `add rax, rbx` and `int3`, which is not lifted. -/
def addAddTrapImage : Image :=
  ⟨[0x48#8, 0x01#8, 0xd8#8, 0x48#8, 0x01#8, 0xd8#8, 0xcc#8], 0x1000#64⟩

theorem liftBasicBlock_prefix_addAddTrap :
    BlockPrefix 0 (liftBasicBlock Module.create addAddTrapImage (addRetOptions.withLimit 1)).module
        (liftBasicBlock Module.create addAddTrapImage addRetOptions).module ∧
      (liftBasicBlock Module.create addAddTrapImage (addRetOptions.withLimit 2)).module =
        (liftBasicBlock Module.create addAddTrapImage addRetOptions).module := by
  have hcount : (liftBasicBlock Module.create addAddTrapImage addRetOptions).result.instructions =
      2 := by
    decide +kernel
  have hblock : (liftBasicBlock Module.create addAddTrapImage addRetOptions).result.block =
      some 0 := by
    decide +kernel
  obtain ⟨hpre, hrefused⟩ :=
    liftBasicBlock_prefix (m := Module.create) ⟨[], rfl⟩ addAddTrapImage addRetOptions
      (by decide +kernel)
  obtain ⟨-, -, -, b, hb, -, hp⟩ := hpre 1 (Nat.le_refl 1) (by rw [hcount]; decide)
  rw [hblock] at hb
  cases hb
  exact ⟨hp, (hrefused 2 (by decide) hcount.symm (by decide +kernel)).2.1⟩

end Lifter

end Xair
