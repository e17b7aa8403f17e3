import Xair.LiftLedger
import Xair.LiftExecutes

/-!
# The record of a lift

What the result record of a successful lift says about the stream: where the lift ends,
which registers are inputs, and where a branch goes (`x86LiftLoop_records`).
-/

namespace Xair

open Effect (Ensures)

variable {arch : Arch} {s s' t : LiftState}

/-! ### The instructions that are lifted -/

/-- The instruction that ends a stream, when it is lifted: a conditional branch is refused if
no instruction before it has set `ZF`. -/
def StreamEnd.lifted (zf : Bool) : StreamEnd → List (X86DecodedInst × Word)
  | .branch pc inst =>
    if (StreamEnd.branch pc inst).tests.isSome && !zf then [] else [(inst, inst.next pc)]
  | _ => []

/-- The instructions that a lift of the stream lifts, each with the address after it. -/
def liftedInsts (st : List (X86DecodedInst × Word) × StreamEnd) : List (X86DecodedInst × Word) :=
  st.1 ++ st.2.lifted (st.1.any fun i => i.1.mnemonic.isAlu)

/-! ### One instruction -/

theorem x86Advance_ledger (pc : Word) (s : LiftState) :
    (s.advance pc).ledger = s.ledger.advance pc := rfl

/-- An instruction in the middle of a block is lifted, and the state advances. -/
theorem x86LiftInst_after (h : Lifting arch s) {inst : X86DecodedInst} (hi : Inner arch inst)
    (pc : Word) {P : LiftState → Prop}
    (hdecoded : Ensures (x86LiftDecoded inst (inst.next pc)) s (fun _ s' => P s')
      fun _ _ => True) :
    Ensures (x86LiftInst inst pc) s (fun _ s' => ∃ s₁, P s₁ ∧ s' = s₁.advance (inst.next pc))
      fun _ _ => True := by
  rw [x86LiftInst_eq hi.2]
  refine Ensures.bind (Q := fun c s₁ => match c with
    | .ok () => P s₁
    | .error e => e = .errRange) (E := fun _ _ => True) ?_ ?_
  · exact Effect.ensures_attempt (Ensures.mono ((x86LiftDecoded_lifts h hi.1 hi.2 _).and hdecoded)
      (fun _ _ hq => hq.2) fun _ _ hf => hf.1.1)
  · rintro (e | ⟨⟩) s₁ hq
    · obtain rfl : e = .errRange := hq
      exact Effect.ensures_throw trivial
    · exact ⟨s₁, hq, rfl⟩

/-- **One instruction** moves the ledger by a step. -/
theorem x86LiftInst_step (h : Lifting arch s) {inst : X86DecodedInst} (hi : Inner arch inst)
    (pc : Word) :
    Ensures (x86LiftInst inst pc) s
      (fun done s' => done = false ∧ LiftSteps 11 s s' ∧
        s'.ledger = s.ledger.step (inst, inst.next pc) ∧ KeepsRegs inst.writes s s' ∧
        Notes inst s s') fun _ _ => True := by
  have hledger := x86LiftInst_after h hi pc
    (Ensures.mono (x86LiftDecoded_touches hi.1 hi.2 _ s) (fun _ _ hq => hq) fun _ _ _ => trivial)
  refine Ensures.mono ((x86LiftInst_goes h hi.1 hi.2 pc).and hledger) ?_ fun _ _ _ => trivial
  rintro done s' ⟨⟨hsteps, hdone, -, hi'⟩, s₁, ⟨hl, hk⟩, rfl⟩
  refine ⟨hdone, hsteps, ?_, hk, hi'.notes⟩
  rw [x86Advance_ledger, hl]
  rfl

/-! ### Many instructions -/

/-- Consecutive instructions move the ledger step by step, and leave the registers alone that
none of them writes. -/
theorem x86LiftInsts_steps (insts : List (X86DecodedInst × Word)) (h : Lifting arch s)
    {image : Image} (hc : Consecutive image arch s.pc insts) (hi : ∀ i ∈ insts, Inner arch i.1) :
    Ensures (x86LiftInsts insts) s
      (fun _ s' => (∃ n, LiftSteps n s s') ∧ s'.ledger = insts.foldl Ledger.step s.ledger ∧
        KeepsRegs (fun r => insts.any fun i => i.1.writes r) s s' ∧
        RunNotes insts s s') fun _ _ => True := by
  induction insts generalizing s with
  | nil =>
    refine ⟨⟨0, .refl 0 s⟩, rfl, fun _ _ _ hv => hv, fun r => ?_, ?_, ?_⟩ <;>
      rw [List.any_nil, Bool.or_false]
  | cons i insts ih =>
    show Ensures (x86LiftInst i.1 s.pc >>= fun _ => x86LiftInsts insts) s _ _
    refine Ensures.bind (x86LiftInst_step h (hi i (List.mem_cons_self ..)) s.pc) ?_
    rintro done s₁ ⟨-, hsteps, hl₁, hk₁, hn₁⟩
    obtain ⟨-, hnext, hrest⟩ := hc
    have hpc : s₁.pc = i.2 := by
      have hp := congrArg Ledger.pc hl₁
      rw [hnext]
      exact hp
    refine Ensures.mono (ih (h.lift hsteps) (hpc ▸ hrest) fun j hj =>
      hi j (List.mem_cons_of_mem i hj)) (fun _ s₂ hq => ⟨?_, ?_, ?_, ?_⟩) fun _ _ _ => trivial
    · obtain ⟨n, hn⟩ := hq.1
      exact ⟨_, hsteps.trans hn⟩
    · rw [hq.2.1, hl₁, List.foldl_cons, ← hnext]
    · intro r v hw hv
      obtain ⟨hw₁, hw₂⟩ := Bool.or_eq_false_iff.mp
        (show (i.1.writes r || insts.any fun i => i.1.writes r) = false from hw)
      exact hq.2.2.1 r v hw₂ (hk₁ r v hw₁ hv)
    · have hn₂ := hq.2.2.2
      refine ⟨fun r => ?_, ?_, ?_⟩
      · rw [hn₂.written, hn₁.written, List.any_cons, Bool.or_assoc]
      · rw [hn₂.memory, hn₁.memory, List.any_cons, Bool.or_assoc]
      · rw [hn₂.zf, hn₁.zf, List.any_cons, Bool.or_assoc]

/-! ### The end -/

/-- `x86_finish_block` writes the record. -/
theorem x86FinishBlock_result (ho : s.result.outputRegs = []) (hr : s.result.returnValues = []) :
    Ensures x86FinishBlock s (fun _ s' => s'.result = s.finished) fun _ _ => True := by
  have hfin := x86FinishBlock_eq ho hr
  unfold Ensures
  rw [hfin]
  refine Effect.ensures_ite (fun _ => ensures_build fun _ _ => rfl) fun _ => ?_
  exact Effect.ensures_pure rfl

/-- How a lift that is at the end `stop` of its stream in `s` ends: it writes the record of
`t`, which is where `s` is but for the instruction that ends the block. -/
structure EndRecord (stop : StreamEnd) (s t : LiftState) (r : LiftResult) : Prop where
  regs : t.regs = s.regs
  memory : t.memory = s.memory
  ledger : t.ledger = (stop.lifted s.zf.isSome).foldl Ledger.step s.ledger
  start : r.start = s.result.start
  inputs : r.inputRegs = t.result.inputRegs
  memoryOut : r.memoryOut = s.result.memoryOut
  target : r.endKind = .directJump ∨ r.endKind = .directCbranch → ∃ pc inst n rel,
    stop = .branch pc inst ∧ stop.lifted s.zf.isSome = [(inst, inst.next pc)] ∧
      inst.operands = [.immediate n rel] ∧ r.target = x86AddI64 (inst.next pc) rel

/-- The record of a lift from `s`. -/
def Recorded (stop : StreamEnd) (s s' : LiftState) : Prop :=
  ∃ t r, EndRecord stop s t r ∧ s'.result = ({ t with result := r } : LiftState).finished

theorem recorded_of_finish {stop : StreamEnd} {r : LiftResult} (h : EndRecord stop s t r)
    (ho : r.outputRegs = []) (hr : r.returnValues = []) :
    Ensures x86FinishBlock { t with result := r } (fun _ s' => Recorded stop s s')
      fun _ _ => True :=
  Ensures.mono (x86FinishBlock_result (s := { t with result := r }) ho hr)
    (fun _ _ hq => ⟨t, r, h, hq⟩) fun _ _ _ => trivial

/-- An instruction that ends a block reads and writes nothing. -/
theorem ends_registers {inst : X86DecodedInst} (hs : Shaped arch inst)
    (he : inst.mnemonic.endsBlock = true) :
    inst.readRegs = [] ∧ (inst.writes = fun _ => false) ∧ inst.touchesMemory = false := by
  rcases inst with ⟨mn, length, op, op2, ops⟩
  change X86Shape arch mn ops at hs
  cases hs with
  | jmp => exact ⟨rfl, rfl, rfl⟩
  | jz => exact ⟨rfl, rfl, rfl⟩
  | jnz => exact ⟨rfl, rfl, rfl⟩
  | ret => exact ⟨rfl, rfl, rfl⟩
  | aluReg ha => cases mn <;> simp [X86Mnemonic.isAlu, X86Mnemonic.endsBlock] at ha he
  | aluImm ha => cases mn <;> simp [X86Mnemonic.isAlu, X86Mnemonic.endsBlock] at ha he
  | _ => cases he

theorem Ledger.step_of_ends {inst : X86DecodedInst} (hs : Shaped arch inst)
    (he : inst.mnemonic.endsBlock = true) (l : Ledger) (next : Word) :
    l.step (inst, next) = l.advance next := by
  obtain ⟨hreads, hwrites, -⟩ := ends_registers hs he
  rw [Ledger.step, hreads, hwrites, Ledger.reads_nil, Ledger.writes_none]

/-- `x` changes the module only. -/
def Builds {α : Type} (x : Lift α) (s : LiftState) : Prop :=
  Ensures x s (fun _ s' => ∃ m', s' = { s with module := m' }) fun _ _ => True

theorem builds_build {α : Type} (call : Module → Module × Except Status α) (s : LiftState) :
    Builds (build call) s := ensures_build fun _ m' => ⟨m', rfl⟩

theorem Builds.get {α : Type} {f : LiftState → Lift α} (h : Builds (f s) s) :
    Builds (Effect.get >>= f) s := h

theorem x86BuildConstU64_builds (t : Ty) (value : Word) (name : Name) (s : LiftState) :
    Builds (x86BuildConstU64 t value name) s := Builds.get (builds_build _ s)

theorem x86BuildBinary_builds (opcode : Opcode) (t : Ty) (lhs rhs : Nat) (name : Name)
    (s : LiftState) : Builds (x86BuildBinary opcode t lhs rhs name) s :=
  Builds.get (builds_build _ s)

theorem Builds.bind {α β : Type} {x : Lift α} {f : α → Lift β} (hx : Builds x s)
    (hf : ∀ a s', Builds (f a) s') : Builds (x >>= f) s := by
  refine Ensures.bind hx ?_
  rintro a _ ⟨m', rfl⟩
  refine Ensures.mono (hf a { s with module := m' }) ?_ fun _ _ h => h
  rintro _ _ ⟨m'', rfl⟩
  exact ⟨m'', rfl⟩

theorem x86ConditionFromZf_builds (want : Bool) (s : LiftState) :
    Builds (x86ConditionFromZf want) s := by
  unfold x86ConditionFromZf
  refine Builds.get ?_
  cases s.zf with
  | none => exact trivial
  | some zf =>
    refine Effect.ensures_ite (fun _ => ⟨s.module, rfl⟩) fun _ => ?_
    exact Builds.bind (x86BuildConstU64_builds _ _ _ s) fun _ s' =>
      x86BuildBinary_builds _ _ _ _ _ s'

/-- `x86_condition_from_zf`, when the flag has been set: it only builds. -/
theorem x86ConditionFromZf_some (h : Lifting arch s) {zf : Nat} (hz : s.zf = some zf)
    (want : Bool) :
    Ensures (Effect.attempt (x86ConditionFromZf want)) s
      (fun c s' => (∃ v m', c = .ok v ∧ s' = { s with module := m' }) ∨ c = .error .errRange)
      fun _ _ => True := by
  have hcond := (x86ConditionFromZf_quietly h hz want).and (x86ConditionFromZf_builds want s)
  refine Effect.ensures_attempt (Ensures.mono hcond (fun v s' hq => ?_) fun e s' hf => ?_)
  · obtain ⟨m', hm⟩ := hq.2
    exact .inl ⟨v, m', rfl, hm⟩
  · obtain rfl : e = .errRange := hf.1.1
    exact .inr rfl

/-- A refused instruction. -/
theorem x86FinishUnsupported_recorded (h : Lifting arch s) (stop : StreamEnd)
    (hstop : stop.lifted s.zf.isSome = []) (address : Word) (opcode : Byte) :
    Ensures (x86FinishUnsupported address opcode) s (fun _ s' => Recorded stop s s')
      fun _ _ => True := by
  refine recorded_of_finish (t := s) ⟨rfl, rfl, ?_, rfl, rfl, rfl, ?_⟩ h.inv.outputs
    h.inv.returns
  · rw [hstop]
    rfl
  · rintro (hk | hk) <;> cases hk

theorem x86FinishFallthrough_recorded (h : Lifting arch s) (a : Word) :
    Ensures x86FinishFallthrough s (fun _ s' => Recorded (.limit a) s s') fun _ _ => True := by
  refine recorded_of_finish (t := s) ⟨rfl, rfl, rfl, rfl, rfl, rfl, ?_⟩ h.inv.outputs h.inv.returns
  rintro (hk | hk) <;> cases hk

/-- An instruction that ends a block, as far as it is lifted. -/
theorem endRecord_taken {inst : X86DecodedInst} (hs : Shaped arch inst)
    (he : inst.mnemonic.endsBlock = true) {pc : Word} {r : LiftResult} (m' : Module)
    (hr : r.start = s.result.start ∧ r.inputRegs = s.result.inputRegs ∧
      r.memoryOut = s.result.memoryOut)
    (hlift : (StreamEnd.branch pc inst).lifted s.zf.isSome = [(inst, inst.next pc)])
    (ht : r.endKind = .directJump ∨ r.endKind = .directCbranch → ∃ n rel,
      inst.operands = [.immediate n rel] ∧ r.target = x86AddI64 (inst.next pc) rel) :
    EndRecord (.branch pc inst) s (({ s with module := m' } : LiftState).advance (inst.next pc))
      r := by
  refine ⟨rfl, rfl, ?_, hr.1, hr.2.1, hr.2.2, fun h => ?_⟩
  · rw [hlift, List.foldl_cons, List.foldl_nil, Ledger.step_of_ends hs he]
    rfl
  · obtain ⟨n, rel, hops, htarget⟩ := ht h
    exact ⟨pc, inst, n, rel, rfl, hlift, hops, htarget⟩

/-- A conditional branch: it is refused when the flag has not been set. -/
theorem x86LiftCbranch_recorded (h : Lifting arch s) {inst : X86DecodedInst}
    (hs : Shaped arch inst) (he : inst.mnemonic.endsBlock = true) {pc : Word} {want : Bool}
    (htests : (StreamEnd.branch pc inst).tests = some want) {n : Nat} {rel : Word}
    (hops : inst.operands = [.immediate n rel]) :
    Ensures (x86LiftCbranch inst pc (x86AddI64 (inst.next pc) rel) want) s
      (fun _ s' => Recorded (.branch pc inst) s s') fun _ _ => True := by
  cases hz : s.zf with
  | none =>
    have hlift : (StreamEnd.branch pc inst).lifted s.zf.isSome = [] := by
      rw [StreamEnd.lifted, htests, hz]
      rfl
    refine Effect.ensures_bind_of_ok (x86ConditionFromZf_none hz want) ?_
    exact Ensures.bind (x86FinishUnsupported_recorded h _ hlift pc inst.rawOpcode)
      fun _ _ hq => Effect.ensures_pure hq
  | some zf =>
    have hlift : (StreamEnd.branch pc inst).lifted s.zf.isSome = [(inst, inst.next pc)] := by
      rw [StreamEnd.lifted, htests, hz]
      rfl
    refine Ensures.bind (x86ConditionFromZf_some h hz want) ?_
    rintro c s₁ (⟨v, m', rfl, rfl⟩ | rfl)
    · have hend := endRecord_taken (s := s) hs he m' (r := { s.result with
          endKind := .directCbranch, target := x86AddI64 (inst.next pc) rel,
          fallthrough := inst.next pc, branchCondition := some v })
        ⟨rfl, rfl, rfl⟩ hlift fun _ => ⟨n, rel, hops, rfl⟩
      exact Ensures.bind (x := x86FinishBlock)
        (recorded_of_finish hend h.inv.outputs h.inv.returns)
        fun _ _ hq => Effect.ensures_pure hq
    · exact Effect.ensures_throw trivial

/-- **The end of a block** is recorded. -/
theorem x86LiftInst_recorded (h : Lifting arch s) {inst : X86DecodedInst} (hs : Shaped arch inst)
    (he : inst.mnemonic.endsBlock = true) (pc : Word) :
    Ensures (x86LiftInst inst pc) s (fun _ s' => Recorded (.branch pc inst) s s')
      fun _ _ => True := by
  cases endingLift hs he pc s with
  | @plain kind target htests hk htarget hrun =>
    have hlift : (StreamEnd.branch pc inst).lifted s.zf.isSome = [(inst, inst.next pc)] := by
      rw [StreamEnd.lifted, htests]
      rfl
    have hend : EndRecord (.branch pc inst) s (s.advance (inst.next pc))
        { s.result with endKind := kind, target := target } :=
      endRecord_taken hs he s.module ⟨rfl, rfl, rfl⟩ hlift fun hj => by
        rcases hj with hj | hj
        · exact htarget hj
        · obtain rfl : kind = .directCbranch := hj
          rcases hk with hk | hk <;> cases hk
    refine Ensures.congr ?_ hrun
    exact Ensures.bind (recorded_of_finish hend h.inv.outputs h.inv.returns)
      fun _ _ hq => Effect.ensures_pure hq
  | cbranch htests hops hrun => exact (x86LiftCbranch_recorded h hs he htests hops).congr hrun

/-! ### The loop -/

theorem x86LiftEnd_recorded (h : Lifting arch s) {stop : StreamEnd} (hstop : EndShaped arch stop)
    (hrun : x86LiftEnd stop s = (.ok (), s')) : Recorded stop s s' := by
  cases stop with
  | limit a => exact (x86FinishFallthrough_recorded h a).ok hrun
  | unsupported a opcode => exact (x86FinishUnsupported_recorded h _ rfl a opcode).ok hrun
  | branch a inst =>
    obtain ⟨hs, he⟩ := hstop a inst rfl
    obtain ⟨done, t, hinst, hrest⟩ := Effect.bind_eq_ok.mp hrun
    cases hrest
    exact (x86LiftInst_recorded h hs he a).ok hinst
  | cutOff => cases hrun

/-- What the loop of a successful lift from `s` has recorded in `s'`: it has lifted the
instructions of the stream, and then the end. -/
def LoopRecorded (st : List (X86DecodedInst × Word) × StreamEnd) (s s' : LiftState) : Prop :=
  ∃ s₁, x86LiftInsts st.1 s = (.ok (), s₁) ∧ Recorded st.2 s₁ s'

/-- **The loop records the stream.** -/
theorem x86LiftLoop_records (image : Image) (n : Nat) (h : Lifting arch s) :
    Ensures (x86LiftLoop image n) s
      (fun _ s' => LoopRecorded (x86Stream image arch n s.pc) s s') fun _ _ => True := by
  rcases hrun : x86LiftLoop image n s with ⟨e | u, s'⟩
  · exact Effect.ensures_of_error hrun trivial
  · refine Effect.ensures_of_ok hrun ?_
    rw [x86LiftLoop_eq image n h] at hrun
    obtain ⟨s₁, hinsts, hend⟩ := x86LiftStream_ok.mp hrun
    obtain ⟨hc, hi, -⟩ := x86Stream_consecutive image arch n s.pc
    obtain ⟨⟨k, hsteps⟩, -⟩ := (x86LiftInsts_steps _ h hc hi).ok hinsts
    exact ⟨s₁, hinsts,
      x86LiftEnd_recorded (h.lift hsteps) (endShaped_x86Stream image arch n s.pc) hend⟩

/-! ### The record -/

theorem foldl_step_pc (insts : List (X86DecodedInst × Word)) (l : Ledger) :
    (insts.foldl Ledger.step l).pc = endPc l.pc insts := by
  induction insts generalizing l with
  | nil => rfl
  | cons i insts ih =>
    rw [List.foldl_cons, ih]
    rfl

theorem reads_instructions (regs : List X86Reg) (l : Ledger) :
    (l.reads regs).instructions = l.instructions := by
  induction regs generalizing l with
  | nil => rfl
  | cons r regs ih =>
    refine (ih (l.read r)).trans ?_
    unfold Ledger.read
    split <;> rfl

theorem foldl_step_instructions (insts : List (X86DecodedInst × Word)) (l : Ledger) :
    (insts.foldl Ledger.step l).instructions = l.instructions + insts.length := by
  induction insts generalizing l with
  | nil => rfl
  | cons i insts ih =>
    have hi : (l.step i).instructions = (l.reads i.1.readRegs).instructions + 1 := rfl
    rw [List.foldl_cons, ih, hi, reads_instructions, List.length_cons]
    omega

/-- What the result record says about the stream of a lift. -/
structure LiftRecord (image : Image) (options : LiftOptions) (r : LiftResult) : Prop where
  start : r.start = options.address
  next : r.next = endPc options.address (liftedInsts (options.stream image))
  bytesRead : r.bytesRead = (r.next - r.start).toNat
  instructions : r.instructions = (liftedInsts (options.stream image)).length
  inputs : r.inputRegs.map Prod.fst = ((liftedInsts (options.stream image)).foldl
    Ledger.step ⟨options.address, 0, [], fun _ => false⟩).inputs
  target : r.endKind = .directJump ∨ r.endKind = .directCbranch → ∃ pc inst n rel,
    (options.stream image).2 = .branch pc inst ∧ inst.operands = [.immediate n rel] ∧
      r.target = x86AddI64 (inst.next pc) rel ∧ r.next = inst.next pc

section Record

variable {m m₁ : Module} {b : Nat} {image : Image} {options : LiftOptions} {s' : LiftState}

/-- A successful lift has run its loop, which has recorded the stream. -/
theorem liftBasicBlock_loop (h : m.Reachable)
    (hok : (liftBasicBlock m image options).status = .ok) :
    ∃ b m₁ t r s', LiftedFrom m image options b m₁ t r s' ∧
      blockCreate m (some (liftBlockName options)) = (m₁, .ok b) ∧
      LoopRecorded (options.stream image) (liftStart m₁ options b true) s' := by
  obtain ⟨b, m₁, s', hcreate, hb, hx, hout⟩ := liftBasicBlock_run h hok
  have hstart := lifting_start hb.draft options true
  obtain ⟨-, t, r, hl⟩ := (x86LiftLoop_lifts image options.limit hstart).ok hx
  exact ⟨b, m₁, t, r, s', ⟨hout, hb, hl⟩, hcreate,
    (x86LiftLoop_records image options.limit hstart).ok hx⟩

/-- The lift state `s₁` in which the instructions of the stream have been lifted. -/
structure StreamLifted (image : Image) (options : LiftOptions) (m₁ : Module) (b : Nat)
    (s₁ : LiftState) : Prop where
  run : x86LiftInsts (options.stream image).1 (liftStart m₁ options b true) = (.ok (), s₁)
  steps : ∃ n, LiftSteps n (liftStart m₁ options b true) s₁
  ledger : s₁.ledger = (options.stream image).1.foldl Ledger.step
    ⟨options.address, 0, [], fun _ => false⟩
  notes : RunNotes (options.stream image).1 (liftStart m₁ options b true) s₁

theorem StreamLifted.zf {s₁ : LiftState} (h : StreamLifted image options m₁ b s₁) :
    s₁.zf.isSome = (options.stream image).1.any fun i => i.1.mnemonic.isAlu :=
  h.notes.zf.trans (Bool.false_or _)

theorem LoopRecorded.middle (hd : Draft m₁ b)
    (h : LoopRecorded (options.stream image) (liftStart m₁ options b true) s') :
    ∃ s₁, StreamLifted image options m₁ b s₁ ∧ Recorded (options.stream image).2 s₁ s' := by
  obtain ⟨s₁, hrun, hrec⟩ := h
  obtain ⟨hc, hi, -⟩ := x86Stream_consecutive image options.arch options.limit options.address
  have hstart := lifting_start hd options true
  obtain ⟨hsteps, hl, -, hn⟩ := (x86LiftInsts_steps _ hstart hc hi).ok hrun
  exact ⟨s₁, ⟨hrun, hsteps, hl, hn⟩, hrec⟩

theorem LoopRecorded.record (hd : Draft m₁ b)
    (h : LoopRecorded (options.stream image) (liftStart m₁ options b true) s') :
    LiftRecord image options s'.result := by
  obtain ⟨s₁, h₁, ⟨t, r, hend, hres⟩⟩ := h.middle hd
  have hledger : t.ledger = (liftedInsts (options.stream image)).foldl Ledger.step
      ⟨options.address, 0, [], fun _ => false⟩ := by
    rw [hend.ledger, h₁.ledger, h₁.zf, ← List.foldl_append]
    rfl
  have hpc : t.pc = endPc options.address (liftedInsts (options.stream image)) := by
    have hp := congrArg Ledger.pc hledger
    rw [foldl_step_pc] at hp
    exact hp
  have hnext : s'.result.next = t.pc := by rw [hres]; rfl
  have hstart : s'.result.start = options.address := by
    obtain ⟨n, hsteps⟩ := h₁.steps
    rw [hres]
    exact hend.start.trans (hsteps.frame hd).start
  refine ⟨hstart, hnext.trans hpc, ?_, ?_, ?_, ?_⟩
  · rw [hres]
    rfl
  · have hn := congrArg Ledger.instructions hledger
    rw [foldl_step_instructions, Nat.zero_add] at hn
    rw [hres]
    exact hn
  · rw [← hledger, hres]
    exact congrArg (List.map Prod.fst) hend.inputs
  · intro hk
    have hkind : s'.result.endKind = r.endKind := by rw [hres]; rfl
    rw [hkind] at hk
    obtain ⟨pc, inst, n, rel, hstop, hlift, hops, htarget⟩ := hend.target hk
    refine ⟨pc, inst, n, rel, hstop, hops, ?_, ?_⟩
    · rw [hres]
      exact htarget
    · have hlist : liftedInsts (options.stream image) =
          (options.stream image).1 ++ [(inst, inst.next pc)] := by
        rw [liftedInsts, ← h₁.zf, hlift]
      rw [hnext, hpc, hlist, endPc, List.foldl_append]
      rfl

/-- **The record of a successful lift.** -/
theorem liftBasicBlock_record (h : m.Reachable)
    (hok : (liftBasicBlock m image options).status = .ok) :
    LiftRecord image options (liftBasicBlock m image options).result := by
  obtain ⟨b, m₁, t, r, s', hl, -, hloop⟩ := liftBasicBlock_loop h hok
  rw [hl.out]
  exact hloop.record hl.created.draft

end Record

end Xair
