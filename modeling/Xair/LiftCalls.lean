import Xair.Lift
import Xair.VexReach

/-!
# The lifter builds through the builder API

Whatever a lift does and however it ends, the module that it leaves is the module before after
calls of the builder API (`liftBasicBlock_later`, `liftBlockBodyInto_later`).  So a lift can be
one of the things that happen to a module: what holds of every reachable module holds of lifted
ones.
-/

namespace Xair

open Effect (Leads leads_get_bind leads_pure leads_throw leads_modify leads_attempt)

/-- The module was changed by building calls only. -/
def LaterState (s s' : LiftState) : Prop := s.module.Later s'.module

section Rules

variable {α β : Type} {x : Lift α} {f : α → Lift β}

theorem later_pure (a : α) : Leads LaterState (pure a : Lift α) :=
  leads_pure (fun s => .refl s.module) a

theorem later_throw (e : Status) : Leads LaterState (Effect.throw e : Lift α) :=
  leads_throw (fun s => .refl s.module) e

theorem later_bind (hx : Leads LaterState x) (hf : ∀ a, Leads LaterState (f a)) :
    Leads LaterState (x >>= f) :=
  Leads.bind (fun _ _ _ => Module.Later.trans) hx hf

/-- A change of what is not the module. -/
theorem later_modify {g : LiftState → LiftState} (h : ∀ s, (g s).module = s.module) :
    Leads LaterState (Effect.modify g : Lift Unit) :=
  leads_modify fun s => by
    show s.module.Later (g s).module
    rw [h]
    exact .refl _

/-- A building call. -/
theorem later_build {call : Module → Module × Except Status α} (c : Call)
    (hc : c ≠ .canonicalize) (h : ∀ m, (call m).1 = (c.run m).1) :
    Leads LaterState (build call) := by
  intro s
  show s.module.Later (call s.module).1
  rw [h]
  exact later_call s.module hc

end Rules

/-! ### Operations -/

section Operations

theorem x86EnsureReg_later (reg : X86Reg) : Leads LaterState (x86EnsureReg reg) := by
  refine leads_get_bind fun s => ?_
  split
  · exact later_throw _
  · split
    · exact later_pure _
    · refine later_bind (later_build (.blockAddParam s.block _ _) nofun fun _ => rfl) fun v => ?_
      refine later_bind (later_modify fun _ => rfl) fun _ => leads_get_bind fun s => ?_
      split
      · exact later_throw _
      · exact later_bind (later_modify fun _ => rfl) fun _ => later_pure _

theorem x86EnsureMemory_later : Leads LaterState x86EnsureMemory := by
  refine leads_get_bind fun s => ?_
  split
  · exact later_pure _
  · refine later_bind (later_build (.blockAddParam s.block _ _) nofun fun _ => rfl) fun v => ?_
    exact later_bind (later_modify fun _ => rfl) fun _ => later_pure _

theorem x86WriteReg_later (reg : X86Reg) (value : Nat) : Leads LaterState (x86WriteReg reg value) :=
  later_modify fun _ => rfl

theorem x86WriteMemory_later (memory : Nat) : Leads LaterState (x86WriteMemory memory) :=
  later_modify fun _ => rfl

theorem x86BuildConstU64_later (type : Ty) (value : Word) (name : Name) :
    Leads LaterState (x86BuildConstU64 type value name) :=
  leads_get_bind fun s =>
    later_build (.buildConstU64 s.block type value (some name)) nofun fun _ => rfl

theorem x86BuildUnary_later (opcode : Opcode) (type : Ty) (src : Nat) (name : Name) :
    Leads LaterState (x86BuildUnary opcode type src name) :=
  leads_get_bind fun s =>
    later_build (.buildUnary s.block opcode type src (some name)) nofun fun _ => rfl

theorem x86BuildBinary_later (opcode : Opcode) (type : Ty) (lhs rhs : Nat) (name : Name) :
    Leads LaterState (x86BuildBinary opcode type lhs rhs name) :=
  leads_get_bind fun s =>
    later_build (.buildBinary s.block opcode type lhs rhs (some name)) nofun fun _ => rfl

theorem x86BuildLoad_later (type : Ty) (memory address : Nat) (name : Name) :
    Leads LaterState (x86BuildLoad type memory address name) :=
  leads_get_bind fun s =>
    later_build (.buildLoad s.block type memory address .le (some name)) nofun fun _ => rfl

theorem x86BuildStore_later (memory address data : Nat) (name : Name) :
    Leads LaterState (x86BuildStore memory address data name) :=
  leads_get_bind fun s =>
    later_build (.buildStore s.block memory address data .le (some name)) nofun fun _ => rfl

theorem x86SetZfFromFlags_later (flags : Nat) : Leads LaterState (x86SetZfFromFlags flags) :=
  later_bind (x86BuildUnary_later _ _ _ _) fun _ => later_modify fun _ => rfl

theorem x86SetZfFromValue_later (value : Nat) : Leads LaterState (x86SetZfFromValue value) :=
  later_bind (x86BuildUnary_later _ _ _ _) fun _ => x86SetZfFromFlags_later _

theorem x86ConstInt_later (value : Word) (name : Name) :
    Leads LaterState (x86ConstInt value name) :=
  leads_get_bind fun _ => x86BuildConstU64_later _ _ _

theorem x86LiftAddSubValues_later (valueOpcode flagsOpcode : Opcode) (dst : X86Reg)
    (lhs rhs : Nat) : Leads LaterState (x86LiftAddSubValues valueOpcode flagsOpcode dst lhs rhs) :=
  leads_get_bind fun _ => later_bind (x86BuildBinary_later _ _ _ _ _) fun _ =>
    later_bind (x86BuildBinary_later _ _ _ _ _) fun _ =>
      later_bind (x86SetZfFromFlags_later _) fun _ => x86WriteReg_later _ _

theorem x86LiftCmpValues_later (lhs rhs : Nat) : Leads LaterState (x86LiftCmpValues lhs rhs) :=
  later_bind (x86BuildBinary_later _ _ _ _ _) fun _ => x86SetZfFromFlags_later _

theorem x86LiftTestValues_later (lhs rhs : Nat) : Leads LaterState (x86LiftTestValues lhs rhs) :=
  leads_get_bind fun _ => later_bind (x86BuildBinary_later _ _ _ _ _) fun _ =>
    x86SetZfFromValue_later _

theorem x86LiftLogicValues_later (opcode : Opcode) (dst : X86Reg) (lhs rhs : Nat) :
    Leads LaterState (x86LiftLogicValues opcode dst lhs rhs) :=
  leads_get_bind fun _ => later_bind (x86BuildBinary_later _ _ _ _ _) fun _ =>
    later_bind (x86SetZfFromValue_later _) fun _ => x86WriteReg_later _ _

theorem x86IntToAddr_later (value : Nat) : Leads LaterState (x86IntToAddr value) :=
  leads_get_bind fun _ => x86BuildUnary_later _ _ _ _

theorem x86AddrToInt_later (value : Nat) : Leads LaterState (x86AddrToInt value) :=
  leads_get_bind fun _ => x86BuildUnary_later _ _ _ _

theorem x86AddrAddI64_later (base : Nat) (offset : Word) (name : Name) :
    Leads LaterState (x86AddrAddI64 base offset name) :=
  leads_get_bind fun _ => later_bind (x86ConstInt_later _ _) fun _ =>
    x86BuildBinary_later _ _ _ _ _

/-! ### Addresses -/

variable (mem : X86MemoryOperand)

theorem x86MemoryBase_later : Leads LaterState (x86MemoryBase mem) := by
  unfold x86MemoryBase
  split
  · exact later_bind (x86EnsureReg_later _) fun _ =>
      later_bind (x86IntToAddr_later _) fun _ => later_pure _
  · exact later_pure _

theorem x86ScaledIndex_later (index : Nat) : Leads LaterState (x86ScaledIndex mem index) := by
  unfold x86ScaledIndex
  split
  · exact leads_get_bind fun _ => later_bind (x86ConstInt_later _ _) fun _ =>
      x86BuildBinary_later _ _ _ _ _
  · exact later_pure _

theorem x86MemoryIndex_later (addr : Option Nat) : Leads LaterState (x86MemoryIndex mem addr) := by
  unfold x86MemoryIndex
  split
  · refine leads_get_bind fun s => later_bind (x86EnsureReg_later _) fun index => ?_
    refine later_bind (x86ScaledIndex_later mem index) fun scaled => ?_
    split
    · exact later_bind (x86IntToAddr_later _) fun _ => later_pure _
    · exact later_bind (x86BuildBinary_later _ _ _ _ _) fun _ => later_pure _
  · exact later_pure _

theorem x86BuildMemoryAddress_later (nextPc : Word) :
    Leads LaterState (x86BuildMemoryAddress mem nextPc) := by
  refine leads_get_bind fun s => ?_
  split
  · exact x86BuildConstU64_later _ _ _
  · exact later_throw _
  · refine later_bind (x86MemoryBase_later mem) fun base => ?_
    refine later_bind (x86MemoryIndex_later mem base) fun addr => ?_
    split
    · exact x86BuildConstU64_later _ _ _
    · split
      · exact x86AddrAddI64_later _ _ _
      · exact later_pure _

theorem x86LiftMemLoad_later (dst : X86Reg) (nextPc : Word) :
    Leads LaterState (x86LiftMemLoad dst mem nextPc) :=
  leads_get_bind fun _ => later_bind x86EnsureMemory_later fun _ =>
    later_bind (x86BuildMemoryAddress_later mem nextPc) fun _ =>
      later_bind (x86BuildLoad_later _ _ _ _) fun _ => x86WriteReg_later _ _

theorem x86LiftMemStore_later (data : Nat) (nextPc : Word) :
    Leads LaterState (x86LiftMemStore mem data nextPc) :=
  later_bind x86EnsureMemory_later fun _ =>
    later_bind (x86BuildMemoryAddress_later mem nextPc) fun _ =>
      later_bind (x86BuildStore_later _ _ _ _) fun _ => x86WriteMemory_later _

end Operations

/-! ### The end of a block -/

section Finish

theorem x86AppendReturn_later (value : Nat) : Leads LaterState (x86AppendReturn value) := by
  refine leads_get_bind fun s => ?_
  split
  · exact later_throw _
  · exact later_modify fun _ => rfl

theorem x86FinishRegs_later (regs : List X86Reg) : Leads LaterState (x86FinishRegs regs) := by
  induction regs with
  | nil => exact later_pure _
  | cons reg regs ih =>
    refine leads_get_bind fun s => ?_
    split
    · split
      · exact later_throw _
      · exact later_bind (later_modify fun _ => rfl) fun _ =>
          later_bind (x86AppendReturn_later _) fun _ => ih
    · exact ih

theorem x86FinishMemory_later : Leads LaterState x86FinishMemory := by
  refine leads_get_bind fun s => ?_
  split
  · exact later_bind (later_modify fun _ => rfl) fun _ => x86AppendReturn_later _
  · exact later_pure _

theorem x86FinishCondition_later : Leads LaterState x86FinishCondition := by
  refine leads_get_bind fun s => ?_
  split
  · exact x86AppendReturn_later _
  · exact later_pure _

theorem x86FinishBlock_later : Leads LaterState x86FinishBlock := by
  refine later_bind (later_modify fun _ => rfl) fun _ => ?_
  refine later_bind x86FinishMemory_later fun _ => ?_
  refine later_bind (x86FinishRegs_later _) fun _ => ?_
  refine later_bind x86FinishCondition_later fun _ => leads_get_bind fun s => ?_
  split
  · exact later_build (.setReturn s.block (.array s.result.returnValues)) nofun fun _ => rfl
  · exact later_pure _

/-- The record is changed and the block is finished. -/
theorem later_finish {g : LiftState → LiftState} (h : ∀ s, (g s).module = s.module) :
    Leads LaterState (Effect.modify g >>= fun _ => x86FinishBlock) :=
  later_bind (later_modify h) fun _ => x86FinishBlock_later

theorem x86ConditionFromZf_later (wantZero : Bool) :
    Leads LaterState (x86ConditionFromZf wantZero) := by
  refine leads_get_bind fun s => ?_
  split
  · exact later_throw _
  · split
    · exact later_pure _
    · exact later_bind (x86BuildConstU64_later _ _ _) fun _ => x86BuildBinary_later _ _ _ _ _

end Finish

/-! ### Instructions -/

section Instructions

variable (inst : X86DecodedInst)

theorem x86OperandValue_later (operand : Option X86Operand) :
    Leads LaterState (x86OperandValue operand) := by
  unfold x86OperandValue
  split
  · exact x86EnsureReg_later _
  · exact x86ConstInt_later _ _
  · exact later_throw _

theorem x86LiftMovDecoded_later (nextPc : Word) :
    Leads LaterState (x86LiftMovDecoded inst nextPc) := by
  unfold x86LiftMovDecoded
  split
  · exact leads_get_bind fun _ => later_bind (x86BuildConstU64_later _ _ _) fun _ =>
      x86WriteReg_later _ _
  · exact later_bind (x86EnsureReg_later _) fun _ => x86WriteReg_later _ _
  · exact x86LiftMemLoad_later _ _ _
  · exact later_bind (x86EnsureReg_later _) fun _ => x86LiftMemStore_later _ _ _
  · exact later_throw _

theorem x86LiftLeaDecoded_later (nextPc : Word) :
    Leads LaterState (x86LiftLeaDecoded inst nextPc) := by
  unfold x86LiftLeaDecoded
  split
  · exact later_bind (x86BuildMemoryAddress_later _ _) fun _ =>
      later_bind (x86AddrToInt_later _) fun _ => x86WriteReg_later _ _
  · exact later_throw _

theorem x86LiftAluDecoded_later : Leads LaterState (x86LiftAluDecoded inst) := by
  unfold x86LiftAluDecoded
  split
  · refine later_bind (x86EnsureReg_later _) fun lhs => ?_
    refine later_bind (x86OperandValue_later _) fun rhs => ?_
    split
    · exact x86LiftAddSubValues_later _ _ _ _ _
    · exact x86LiftAddSubValues_later _ _ _ _ _
    · exact x86LiftLogicValues_later _ _ _ _
    · exact x86LiftLogicValues_later _ _ _ _
    · exact x86LiftLogicValues_later _ _ _ _
    · exact x86LiftCmpValues_later _ _
    · exact x86LiftTestValues_later _ _
    · exact later_throw _
  · exact later_throw _

theorem x86LiftPushDecoded_later : Leads LaterState (x86LiftPushDecoded inst) := by
  unfold x86LiftPushDecoded
  split
  · refine leads_get_bind fun s => later_bind (x86EnsureReg_later _) fun rsp => ?_
    refine later_bind (x86EnsureReg_later _) fun data => ?_
    refine later_bind (x86BuildConstU64_later _ _ _) fun eight => ?_
    refine later_bind (x86BuildBinary_later _ _ _ _ _) fun nextRsp => ?_
    refine later_bind (x86IntToAddr_later _) fun addr => ?_
    refine later_bind x86EnsureMemory_later fun memory => ?_
    refine later_bind (x86BuildStore_later _ _ _ _) fun nextMemory => ?_
    exact later_bind (x86WriteMemory_later _) fun _ => x86WriteReg_later _ _
  · exact later_throw _

theorem x86LiftPopDecoded_later : Leads LaterState (x86LiftPopDecoded inst) := by
  unfold x86LiftPopDecoded
  split
  · refine leads_get_bind fun s => later_bind (x86EnsureReg_later _) fun rsp => ?_
    refine later_bind (x86IntToAddr_later _) fun addr => ?_
    refine later_bind x86EnsureMemory_later fun memory => ?_
    refine later_bind (x86BuildLoad_later _ _ _ _) fun loaded => ?_
    refine later_bind (x86BuildConstU64_later _ _ _) fun eight => ?_
    refine later_bind (x86BuildBinary_later _ _ _ _ _) fun nextRsp => ?_
    exact later_bind (x86WriteReg_later _ _) fun _ => x86WriteReg_later _ _
  · exact later_throw _

theorem x86LiftDecoded_later (nextPc : Word) : Leads LaterState (x86LiftDecoded inst nextPc) := by
  unfold x86LiftDecoded
  split
  · exact later_pure _
  · exact x86LiftMovDecoded_later _ _
  · exact x86LiftLeaDecoded_later _ _
  · exact x86LiftAluDecoded_later _
  · exact x86LiftAluDecoded_later _
  · exact x86LiftAluDecoded_later _
  · exact x86LiftAluDecoded_later _
  · exact x86LiftAluDecoded_later _
  · exact x86LiftAluDecoded_later _
  · exact x86LiftAluDecoded_later _
  · exact x86LiftPushDecoded_later _
  · exact x86LiftPopDecoded_later _
  · exact later_throw _

/-- A finished block, and the result of the instruction. -/
theorem later_done {x : Lift Unit} (hx : Leads LaterState x) (done : Bool) :
    Leads LaterState (x >>= fun _ => pure done) :=
  later_bind hx fun _ => later_pure done

theorem x86FinishUnsupported_later (address : Word) (opcode : Byte) :
    Leads LaterState (x86FinishUnsupported address opcode) :=
  later_finish fun _ => rfl

theorem x86Advance_later (nextPc : Word) : Leads LaterState (x86Advance nextPc) :=
  later_modify fun _ => rfl

/-- A finished block after the instruction that ends it. -/
theorem later_end {nextPc : Word} {x : Lift Unit} (hx : Leads LaterState x) :
    Leads LaterState (x86Advance nextPc >>= fun _ => x >>= fun _ => pure true) :=
  later_bind (x86Advance_later nextPc) fun _ => later_done hx true

theorem x86LiftInst_later (start : Word) : Leads LaterState (x86LiftInst inst start) := by
  have hunsupported : Leads LaterState (x86FinishUnsupported start inst.rawOpcode >>= fun _ =>
      (pure false : Lift Bool)) :=
    later_done (x86FinishUnsupported_later _ _) false
  unfold x86LiftInst
  split
  · exact later_end (later_finish fun _ => rfl)
  · exact hunsupported
  · refine later_bind (leads_attempt (x86ConditionFromZf_later _)) fun r => ?_
    split
    · exact hunsupported
    · exact later_throw _
    · exact later_end (later_finish fun _ => rfl)
  · refine later_bind (leads_attempt (x86ConditionFromZf_later _)) fun r => ?_
    split
    · exact hunsupported
    · exact later_throw _
    · exact later_end (later_finish fun _ => rfl)
  · exact hunsupported
  · exact hunsupported
  · exact later_end (later_finish fun _ => rfl)
  · refine later_bind (leads_attempt (x86LiftDecoded_later _ _)) fun r => ?_
    split
    · exact hunsupported
    · exact later_throw _
    · exact later_done (x86Advance_later _) false

theorem x86LiftOne_later (image : Image) : Leads LaterState (x86LiftOne image) := by
  refine leads_get_bind fun s => ?_
  split
  · exact later_throw _
  · split
    · exact later_done (x86FinishUnsupported_later _ _) false
    · exact later_throw _
    · exact later_throw _
    · exact x86LiftInst_later _ _

/-- The loop, by induction on the instructions to go. -/
theorem x86LiftLoop_later (image : Image) (n : Nat) : Leads LaterState (x86LiftLoop image n) := by
  induction n with
  | zero => exact later_finish fun _ => rfl
  | succ n ih =>
    refine later_bind (x86LiftOne_later image) fun done => leads_get_bind fun s => ?_
    split
    · exact later_pure _
    · exact ih

end Instructions

/-! ### Lifts -/

section Lifts

variable (m : Module) (image : Image) (options : LiftOptions)

theorem liftFrom_later (s : LiftState) : s.module.Later (liftFrom image options s).module := by
  have h := x86LiftLoop_later image options.limit s
  unfold liftFrom
  split
  all_goals
    next hrun =>
    rw [hrun] at h
    exact h

/-- **A lift builds through the builder API**, whatever its outcome. -/
theorem liftBasicBlock_later : m.Later (liftBasicBlock m image options).module := by
  unfold liftBasicBlock
  split
  · exact .refl m
  · have hcreate := later_call m (c := .blockCreate (some (liftBlockName options))) nofun
    change m.Later (blockCreate m (some (liftBlockName options))).1 at hcreate
    split
    · next hc =>
      rw [hc] at hcreate
      exact hcreate
    · next hc =>
      rw [hc] at hcreate
      exact hcreate.trans (liftFrom_later image options _)

/-- So does a lift into a block of the caller. -/
theorem liftBlockBodyInto_later (block : Nat) :
    m.Later (liftBlockBodyInto m image options block).module := by
  unfold liftBlockBodyInto
  split
  · exact .refl m
  · split
    · exact .refl m
    · exact liftFrom_later image options _

end Lifts

end Xair
