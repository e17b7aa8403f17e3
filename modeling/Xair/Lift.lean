import Xair.Builder
import Xair.X86Machine
import Xair.Effect

/-!
# The x86 lifter

`xair_frontend.c` with the default decoder: `xair_lift_basic_block` and
`xair_lift_block_body_into`, which decode the bytes of an image one instruction at a
time and append operations to a block through the builder API.

A function of the lifter is an `Effect` on the lift state; the module is part of the
state, so that a failure leaves behind what was built before it.  An id that is
`XAIR_INVALID_ID` in C is `none`, and the flags `has_memory` and `has_zf` say no more
than that `memory` and `zf` are set.
-/

namespace Xair

/-- `xair_image`. -/
structure Image where
  bytes : List Byte
  base : Word
  deriving Repr

/-- `xair_lift_end_kind`. -/
inductive LiftEndKind
  | fallthrough | directJump | directCbranch | ret | unsupported
  deriving DecidableEq, Repr

/-- `xair_lift_options`, without the decoder. -/
structure LiftOptions where
  arch : Arch
  address : Word
  memorySpace : Nat
  maxInstructions : Nat
  blockName : Option Name
  deriving Repr

/-- `xair_lift_result`; the lists hold the entries in use. -/
structure LiftResult where
  endKind : LiftEndKind
  block : Option Nat
  start : Word
  next : Word
  target : Word
  fallthrough : Word
  unsupportedAddress : Word
  unsupportedOpcode : Byte
  bytesRead : Nat
  instructions : Nat
  memoryIn : Option Nat
  memoryOut : Option Nat
  branchCondition : Option Nat
  inputRegs : List (X86Reg × Nat)
  outputRegs : List (X86Reg × Nat)
  returnValues : List Nat
  deriving DecidableEq, Repr

/-- `lift_result_init`. -/
def LiftResult.init : LiftResult :=
  ⟨.fallthrough, none, 0#64, 0#64, 0#64, 0#64, 0#64, 0#8, 0, 0, none, none, none, [], [], []⟩

/-- `x86_lift_state`. -/
structure LiftState where
  module : Module
  result : LiftResult
  arch : Arch
  block : Nat
  pc : Word
  emitReturnTerminator : Bool
  memorySpace : Nat
  instructions : Nat
  regs : X86Reg → Option Nat
  writtenRegs : X86Reg → Bool
  memory : Option Nat
  zf : Option Nat

/-- A step of the lifter. -/
abbrev Lift := Effect LiftState Status

/-- `XAIR_LIFT_MAX_REG_OUTPUTS`. -/
def liftMaxRegOutputs : Nat := 16

/-- `XAIR_LIFT_MAX_RETURNS`. -/
def liftMaxReturns : Nat := 24

/-- `x86_reg_names`. -/
def x86RegNames : List String :=
  ["rax", "rcx", "rdx", "rbx", "rsp", "rbp", "rsi", "rdi",
    "r8", "r9", "r10", "r11", "r12", "r13", "r14", "r15"]

/-- `x86_reg_names32`. -/
def x86RegNames32 : List String := ["eax", "ecx", "edx", "ebx", "esp", "ebp", "esi", "edi"]

/-- `image_offset`. -/
def imageOffset (image : Image) (address : Word) : Option Nat :=
  if address < image.base then none
  else
    let delta := (address - image.base).toNat
    if image.bytes.length ≤ delta then none else some delta

/-- `stack_bytes`. -/
def Arch.stackBytes : Arch → Word
  | .x8632 => 4#64
  | .x8664 => 8#64

/-- `x86_reg_type`. -/
def x86RegType (arch : Arch) : Ty := typeI arch.bits

/-- `x86_addr_type`. -/
def x86AddrType (arch : Arch) : Ty := typeAddr arch.bits

/-- `x86_reg_supported`. -/
def x86RegSupported (arch : Arch) (reg : X86Reg) : Bool :=
  decide (reg < x86RegCount) && (arch == .x8664 || decide (reg < x86R8))

/-- `x86_reg_name_for_state`. -/
def x86RegNameForState (arch : Arch) (reg : X86Reg) : Name :=
  if arch = .x8632 ∧ reg < x86R8 then literalName (x86RegNames32.getD reg "invalid")
  else literalName (x86RegNames.getD reg "invalid")

/-! ### Reading and writing the state -/

/-- A call of the builder API on the module of the state. -/
def build {α : Type} (call : Module → Module × Except Status α) : Lift α := fun s =>
  ((call s.module).2, { s with module := (call s.module).1 })

/-- `x86_ensure_reg`. -/
def x86EnsureReg (reg : X86Reg) : Lift Nat := do
  let s ← Effect.get
  if !x86RegSupported s.arch reg then Effect.throw .errBadArg
  else
    match s.regs reg with
    | some value => pure value
    | none => do
      let value ← build fun m =>
        blockAddParam m s.block (x86RegType s.arch) (some (x86RegNameForState s.arch reg))
      Effect.modify fun s => { s with regs := fun r => if r = reg then some value else s.regs r }
      let s ← Effect.get
      if liftMaxRegOutputs ≤ s.result.inputRegs.length then Effect.throw .errRange
      else do
        Effect.modify fun s =>
          { s with result := { s.result with inputRegs := s.result.inputRegs ++ [(reg, value)] } }
        pure value

/-- `x86_ensure_memory`. -/
def x86EnsureMemory : Lift Nat := do
  let s ← Effect.get
  match s.memory with
  | some memory => pure memory
  | none => do
    let memory ← build fun m =>
      blockAddParam m s.block (typeMem s.memorySpace s.arch.bits) (some (literalName "mem"))
    Effect.modify fun s =>
      { s with memory := some memory, result := { s.result with memoryIn := some memory } }
    pure memory

/-- `x86_write_reg`. -/
def x86WriteReg (reg : X86Reg) (value : Nat) : Lift Unit :=
  Effect.modify fun s =>
    { s with
      regs := fun r => if r = reg then some value else s.regs r
      writtenRegs := fun r => if r = reg then true else s.writtenRegs r }

/-- The memory after a store. -/
def x86WriteMemory (memory : Nat) : Lift Unit :=
  Effect.modify fun s =>
    { s with memory := some memory, result := { s.result with memoryOut := some memory } }

/-! ### Building operations -/

/-- `x86_build_const_u64`. -/
def x86BuildConstU64 (type : Ty) (value : Word) (name : Name) : Lift Nat := do
  let s ← Effect.get
  build fun m => buildConstU64 m s.block type value (some name)

/-- `xair_build_unary` on the block of the state. -/
def x86BuildUnary (opcode : Opcode) (type : Ty) (src : Nat) (name : Name) : Lift Nat := do
  let s ← Effect.get
  build fun m => buildUnary m s.block opcode type src (some name)

/-- `xair_build_binary` on the block of the state. -/
def x86BuildBinary (opcode : Opcode) (type : Ty) (lhs rhs : Nat) (name : Name) : Lift Nat := do
  let s ← Effect.get
  build fun m => buildBinary m s.block opcode type lhs rhs (some name)

/-- `xair_build_load` on the block of the state. -/
def x86BuildLoad (type : Ty) (memory address : Nat) (name : Name) : Lift Nat := do
  let s ← Effect.get
  build fun m => buildLoad m s.block type memory address .le (some name)

/-- `xair_build_store` on the block of the state. -/
def x86BuildStore (memory address data : Nat) (name : Name) : Lift Nat := do
  let s ← Effect.get
  build fun m => buildStore m s.block memory address data .le (some name)

/-- `x86_set_zf_from_flags`. -/
def x86SetZfFromFlags (flags : Nat) : Lift Unit := do
  let zf ← x86BuildUnary .flagZf (typeI 1) flags (literalName "zf")
  Effect.modify fun s => { s with zf := some zf }

/-- `x86_set_zf_from_value`. -/
def x86SetZfFromValue (value : Nat) : Lift Unit := do
  let flags ← x86BuildUnary .flagsLogic (typeFlags 6) value (literalName "logic_flags")
  x86SetZfFromFlags flags

/-- `x86_const_int`. -/
def x86ConstInt (value : Word) (name : Name) : Lift Nat := do
  let s ← Effect.get
  x86BuildConstU64 (x86RegType s.arch) value name

/-- `x86_add_i64`. -/
def x86AddI64 (base offset : Word) : Word :=
  if offset.slt 0#64 then base - (-offset) else base + offset

/-- `x86_lift_add_sub_values`. -/
def x86LiftAddSubValues (valueOpcode flagsOpcode : Opcode) (dst : X86Reg) (lhs rhs : Nat) :
    Lift Unit := do
  let s ← Effect.get
  let value ← x86BuildBinary valueOpcode (x86RegType s.arch) lhs rhs
    (literalName (if valueOpcode = .add then "add" else "sub"))
  let flags ← x86BuildBinary flagsOpcode (typeFlags 6) lhs rhs (literalName "flags")
  x86SetZfFromFlags flags
  x86WriteReg dst value

/-- `x86_lift_cmp_values`. -/
def x86LiftCmpValues (lhs rhs : Nat) : Lift Unit := do
  let flags ← x86BuildBinary .flagsSub (typeFlags 6) lhs rhs (literalName "cmp_flags")
  x86SetZfFromFlags flags

/-- `x86_lift_test_values`. -/
def x86LiftTestValues (lhs rhs : Nat) : Lift Unit := do
  let s ← Effect.get
  let value ← x86BuildBinary .and (x86RegType s.arch) lhs rhs (literalName "test")
  x86SetZfFromValue value

/-- `x86_lift_logic_values`. -/
def x86LiftLogicValues (opcode : Opcode) (dst : X86Reg) (lhs rhs : Nat) : Lift Unit := do
  let s ← Effect.get
  let value ← x86BuildBinary opcode (x86RegType s.arch) lhs rhs (literalName opcode.name)
  x86SetZfFromValue value
  x86WriteReg dst value

/-- `x86_int_to_addr`. -/
def x86IntToAddr (value : Nat) : Lift Nat := do
  let s ← Effect.get
  x86BuildUnary .intToAddr (x86AddrType s.arch) value (literalName "addr")

/-- `x86_addr_to_int`. -/
def x86AddrToInt (value : Nat) : Lift Nat := do
  let s ← Effect.get
  x86BuildUnary .addrToInt (x86RegType s.arch) value (literalName "lea")

/-- `x86_addr_add_i64`. -/
def x86AddrAddI64 (base : Nat) (offset : Word) (name : Name) : Lift Nat := do
  let s ← Effect.get
  let delta ← x86ConstInt offset (literalName "disp")
  x86BuildBinary .addrAdd (x86AddrType s.arch) base delta name

/-! ### Memory -/

/-- The base of `x86_build_memory_address`. -/
def x86MemoryBase (mem : X86MemoryOperand) : Lift (Option Nat) :=
  if mem.hasBase then do
    let base ← x86EnsureReg mem.base
    let addr ← x86IntToAddr base
    pure (some addr)
  else pure none

/-- The scaled index of `x86_build_memory_address`. -/
def x86ScaledIndex (mem : X86MemoryOperand) (index : Nat) : Lift Nat :=
  if mem.scale ≠ 1 then do
    let s ← Effect.get
    let scale ← x86ConstInt (BitVec.ofNat 64 mem.scale) (literalName "scale")
    x86BuildBinary .mul (x86RegType s.arch) index scale (literalName "index")
  else pure index

/-- The index of `x86_build_memory_address`, added to the base. -/
def x86MemoryIndex (mem : X86MemoryOperand) (addr : Option Nat) : Lift (Option Nat) :=
  if mem.hasIndex then do
    let s ← Effect.get
    let index ← x86EnsureReg mem.index
    let scaled ← x86ScaledIndex mem index
    match addr with
    | none => do
      let addr ← x86IntToAddr scaled
      pure (some addr)
    | some addr => do
      let addr ← x86BuildBinary .addrAdd (x86AddrType s.arch) addr scaled (literalName "addr_index")
      pure (some addr)
  else pure addr

/-- `x86_build_memory_address`. -/
def x86BuildMemoryAddress (mem : X86MemoryOperand) (nextPc : Word) : Lift Nat := do
  let s ← Effect.get
  match mem.kind with
  | .ripRel =>
    x86BuildConstU64 (x86AddrType s.arch) (x86AddI64 nextPc mem.displacement)
      (literalName "rip_addr")
  | .invalid => Effect.throw .errUnsupported
  | .baseIndex => do
    let addr ← x86MemoryBase mem
    let addr ← x86MemoryIndex mem addr
    match addr with
    | none => x86BuildConstU64 (x86AddrType s.arch) mem.displacement (literalName "addr")
    | some addr =>
      if mem.displacement ≠ 0#64 then
        x86AddrAddI64 addr mem.displacement (literalName "addr_disp")
      else pure addr

/-- `x86_lift_mem_load`. -/
def x86LiftMemLoad (dst : X86Reg) (mem : X86MemoryOperand) (nextPc : Word) : Lift Unit := do
  let s ← Effect.get
  let memory ← x86EnsureMemory
  let addr ← x86BuildMemoryAddress mem nextPc
  let loaded ← x86BuildLoad (x86RegType s.arch) memory addr (literalName "load")
  x86WriteReg dst loaded

/-- `x86_lift_mem_store`. -/
def x86LiftMemStore (mem : X86MemoryOperand) (data : Nat) (nextPc : Word) : Lift Unit := do
  let memory ← x86EnsureMemory
  let addr ← x86BuildMemoryAddress mem nextPc
  let nextMemory ← x86BuildStore memory addr data (literalName "store")
  x86WriteMemory nextMemory

/-! ### The end of a block -/

/-- `x86_append_return`. -/
def x86AppendReturn (value : Nat) : Lift Unit := do
  let s ← Effect.get
  if liftMaxReturns ≤ s.result.returnValues.length then Effect.throw .errRange
  else Effect.modify fun s =>
    { s with result := { s.result with returnValues := s.result.returnValues ++ [value] } }

/-- The loop of `x86_finish_block` over the registers. -/
def x86FinishRegs : List X86Reg → Lift Unit
  | [] => pure ()
  | reg :: regs => do
    let s ← Effect.get
    if s.writtenRegs reg then
      if liftMaxRegOutputs ≤ s.result.outputRegs.length then Effect.throw .errRange
      else do
        let value := (s.regs reg).getD invalidId
        Effect.modify fun s =>
          { s with result := { s.result with outputRegs := s.result.outputRegs ++ [(reg, value)] } }
        x86AppendReturn value
        x86FinishRegs regs
    else x86FinishRegs regs

/-- The memory token of `x86_finish_block`. -/
def x86FinishMemory : Lift Unit := do
  let s ← Effect.get
  match s.memory with
  | some memory => do
    Effect.modify fun s => { s with result := { s.result with memoryOut := some memory } }
    x86AppendReturn memory
  | none => pure ()

/-- The branch condition of `x86_finish_block`. -/
def x86FinishCondition : Lift Unit := do
  let s ← Effect.get
  match s.result.endKind, s.result.branchCondition with
  | .directCbranch, some condition => x86AppendReturn condition
  | _, _ => pure ()

/-- `x86_finish_block`. -/
def x86FinishBlock : Lift Unit := do
  Effect.modify fun s =>
    { s with result := { s.result with
      bytesRead := (s.pc - s.result.start).toNat
      next := s.pc
      instructions := s.instructions } }
  x86FinishMemory
  x86FinishRegs (List.range x86RegCount)
  x86FinishCondition
  let s ← Effect.get
  if s.emitReturnTerminator then
    build fun m => setReturn m s.block (.array s.result.returnValues)
  else pure ()

/-- `x86_finish_unsupported`. -/
def x86FinishUnsupported (address : Word) (opcode : Byte) : Lift Unit := do
  Effect.modify fun s =>
    { s with result := { s.result with
      endKind := .unsupported, unsupportedAddress := address, unsupportedOpcode := opcode } }
  x86FinishBlock

/-- `x86_finish_fallthrough`. -/
def x86FinishFallthrough : Lift Unit := do
  Effect.modify fun s =>
    { s with result := { s.result with endKind := .fallthrough, fallthrough := s.pc } }
  x86FinishBlock

/-- `x86_finish_direct_jump`. -/
def x86FinishDirectJump (target : Word) : Lift Unit := do
  Effect.modify fun s =>
    { s with result := { s.result with endKind := .directJump, target := target } }
  x86FinishBlock

/-- `x86_finish_return`. -/
def x86FinishReturn : Lift Unit := do
  Effect.modify fun s => { s with result := { s.result with endKind := .ret } }
  x86FinishBlock

/-- `x86_finish_direct_cbranch`. -/
def x86FinishDirectCbranch (target fallthrough : Word) (condition : Nat) : Lift Unit := do
  Effect.modify fun s =>
    { s with result := { s.result with
      endKind := .directCbranch, target := target, fallthrough := fallthrough,
      branchCondition := some condition } }
  x86FinishBlock

/-- `x86_condition_from_zf`. -/
def x86ConditionFromZf (wantZero : Bool) : Lift Nat := do
  let s ← Effect.get
  match s.zf with
  | none => Effect.throw .errUnsupported
  | some zf =>
    if wantZero then pure zf
    else do
      let notZf ← x86BuildConstU64 (typeI 1) 0#64 (literalName "not_zf")
      x86BuildBinary .eq (typeI 1) zf notZf (literalName "jnz")

/-! ### Instructions -/

/-- `inst->operands[index]`, when the instruction has that many. -/
def X86DecodedInst.operand (inst : X86DecodedInst) (index : Nat) : Option X86Operand :=
  inst.operands[index]?

/-- `x86_operand_value`. -/
def x86OperandValue : Option X86Operand → Lift Nat
  | some (.register _ reg) => x86EnsureReg reg
  | some (.immediate _ imm) => x86ConstInt imm (literalName "imm")
  | _ => Effect.throw .errUnsupported

/-- `x86_lift_mov_decoded`. -/
def x86LiftMovDecoded (inst : X86DecodedInst) (nextPc : Word) : Lift Unit :=
  match inst.operand 0, inst.operand 1 with
  | some (.register _ dst), some (.immediate _ imm) => do
    let s ← Effect.get
    let value ← x86BuildConstU64 (x86RegType s.arch) imm (x86RegNameForState s.arch dst)
    x86WriteReg dst value
  | some (.register _ dst), some (.register _ src) => do
    let value ← x86EnsureReg src
    x86WriteReg dst value
  | some (.register _ dst), some (.memory _ mem) => x86LiftMemLoad dst mem nextPc
  | some (.memory _ mem), some (.register _ src) => do
    let data ← x86EnsureReg src
    x86LiftMemStore mem data nextPc
  | _, _ => Effect.throw .errUnsupported

/-- `x86_lift_lea_decoded`. -/
def x86LiftLeaDecoded (inst : X86DecodedInst) (nextPc : Word) : Lift Unit :=
  match inst.operand 0, inst.operand 1 with
  | some (.register _ dst), some (.memory _ mem) => do
    let addr ← x86BuildMemoryAddress mem nextPc
    let value ← x86AddrToInt addr
    x86WriteReg dst value
  | _, _ => Effect.throw .errUnsupported

/-- `x86_logic_opcode`. -/
def x86LogicOpcode : X86Mnemonic → Opcode
  | .and => .and
  | .or => .or
  | .xor => .xor
  | _ => .constU64

/-- `x86_lift_alu_decoded`.  Its test for a memory operand comes after
`x86_operand_value` has refused one. -/
def x86LiftAluDecoded (inst : X86DecodedInst) : Lift Unit :=
  match inst.operand 0 with
  | some (.register _ dst) => do
    let lhs ← x86EnsureReg dst
    let rhs ← x86OperandValue (inst.operand 1)
    match inst.mnemonic with
    | .add => x86LiftAddSubValues .add .flagsAdd dst lhs rhs
    | .sub => x86LiftAddSubValues .sub .flagsSub dst lhs rhs
    | .and | .or | .xor => x86LiftLogicValues (x86LogicOpcode inst.mnemonic) dst lhs rhs
    | .cmp => x86LiftCmpValues lhs rhs
    | .test => x86LiftTestValues lhs rhs
    | _ => Effect.throw .errUnsupported
  | _ => Effect.throw .errUnsupported

/-- `x86_lift_push_decoded`. -/
def x86LiftPushDecoded (inst : X86DecodedInst) : Lift Unit :=
  match inst.operand 0 with
  | some (.register _ src) => do
    let s ← Effect.get
    let rsp ← x86EnsureReg x86Rsp
    let data ← x86EnsureReg src
    let eight ← x86BuildConstU64 (x86RegType s.arch) s.arch.stackBytes (literalName "push_size")
    let nextRsp ← x86BuildBinary .sub (x86RegType s.arch) rsp eight (literalName "push_rsp")
    let addr ← x86IntToAddr nextRsp
    let memory ← x86EnsureMemory
    let nextMemory ← x86BuildStore memory addr data (literalName "push")
    x86WriteMemory nextMemory
    x86WriteReg x86Rsp nextRsp
  | _ => Effect.throw .errUnsupported

/-- `x86_lift_pop_decoded`. -/
def x86LiftPopDecoded (inst : X86DecodedInst) : Lift Unit :=
  match inst.operand 0 with
  | some (.register _ dst) => do
    let s ← Effect.get
    let rsp ← x86EnsureReg x86Rsp
    let addr ← x86IntToAddr rsp
    let memory ← x86EnsureMemory
    let loaded ← x86BuildLoad (x86RegType s.arch) memory addr (literalName "pop")
    let eight ← x86BuildConstU64 (x86RegType s.arch) s.arch.stackBytes (literalName "pop_size")
    let nextRsp ← x86BuildBinary .add (x86RegType s.arch) rsp eight (literalName "pop_rsp")
    x86WriteReg dst loaded
    x86WriteReg x86Rsp nextRsp
  | _ => Effect.throw .errUnsupported

/-- `decode32` or `decode64` of the default decoder. -/
def x86Decode (arch : Arch) (bytes : List Byte) : Except X86DecodeError X86DecodedInst :=
  match arch with
  | .x8632 => x86Decode32 bytes
  | .x8664 => x86Decode64 bytes

/-- The cases of `x86_lift_one` that go on with the block. -/
def x86LiftDecoded (inst : X86DecodedInst) (nextPc : Word) : Lift Unit :=
  match inst.mnemonic with
  | .nop => pure ()
  | .mov => x86LiftMovDecoded inst nextPc
  | .lea => x86LiftLeaDecoded inst nextPc
  | .add | .sub | .and | .or | .xor | .cmp | .test => x86LiftAluDecoded inst
  | .push => x86LiftPushDecoded inst
  | .pop => x86LiftPopDecoded inst
  | _ => Effect.throw .errUnsupported

/-- `state->pc = next_pc; ++state->instructions`. -/
def x86Advance (nextPc : Word) : Lift Unit :=
  Effect.modify fun s => { s with pc := nextPc, instructions := s.instructions + 1 }

/-- `x86_lift_one` after decoding; the result is `*out_done`. -/
def x86LiftInst (inst : X86DecodedInst) (start : Word) : Lift Bool :=
  let nextPc := start + BitVec.ofNat 64 inst.length
  match inst.mnemonic, inst.operand 0 with
  | .jmp, some (.immediate _ rel) => do
    x86Advance nextPc
    x86FinishDirectJump (x86AddI64 nextPc rel)
    pure true
  | .jmp, _ => do
    x86FinishUnsupported start inst.rawOpcode
    pure false
  | .jz, some (.immediate _ rel) | .jnz, some (.immediate _ rel) => do
    match ← Effect.attempt (x86ConditionFromZf (inst.mnemonic == .jz)) with
    | .error .errUnsupported => do
      x86FinishUnsupported start inst.rawOpcode
      pure false
    | .error e => Effect.throw e
    | .ok condition => do
      x86Advance nextPc
      x86FinishDirectCbranch (x86AddI64 nextPc rel) nextPc condition
      pure true
  | .jz, _ | .jnz, _ => do
    x86FinishUnsupported start inst.rawOpcode
    pure false
  | .ret, _ => do
    x86Advance nextPc
    x86FinishReturn
    pure true
  | _, _ => do
    match ← Effect.attempt (x86LiftDecoded inst nextPc) with
    | .error .errUnsupported => do
      x86FinishUnsupported start inst.rawOpcode
      pure false
    | .error e => Effect.throw e
    | .ok () => do
      x86Advance nextPc
      pure false

/-- `x86_lift_one`. -/
def x86LiftOne (image : Image) : Lift Bool := do
  let s ← Effect.get
  match imageOffset image s.pc with
  | none => Effect.throw .errRange
  | some offset =>
    match x86Decode s.arch (image.bytes.drop offset) with
    | .error (.unsupported opcode _) => do
      x86FinishUnsupported s.pc opcode
      pure false
    | .error .range => Effect.throw .errRange
    | .error .badArg => Effect.throw .errBadArg
    | .ok inst => x86LiftInst inst s.pc

/-- The loop of `lift_x86_basic_block`, with `n` instructions to go. -/
def x86LiftLoop (image : Image) : Nat → Lift Unit
  | 0 => x86FinishFallthrough
  | n + 1 => do
    let done ← x86LiftOne image
    let s ← Effect.get
    if done ∨ s.result.endKind = .unsupported then pure () else x86LiftLoop image n

/-- The name of the block that `lift_x86_basic_block` creates. -/
def liftBlockName (options : LiftOptions) : Name :=
  match options.blockName with
  | some (c :: name) => c :: name
  | _ => literalName "bb_" ++ hexadecimal options.address.toNat

/-- `max_instructions`, with its default. -/
def LiftOptions.limit (options : LiftOptions) : Nat :=
  if options.maxInstructions = 0 then 32 else options.maxInstructions

/-- The state in which `lift_x86_basic_block` starts its loop. -/
def liftStart (m : Module) (options : LiftOptions) (block : Nat) (emitReturnTerminator : Bool) :
    LiftState where
  module := m
  result := { LiftResult.init with block := some block, start := options.address }
  arch := options.arch
  block := block
  pc := options.address
  emitReturnTerminator := emitReturnTerminator
  memorySpace := options.memorySpace
  instructions := 0
  regs := fun _ => none
  writtenRegs := fun _ => false
  memory := none
  zf := none

/-- What a lift leaves: the status, the module and the result record. -/
structure Lifted where
  status : Status
  module : Module
  result : LiftResult

/-- The outcome of the loop of `lift_x86_basic_block`. -/
def liftFrom (image : Image) (options : LiftOptions) (s : LiftState) : Lifted :=
  match x86LiftLoop image options.limit s with
  | (.ok (), s) => ⟨.ok, s.module, s.result⟩
  | (.error e, s) => ⟨e, s.module, s.result⟩

/-- `xair_lift_basic_block`, with the default decoder. -/
def liftBasicBlock (m : Module) (image : Image) (options : LiftOptions) : Lifted :=
  match imageOffset image options.address with
  | none => ⟨.errRange, m, LiftResult.init⟩
  | some _ =>
    match blockCreate m (some (liftBlockName options)) with
    | (m, .error e) => ⟨e, m, LiftResult.init⟩
    | (m, .ok block) => liftFrom image options (liftStart m options block true)

/-- `xair_lift_block_body_into`, with the default decoder. -/
def liftBlockBodyInto (m : Module) (image : Image) (options : LiftOptions) (block : Nat) : Lifted :=
  if !m.validBlock block then ⟨.errBadArg, m, LiftResult.init⟩
  else
    match imageOffset image options.address with
    | none => ⟨.errRange, m, LiftResult.init⟩
    | some _ => liftFrom image options (liftStart m options block false)

end Xair
