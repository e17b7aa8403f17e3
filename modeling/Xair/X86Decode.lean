import Xair.Types
import Xair.LittleEndian

/-!
# The x86 decoder

`xair_x86_decode.c`: the decoder of the x86 subset, for the 32-bit and the 64-bit
mode.  The functions read the bytes from a given offset and return the offset after
what they read.  The size of an instruction's bytes is the length of the list.
-/

namespace Xair

open LittleEndian

/-- A `uint8_t`. -/
abbrev Byte := BitVec 8

/-- `xair_x86_reg`: the number of a register, `x86RegCount` for none. -/
abbrev X86Reg := Nat

def x86Rsp : X86Reg := 4
def x86R8 : X86Reg := 8
def x86RegCount : X86Reg := 16

/-- `xair_x86_mnemonic`. -/
inductive X86Mnemonic
  | invalid | nop | mov | add | sub | and | or | xor | cmp | test
  | lea | push | pop | jmp | jz | jnz | ret
  deriving DecidableEq, Repr

/-- `xair_x86_memory_kind`. -/
inductive X86MemoryKind
  | invalid | ripRel | baseIndex
  deriving DecidableEq, Repr

/-- `xair_x86_memory_operand`. -/
structure X86MemoryOperand where
  kind : X86MemoryKind
  base : X86Reg
  index : X86Reg
  scale : Nat
  hasBase : Bool
  hasIndex : Bool
  displacement : Word
  deriving DecidableEq, Repr

/-- `xair_x86_operand`: the kind, `size_bits`, and the member of the union that the kind
selects. -/
inductive X86Operand
  | unused
  | register (sizeBits : Nat) (reg : X86Reg)
  | memory (sizeBits : Nat) (mem : X86MemoryOperand)
  | immediate (sizeBits : Nat) (imm : Word)
  deriving DecidableEq, Repr

/-- `xair_x86_decoded_inst`; the list holds the first `operand_count` operands. -/
structure X86DecodedInst where
  mnemonic : X86Mnemonic
  length : Nat
  rawOpcode : Byte
  rawOpcode2 : Byte
  operands : List X86Operand
  deriving DecidableEq, Repr

/-- How decoding fails.  `XAIR_ERR_UNSUPPORTED` leaves the two opcode bytes behind. -/
inductive X86DecodeError
  | badArg
  | range
  | unsupported (rawOpcode rawOpcode2 : Byte)
  deriving DecidableEq, Repr

/-! ### Reading bytes -/

/-- `decode_read_u8`. -/
def decodeReadU8 (bytes : List Byte) (offset : Nat) : Option Byte := bytes[offset]?

/-- `decode_read_le32`. -/
def decodeReadLe32 (bytes : List Byte) (offset : Nat) : Option (BitVec 32) :=
  if bytes.length < offset ∨ bytes.length - offset < 4 then none
  else some (le32 (bytes.getD offset 0#8) (bytes.getD (offset + 1) 0#8)
    (bytes.getD (offset + 2) 0#8) (bytes.getD (offset + 3) 0#8))

/-- `decode_read_le64`. -/
def decodeReadLe64 (bytes : List Byte) (offset : Nat) : Option (BitVec 64) :=
  match decodeReadLe32 bytes offset with
  | none => none
  | some lo =>
    match decodeReadLe32 bytes (offset + 4) with
    | none => none
    | some hi => some (le64 lo hi)

/-- `decode_sign_extend8`. -/
def decodeSignExtend8 (value : Byte) : Word := value.signExtend 64

/-- `decode_sign_extend32`. -/
def decodeSignExtend32 (value : BitVec 32) : Word := value.signExtend 64

/-! ### Operands -/

/-- `decode_reg`. -/
def decodeReg (field rexBit : Byte) (modeBits : Nat) : X86Reg :=
  field.toNat + if modeBits = 64 ∧ rexBit ≠ 0#8 then 8 else 0

/-- `decode_modrm`: the fields `mod`, `reg` and `rm`. -/
def decodeModrm (byte : Byte) : Byte × Byte × Byte := (byte >>> 6, byte >>> 3 &&& 7#8, byte &&& 7#8)

/-- The operand of `decode_set_rip_mem`. -/
def decodeRipMem (bits : Nat) (displacement : Word) : X86Operand :=
  .memory bits ⟨.ripRel, 0, 0, 1, false, false, displacement⟩

/-- The operand of `decode_set_base_index_mem`. -/
def decodeBaseIndexMem (hasBase : Bool) (base : X86Reg) (hasIndex : Bool) (index : X86Reg)
    (scale : Byte) (bits : Nat) (displacement : Word) : X86Operand :=
  .memory bits ⟨.baseIndex, base, index, if scale = 0#8 then 1 else scale.toNat,
    hasBase, hasIndex, displacement⟩

/-- `decode_displacement`. -/
def decodeDisplacement (bytes : List Byte) (mod : Byte) (offset : Nat) :
    Except X86DecodeError (Word × Nat) :=
  if mod = 1#8 then
    match decodeReadU8 bytes offset with
    | none => .error .range
    | some disp8 => .ok (decodeSignExtend8 disp8, offset + 1)
  else if mod = 2#8 then
    match decodeReadLe32 bytes offset with
    | none => .error .range
    | some disp32 => .ok (decodeSignExtend32 disp32, offset + 4)
  else .ok (0#64, offset)

/-- The part of `decode_memory_operand` for a SIB byte. -/
def decodeSib (bytes : List Byte) (mod rex : Byte) (modeBits operandBits offset : Nat) :
    Except X86DecodeError (X86Operand × Nat) :=
  match decodeReadU8 bytes offset with
  | none => .error .range
  | some sib =>
    let scaleBits := sib >>> 6
    let indexField := sib >>> 3 &&& 7#8
    let baseField := sib &&& 7#8
    let scale := 1#8 <<< scaleBits.toNat
    let hasIndex := !(indexField == 4#8 && rex &&& 2#8 == 0#8)
    let index := if hasIndex then decodeReg indexField (rex &&& 2#8) modeBits else x86RegCount
    if mod = 0#8 ∧ baseField = 5#8 then
      match decodeReadLe32 bytes (offset + 1) with
      | none => .error .range
      | some disp32 =>
        .ok (decodeBaseIndexMem false x86RegCount hasIndex index scale operandBits
          (decodeSignExtend32 disp32), offset + 1 + 4)
    else
      match decodeDisplacement bytes mod (offset + 1) with
      | .error _ => .error .range
      | .ok (displacement, offset) =>
        .ok (decodeBaseIndexMem true (decodeReg baseField (rex &&& 1#8) modeBits) hasIndex index
          scale operandBits displacement, offset)

/-- `decode_memory_operand`. -/
def decodeMemoryOperand (bytes : List Byte) (mod rmField rex : Byte)
    (modeBits operandBits offset : Nat) : Except X86DecodeError (X86Operand × Nat) :=
  if mod = 3#8 then .error .badArg
  else if rmField = 4#8 then decodeSib bytes mod rex modeBits operandBits offset
  else if mod = 0#8 ∧ rmField = 5#8 then
    match decodeReadLe32 bytes offset with
    | none => .error .range
    | some disp32 =>
      if modeBits = 64 then
        .ok (decodeRipMem operandBits (decodeSignExtend32 disp32), offset + 4)
      else
        .ok (decodeBaseIndexMem false x86RegCount false x86RegCount 1#8 operandBits
          (decodeSignExtend32 disp32), offset + 4)
  else
    match decodeDisplacement bytes mod offset with
    | .error _ => .error .range
    | .ok (displacement, offset) =>
      .ok (decodeBaseIndexMem true (decodeReg rmField (rex &&& 1#8) modeBits) false x86RegCount 1#8
        operandBits displacement, offset)

/-- `decode_rm_operand`. -/
def decodeRmOperand (bytes : List Byte) (mod rmField rex : Byte)
    (modeBits operandBits offset : Nat) : Except X86DecodeError (X86Operand × Nat) :=
  if mod = 3#8 then .ok (.register operandBits (decodeReg rmField (rex &&& 1#8) modeBits), offset)
  else decodeMemoryOperand bytes mod rmField rex modeBits operandBits offset

/-! ### Instructions -/

/-- `decode_unsupported`. -/
def decodeUnsupported (opcode opcode2 : Byte) : Except X86DecodeError X86DecodedInst :=
  .error (.unsupported opcode opcode2)

/-- `inst.length = (uint8_t)offset` with the mnemonic and the operands. -/
def decodedInst (mnemonic : X86Mnemonic) (offset : Nat) (opcode opcode2 : Byte)
    (operands : List X86Operand) : Except X86DecodeError X86DecodedInst :=
  .ok ⟨mnemonic, offset % 256, opcode, opcode2, operands⟩

/-- `decode_modrm_move_or_lea`. -/
def decodeModrmMoveOrLea (bytes : List Byte) (opcode rex : Byte) (modeBits offset : Nat) :
    Except X86DecodeError X86DecodedInst :=
  if modeBits = 64 ∧ rex &&& 8#8 = 0#8 then decodeUnsupported opcode 0#8
  else
    match decodeReadU8 bytes offset with
    | none => .error .range
    | some modrm =>
      let (mod, regField, rmField) := decodeModrm modrm
      let reg := X86Operand.register modeBits (decodeReg regField (rex &&& 4#8) modeBits)
      if opcode = 0x8d#8 then
        if mod = 3#8 then decodeUnsupported opcode 0#8
        else
          match decodeMemoryOperand bytes mod rmField rex modeBits modeBits (offset + 1) with
          | .error _ => .error .range
          | .ok (rmOperand, offset) => decodedInst .lea offset opcode 0#8 [reg, rmOperand]
      else
        match decodeRmOperand bytes mod rmField rex modeBits modeBits (offset + 1) with
        | .error _ => .error .range
        | .ok (rmOperand, offset) =>
          decodedInst .mov offset opcode 0#8
            (if opcode = 0x8b#8 then [reg, rmOperand] else [rmOperand, reg])

/-- `decode_binary_mnemonic`. -/
def decodeBinaryMnemonic (opcode : Byte) : X86Mnemonic :=
  match opcode with
  | 0x01#8 | 0x03#8 => .add
  | 0x09#8 | 0x0b#8 => .or
  | 0x21#8 | 0x23#8 => .and
  | 0x29#8 | 0x2b#8 => .sub
  | 0x31#8 | 0x33#8 => .xor
  | 0x39#8 | 0x3b#8 => .cmp
  | 0x85#8 => .test
  | _ => .invalid

/-- `decode_reg_dest_opcode`. -/
def decodeRegDestOpcode (opcode : Byte) : Bool :=
  match opcode with
  | 0x03#8 | 0x0b#8 | 0x23#8 | 0x2b#8 | 0x33#8 | 0x3b#8 => true
  | _ => false

/-- `decode_modrm_binary`. -/
def decodeModrmBinary (bytes : List Byte) (opcode rex : Byte) (modeBits offset : Nat) :
    Except X86DecodeError X86DecodedInst :=
  if modeBits = 64 ∧ rex &&& 8#8 = 0#8 then decodeUnsupported opcode 0#8
  else
    match decodeReadU8 bytes offset with
    | none => .error .range
    | some modrm =>
      let (mod, regField, rmField) := decodeModrm modrm
      match decodeRmOperand bytes mod rmField rex modeBits modeBits (offset + 1) with
      | .error _ => .error .range
      | .ok (.register bits rm, offset) =>
        let rmOperand := X86Operand.register bits rm
        let reg := X86Operand.register modeBits (decodeReg regField (rex &&& 4#8) modeBits)
        if decodeBinaryMnemonic opcode = .invalid then decodeUnsupported opcode 0#8
        else
          decodedInst (decodeBinaryMnemonic opcode) offset opcode 0#8
            (if decodeRegDestOpcode opcode then [reg, rmOperand] else [rmOperand, reg])
      | .ok _ => decodeUnsupported opcode 0#8

/-- `decode_group1_mnemonic`. -/
def decodeGroup1Mnemonic (group : Byte) : X86Mnemonic :=
  match group with
  | 0#8 => .add
  | 1#8 => .or
  | 4#8 => .and
  | 5#8 => .sub
  | 6#8 => .xor
  | 7#8 => .cmp
  | _ => .invalid

/-- The immediate of `decode_group1_imm`. -/
def decodeGroup1ImmValue (bytes : List Byte) (opcode : Byte) (offset : Nat) :
    Except X86DecodeError (Word × Nat) :=
  if opcode = 0x83#8 then
    match decodeReadU8 bytes offset with
    | none => .error .range
    | some rawImm => .ok (decodeSignExtend8 rawImm, offset + 1)
  else
    match decodeReadLe32 bytes offset with
    | none => .error .range
    | some rawImm => .ok (decodeSignExtend32 rawImm, offset + 4)

/-- `decode_group1_imm`. -/
def decodeGroup1Imm (bytes : List Byte) (opcode rex : Byte) (modeBits offset : Nat) :
    Except X86DecodeError X86DecodedInst :=
  if modeBits = 64 ∧ rex &&& 8#8 = 0#8 then decodeUnsupported opcode 0#8
  else
    match decodeReadU8 bytes offset with
    | none => .error .range
    | some modrm =>
      let (mod, group, rmField) := decodeModrm modrm
      match decodeRmOperand bytes mod rmField rex modeBits modeBits (offset + 1) with
      | .error _ => .error .range
      | .ok (.register bits rm, offset) =>
        match decodeGroup1ImmValue bytes opcode offset with
        | .error e => .error e
        | .ok (imm, offset) =>
          if decodeGroup1Mnemonic group = .invalid then decodeUnsupported opcode 0#8
          else
            decodedInst (decodeGroup1Mnemonic group) offset opcode 0#8
              [.register bits rm, .immediate (if opcode = 0x83#8 then 8 else 32) imm]
      | .ok _ => decodeUnsupported opcode 0#8

/-- The case of `xair_x86_decode_mode` for `mov r, imm`. -/
def decodeMovImm (bytes : List Byte) (opcode rex : Byte) (modeBits offset : Nat) :
    Except X86DecodeError X86DecodedInst :=
  if modeBits = 64 ∧ rex &&& 8#8 = 0#8 then decodeUnsupported opcode 0#8
  else
    let dst := X86Operand.register modeBits (decodeReg (opcode - 0xb8#8) (rex &&& 1#8) modeBits)
    if modeBits = 64 then
      match decodeReadLe64 bytes offset with
      | none => .error .range
      | some imm => decodedInst .mov (offset + 8) opcode 0#8 [dst, .immediate modeBits imm]
    else
      match decodeReadLe32 bytes offset with
      | none => .error .range
      | some imm32 =>
        decodedInst .mov (offset + 4) opcode 0#8 [dst, .immediate modeBits (imm32.setWidth 64)]

/-- The cases of `xair_x86_decode_mode` for a branch by one byte. -/
def decodeRel8 (bytes : List Byte) (mnemonic : X86Mnemonic) (opcode opcode2 : Byte)
    (offset : Nat) : Except X86DecodeError X86DecodedInst :=
  match decodeReadU8 bytes offset with
  | none => .error .range
  | some rel =>
    decodedInst mnemonic (offset + 1) opcode opcode2 [.immediate 8 (decodeSignExtend8 rel)]

/-- The cases of `xair_x86_decode_mode` for a branch by four bytes. -/
def decodeRel32 (bytes : List Byte) (mnemonic : X86Mnemonic) (opcode opcode2 : Byte)
    (offset : Nat) : Except X86DecodeError X86DecodedInst :=
  match decodeReadLe32 bytes offset with
  | none => .error .range
  | some rel =>
    decodedInst mnemonic (offset + 4) opcode opcode2 [.immediate 32 (decodeSignExtend32 rel)]

/-- The prefix loop of `xair_x86_decode_mode` over the bytes from `offset` on: the last REX
prefix, the opcode and the offset after it. -/
def decodePrefixes (modeBits : Nat) (rex : Byte) (offset : Nat) :
    List Byte → Option (Byte × Byte × Nat)
  | [] => none
  | opcode :: rest =>
    if modeBits = 64 ∧ 0x40#8 ≤ opcode ∧ opcode ≤ 0x4f#8 then
      decodePrefixes modeBits opcode (offset + 1) rest
    else some (rex, opcode, offset + 1)

/-- The cases of `xair_x86_decode_mode` by opcode. -/
def decodeOpcode (bytes : List Byte) (opcode rex : Byte) (modeBits offset : Nat) :
    Except X86DecodeError X86DecodedInst :=
  if 0xb8#8 ≤ opcode ∧ opcode ≤ 0xbf#8 then decodeMovImm bytes opcode rex modeBits offset
  else if 0x50#8 ≤ opcode ∧ opcode ≤ 0x57#8 ∨ 0x58#8 ≤ opcode ∧ opcode ≤ 0x5f#8 then
    decodedInst (if opcode < 0x58#8 then .push else .pop) offset opcode 0#8
      [.register modeBits (decodeReg (opcode &&& 7#8) (rex &&& 1#8) modeBits)]
  else
    match opcode with
    | 0x90#8 => decodedInst .nop offset opcode 0#8 []
    | 0x8b#8 | 0x89#8 | 0x8d#8 => decodeModrmMoveOrLea bytes opcode rex modeBits offset
    | 0x01#8 | 0x03#8 | 0x09#8 | 0x0b#8 | 0x21#8 | 0x23#8 | 0x29#8 | 0x2b#8
    | 0x31#8 | 0x33#8 | 0x39#8 | 0x3b#8 | 0x85#8 =>
      decodeModrmBinary bytes opcode rex modeBits offset
    | 0x81#8 | 0x83#8 => decodeGroup1Imm bytes opcode rex modeBits offset
    | 0xeb#8 => decodeRel8 bytes .jmp opcode 0#8 offset
    | 0xe9#8 => decodeRel32 bytes .jmp opcode 0#8 offset
    | 0x74#8 => decodeRel8 bytes .jz opcode 0#8 offset
    | 0x75#8 => decodeRel8 bytes .jnz opcode 0#8 offset
    | 0x0f#8 =>
      match decodeReadU8 bytes offset with
      | none => .error .range
      | some opcode2 =>
        if opcode2 = 0x84#8 ∨ opcode2 = 0x85#8 then
          decodeRel32 bytes (if opcode2 = 0x84#8 then .jz else .jnz) opcode opcode2 (offset + 1)
        else decodeUnsupported opcode opcode2
    | 0xc3#8 => decodedInst .ret offset opcode 0#8 []
    | _ => decodeUnsupported opcode 0#8

/-- `xair_x86_decode_mode`. -/
def x86DecodeMode (bytes : List Byte) (modeBits : Nat) : Except X86DecodeError X86DecodedInst :=
  if bytes.isEmpty then .error .badArg
  else
    match decodePrefixes modeBits 0#8 0 bytes with
    | none => .error .range
    | some (rex, opcode, offset) => decodeOpcode bytes opcode rex modeBits offset

/-- `xair_x86_decode32`. -/
def x86Decode32 (bytes : List Byte) : Except X86DecodeError X86DecodedInst := x86DecodeMode bytes 32

/-- `xair_x86_decode64`. -/
def x86Decode64 (bytes : List Byte) : Except X86DecodeError X86DecodedInst := x86DecodeMode bytes 64

end Xair
