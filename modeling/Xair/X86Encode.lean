import Xair.X86Decode

/-!
# Encodings of the x86 subset

The encodings of the instructions that the decoder supports, as the architecture
defines them: at most one REX prefix with its four bits, the opcode, ModRM and SIB
bytes, displacement and immediate.  An `Encoding` gives its bytes (`Encoding.bytes`)
and the instruction that they denote (`Encoding.inst`).
-/

namespace Xair

open LittleEndian

/-! ### The encodings -/

/-- The four bits of a REX prefix. -/
structure Rex where
  w : Bool
  r : Bool
  x : Bool
  b : Bool
  deriving DecidableEq, Repr

/-- The bits that an absent prefix stands for. -/
def Rex.none : Rex := ⟨false, false, false, false⟩

/-- The prefix byte `0100WRXB`. -/
def Rex.byte (p : Rex) : Byte :=
  0x40#8 ||| (if p.w then 8#8 else 0#8) ||| (if p.r then 4#8 else 0#8) |||
    (if p.x then 2#8 else 0#8) ||| (if p.b then 1#8 else 0#8)

/-- The displacement of a memory operand. -/
inductive Disp
  | none
  | disp8 (d : Byte)
  | disp32 (d : BitVec 32)
  deriving DecidableEq, Repr

namespace Disp

/-- The `mod` field that announces it. -/
def mod : Disp → Nat
  | none => 0
  | disp8 _ => 1
  | disp32 _ => 2

def bytes : Disp → List Byte
  | none => []
  | disp8 d => [d]
  | disp32 d => bytes32 d

def value : Disp → Word
  | none => 0#64
  | disp8 d => d.signExtend 64
  | disp32 d => d.signExtend 64

end Disp

/-- The ways to write a memory operand: a base register in ModRM, a SIB byte with or
without a base register, and a bare displacement. -/
inductive MemForm
  | base (base : Nat) (d : Disp)
  | sib (base : Nat) (index : Option Nat) (scale : Fin 4) (d : Disp)
  | sibNoBase (index : Option Nat) (scale : Fin 4) (d : BitVec 32)
  | bare (d : BitVec 32)
  deriving DecidableEq, Repr

/-- The ModRM byte. -/
def modrmByte (mod reg rm : Nat) : Byte := BitVec.ofNat 8 (mod * 64 + reg % 8 * 8 + rm % 8)

/-- The SIB byte; index field 4 stands for no index. -/
def sibByte (scale : Fin 4) (index : Option Nat) (base : Nat) : Byte :=
  BitVec.ofNat 8 (scale * 64 + index.getD 4 % 8 * 8 + base % 8)

namespace MemForm

/-- The `mod` field. -/
def mod : MemForm → Nat
  | base _ d => d.mod
  | sib _ _ _ d => d.mod
  | sibNoBase .. => 0
  | bare _ => 0

/-- The `rm` field. -/
def rm : MemForm → Nat
  | base b _ => b
  | sib .. => 4
  | sibNoBase .. => 4
  | bare _ => 5

/-- The bytes after ModRM. -/
def bytes : MemForm → List Byte
  | base _ d => d.bytes
  | sib b i s d => sibByte s i b :: d.bytes
  | sibNoBase i s d => sibByte s i 5 :: bytes32 d
  | bare d => bytes32 d

/-- The operand that the form denotes. -/
def operand (modeBits : Nat) : MemForm → X86MemoryOperand
  | base b d => ⟨.baseIndex, b, x86RegCount, 1, true, false, d.value⟩
  | sib b i s d => ⟨.baseIndex, b, i.getD x86RegCount, 2 ^ s.val, true, i.isSome, d.value⟩
  | sibNoBase i s d =>
    ⟨.baseIndex, x86RegCount, i.getD x86RegCount, 2 ^ s.val, false, i.isSome, d.signExtend 64⟩
  | bare d =>
    if modeBits = 64 then ⟨.ripRel, 0, 0, 1, false, false, d.signExtend 64⟩
    else ⟨.baseIndex, x86RegCount, x86RegCount, 1, false, false, d.signExtend 64⟩

end MemForm

/-- The register `r` has the REX bit `bit`. -/
def RegBit (modeBits : Nat) (bit : Bool) (r : Nat) : Prop :=
  r < (if modeBits = 64 then 16 else 8) ∧ bit = decide (8 ≤ r)

/-- No index needs index field 4 and REX.X clear, so that `rsp` is no index. -/
def IndexBit (modeBits : Nat) (bit : Bool) : Option Nat → Prop
  | none => bit = false
  | some i => RegBit modeBits bit i ∧ i ≠ 4

/-- The register of a base is none of those whose field means something else. -/
def MemForm.Valid (modeBits : Nat) (p : Rex) : MemForm → Prop
  | base b d => RegBit modeBits p.b b ∧ b % 8 ≠ 4 ∧ (d = .none → b % 8 ≠ 5)
  | sib b i _ d => RegBit modeBits p.b b ∧ (d = .none → b % 8 ≠ 5) ∧ IndexBit modeBits p.x i
  | sibNoBase i _ _ => IndexBit modeBits p.x i
  | bare _ => True

/-- A register or memory operand. -/
inductive RmForm
  | reg (r : Nat)
  | mem (m : MemForm)
  deriving DecidableEq, Repr

namespace RmForm

def mod : RmForm → Nat
  | reg _ => 3
  | mem m => m.mod

def rm : RmForm → Nat
  | reg r => r
  | mem m => m.rm

def bytes : RmForm → List Byte
  | reg _ => []
  | mem m => m.bytes

def operand (modeBits : Nat) : RmForm → X86Operand
  | reg r => .register modeBits r
  | mem m => .memory modeBits (m.operand modeBits)

def Valid (modeBits : Nat) (p : Rex) : RmForm → Prop
  | reg r => RegBit modeBits p.b r
  | mem m => m.Valid modeBits p

end RmForm

/-- The operations with two register directions and with an immediate. -/
inductive AluOp
  | add | or | and | sub | xor | cmp
  deriving DecidableEq, Repr

namespace AluOp

/-- The opcode extension: the `reg` field of group 1, and bits 3 to 5 of the opcodes. -/
def group : AluOp → Nat
  | add => 0 | or => 1 | and => 4 | sub => 5 | xor => 6 | cmp => 7

def mnemonic : AluOp → X86Mnemonic
  | add => .add | or => .or | and => .and | sub => .sub | xor => .xor | cmp => .cmp

/-- `01/03 .. 39/3B`: the second has the register field as destination. -/
def opcode (op : AluOp) (regDest : Bool) : Byte :=
  BitVec.ofNat 8 (op.group * 8 + if regDest then 3 else 1)

end AluOp

/-- An immediate of group 1: `83` or `81`. -/
inductive AluImm
  | imm8 (d : Byte)
  | imm32 (d : BitVec 32)
  deriving DecidableEq, Repr

/-- The operand of a branch. -/
inductive Rel
  | rel8 (d : Byte)
  | rel32 (d : BitVec 32)
  deriving DecidableEq, Repr

/-- The branches. -/
inductive BranchOp
  | jmp | jz | jnz
  deriving DecidableEq, Repr

/-- The instructions of the subset with their operands. -/
inductive Form
  | movImm (dst : Nat) (imm : Word)
  | movLoad (dst : Nat) (src : RmForm)
  | movStore (dst : RmForm) (src : Nat)
  | lea (dst : Nat) (src : MemForm)
  | alu (op : AluOp) (regDest : Bool) (reg rm : Nat)
  | test (rm reg : Nat)
  | aluImm (op : AluOp) (rm : Nat) (imm : AluImm)
  | push (r : Nat)
  | pop (r : Nat)
  | branch (op : BranchOp) (rel : Rel)
  | nop
  | ret
  deriving DecidableEq, Repr

namespace Form

/-- REX.W selects the 64-bit form of the operation. -/
def NeedsW : Form → Bool
  | push _ | pop _ | branch .. | nop | ret => false
  | _ => true

/-- The opcode bytes, the first being the only one but for the near conditional branches. -/
def opcode : Form → Byte
  | movImm dst _ => BitVec.ofNat 8 (0xb8 + dst % 8)
  | movLoad .. => 0x8b#8
  | movStore .. => 0x89#8
  | lea .. => 0x8d#8
  | alu op regDest _ _ => op.opcode regDest
  | test .. => 0x85#8
  | aluImm _ _ (.imm8 _) => 0x83#8
  | aluImm _ _ (.imm32 _) => 0x81#8
  | push r => BitVec.ofNat 8 (0x50 + r % 8)
  | pop r => BitVec.ofNat 8 (0x58 + r % 8)
  | branch .jmp (.rel8 _) => 0xeb#8
  | branch .jmp (.rel32 _) => 0xe9#8
  | branch .jz (.rel8 _) => 0x74#8
  | branch .jnz (.rel8 _) => 0x75#8
  | branch _ (.rel32 _) => 0x0f#8
  | nop => 0x90#8
  | ret => 0xc3#8

def opcode2 : Form → Byte
  | branch .jz (.rel32 _) => 0x84#8
  | branch .jnz (.rel32 _) => 0x85#8
  | _ => 0#8

/-- The bytes after the first opcode byte. -/
def tail (modeBits : Nat) : Form → List Byte
  | movImm _ imm => if modeBits = 64 then bytes64 imm else bytes32 (low32 imm)
  | movLoad dst src => modrmByte src.mod dst src.rm :: src.bytes
  | movStore dst src => modrmByte dst.mod src dst.rm :: dst.bytes
  | lea dst src => modrmByte src.mod dst src.rm :: src.bytes
  | alu _ _ reg rm => [modrmByte 3 reg rm]
  | test rm reg => [modrmByte 3 reg rm]
  | aluImm op rm (.imm8 d) => [modrmByte 3 op.group rm, d]
  | aluImm op rm (.imm32 d) => modrmByte 3 op.group rm :: bytes32 d
  | branch _ (.rel8 d) => [d]
  | branch .jmp (.rel32 d) => bytes32 d
  | branch .jz (.rel32 d) => 0x84#8 :: bytes32 d
  | branch .jnz (.rel32 d) => 0x85#8 :: bytes32 d
  | push _ | pop _ | nop | ret => []

def mnemonic : Form → X86Mnemonic
  | movImm .. | movLoad .. | movStore .. => .mov
  | lea .. => .lea
  | alu op .. | aluImm op .. => op.mnemonic
  | test .. => .test
  | push _ => .push
  | pop _ => .pop
  | branch .jmp _ => .jmp
  | branch .jz _ => .jz
  | branch .jnz _ => .jnz
  | nop => .nop
  | ret => .ret

/-- The operands, in the order of the architecture: the destination first. -/
def operands (modeBits : Nat) : Form → List X86Operand
  | movImm dst imm =>
    [.register modeBits dst,
      .immediate modeBits (if modeBits = 64 then imm else (low32 imm).setWidth 64)]
  | movLoad dst src => [.register modeBits dst, src.operand modeBits]
  | movStore dst src => [dst.operand modeBits, .register modeBits src]
  | lea dst src => [.register modeBits dst, .memory modeBits (src.operand modeBits)]
  | alu _ true reg rm => [.register modeBits reg, .register modeBits rm]
  | alu _ false reg rm => [.register modeBits rm, .register modeBits reg]
  | test rm reg => [.register modeBits rm, .register modeBits reg]
  | aluImm _ rm (.imm8 d) => [.register modeBits rm, .immediate 8 (d.signExtend 64)]
  | aluImm _ rm (.imm32 d) => [.register modeBits rm, .immediate 32 (d.signExtend 64)]
  | push r => [.register modeBits r]
  | pop r => [.register modeBits r]
  | branch _ (.rel8 d) => [.immediate 8 (d.signExtend 64)]
  | branch _ (.rel32 d) => [.immediate 32 (d.signExtend 64)]
  | nop | ret => []

/-- The registers fit the REX bits that extend them. -/
def Valid (modeBits : Nat) (p : Rex) : Form → Prop
  | movImm dst _ => RegBit modeBits p.b dst
  | movLoad dst src => RegBit modeBits p.r dst ∧ src.Valid modeBits p
  | movStore dst src => RegBit modeBits p.r src ∧ dst.Valid modeBits p
  | lea dst src => RegBit modeBits p.r dst ∧ src.Valid modeBits p
  | alu _ _ reg rm => RegBit modeBits p.r reg ∧ RegBit modeBits p.b rm
  | test rm reg => RegBit modeBits p.r reg ∧ RegBit modeBits p.b rm
  | aluImm _ rm _ => RegBit modeBits p.b rm
  | push r | pop r => RegBit modeBits p.b r
  | branch .. | nop | ret => True

end Form

/-- An encoding: the prefix, if any, and the form. -/
structure Encoding where
  rex : Option Rex
  form : Form
  deriving DecidableEq, Repr

namespace Encoding

def bytes (modeBits : Nat) (e : Encoding) : List Byte :=
  (e.rex.map Rex.byte).toList ++ e.form.opcode :: e.form.tail modeBits

/-- The instruction that the bytes denote. -/
def inst (modeBits : Nat) (e : Encoding) : X86DecodedInst :=
  ⟨e.form.mnemonic, (e.bytes modeBits).length, e.form.opcode, e.form.opcode2,
    e.form.operands modeBits⟩

/-- The encodings of a mode: no prefix in the 32-bit mode or before `nop`, and in the
64-bit mode REX.W where the form needs it. -/
structure Valid (modeBits : Nat) (e : Encoding) : Prop where
  mode : modeBits = 32 ∨ modeBits = 64
  rex : modeBits = 32 ∨ e.form = .nop → e.rex = none
  w : modeBits = 64 → e.form.NeedsW = true → (e.rex.getD Rex.none).w = true
  form : e.form.Valid modeBits (e.rex.getD Rex.none)

end Encoding

end Xair
