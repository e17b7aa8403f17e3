import Xair.ByteMap
import Xair.Binary
import Xair.X86Decode

/-!
# The x86 reference machine

What the decoded instructions mean: registers as wide as the architecture says,
memory as a partial byte map, and the zero flag.  This is the abstract side of the
lifter; nothing here is translated from it.

An instruction that loads an undefined byte, or whose access passes the last address,
has no meaning, and neither has a `pop` to the stack pointer.
-/

namespace Xair

open LittleEndian

/-- `reg_bits` and `addr_bits`. -/
def Arch.bits : Arch → Nat
  | .x8632 => 32
  | .x8664 => 64

/-- The bytes of a register. -/
def Arch.bytes : Arch → Nat
  | .x8632 => 4
  | .x8664 => 8

/-- A state of the machine. -/
structure X86Machine (arch : Arch) where
  regs : X86Reg → BitVec arch.bits
  memory : ByteMap
  zf : Bool

namespace X86Machine

variable {arch : Arch} (s : X86Machine arch)

/-- Write a register. -/
def setReg (reg : X86Reg) (value : BitVec arch.bits) : X86Machine arch :=
  { s with regs := fun r => if r = reg then value else s.regs r }

@[simp] theorem setReg_regs_self (reg : X86Reg) (value : BitVec arch.bits) :
    (s.setReg reg value).regs reg = value := if_pos rfl

theorem setReg_regs_ne {reg r : X86Reg} (h : r ≠ reg) (value : BitVec arch.bits) :
    (s.setReg reg value).regs r = s.regs r := if_neg h

theorem setReg_setReg (reg : X86Reg) (value value' : BitVec arch.bits) :
    (s.setReg reg value).setReg reg value' = s.setReg reg value' := by
  simp only [setReg, mk.injEq, and_true]
  funext r
  by_cases h : r = reg <;> simp [h]

theorem setReg_comm {reg reg' : X86Reg} (h : reg ≠ reg') (value value' : BitVec arch.bits) :
    (s.setReg reg value).setReg reg' value' = (s.setReg reg' value').setReg reg value := by
  simp only [setReg, mk.injEq, and_true]
  funext r
  by_cases hr : r = reg
  · subst hr
    simp [h]
  · simp [hr]

@[simp] theorem setReg_memory (reg : X86Reg) (value : BitVec arch.bits) :
    (s.setReg reg value).memory = s.memory := rfl

/-- The address of a memory operand; `next` is the address of the next instruction. -/
def address (mem : X86MemoryOperand) (next : Word) : BitVec arch.bits :=
  match mem.kind with
  | .ripRel => (next + mem.displacement).setWidth arch.bits
  | _ =>
    (if mem.hasBase then s.regs mem.base else 0) +
      (if mem.hasIndex then s.regs mem.index * BitVec.ofNat arch.bits mem.scale else 0) +
      mem.displacement.setWidth arch.bits

/-- The access of a register's bytes at `a` passes the last address. -/
def Wraps (a : BitVec arch.bits) : Prop := 2 ^ arch.bits < a.toNat + arch.bytes

instance (a : BitVec arch.bits) : Decidable (Wraps a) := inferInstanceAs (Decidable (_ < _))

/-- The register-wide word at `a`. -/
def load (a : BitVec arch.bits) : Option (BitVec arch.bits) :=
  if Wraps a then none
  else (s.memory.read (a.setWidth 64) arch.bytes).map fun bytes => BitVec.ofNat arch.bits (leNat bytes)

/-- The state after a register-wide word is stored at `a`. -/
def store (a value : BitVec arch.bits) : Option (X86Machine arch) :=
  if Wraps a then none
  else some { s with
    memory := s.memory.write (a.setWidth 64) ((List.range arch.bytes).map (byteAt value)) }

/-- The result of an arithmetic or logical instruction. -/
def aluResult (mnemonic : X86Mnemonic) (a b : BitVec arch.bits) : Option (BitVec arch.bits) :=
  match mnemonic with
  | .add => some (a + b)
  | .sub | .cmp => some (a - b)
  | .and | .test => some (a &&& b)
  | .or => some (a ||| b)
  | .xor => some (a ^^^ b)
  | _ => none

/-- `cmp` and `test` only set the flag. -/
def writesResult (mnemonic : X86Mnemonic) : Bool := mnemonic != .cmp && mnemonic != .test

/-- An arithmetic or logical instruction. -/
def alu (mnemonic : X86Mnemonic) (dst : X86Reg) (b : BitVec arch.bits) :
    Option (X86Machine arch) :=
  (aluResult mnemonic (s.regs dst) b).map fun result =>
    let s := { s with zf := result == 0 }
    if writesResult mnemonic then s.setReg dst result else s

/-- `push`: the value is read before the stack pointer moves. -/
def push (src : X86Reg) : Option (X86Machine arch) :=
  let sp := s.regs x86Rsp - BitVec.ofNat arch.bits arch.bytes
  (s.store sp (s.regs src)).map fun s => s.setReg x86Rsp sp

/-- `pop` to a register other than the stack pointer. -/
def pop (dst : X86Reg) : Option (X86Machine arch) :=
  if dst = x86Rsp then none
  else (s.load (s.regs x86Rsp)).map fun value =>
    (s.setReg dst value).setReg x86Rsp (s.regs x86Rsp + BitVec.ofNat arch.bits arch.bytes)

/-- One instruction that does not end a block. -/
def step (inst : X86DecodedInst) (next : Word) : Option (X86Machine arch) :=
  match inst.mnemonic, inst.operands with
  | .nop, _ => some s
  | .mov, [.register _ dst, .immediate _ imm] => some (s.setReg dst (imm.setWidth arch.bits))
  | .mov, [.register _ dst, .register _ src] => some (s.setReg dst (s.regs src))
  | .mov, [.register _ dst, .memory _ mem] => (s.load (s.address mem next)).map (s.setReg dst)
  | .mov, [.memory _ mem, .register _ src] => s.store (s.address mem next) (s.regs src)
  | .lea, [.register _ dst, .memory _ mem] => some (s.setReg dst (s.address mem next))
  | .push, [.register _ src] => s.push src
  | .pop, [.register _ dst] => s.pop dst
  | mnemonic, [.register _ dst, .register _ src] => s.alu mnemonic dst (s.regs src)
  | mnemonic, [.register _ dst, .immediate _ imm] => s.alu mnemonic dst (imm.setWidth arch.bits)
  | _, _ => none

/-- `pop` with the stack pointer written last, whatever register is popped. -/
def popThenRsp (dst : X86Reg) : Option (X86Machine arch) :=
  (s.load (s.regs x86Rsp)).map fun value =>
    (s.setReg dst value).setReg x86Rsp (s.regs x86Rsp + BitVec.ofNat arch.bits arch.bytes)

/-- One instruction, `pop` to the stack pointer included: its value is overwritten. -/
def stepThenRsp (inst : X86DecodedInst) (next : Word) : Option (X86Machine arch) :=
  match inst.mnemonic, inst.operands with
  | .pop, [.register _ dst] => s.popThenRsp dst
  | _, _ => s.step inst next

/-- A sequence of instructions, each with the address of the next one. -/
def run : List (X86DecodedInst × Word) → X86Machine arch → Option (X86Machine arch)
  | [], s => some s
  | (inst, next) :: insts, s =>
    match s.step inst next with
    | none => none
    | some s => run insts s

/-- A sequence of instructions with every `pop`. -/
def runThenRsp : List (X86DecodedInst × Word) → X86Machine arch → Option (X86Machine arch)
  | [], s => some s
  | (inst, next) :: insts, s =>
    match s.stepThenRsp inst next with
    | none => none
    | some s => runThenRsp insts s

theorem popThenRsp_of_pop {s s' : X86Machine arch} {dst : X86Reg} (h : s.pop dst = some s') :
    s.popThenRsp dst = some s' := by
  rw [pop] at h
  split at h
  · cases h
  · exact h

/-- Where the machine has a meaning, both agree. -/
theorem stepThenRsp_of_step {s s' : X86Machine arch} {inst : X86DecodedInst} {next : Word}
    (h : s.step inst next = some s') : s.stepThenRsp inst next = some s' := by
  rw [stepThenRsp]
  split
  · next dst hm hops =>
    simp only [step, hm, hops] at h
    exact popThenRsp_of_pop h
  · exact h

theorem runThenRsp_of_run {s s' : X86Machine arch} {insts : List (X86DecodedInst × Word)}
    (h : s.run insts = some s') : s.runThenRsp insts = some s' := by
  induction insts generalizing s with
  | nil => exact h
  | cons i insts ih =>
    rw [run] at h
    cases hs : s.step i.1 i.2 with
    | none =>
      rw [hs] at h
      cases h
    | some s₁ =>
      rw [hs] at h
      rw [runThenRsp, stepThenRsp_of_step hs]
      exact ih h

end X86Machine

end Xair
