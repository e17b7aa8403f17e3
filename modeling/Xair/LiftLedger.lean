import Xair.LiftBlock

/-!
# What a lift records

The part of the lift state that depends on the instructions only, not on the values that
are built: where the lift is, how many instructions it has lifted, which registers it
has made inputs and which it knows a value of.  Every function of the lifter acts on
this ledger as the registers that it reads and writes say (`Reads`, `Touches`).
-/

namespace Xair

open Effect (Ensures)

/-! ### The registers of an instruction -/

/-- The registers that an address is computed from. -/
def X86MemoryOperand.regs (mem : X86MemoryOperand) : List X86Reg :=
  match mem.kind with
  | .baseIndex =>
    (if mem.hasBase then [mem.base] else []) ++ if mem.hasIndex then [mem.index] else []
  | _ => []

/-- The registers that an instruction reads, as data, for an address or as the stack pointer. -/
def X86DecodedInst.readRegs (inst : X86DecodedInst) : List X86Reg :=
  match inst.mnemonic, inst.operands with
  | .mov, [.register _ _, .register _ src] => [src]
  | .mov, [.register _ _, .memory _ mem] | .lea, [.register _ _, .memory _ mem] => mem.regs
  | .mov, [.memory _ mem, .register _ src] => src :: mem.regs
  | .push, [.register _ src] => [x86Rsp, src]
  | .pop, [.register _ _] => [x86Rsp]
  | mnemonic, [.register _ dst, .register _ src] => if mnemonic.isAlu then [dst, src] else []
  | mnemonic, [.register _ dst, .immediate _ _] => if mnemonic.isAlu then [dst] else []
  | _, _ => []

/-! ### The ledger -/

/-- Position, number of instructions, inputs, and the registers with a value. -/
@[ext] structure Ledger where
  pc : Word
  instructions : Nat
  inputs : List X86Reg
  known : X86Reg → Bool

/-- The ledger of a lift state. -/
def LiftState.ledger (s : LiftState) : Ledger where
  pc := s.pc
  instructions := s.instructions
  inputs := s.result.inputRegs.map Prod.fst
  known := fun r => (s.regs r).isSome

namespace Ledger

variable (l : Ledger)

/-- A register without a value becomes an input. -/
def read (reg : X86Reg) : Ledger :=
  if l.known reg then l
  else { l with inputs := l.inputs ++ [reg], known := fun r => r == reg || l.known r }

/-- Several registers are read in turn. -/
def reads (regs : List X86Reg) : Ledger := regs.foldl read l

/-- The registers in `w` are written. -/
def writes (w : X86Reg → Bool) : Ledger := { l with known := fun r => w r || l.known r }

/-- One more instruction, the address after it being `pc`. -/
def advance (pc : Word) : Ledger := { l with pc := pc, instructions := l.instructions + 1 }

/-- An instruction, with the address after it. -/
def step (i : X86DecodedInst × Word) : Ledger :=
  ((l.reads i.1.readRegs).writes i.1.writes).advance i.2

@[simp] theorem reads_nil : l.reads [] = l := rfl

theorem reads_append (regs regs' : List X86Reg) :
    l.reads (regs ++ regs') = (l.reads regs).reads regs' :=
  List.foldl_append

theorem writes_none : l.writes (fun _ => false) = l := by
  unfold writes
  simp

theorem writes_writes (w w' : X86Reg → Bool) :
    (l.writes w).writes w' = l.writes fun r => w r || w' r := by
  unfold writes
  simp only [Bool.or_assoc, Bool.or_left_comm]

end Ledger

/-! ### Acting on the ledger -/

/-- The registers with a value keep it, outside `w`. -/
def KeepsRegs (w : X86Reg → Bool) (s s' : LiftState) : Prop :=
  ∀ r v, w r = false → s.regs r = some v → s'.regs r = some v

/-- `x` reads the registers `p` and then writes those in `w`. -/
def Touches {α : Type} (p : List X86Reg) (w : X86Reg → Bool) (x : Lift α) : Prop :=
  ∀ s, Ensures x s (fun _ s' => s'.ledger = (s.ledger.reads p).writes w ∧ KeepsRegs w s s')
    fun _ _ => True

/-- `x` reads the registers `p`. -/
def Reads {α : Type} (p : List X86Reg) (x : Lift α) : Prop := Touches p (fun _ => false) x

section Rules

variable {α β : Type} {x : Lift α} {f : α → Lift β} {p q : List X86Reg} {w w' : X86Reg → Bool}

theorem reads_pure (a : α) : Reads [] (pure a : Lift α) :=
  fun s => ⟨(s.ledger.writes_none).symm, fun _ _ _ h => h⟩

theorem touches_throw (e : Status) : Touches p w (Effect.throw e : Lift α) := fun _ => trivial

theorem Touches.get {f : LiftState → Lift β} (h : ∀ s, Touches p w (f s)) :
    Touches p w (Effect.get >>= f) := fun s => h s s

/-- A call of the builder changes the module only. -/
theorem ensures_build {call : Module → Module × Except Status α} {s : LiftState}
    {Q : α → LiftState → Prop} (h : ∀ a m', Q a { s with module := m' }) :
    Ensures (build call) s Q fun _ _ => True := by
  unfold Ensures build
  rcases (call s.module).2 with e | a
  · trivial
  · exact h a _

theorem reads_build (call : Module → Module × Except Status α) : Reads [] (build call) :=
  fun s => ensures_build fun _ _ => ⟨(s.ledger.writes_none).symm, fun _ _ _ h => h⟩

/-- What is read before can be written after. -/
theorem Touches.bind (hx : Touches p w x) (hf : ∀ a, Touches [] w' (f a)) :
    Touches p (fun r => w r || w' r) (x >>= f) := by
  intro s
  refine Ensures.bind (hx s) fun a s₁ h₁ => ?_
  refine Ensures.mono (hf a s₁) (fun _ s₂ h₂ => ⟨?_, ?_⟩) fun _ _ h => h
  · rw [h₂.1, h₁.1, Ledger.reads_nil, Ledger.writes_writes]
  · intro r v hw hv
    rw [Bool.or_eq_false_iff] at hw
    exact h₂.2 r v hw.2 (h₁.2 r v hw.1 hv)

/-- Reading first. -/
theorem Reads.bind (hx : Reads p x) (hf : ∀ a, Touches q w (f a)) :
    Touches (p ++ q) w (x >>= f) := by
  intro s
  refine Ensures.bind (hx s) fun a s₁ h₁ => ?_
  refine Ensures.mono (hf a s₁) (fun _ s₂ h₂ => ⟨?_, ?_⟩) fun _ _ h => h
  · rw [h₂.1, h₁.1, Ledger.writes_none, Ledger.reads_append]
  · exact fun r v hw hv => h₂.2 r v hw (h₁.2 r v rfl hv)

/-- Reading first, and then only building and writing. -/
theorem Reads.then (hx : Reads p x) (hf : ∀ a, Touches [] w (f a)) : Touches p w (x >>= f) := by
  have h := hx.bind hf
  rwa [List.append_nil] at h

theorem touches_ite {c : Prop} [Decidable c] {y : Lift α} (hx : c → Touches p w x)
    (hy : ¬ c → Touches p w y) : Touches p w (if c then x else y) := by
  split
  · next h => exact hx h
  · next h => exact hy h

end Rules

/-! ### The functions of the lifter -/

theorem x86EnsureReg_reads (reg : X86Reg) : Reads [reg] (x86EnsureReg reg) := by
  intro s
  unfold x86EnsureReg
  show Ensures (if (!x86RegSupported s.arch reg) = true then _ else _ : Lift Nat) s _ _
  refine Effect.ensures_ite (fun _ => trivial) fun _ => ?_
  have hread : (s.ledger.reads [reg]).writes (fun _ => false) = s.ledger.read reg :=
    Ledger.writes_none _
  rw [hread]
  cases hv : s.regs reg with
  | some v =>
    have hknown : s.ledger.read reg = s.ledger := if_pos (by simp [LiftState.ledger, hv])
    rw [hknown]
    exact ⟨rfl, fun _ _ _ h => h⟩
  | none =>
    have hknown : s.ledger.read reg = _ := if_neg (by simp [LiftState.ledger, hv])
    rw [hknown]
    refine Ensures.bind (ensures_build (Q := fun _ s' => ∃ m', s' = { s with module := m' })
      fun _ m' => ⟨m', rfl⟩) ?_
    rintro v _ ⟨m', rfl⟩
    refine Effect.ensures_ite (fun _ => trivial) fun _ => ⟨?_, ?_⟩
    · ext1
      · rfl
      · rfl
      · exact List.map_append
      · funext r
        show (if r = reg then some v else s.regs r).isSome = (r == reg || (s.regs r).isSome)
        by_cases hr : r = reg <;> simp [hr]
    · intro r u _ hu
      show (if r = reg then some v else s.regs r) = some u
      rw [if_neg (fun hr => by rw [hr, hv] at hu; cases hu)]
      exact hu

theorem x86EnsureMemory_reads : Reads [] x86EnsureMemory := by
  refine Touches.get fun s => ?_
  cases s.memory with
  | some v => exact reads_pure v
  | none =>
    refine Reads.then (reads_build _) fun v => ?_
    exact fun s => ⟨(s.ledger.writes_none).symm, fun _ _ _ h => h⟩

theorem x86WriteReg_touches (reg : X86Reg) (v : Nat) :
    Touches [] (fun r => r == reg) (x86WriteReg reg v) := by
  intro s
  refine ⟨?_, ?_⟩
  · ext1
    · rfl
    · rfl
    · rfl
    · funext r
      show (if r = reg then some v else s.regs r).isSome = (r == reg || (s.regs r).isSome)
      by_cases hr : r = reg <;> simp [hr]
  · intro r u hr hu
    show (if r = reg then some v else s.regs r) = some u
    rw [if_neg (by simpa using hr)]
    exact hu

theorem x86WriteMemory_reads (v : Nat) : Reads [] (x86WriteMemory v) :=
  fun s => ⟨(s.ledger.writes_none).symm, fun _ _ _ h => h⟩

theorem x86BuildConstU64_reads (t : Ty) (value : Word) (name : Name) :
    Reads [] (x86BuildConstU64 t value name) := Touches.get fun _ => reads_build _

theorem x86BuildUnary_reads (opcode : Opcode) (t : Ty) (src : Nat) (name : Name) :
    Reads [] (x86BuildUnary opcode t src name) := Touches.get fun _ => reads_build _

theorem x86BuildBinary_reads (opcode : Opcode) (t : Ty) (lhs rhs : Nat) (name : Name) :
    Reads [] (x86BuildBinary opcode t lhs rhs name) := Touches.get fun _ => reads_build _

theorem x86BuildLoad_reads (t : Ty) (memory address : Nat) (name : Name) :
    Reads [] (x86BuildLoad t memory address name) := Touches.get fun _ => reads_build _

theorem x86BuildStore_reads (memory address data : Nat) (name : Name) :
    Reads [] (x86BuildStore memory address data name) := Touches.get fun _ => reads_build _

theorem x86SetZfFromFlags_reads (flags : Nat) : Reads [] (x86SetZfFromFlags flags) := by
  refine Reads.then (x86BuildUnary_reads _ _ _ _) fun zf => ?_
  exact fun s => ⟨(s.ledger.writes_none).symm, fun _ _ _ h => h⟩

theorem x86SetZfFromValue_reads (value : Nat) : Reads [] (x86SetZfFromValue value) :=
  Reads.then (x86BuildUnary_reads _ _ _ _) fun _ => x86SetZfFromFlags_reads _

theorem x86ConstInt_reads (value : Word) (name : Name) : Reads [] (x86ConstInt value name) :=
  Touches.get fun _ => x86BuildConstU64_reads _ _ _

/-! ### Addresses -/

theorem x86MemoryBase_reads (mem : X86MemoryOperand) :
    Reads (if mem.hasBase then [mem.base] else []) (x86MemoryBase mem) := by
  unfold x86MemoryBase
  cases mem.hasBase with
  | false => exact reads_pure _
  | true =>
    refine Reads.then (x86EnsureReg_reads _) fun base => ?_
    refine Reads.then (Touches.get fun _ => x86BuildUnary_reads _ _ _ _) fun addr => ?_
    exact reads_pure _

theorem x86ScaledIndex_reads (mem : X86MemoryOperand) (index : Nat) :
    Reads [] (x86ScaledIndex mem index) := by
  refine touches_ite (fun _ => Touches.get fun _ => ?_) fun _ => reads_pure _
  exact Reads.then (x86ConstInt_reads _ _) fun _ => x86BuildBinary_reads _ _ _ _ _

theorem x86MemoryIndex_reads (mem : X86MemoryOperand) (addr : Option Nat) :
    Reads (if mem.hasIndex then [mem.index] else []) (x86MemoryIndex mem addr) := by
  unfold x86MemoryIndex
  cases mem.hasIndex with
  | false => exact reads_pure _
  | true =>
    refine Touches.get fun s => ?_
    refine Reads.then (x86EnsureReg_reads _) fun index => ?_
    refine Reads.then (x86ScaledIndex_reads mem index) fun scaled => ?_
    cases addr with
    | none =>
      refine Reads.then (Touches.get fun _ => x86BuildUnary_reads _ _ _ _) fun addr => ?_
      exact reads_pure _
    | some addr =>
      refine Reads.then (x86BuildBinary_reads _ _ _ _ _) fun addr => ?_
      exact reads_pure _

theorem x86BuildMemoryAddress_reads (mem : X86MemoryOperand) (next : Word) :
    Reads mem.regs (x86BuildMemoryAddress mem next) := by
  refine Touches.get fun s => ?_
  unfold X86MemoryOperand.regs
  cases mem.kind with
  | ripRel => exact x86BuildConstU64_reads _ _ _
  | invalid => exact touches_throw _
  | baseIndex =>
    refine Reads.bind (x86MemoryBase_reads mem) fun base => ?_
    have hindex := x86MemoryIndex_reads mem base
    refine Reads.then hindex fun addr => ?_
    cases addr with
    | none => exact x86BuildConstU64_reads _ _ _
    | some addr =>
      refine touches_ite (fun _ => Touches.get fun s => ?_) fun _ => reads_pure _
      exact Reads.then (x86ConstInt_reads _ _) fun _ => x86BuildBinary_reads _ _ _ _ _

/-! ### Instructions -/

theorem x86LiftMemLoad_touches (dst : X86Reg) (mem : X86MemoryOperand) (next : Word) :
    Touches mem.regs (fun r => r == dst) (x86LiftMemLoad dst mem next) := by
  refine Touches.get fun s => ?_
  refine Reads.bind (p := []) x86EnsureMemory_reads fun memory => ?_
  refine Reads.then (x86BuildMemoryAddress_reads mem next) fun addr => ?_
  exact Reads.then (x86BuildLoad_reads _ _ _ _) fun _ => x86WriteReg_touches _ _

theorem x86LiftMemStore_reads (mem : X86MemoryOperand) (data : Nat) (next : Word) :
    Reads mem.regs (x86LiftMemStore mem data next) := by
  refine Reads.bind (p := []) x86EnsureMemory_reads fun memory => ?_
  refine Reads.then (x86BuildMemoryAddress_reads mem next) fun addr => ?_
  exact Reads.then (x86BuildStore_reads _ _ _ _) fun _ => x86WriteMemory_reads _

theorem x86LiftAddSubValues_touches (op flags : Opcode) (dst : X86Reg) (lhs rhs : Nat) :
    Touches [] (fun r => r == dst) (x86LiftAddSubValues op flags dst lhs rhs) := by
  refine Touches.get fun s => ?_
  refine Reads.then (x86BuildBinary_reads _ _ _ _ _) fun value => ?_
  refine Reads.then (x86BuildBinary_reads _ _ _ _ _) fun fl => ?_
  exact Reads.then (x86SetZfFromFlags_reads _) fun _ => x86WriteReg_touches _ _

theorem x86LiftLogicValues_touches (op : Opcode) (dst : X86Reg) (lhs rhs : Nat) :
    Touches [] (fun r => r == dst) (x86LiftLogicValues op dst lhs rhs) := by
  refine Touches.get fun s => ?_
  refine Reads.then (x86BuildBinary_reads _ _ _ _ _) fun value => ?_
  exact Reads.then (x86SetZfFromValue_reads _) fun _ => x86WriteReg_touches _ _

theorem x86LiftCmpValues_reads (lhs rhs : Nat) : Reads [] (x86LiftCmpValues lhs rhs) :=
  Reads.then (x86BuildBinary_reads _ _ _ _ _) fun _ => x86SetZfFromFlags_reads _

theorem x86LiftTestValues_reads (lhs rhs : Nat) : Reads [] (x86LiftTestValues lhs rhs) := by
  refine Touches.get fun s => ?_
  exact Reads.then (x86BuildBinary_reads _ _ _ _ _) fun _ => x86SetZfFromValue_reads _

theorem x86LiftPushDecoded_touches {inst : X86DecodedInst} {n : Nat} {src : X86Reg}
    (h : inst.operands = [.register n src]) :
    Touches [x86Rsp, src] (fun r => r == x86Rsp) (x86LiftPushDecoded inst) := by
  unfold x86LiftPushDecoded X86DecodedInst.operand
  simp only [h, List.getElem?_cons_zero]
  refine Touches.get fun s => ?_
  refine Reads.bind (x86EnsureReg_reads _) fun rsp => ?_
  refine Reads.then (x86EnsureReg_reads _) fun data => ?_
  refine Reads.then (x86BuildConstU64_reads _ _ _) fun eight => ?_
  refine Reads.then (x86BuildBinary_reads _ _ _ _ _) fun nextRsp => ?_
  refine Reads.then (Touches.get fun _ => x86BuildUnary_reads _ _ _ _) fun addr => ?_
  refine Reads.then x86EnsureMemory_reads fun memory => ?_
  refine Reads.then (x86BuildStore_reads _ _ _ _) fun nextMemory => ?_
  exact Reads.then (x86WriteMemory_reads _) fun _ => x86WriteReg_touches _ _

theorem x86LiftPopDecoded_touches {inst : X86DecodedInst} {n : Nat} {dst : X86Reg}
    (h : inst.operands = [.register n dst]) :
    Touches [x86Rsp] (fun r => r == dst || r == x86Rsp) (x86LiftPopDecoded inst) := by
  unfold x86LiftPopDecoded X86DecodedInst.operand
  simp only [h, List.getElem?_cons_zero]
  refine Touches.get fun s => ?_
  refine Reads.then (x86EnsureReg_reads _) fun rsp => ?_
  refine Reads.then (Touches.get fun _ => x86BuildUnary_reads _ _ _ _) fun addr => ?_
  refine Reads.then x86EnsureMemory_reads fun memory => ?_
  refine Reads.then (x86BuildLoad_reads _ _ _ _) fun loaded => ?_
  refine Reads.then (x86BuildConstU64_reads _ _ _) fun eight => ?_
  refine Reads.then (x86BuildBinary_reads _ _ _ _ _) fun nextRsp => ?_
  exact Touches.bind (x86WriteReg_touches _ _) fun _ => x86WriteReg_touches _ _

theorem x86OperandValue_register (n : Nat) (reg : X86Reg) :
    Reads [reg] (x86OperandValue (some (.register n reg))) := x86EnsureReg_reads reg

theorem x86OperandValue_immediate (n : Nat) (imm : Word) :
    Reads [] (x86OperandValue (some (.immediate n imm))) := x86ConstInt_reads _ _

theorem x86LiftAluDecoded_touches {inst : X86DecodedInst} {n : Nat} {dst : X86Reg}
    {q : List X86Reg} (ha : inst.mnemonic.isAlu = true)
    (hdst : inst.operand 0 = some (.register n dst))
    (hsrc : Reads q (x86OperandValue (inst.operand 1))) :
    Touches (dst :: q) (fun r => X86Machine.writesResult inst.mnemonic && r == dst)
      (x86LiftAluDecoded inst) := by
  unfold x86LiftAluDecoded
  rw [hdst]
  refine Reads.bind (x86EnsureReg_reads dst) fun lhs => Reads.then hsrc fun rhs => ?_
  cases hm : inst.mnemonic with
  | add | sub => exact x86LiftAddSubValues_touches _ _ _ _ _
  | and | or | xor => exact x86LiftLogicValues_touches _ _ _ _
  | cmp => exact x86LiftCmpValues_reads _ _
  | test => exact x86LiftTestValues_reads _ _
  | _ =>
    rw [hm] at ha
    cases ha

/-- What an arithmetic instruction reads and writes, and how it is lifted. -/
theorem alu_registers {inst : X86DecodedInst} (ha : inst.mnemonic.isAlu = true) {n k : Nat}
    {dst src : X86Reg} {imm : Word} (next : Word) :
    (inst.operands = [.register n dst, .register k src] → inst.readRegs = [dst, src]) ∧
    (inst.operands = [.register n dst, .immediate k imm] → inst.readRegs = [dst]) ∧
    (∀ op, inst.operands = [.register n dst, op] →
      inst.writes = fun r => X86Machine.writesResult inst.mnemonic && r == dst) ∧
    x86LiftDecoded inst next = x86LiftAluDecoded inst := by
  rcases inst with ⟨mn, length, op, op2, ops⟩
  refine ⟨?_, ?_, ?_, ?_⟩
  · rintro rfl
    cases mn <;> first | rfl | cases ha
  · rintro rfl
    cases mn <;> first | rfl | cases ha
  · rintro op rfl
    funext r
    cases mn <;> first | rfl | cases ha
  · cases mn <;> first | rfl | cases ha

/-- **Every instruction** acts on the ledger as the registers that it reads and writes say. -/
theorem x86LiftDecoded_touches {arch : Arch} {inst : X86DecodedInst} (hs : Shaped arch inst)
    (hne : inst.mnemonic.endsBlock = false) (next : Word) :
    Touches inst.readRegs inst.writes (x86LiftDecoded inst next) := by
  rcases inst with ⟨mn, length, op, op2, ops⟩
  change X86Shape arch mn ops at hs
  cases hs with
  | nop => exact reads_pure _
  | movImm _ =>
    refine Touches.get fun s => ?_
    exact Reads.then (x86BuildConstU64_reads _ _ _) fun _ => x86WriteReg_touches _ _
  | movReg _ _ => exact Reads.then (x86EnsureReg_reads _) fun _ => x86WriteReg_touches _ _
  | movLoad _ _ => exact x86LiftMemLoad_touches _ _ _
  | movStore _ _ =>
    exact Reads.bind (x86EnsureReg_reads _) fun _ => x86LiftMemStore_reads _ _ _
  | lea _ _ =>
    refine Reads.then (x86BuildMemoryAddress_reads _ next) fun addr => ?_
    refine Reads.then (Touches.get fun _ => x86BuildUnary_reads _ _ _ _) fun value => ?_
    exact x86WriteReg_touches _ _
  | @aluReg _ n k dst src ha _ _ =>
    obtain ⟨hreads, -, hwrites, hrun⟩ :=
      @alu_registers ⟨mn, length, op, op2, _⟩ ha n k dst src 0 next
    rw [hreads rfl, hwrites _ rfl, hrun]
    exact x86LiftAluDecoded_touches ha rfl (x86OperandValue_register k src)
  | @aluImm _ n k dst imm ha _ =>
    obtain ⟨-, hreads, hwrites, hrun⟩ :=
      @alu_registers ⟨mn, length, op, op2, _⟩ ha n k dst 0 imm next
    rw [hreads rfl, hwrites _ rfl, hrun]
    exact x86LiftAluDecoded_touches ha rfl (x86OperandValue_immediate k imm)
  | @push n src _ => exact @x86LiftPushDecoded_touches ⟨.push, length, op, op2, _⟩ n src rfl
  | @pop n dst _ => exact @x86LiftPopDecoded_touches ⟨.pop, length, op, op2, _⟩ n dst rfl
  | _ => cases hne

end Xair
