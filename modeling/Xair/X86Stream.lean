import Xair.Lift

/-!
# The instruction stream

The instructions that the default decoder yields from an address on, up to the first
one that ends a block, an unsupported one, one that the image cuts off, or the limit.
`x86Decode_shape` says which instructions the decoder can yield, and that their
registers exist.
-/

namespace Xair

/-! ### What the decoder yields -/

/-- The registers of a memory operand exist. -/
def X86MemoryOperand.Supported (arch : Arch) (mem : X86MemoryOperand) : Prop :=
  mem.kind = .ripRel ∨ (mem.kind = .baseIndex ∧
    (mem.hasBase = true → x86RegSupported arch mem.base = true) ∧
    (mem.hasIndex = true → x86RegSupported arch mem.index = true))

/-- An arithmetic or logical mnemonic. -/
def X86Mnemonic.isAlu : X86Mnemonic → Bool
  | .add | .sub | .and | .or | .xor | .cmp | .test => true
  | _ => false

/-- The mnemonics and operands of decoded instructions. -/
inductive X86Shape (arch : Arch) : X86Mnemonic → List X86Operand → Prop
  | nop : X86Shape arch .nop []
  | movImm {n k dst imm} : x86RegSupported arch dst = true →
      X86Shape arch .mov [.register n dst, .immediate k imm]
  | movReg {n k dst src} : x86RegSupported arch dst = true → x86RegSupported arch src = true →
      X86Shape arch .mov [.register n dst, .register k src]
  | movLoad {n k dst mem} : x86RegSupported arch dst = true → mem.Supported arch →
      X86Shape arch .mov [.register n dst, .memory k mem]
  | movStore {n k mem src} : mem.Supported arch → x86RegSupported arch src = true →
      X86Shape arch .mov [.memory n mem, .register k src]
  | lea {n k dst mem} : x86RegSupported arch dst = true → mem.Supported arch →
      X86Shape arch .lea [.register n dst, .memory k mem]
  | aluReg {mn n k dst src} : mn.isAlu = true → x86RegSupported arch dst = true →
      x86RegSupported arch src = true → X86Shape arch mn [.register n dst, .register k src]
  | aluImm {mn n k dst imm} : mn.isAlu = true → x86RegSupported arch dst = true →
      X86Shape arch mn [.register n dst, .immediate k imm]
  | push {n src} : x86RegSupported arch src = true → X86Shape arch .push [.register n src]
  | pop {n dst} : x86RegSupported arch dst = true → X86Shape arch .pop [.register n dst]
  | jmp {n rel} : X86Shape arch .jmp [.immediate n rel]
  | jz {n rel} : X86Shape arch .jz [.immediate n rel]
  | jnz {n rel} : X86Shape arch .jnz [.immediate n rel]
  | ret : X86Shape arch .ret []

section Shape

variable {arch : Arch}

/-- What decoding an operand or an instruction can give: something of the kind `P`, or an
error other than `XAIR_ERR_BAD_ARG`. -/
def Decodes {α : Type} (P : α → Prop) (r : Except X86DecodeError α) : Prop :=
  (∀ a, r = .ok a → P a) ∧ r ≠ .error .badArg

theorem decodes_ok {α : Type} {P : α → Prop} {a : α} (h : P a) :
    Decodes P (.ok a : Except X86DecodeError α) :=
  ⟨fun b hb => by cases hb; exact h, by simp⟩

theorem decodes_range {α : Type} {P : α → Prop} :
    Decodes P (.error .range : Except X86DecodeError α) := ⟨by simp, by simp⟩

theorem decodes_unsupported {α : Type} {P : α → Prop} (op op2 : Byte) :
    Decodes P (.error (.unsupported op op2) : Except X86DecodeError α) := ⟨by simp, by simp⟩

theorem decodeReg_supported (arch : Arch) {field : Byte} (rexBit : Byte) (hf : field.toNat < 8) :
    x86RegSupported arch (decodeReg field rexBit arch.bits) = true := by
  unfold x86RegSupported decodeReg x86RegCount x86R8
  simp only [Bool.and_eq_true, Bool.or_eq_true, decide_eq_true_eq, beq_iff_eq]
  cases arch with
  | x8632 =>
    rw [if_neg (by simp [Arch.bits])]
    have hlt : field.toNat + 0 < 16 := by omega
    exact ⟨hlt, .inr hf⟩
  | x8664 =>
    have hlt : field.toNat + 0 < 16 ∧ field.toNat + 8 < 16 := by omega
    refine ⟨?_, .inl rfl⟩
    split
    · exact hlt.2
    · exact hlt.1

theorem and_seven_lt (x : Byte) : (x &&& 7#8).toNat < 8 := by
  have h : (x &&& 7#8).toNat = x.toNat % 8 := by
    rw [BitVec.toNat_and]
    exact Nat.and_two_pow_sub_one_eq_mod x.toNat 3
  omega

/-- The operands that `decode_memory_operand` gives. -/
def MemoryOperand (arch : Arch) (op : X86Operand × Nat) : Prop :=
  ∃ n mem, op.1 = .memory n mem ∧ mem.Supported arch

theorem decodeSib_shape (bytes : List Byte) (mod rex : Byte) (operandBits offset : Nat) :
    Decodes (MemoryOperand arch) (decodeSib bytes mod rex arch.bits operandBits offset) := by
  unfold decodeSib
  split
  · exact decodes_range
  · next sib _ =>
    have hindex : (!(sib >>> 3 &&& 7#8 == 4#8 && rex &&& 2#8 == 0#8)) = true →
        x86RegSupported arch
          (if (!(sib >>> 3 &&& 7#8 == 4#8 && rex &&& 2#8 == 0#8)) = true then
            decodeReg (sib >>> 3 &&& 7#8) (rex &&& 2#8) arch.bits else x86RegCount) = true := by
      intro h
      rw [if_pos h]
      exact decodeReg_supported arch _ (and_seven_lt _)
    dsimp only
    split
    · split
      · exact decodes_range
      · exact decodes_ok ⟨_, _, rfl, .inr ⟨rfl, by simp, hindex⟩⟩
    · split
      · exact decodes_range
      · exact decodes_ok ⟨_, _, rfl, .inr ⟨rfl, fun _ => decodeReg_supported arch _ (and_seven_lt _),
          hindex⟩⟩

theorem decodeMemoryOperand_shape (arch : Arch) (bytes : List Byte) {mod rm : Byte} (rex : Byte)
    (operandBits offset : Nat) (hmod : mod ≠ 3#8) (hrm : rm.toNat < 8) :
    Decodes (MemoryOperand arch)
      (decodeMemoryOperand bytes mod rm rex arch.bits operandBits offset) := by
  unfold decodeMemoryOperand
  rw [if_neg hmod]
  split
  · exact decodeSib_shape bytes mod rex operandBits offset
  · split
    · split
      · exact decodes_range
      · split
        · exact decodes_ok ⟨_, _, rfl, .inl rfl⟩
        · exact decodes_ok ⟨_, _, rfl, .inr ⟨rfl, by simp, by simp⟩⟩
    · split
      · exact decodes_range
      · exact decodes_ok ⟨_, _, rfl, .inr ⟨rfl, fun _ => decodeReg_supported arch _ hrm, by simp⟩⟩

/-- The operands that `decode_rm_operand` gives. -/
def RmOperand (arch : Arch) (op : X86Operand × Nat) : Prop :=
  (∃ n reg, op.1 = .register n reg ∧ x86RegSupported arch reg = true) ∨ MemoryOperand arch op

theorem decodeRmOperand_shape (arch : Arch) (bytes : List Byte) (mod : Byte) {rm : Byte} (rex : Byte)
    (operandBits offset : Nat) (hrm : rm.toNat < 8) :
    Decodes (RmOperand arch) (decodeRmOperand bytes mod rm rex arch.bits operandBits offset) := by
  unfold decodeRmOperand
  split
  · exact decodes_ok (.inl ⟨_, _, rfl, decodeReg_supported arch _ hrm⟩)
  · next hmod =>
    obtain ⟨h1, h2⟩ := decodeMemoryOperand_shape arch bytes rex operandBits offset hmod hrm
    exact ⟨fun a ha => .inr (h1 a ha), h2⟩

/-- The instructions the decoder yields. -/
def Shaped (arch : Arch) (inst : X86DecodedInst) : Prop :=
  X86Shape arch inst.mnemonic inst.operands

theorem decodeModrmMoveOrLea_shape (bytes : List Byte) (opcode rex : Byte) (offset : Nat) :
    Decodes (Shaped arch) (decodeModrmMoveOrLea bytes opcode rex arch.bits offset) := by
  unfold decodeModrmMoveOrLea
  split
  · exact decodes_unsupported _ _
  · split
    · exact decodes_range
    · next modrm _ =>
      have hreg := decodeReg_supported arch (rex &&& 4#8)
        (and_seven_lt (modrm >>> 3))
      have hrm := and_seven_lt modrm
      unfold decodeModrm
      dsimp only
      split
      · split
        · exact decodes_unsupported _ _
        · next hmod =>
          have hmem := decodeMemoryOperand_shape arch bytes rex arch.bits (offset + 1)
            hmod hrm
          split
          · exact decodes_range
          · next op _ hop =>
            obtain ⟨n, mem, rfl, hs⟩ := hmem.1 _ hop
            exact decodes_ok (.lea hreg hs)
      · have hop := decodeRmOperand_shape arch bytes (modrm >>> 6) rex arch.bits
          (offset + 1) hrm
        split
        · exact decodes_range
        · next op _ hdec =>
          rcases hop.1 _ hdec with ⟨n, reg, rfl, hs⟩ | ⟨n, mem, rfl, hs⟩
          · refine decodes_ok ?_
            show X86Shape arch .mov (if _ then _ else _)
            split
            · exact .movReg hreg hs
            · exact .movReg hs hreg
          · refine decodes_ok ?_
            show X86Shape arch .mov (if _ then _ else _)
            split
            · exact .movLoad hreg hs
            · exact .movStore hs hreg

theorem decodeBinaryMnemonic_alu {opcode : Byte} (h : decodeBinaryMnemonic opcode ≠ .invalid) :
    (decodeBinaryMnemonic opcode).isAlu = true := by
  revert h
  unfold decodeBinaryMnemonic
  split <;> simp [X86Mnemonic.isAlu]

theorem decodeGroup1Mnemonic_alu {group : Byte} (h : decodeGroup1Mnemonic group ≠ .invalid) :
    (decodeGroup1Mnemonic group).isAlu = true := by
  revert h
  unfold decodeGroup1Mnemonic
  split <;> simp [X86Mnemonic.isAlu]

theorem decodeModrmBinary_shape (bytes : List Byte) (opcode rex : Byte) (offset : Nat) :
    Decodes (Shaped arch) (decodeModrmBinary bytes opcode rex arch.bits offset) := by
  unfold decodeModrmBinary
  split
  · exact decodes_unsupported _ _
  · split
    · exact decodes_range
    · next modrm _ =>
      have hreg := decodeReg_supported arch (rex &&& 4#8)
        (and_seven_lt (modrm >>> 3))
      have hop := decodeRmOperand_shape arch bytes (modrm >>> 6) rex arch.bits
        (offset + 1) (and_seven_lt modrm)
      unfold decodeModrm
      dsimp only
      split
      · exact decodes_range
      · next bits rm _ hdec =>
        have hrm : x86RegSupported arch rm = true := by
          rcases hop.1 _ hdec with ⟨n, reg, heq, hs⟩ | ⟨n, mem, heq, -⟩
          · cases heq
            exact hs
          · cases heq
        split
        · exact decodes_unsupported _ _
        · next hmn =>
          have halu := decodeBinaryMnemonic_alu hmn
          refine decodes_ok ?_
          show X86Shape arch (decodeBinaryMnemonic opcode) (if _ then _ else _)
          split
          · exact .aluReg halu hreg hrm
          · exact .aluReg halu hrm hreg
      · exact decodes_unsupported _ _

theorem decodeGroup1Imm_shape (bytes : List Byte) (opcode rex : Byte) (offset : Nat) :
    Decodes (Shaped arch) (decodeGroup1Imm bytes opcode rex arch.bits offset) := by
  unfold decodeGroup1Imm
  split
  · exact decodes_unsupported _ _
  · split
    · exact decodes_range
    · next modrm _ =>
      have hop := decodeRmOperand_shape arch bytes (modrm >>> 6) rex arch.bits
        (offset + 1) (and_seven_lt modrm)
      unfold decodeModrm
      dsimp only
      split
      · exact decodes_range
      · next bits rm _ hdec =>
        have hrm : x86RegSupported arch rm = true := by
          rcases hop.1 _ hdec with ⟨n, reg, heq, hs⟩ | ⟨n, mem, heq, -⟩
          · cases heq
            exact hs
          · cases heq
        split
        · next he =>
          -- the immediate can only be cut off
          unfold decodeGroup1ImmValue at he
          split at he <;> split at he <;> cases he <;> exact decodes_range
        · split
          · exact decodes_unsupported _ _
          · next hmn =>
            exact decodes_ok (.aluImm (decodeGroup1Mnemonic_alu hmn) hrm)
      · exact decodes_unsupported _ _

theorem decodeMovImm_shape (bytes : List Byte) {opcode : Byte} (rex : Byte) (offset : Nat)
    (hop : (opcode - 0xb8#8).toNat < 8) :
    Decodes (Shaped arch) (decodeMovImm bytes opcode rex arch.bits offset) := by
  have hreg := decodeReg_supported arch (rex &&& 1#8) hop
  unfold decodeMovImm
  split
  · exact decodes_unsupported _ _
  · dsimp only
    split
    · split
      · exact decodes_range
      · exact decodes_ok (.movImm hreg)
    · split
      · exact decodes_range
      · exact decodes_ok (.movImm hreg)

theorem decodeRel8_shape (bytes : List Byte) {mn : X86Mnemonic} (opcode opcode2 : Byte)
    (offset : Nat) (h : ∀ n rel, X86Shape arch mn [.immediate n rel]) :
    Decodes (Shaped arch) (decodeRel8 bytes mn opcode opcode2 offset) := by
  unfold decodeRel8
  split
  · exact decodes_range
  · exact decodes_ok (h _ _)

theorem decodeRel32_shape (bytes : List Byte) {mn : X86Mnemonic} (opcode opcode2 : Byte)
    (offset : Nat) (h : ∀ n rel, X86Shape arch mn [.immediate n rel]) :
    Decodes (Shaped arch) (decodeRel32 bytes mn opcode opcode2 offset) := by
  unfold decodeRel32
  split
  · exact decodes_range
  · exact decodes_ok (h _ _)

theorem decodeOpcode_shape (bytes : List Byte) (opcode rex : Byte) (offset : Nat) :
    Decodes (Shaped arch) (decodeOpcode bytes opcode rex arch.bits offset) := by
  unfold decodeOpcode
  split
  · next h =>
    refine decodeMovImm_shape bytes rex offset ?_
    have h1 := BitVec.le_def.mp h.1
    have h2 := BitVec.le_def.mp h.2
    rw [BitVec.toNat_sub]
    simp only [BitVec.toNat_ofNat] at h1 h2 ⊢
    omega
  · split
    · have hreg := decodeReg_supported arch (rex &&& 1#8) (and_seven_lt opcode)
      by_cases hlt : opcode < 0x58#8
      · rw [if_pos hlt]
        exact decodes_ok (.push hreg)
      · rw [if_neg hlt]
        exact decodes_ok (.pop hreg)
    · split
      · exact decodes_ok .nop
      iterate 3 exact decodeModrmMoveOrLea_shape bytes _ rex offset
      iterate 13 exact decodeModrmBinary_shape bytes _ rex offset
      iterate 2 exact decodeGroup1Imm_shape bytes _ rex offset
      · exact decodeRel8_shape bytes _ _ offset fun _ _ => .jmp
      · exact decodeRel32_shape bytes _ _ offset fun _ _ => .jmp
      · exact decodeRel8_shape bytes _ _ offset fun _ _ => .jz
      · exact decodeRel8_shape bytes _ _ offset fun _ _ => .jnz
      · split
        · exact decodes_range
        · split
          · next opcode2 _ _ =>
            by_cases hz : opcode2 = 0x84#8
            · rw [if_pos hz]
              exact decodeRel32_shape bytes _ _ _ fun _ _ => .jz
            · rw [if_neg hz]
              exact decodeRel32_shape bytes _ _ _ fun _ _ => .jnz
          · exact decodes_unsupported _ _
      · exact decodes_ok .ret
      · exact decodes_unsupported _ _

/-- **What the decoder yields.** -/
theorem x86Decode_shape {bytes : List Byte} (hne : bytes ≠ []) :
    Decodes (Shaped arch) (x86Decode arch bytes) := by
  have hmode : x86Decode arch bytes = x86DecodeMode bytes arch.bits := by
    cases arch <;> rfl
  rw [hmode, x86DecodeMode, if_neg (by simpa using hne)]
  split
  · exact decodes_range
  · exact decodeOpcode_shape bytes _ _ _

end Shape

/-! ### What an instruction touches -/

namespace X86DecodedInst

variable (inst : X86DecodedInst)

/-- The registers that an instruction writes. -/
def writes (r : X86Reg) : Bool :=
  match inst.mnemonic, inst.operands with
  | .mov, [.register _ dst, _] | .lea, [.register _ dst, _] => r == dst
  | .push, _ => r == x86Rsp
  | .pop, [.register _ dst] => r == dst || r == x86Rsp
  | mnemonic, [.register _ dst, _] =>
    mnemonic.isAlu && X86Machine.writesResult mnemonic && r == dst
  | _, _ => false

/-- The instruction loads or stores. -/
def touchesMemory : Bool :=
  match inst.mnemonic, inst.operands with
  | .mov, [.memory _ _, _] | .mov, [_, .memory _ _] | .push, _ | .pop, _ => true
  | _, _ => false

end X86DecodedInst

/-! ### The stream -/

/-- The mnemonics that end a block. -/
def X86Mnemonic.endsBlock : X86Mnemonic → Bool
  | .jmp | .jz | .jnz | .ret => true
  | _ => false

/-- What follows the instructions of a stream. -/
inductive StreamEnd
  | limit (pc : Word)
  | cutOff
  | unsupported (pc : Word) (opcode : Byte)
  | branch (pc : Word) (inst : X86DecodedInst)
  deriving DecidableEq, Repr

/-- Whether the stream ends in a conditional branch, and the value of `ZF` that takes it. -/
def StreamEnd.tests : StreamEnd → Option Bool
  | .branch _ inst =>
    match inst.mnemonic with
    | .jz => some true
    | .jnz => some false
    | _ => none
  | _ => none

/-- The address after an instruction at `pc`. -/
def X86DecodedInst.next (inst : X86DecodedInst) (pc : Word) : Word :=
  pc + BitVec.ofNat 64 inst.length

/-- At most `n` instructions from `pc` on, each with the address after it. -/
def x86Stream (image : Image) (arch : Arch) : Nat → Word → List (X86DecodedInst × Word) × StreamEnd
  | 0, pc => ([], .limit pc)
  | n + 1, pc =>
    match imageOffset image pc with
    | none => ([], .cutOff)
    | some offset =>
      match x86Decode arch (image.bytes.drop offset) with
      | .error (.unsupported opcode _) => ([], .unsupported pc opcode)
      | .error _ => ([], .cutOff)
      | .ok inst =>
        if inst.mnemonic.endsBlock then ([], .branch pc inst)
        else
          let (insts, stop) := x86Stream image arch n (inst.next pc)
          ((inst, inst.next pc) :: insts, stop)

theorem imageOffset_lt {image : Image} {a : Word} {offset : Nat}
    (h : imageOffset image a = some offset) : offset < image.bytes.length := by
  unfold imageOffset at h
  split at h
  · cases h
  · dsimp only at h
    split at h
    · cases h
    · next hlt =>
      cases h
      omega

/-- Decoding inside an image. -/
theorem x86Decode_image {image : Image} {a : Word} {offset : Nat}
    (h : imageOffset image a = some offset) (arch : Arch) :
    Decodes (Shaped arch) (x86Decode arch (image.bytes.drop offset)) := by
  apply x86Decode_shape
  have hlt := imageOffset_lt h
  intro hnil
  rw [List.drop_eq_nil_iff] at hnil
  omega

/-! ### Consecutive instructions -/

variable {arch : Arch}

/-- The bytes at the address are decoded to the instruction. -/
def DecodedAt (image : Image) (arch : Arch) (pc : Word) (inst : X86DecodedInst) : Prop :=
  ∃ offset, imageOffset image pc = some offset ∧
    x86Decode arch (image.bytes.drop offset) = .ok inst

/-- The instructions stand one behind the other from `pc` on, each with the address after it. -/
def Consecutive (image : Image) (arch : Arch) : Word → List (X86DecodedInst × Word) → Prop
  | _, [] => True
  | pc, (inst, next) :: insts =>
    DecodedAt image arch pc inst ∧ next = inst.next pc ∧ Consecutive image arch next insts

/-- The address behind consecutive instructions. -/
def endPc (pc : Word) (insts : List (X86DecodedInst × Word)) : Word :=
  insts.foldl (fun _ i => i.2) pc

theorem consecutive_append {image : Image} {insts insts' : List (X86DecodedInst × Word)}
    {pc : Word} : Consecutive image arch pc (insts ++ insts') ↔
      Consecutive image arch pc insts ∧ Consecutive image arch (endPc pc insts) insts' := by
  induction insts generalizing pc with
  | nil => exact ⟨fun h => ⟨trivial, h⟩, fun h => h.2⟩
  | cons i insts ih =>
    show (_ ∧ _ ∧ Consecutive image arch i.2 (insts ++ insts')) ↔ (_ ∧ _ ∧ _) ∧ _
    rw [ih, and_assoc, and_assoc]
    rfl

/-- One more instruction of the stream. -/
inductive StreamStep (image : Image) (arch : Arch) (n : Nat) (pc : Word) : Prop
  | goes {inst} : DecodedAt image arch pc inst → inst.mnemonic.endsBlock = false →
      x86Stream image arch (n + 1) pc = ((inst, inst.next pc) :: (x86Stream image arch n
        (inst.next pc)).1, (x86Stream image arch n (inst.next pc)).2) → StreamStep image arch n pc
  | ends {inst} : DecodedAt image arch pc inst → inst.mnemonic.endsBlock = true →
      x86Stream image arch (n + 1) pc = ([], .branch pc inst) → StreamStep image arch n pc
  | stops stop : x86Stream image arch (n + 1) pc = ([], stop) →
      (∀ a inst, stop ≠ .branch a inst) → (∀ inst, ¬ DecodedAt image arch pc inst) →
      StreamStep image arch n pc

theorem x86Stream_step (image : Image) (arch : Arch) (n : Nat) (pc : Word) :
    StreamStep image arch n pc := by
  cases ho : imageOffset image pc with
  | none =>
    refine .stops .cutOff (by rw [x86Stream, ho]) (fun _ _ h => by cases h) ?_
    rintro inst ⟨offset, ho', -⟩
    rw [ho] at ho'
    cases ho'
  | some offset =>
    cases hd : x86Decode arch (image.bytes.drop offset) with
    | error e =>
      have hnot : ∀ inst, ¬ DecodedAt image arch pc inst := by
        rintro inst ⟨offset', ho', hd'⟩
        rw [ho] at ho'
        cases ho'
        rw [hd] at hd'
        cases hd'
      cases e with
      | unsupported opcode op2 =>
        exact .stops (.unsupported pc opcode) (by rw [x86Stream, ho]; simp only [hd])
          (fun _ _ h => by cases h) hnot
      | range =>
        exact .stops .cutOff (by rw [x86Stream, ho]; simp only [hd]) (fun _ _ h => by cases h) hnot
      | badArg =>
        exact .stops .cutOff (by rw [x86Stream, ho]; simp only [hd]) (fun _ _ h => by cases h) hnot
    | ok inst =>
      have hat : DecodedAt image arch pc inst := ⟨offset, ho, hd⟩
      cases he : inst.mnemonic.endsBlock with
      | true => exact .ends hat he (by rw [x86Stream, ho]; simp only [hd, he, if_true])
      | false =>
        refine .goes hat he ?_
        rw [x86Stream, ho]
        simp only [hd, he]
        rfl

/-- An instruction in the middle of a block. -/
def Inner (arch : Arch) (inst : X86DecodedInst) : Prop :=
  Shaped arch inst ∧ inst.mnemonic.endsBlock = false

theorem DecodedAt.shaped {image : Image} {pc : Word} {inst : X86DecodedInst}
    (h : DecodedAt image arch pc inst) : Shaped arch inst := by
  obtain ⟨offset, ho, hd⟩ := h
  exact (x86Decode_image ho arch).1 inst hd

/-- The stream holds consecutive instructions that do not end a block; the one that ends it
stands behind them. -/
theorem x86Stream_consecutive (image : Image) (arch : Arch) (n : Nat) (pc : Word) :
    Consecutive image arch pc (x86Stream image arch n pc).1 ∧
      (∀ i ∈ (x86Stream image arch n pc).1, Inner arch i.1) ∧
      ∀ a inst, (x86Stream image arch n pc).2 = .branch a inst →
        a = endPc pc (x86Stream image arch n pc).1 ∧ DecodedAt image arch a inst ∧
          inst.mnemonic.endsBlock = true := by
  induction n generalizing pc with
  | zero => exact ⟨trivial, fun i hi => (by cases hi), fun a inst h => by cases h⟩
  | succ n ih =>
    cases x86Stream_step image arch n pc with
    | goes hat he hst =>
      obtain ⟨hc, hi, hb⟩ := ih (X86DecodedInst.next _ pc)
      rw [hst]
      refine ⟨⟨hat, rfl, hc⟩, fun i hmem => ?_, hb⟩
      rcases List.mem_cons.mp hmem with rfl | hmem
      · exact ⟨hat.shaped, he⟩
      · exact hi i hmem
    | ends hat he hst =>
      rw [hst]
      refine ⟨trivial, fun i hi => (by cases hi), fun a inst h => ?_⟩
      cases h
      exact ⟨rfl, hat, he⟩
    | stops _ hst hne _ =>
      rw [hst]
      exact ⟨trivial, fun i hi => (by cases hi), fun a inst h => absurd h (hne a inst)⟩

end Xair
