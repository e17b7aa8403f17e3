import Xair.X86Encode

/-!
# Decoding inverts encoding

The decoder reads back the instruction that an encoding denotes, whatever bytes
follow it (`x86DecodeMode_encoding`).  Each reading function is followed along the
bytes: where the remaining bytes start with what it expects, it returns the value
and the offset behind it.
-/

namespace Xair

open LittleEndian

/-! ### Reading at an offset

`bytes.drop o = xs ++ rest` says that `xs` stands at the offset `o`. -/

theorem drop_add_length {xs rest bytes : List Byte} {o : Nat} (h : bytes.drop o = xs ++ rest) :
    bytes.drop (o + xs.length) = rest := by
  rw [← List.drop_drop, h, List.drop_left]

theorem decodeReadU8_drop {bytes rest : List Byte} {o : Nat} {b : Byte}
    (h : bytes.drop o = b :: rest) : decodeReadU8 bytes o = some b := by
  rw [decodeReadU8, ← Nat.add_zero o, ← List.getElem?_drop, h]
  rfl

theorem drop_succ {bytes rest : List Byte} {o : Nat} {b : Byte} (h : bytes.drop o = b :: rest) :
    bytes.drop (o + 1) = rest :=
  @drop_add_length [b] rest bytes o h

theorem getD_drop {bytes xs : List Byte} {o : Nat} (h : bytes.drop o = xs) (i : Nat) :
    bytes.getD (o + i) 0#8 = xs.getD i 0#8 := by
  rw [List.getD_eq_getElem?_getD, List.getD_eq_getElem?_getD, ← List.getElem?_drop, h]

theorem decodeReadLe32_drop {bytes rest : List Byte} {o : Nat} {d : BitVec 32}
    (h : bytes.drop o = bytes32 d ++ rest) : decodeReadLe32 bytes o = some d := by
  have hlen := congrArg List.length h
  rw [List.length_drop, List.length_append, length_bytes32] at hlen
  rw [decodeReadLe32, if_neg (by omega), ← Nat.add_zero o]
  simp only [Nat.add_zero o, getD_drop h]
  rw [← Nat.add_zero o, getD_drop h]
  exact congrArg some (le32_bytes d)

theorem decodeReadLe64_drop {bytes rest : List Byte} {o : Nat} {d : BitVec 64}
    (h : bytes.drop o = bytes64 d ++ rest) : decodeReadLe64 bytes o = some d := by
  have hlo : bytes.drop o = bytes32 (low32 d) ++ (bytes32 (high32 d) ++ rest) := by
    rw [h, bytes64, List.append_assoc]
  have hhi : bytes.drop (o + 4) = bytes32 (high32 d) ++ rest := drop_add_length hlo
  rw [decodeReadLe64, decodeReadLe32_drop hlo, decodeReadLe32_drop hhi]
  exact congrArg some (le64_halves d)

/-! ### Fields -/

theorem decodeModrm_fin : ∀ (m : Fin 4) (r n : Fin 8),
    decodeModrm (BitVec.ofNat 8 (m * 64 + r * 8 + n)) =
      (BitVec.ofNat 8 m, BitVec.ofNat 8 r, BitVec.ofNat 8 n) := by
  decide +kernel

theorem decodeModrm_modrmByte {m : Nat} (hm : m < 4) (r n : Nat) :
    decodeModrm (modrmByte m r n) =
      (BitVec.ofNat 8 m, BitVec.ofNat 8 (r % 8), BitVec.ofNat 8 (n % 8)) :=
  decodeModrm_fin ⟨m, hm⟩ ⟨r % 8, Nat.mod_lt _ (by decide)⟩ ⟨n % 8, Nat.mod_lt _ (by decide)⟩

theorem ofNat8_inj {a b : Nat} (ha : a < 256) (hb : b < 256) :
    BitVec.ofNat 8 a = BitVec.ofNat 8 b ↔ a = b := by
  constructor
  · intro h
    have := congrArg BitVec.toNat h
    rw [BitVec.toNat_ofNat, BitVec.toNat_ofNat] at this
    omega
  · rintro rfl
    rfl

/-- The prefix byte that the decoder keeps: zero when there is none. -/
def Encoding.rexByte (e : Encoding) : Byte := (e.rex.map Rex.byte).getD 0#8

/-- The bits of the prefix, all clear when there is none. -/
def Encoding.bits (e : Encoding) : Rex := e.rex.getD Rex.none

theorem Rex.byte_bits (p : Rex) :
    (p.byte &&& 8#8 = 0#8 ↔ p.w = false) ∧ (p.byte &&& 4#8 = 0#8 ↔ p.r = false) ∧
      (p.byte &&& 2#8 = 0#8 ↔ p.x = false) ∧ (p.byte &&& 1#8 = 0#8 ↔ p.b = false) := by
  obtain ⟨w, r, x, b⟩ := p
  cases w <;> cases r <;> cases x <;> cases b <;> decide

theorem Rex.byte_range (p : Rex) : 0x40#8 ≤ p.byte ∧ p.byte ≤ 0x4f#8 := by
  obtain ⟨w, r, x, b⟩ := p
  cases w <;> cases r <;> cases x <;> cases b <;> decide

/-- What the masks of the decoder say about the bits. -/
structure RexBits (rex : Byte) (p : Rex) : Prop where
  w : rex &&& 8#8 = 0#8 ↔ p.w = false
  r : rex &&& 4#8 = 0#8 ↔ p.r = false
  x : rex &&& 2#8 = 0#8 ↔ p.x = false
  b : rex &&& 1#8 = 0#8 ↔ p.b = false

theorem Encoding.rexBits (e : Encoding) : RexBits e.rexByte e.bits := by
  obtain ⟨rex, form⟩ := e
  cases rex with
  | none =>
    have h : RexBits 0#8 Rex.none := ⟨by decide, by decide, by decide, by decide⟩
    exact h
  | some p =>
    obtain ⟨hw, hr, hx, hb⟩ := p.byte_bits
    exact ⟨hw, hr, hx, hb⟩

/-- A register is its field, extended by its REX bit. -/
theorem decodeReg_regBit {modeBits : Nat} {bit : Bool} {r : Nat} {mask : Byte}
    (h : RegBit modeBits bit r) (hmask : mask = 0#8 ↔ bit = false) :
    decodeReg (BitVec.ofNat 8 (r % 8)) mask modeBits = r := by
  obtain ⟨hlt, rfl⟩ := h
  rw [decide_eq_false_iff_not] at hmask
  have hfield : (BitVec.ofNat 8 (r % 8)).toNat = r % 8 := by
    rw [BitVec.toNat_ofNat]
    exact Nat.mod_eq_of_lt (by omega)
  rw [decodeReg, hfield]
  by_cases hm : modeBits = 64
  · rw [if_pos hm] at hlt
    by_cases h8 : 8 ≤ r
    · rw [if_pos ⟨hm, fun h0 => hmask.mp h0 h8⟩]
      show r % 8 + 8 = r
      omega
    · rw [if_neg (fun h' => h'.2 (hmask.mpr h8))]
      show r % 8 + 0 = r
      omega
  · rw [if_neg hm] at hlt
    rw [if_neg (fun h' => hm h'.1)]
    show r % 8 + 0 = r
    omega

/-! ### Operands -/

theorem Disp.modField_ne {d : Disp} : BitVec.ofNat 8 d.mod ≠ 3#8 := by
  have h : ∀ m : Fin 3, BitVec.ofNat 8 m ≠ 3#8 := by decide
  cases d
  · exact h 0
  · exact h 1
  · exact h 2

theorem Disp.modField_zero {d : Disp} (h : BitVec.ofNat 8 d.mod = 0#8) : d = .none := by
  cases d with
  | none => rfl
  | disp8 d => exact absurd (show 1#8 = 0#8 from h) (by decide)
  | disp32 d => exact absurd (show 2#8 = 0#8 from h) (by decide)

theorem decodeDisplacement_drop {bytes rest : List Byte} {o : Nat} (d : Disp)
    (h : bytes.drop o = d.bytes ++ rest) :
    decodeDisplacement bytes (BitVec.ofNat 8 d.mod) o = .ok (d.value, o + d.bytes.length) := by
  cases d with
  | none => rfl
  | disp8 d =>
    show decodeDisplacement bytes 1#8 o = _
    rw [decodeDisplacement, if_pos rfl, decodeReadU8_drop h]
    rfl
  | disp32 d =>
    show decodeDisplacement bytes 2#8 o = _
    rw [decodeDisplacement, if_neg (by decide), if_pos rfl, decodeReadLe32_drop h]
    rfl

theorem sibByte_fields (scale : Fin 4) (index : Option Nat) (base : Nat) :
    sibByte scale index base >>> 6 = BitVec.ofNat 8 scale ∧
      sibByte scale index base >>> 3 &&& 7#8 = BitVec.ofNat 8 (index.getD 4 % 8) ∧
      sibByte scale index base &&& 7#8 = BitVec.ofNat 8 (base % 8) := by
  have h := decodeModrm_fin scale ⟨index.getD 4 % 8, Nat.mod_lt _ (by decide)⟩
    ⟨base % 8, Nat.mod_lt _ (by decide)⟩
  exact ⟨congrArg Prod.fst h, congrArg (fun t => t.2.1) h, congrArg (fun t => t.2.2) h⟩

theorem scale_fin : ∀ s : Fin 4,
    (if 1#8 <<< (BitVec.ofNat 8 s).toNat = 0#8 then 1
      else (1#8 <<< (BitVec.ofNat 8 s).toNat).toNat) = 2 ^ s.val := by
  decide

theorem MemForm.modField_ne (m : MemForm) : BitVec.ofNat 8 m.mod ≠ 3#8 := by
  cases m with
  | base _ d => exact d.modField_ne
  | sib _ _ _ d => exact d.modField_ne
  | sibNoBase _ _ _ => exact (by decide : 0#8 ≠ 3#8)
  | bare _ => exact (by decide : 0#8 ≠ 3#8)

section Memory

variable {bytes rest : List Byte} {o modeBits : Nat} {rex : Byte} {p : Rex} (hrex : RexBits rex p)
include hrex

/-- Index field 4 with REX.X clear is no index, and no other encoding is. -/
theorem hasIndex_eq {i : Option Nat} (h : IndexBit modeBits p.x i) :
    (!(BitVec.ofNat 8 (i.getD 4 % 8) == 4#8 && rex &&& 2#8 == 0#8)) = i.isSome := by
  cases i with
  | none =>
    rw [hrex.x.mpr h]
    rfl
  | some i =>
    obtain ⟨hreg, hne⟩ := h
    simp only [Option.isSome_some, Bool.not_eq_true', Bool.and_eq_false_iff, beq_eq_false_iff_ne,
      Option.getD_some]
    by_cases h4 : i % 8 = 4
    · right
      intro hx
      have hlow := hreg.2.symm.trans (hrex.x.mp hx)
      rw [decide_eq_false_iff_not] at hlow
      omega
    · left
      exact fun h' => h4 ((ofNat8_inj (by omega) (by decide)).mp h')

theorem index_eq {i : Option Nat} (h : IndexBit modeBits p.x i) :
    (if i.isSome = true then decodeReg (BitVec.ofNat 8 (i.getD 4 % 8)) (rex &&& 2#8) modeBits
      else x86RegCount) = i.getD x86RegCount := by
  cases i with
  | none => rfl
  | some i => exact decodeReg_regBit h.1 hrex.x

theorem decodeSib_base {b : Nat} {i : Option Nat} {s : Fin 4} {d : Disp} (operandBits : Nat)
    (hb : RegBit modeBits p.b b) (h5 : d = .none → b % 8 ≠ 5) (hi : IndexBit modeBits p.x i)
    (h : bytes.drop o = sibByte s i b :: (d.bytes ++ rest)) :
    decodeSib bytes (BitVec.ofNat 8 d.mod) rex modeBits operandBits o =
      .ok (.memory operandBits ⟨.baseIndex, b, i.getD x86RegCount, 2 ^ s.val, true, i.isSome, d.value⟩,
        o + (1 + d.bytes.length)) := by
  obtain ⟨hscale, hindex, hbase⟩ := sibByte_fields s i b
  have hne : ¬ (BitVec.ofNat 8 d.mod = 0#8 ∧ BitVec.ofNat 8 (b % 8) = 5#8) := by
    rintro ⟨h0, hb5⟩
    exact h5 (Disp.modField_zero h0) ((ofNat8_inj (by omega) (by decide)).mp hb5)
  rw [decodeSib, decodeReadU8_drop h]
  simp only [hscale, hindex, hbase, hasIndex_eq hrex hi, index_eq hrex hi, if_neg hne,
    decodeDisplacement_drop d (drop_succ h), decodeReg_regBit hb hrex.b, decodeBaseIndexMem,
    scale_fin, Nat.add_assoc]

theorem decodeSib_noBase {i : Option Nat} {s : Fin 4} {d : BitVec 32} (operandBits : Nat)
    (hi : IndexBit modeBits p.x i) (h : bytes.drop o = sibByte s i 5 :: (bytes32 d ++ rest)) :
    decodeSib bytes 0#8 rex modeBits operandBits o =
      .ok (.memory operandBits ⟨.baseIndex, x86RegCount, i.getD x86RegCount, 2 ^ s.val, false,
        i.isSome, d.signExtend 64⟩, o + 5) := by
  obtain ⟨hscale, hindex, hbase⟩ := sibByte_fields s i 5
  rw [decodeSib, decodeReadU8_drop h]
  simp only [hscale, hindex, hbase, hasIndex_eq hrex hi, index_eq hrex hi, Nat.reduceMod, and_self,
    if_true, decodeReadLe32_drop (drop_succ h), decodeSignExtend32, decodeBaseIndexMem, scale_fin,
    Nat.add_assoc, Nat.reduceAdd]

/-- **Memory operands** are read back in every form. -/
theorem decodeMemoryOperand_drop {m : MemForm} (hm : m.Valid modeBits p)
    (h : bytes.drop o = m.bytes ++ rest) :
    decodeMemoryOperand bytes (BitVec.ofNat 8 m.mod) (BitVec.ofNat 8 (m.rm % 8)) rex modeBits
      modeBits o = .ok (.memory modeBits (m.operand modeBits), o + m.bytes.length) := by
  cases m with
  | base b d =>
    obtain ⟨hreg, h4, h5⟩ := hm
    have h4' : BitVec.ofNat 8 (b % 8) ≠ 4#8 := fun h' => h4 ((ofNat8_inj (by omega) (by decide)).mp h')
    have h5' : ¬ (BitVec.ofNat 8 d.mod = 0#8 ∧ BitVec.ofNat 8 (b % 8) = 5#8) := by
      rintro ⟨h0, hb5⟩
      exact h5 (Disp.modField_zero h0) ((ofNat8_inj (by omega) (by decide)).mp hb5)
    rw [decodeMemoryOperand, MemForm.mod, MemForm.rm, if_neg Disp.modField_ne, if_neg h4', if_neg h5',
      decodeDisplacement_drop d h]
    simp only [decodeReg_regBit hreg hrex.b]
    rfl
  | sib b i s d =>
    obtain ⟨hreg, h5, hi⟩ := hm
    rw [decodeMemoryOperand, MemForm.mod, MemForm.rm, if_neg Disp.modField_ne, if_pos rfl,
      decodeSib_base hrex modeBits hreg h5 hi h, Nat.add_comm 1]
    rfl
  | sibNoBase i s d =>
    rw [decodeMemoryOperand, MemForm.mod, MemForm.rm, if_neg (by decide), if_pos rfl]
    exact decodeSib_noBase hrex modeBits hm h
  | bare d =>
    rw [decodeMemoryOperand, MemForm.mod, MemForm.rm, if_neg (by decide), if_neg (by decide),
      if_pos (by decide), decodeReadLe32_drop h]
    by_cases h64 : modeBits = 64
    · simp only [MemForm.operand, if_pos h64]
      rfl
    · simp only [MemForm.operand, if_neg h64]
      rfl

theorem decodeRmOperand_drop {m : RmForm} (hm : m.Valid modeBits p)
    (h : bytes.drop o = m.bytes ++ rest) :
    decodeRmOperand bytes (BitVec.ofNat 8 m.mod) (BitVec.ofNat 8 (m.rm % 8)) rex modeBits modeBits o =
      .ok (m.operand modeBits, o + m.bytes.length) := by
  cases m with
  | reg r =>
    rw [decodeRmOperand, RmForm.mod, RmForm.rm, if_pos rfl, decodeReg_regBit hm hrex.b]
    rfl
  | mem m =>
    have h3 : BitVec.ofNat 8 m.mod ≠ 3#8 := m.modField_ne
    rw [decodeRmOperand, RmForm.mod, if_neg h3]
    exact decodeMemoryOperand_drop hrex hm h

end Memory

/-! ### Instructions -/

theorem Disp.mod_lt (d : Disp) : d.mod < 4 := by
  cases d <;> simp [Disp.mod]

theorem RmForm.mod_lt (m : RmForm) : m.mod < 4 := by
  cases m with
  | reg _ => exact (by decide : 3 < 4)
  | mem m =>
    cases m with
    | base _ d => exact d.mod_lt
    | sib _ _ _ d => exact d.mod_lt
    | sibNoBase _ _ _ => exact (by decide : 0 < 4)
    | bare _ => exact (by decide : 0 < 4)

/-- The opcodes that hold a register in their low bits. -/
theorem regOpcode_fin : ∀ r : Fin 8,
    (0xb8#8 ≤ BitVec.ofNat 8 (0xb8 + r) ∧ BitVec.ofNat 8 (0xb8 + r) ≤ 0xbf#8 ∧
      BitVec.ofNat 8 (0xb8 + r) - 0xb8#8 = BitVec.ofNat 8 r) ∧
    (¬ 0xb8#8 ≤ BitVec.ofNat 8 (0x50 + r) ∧ 0x50#8 ≤ BitVec.ofNat 8 (0x50 + r) ∧
      BitVec.ofNat 8 (0x50 + r) ≤ 0x57#8 ∧ BitVec.ofNat 8 (0x50 + r) < 0x58#8 ∧
      BitVec.ofNat 8 (0x50 + r) &&& 7#8 = BitVec.ofNat 8 r) ∧
    (¬ 0xb8#8 ≤ BitVec.ofNat 8 (0x58 + r) ∧ 0x58#8 ≤ BitVec.ofNat 8 (0x58 + r) ∧
      BitVec.ofNat 8 (0x58 + r) ≤ 0x5f#8 ∧ ¬ BitVec.ofNat 8 (0x58 + r) < 0x58#8 ∧
      BitVec.ofNat 8 (0x58 + r) &&& 7#8 = BitVec.ofNat 8 r) := by
  decide

/-- The low bits of an opcode, as an index of `regOpcode_fin`. -/
def lowBits (r : Nat) : Fin 8 := ⟨r % 8, Nat.mod_lt _ (by decide)⟩

section Instructions

variable {bytes rest : List Byte} {o modeBits : Nat} {rex : Byte} {p : Rex} (hrex : RexBits rex p)
include hrex

/-- The decoder's demand for REX.W is met. -/
theorem wDemand (hw : modeBits = 64 → p.w = true) : ¬ (modeBits = 64 ∧ rex &&& 8#8 = 0#8) := by
  rintro ⟨h64, h0⟩
  exact Bool.noConfusion ((hrex.w.mp h0).symm.trans (hw h64))

theorem decodeModrmMoveOrLea_mov {r : Nat} {m : RmForm} (load : Bool)
    (hw : modeBits = 64 → p.w = true) (hr : RegBit modeBits p.r r) (hm : m.Valid modeBits p)
    (h : bytes.drop o = modrmByte m.mod r m.rm :: (m.bytes ++ rest)) :
    decodeModrmMoveOrLea bytes (if load then 0x8b#8 else 0x89#8) rex modeBits o =
      decodedInst .mov (o + 1 + m.bytes.length) (if load then 0x8b#8 else 0x89#8) 0#8
        (if load then [.register modeBits r, m.operand modeBits]
          else [m.operand modeBits, .register modeBits r]) := by
  have hlea : (if load then 0x8b#8 else 0x89#8) ≠ 0x8d#8 := by cases load <;> decide
  have hload : (if load then 0x8b#8 else 0x89#8) = 0x8b#8 ↔ load = true := by
    cases load <;> decide
  rw [decodeModrmMoveOrLea, if_neg (wDemand hrex hw), decodeReadU8_drop h]
  simp only [decodeModrm_modrmByte m.mod_lt, if_neg hlea,
    decodeRmOperand_drop hrex hm (drop_succ h), decodeReg_regBit hr hrex.r, hload]

theorem decodeModrmMoveOrLea_lea {r : Nat} {m : MemForm} (hw : modeBits = 64 → p.w = true)
    (hr : RegBit modeBits p.r r) (hm : m.Valid modeBits p)
    (h : bytes.drop o = modrmByte m.mod r m.rm :: (m.bytes ++ rest)) :
    decodeModrmMoveOrLea bytes 0x8d#8 rex modeBits o =
      decodedInst .lea (o + 1 + m.bytes.length) 0x8d#8 0#8
        [.register modeBits r, .memory modeBits (m.operand modeBits)] := by
  have hmod : m.mod < 4 := (RmForm.mem m).mod_lt
  rw [decodeModrmMoveOrLea, if_neg (wDemand hrex hw), decodeReadU8_drop h]
  simp only [decodeModrm_modrmByte hmod, if_true, if_neg m.modField_ne,
    decodeMemoryOperand_drop hrex hm (drop_succ h), decodeReg_regBit hr hrex.r]

theorem decodeModrmBinary_reg {reg rm : Nat} {opcode : Byte} (hw : modeBits = 64 → p.w = true)
    (hr : RegBit modeBits p.r reg) (hm : RegBit modeBits p.b rm)
    (hop : decodeBinaryMnemonic opcode ≠ .invalid) (h : bytes.drop o = modrmByte 3 reg rm :: rest) :
    decodeModrmBinary bytes opcode rex modeBits o =
      decodedInst (decodeBinaryMnemonic opcode) (o + 1) opcode 0#8
        (if decodeRegDestOpcode opcode then [.register modeBits reg, .register modeBits rm]
          else [.register modeBits rm, .register modeBits reg]) := by
  have hrm : decodeRmOperand bytes (BitVec.ofNat 8 3) (BitVec.ofNat 8 (rm % 8)) rex modeBits
      modeBits (o + 1) = .ok (.register modeBits rm, o + 1) :=
    decodeRmOperand_drop hrex (m := .reg rm) hm (by exact drop_succ h)
  rw [decodeModrmBinary, if_neg (wDemand hrex hw), decodeReadU8_drop h]
  simp only [decodeModrm_modrmByte (by decide : 3 < 4), hrm, if_neg hop,
    decodeReg_regBit hr hrex.r]

theorem decodeGroup1Imm_reg {op : AluOp} {rm : Nat} {imm : AluImm}
    (hw : modeBits = 64 → p.w = true) (hm : RegBit modeBits p.b rm)
    (h : bytes.drop o = (Form.aluImm op rm imm).tail modeBits ++ rest) :
    decodeGroup1Imm bytes (Form.aluImm op rm imm).opcode rex modeBits o =
      decodedInst op.mnemonic (o + ((Form.aluImm op rm imm).tail modeBits).length)
        (Form.aluImm op rm imm).opcode 0#8 ((Form.aluImm op rm imm).operands modeBits) := by
  have hhead : ∃ tail, bytes.drop o = modrmByte 3 op.group rm :: tail := by
    cases imm with
    | imm8 d => exact ⟨_, h⟩
    | imm32 d => exact ⟨_, h⟩
  obtain ⟨tail, hhead⟩ := hhead
  have hrm : decodeRmOperand bytes (BitVec.ofNat 8 3) (BitVec.ofNat 8 (rm % 8)) rex modeBits
      modeBits (o + 1) = .ok (.register modeBits rm, o + 1) :=
    decodeRmOperand_drop hrex (m := .reg rm) hm (by exact drop_succ hhead)
  have hgroup : decodeGroup1Mnemonic (BitVec.ofNat 8 (op.group % 8)) = op.mnemonic := by
    cases op <;> rfl
  have hop : op.mnemonic ≠ .invalid := by cases op <;> decide
  rw [decodeGroup1Imm, if_neg (wDemand hrex hw), decodeReadU8_drop hhead]
  simp only [decodeModrm_modrmByte (by decide : 3 < 4), hrm, hgroup, if_neg hop]
  cases imm with
  | imm8 d =>
    have himm : decodeGroup1ImmValue bytes 0x83#8 (o + 1) = .ok (d.signExtend 64, o + 1 + 1) := by
      rw [decodeGroup1ImmValue, if_pos rfl, decodeReadU8_drop (drop_succ h)]
      rfl
    simp only [Form.opcode, himm]
    rfl
  | imm32 d =>
    have himm : decodeGroup1ImmValue bytes 0x81#8 (o + 1) = .ok (d.signExtend 64, o + 1 + 4) := by
      rw [decodeGroup1ImmValue, if_neg (by decide), decodeReadLe32_drop (drop_succ h)]
      rfl
    simp only [Form.opcode, himm]
    rfl

theorem decodeMovImm_drop {dst : Nat} {imm : Word} (hw : modeBits = 64 → p.w = true)
    (hdst : RegBit modeBits p.b dst) (h : bytes.drop o = (Form.movImm dst imm).tail modeBits ++ rest) :
    decodeMovImm bytes (Form.movImm dst imm).opcode rex modeBits o =
      decodedInst .mov (o + ((Form.movImm dst imm).tail modeBits).length)
        (Form.movImm dst imm).opcode 0#8 ((Form.movImm dst imm).operands modeBits) := by
  have hfield : (Form.movImm dst imm).opcode - 0xb8#8 = BitVec.ofNat 8 (dst % 8) :=
    (regOpcode_fin (lowBits dst)).1.2.2
  rw [decodeMovImm, if_neg (wDemand hrex hw)]
  simp only [hfield, decodeReg_regBit hdst hrex.b]
  by_cases h64 : modeBits = 64
  · have h' : bytes.drop o = bytes64 imm ++ rest := by rwa [Form.tail, if_pos h64] at h
    simp only [if_pos h64, decodeReadLe64_drop h', Form.tail, Form.operands, length_bytes64]
  · have h' : bytes.drop o = bytes32 (low32 imm) ++ rest := by rwa [Form.tail, if_neg h64] at h
    simp only [if_neg h64, decodeReadLe32_drop h', Form.tail, Form.operands, length_bytes32]

omit hrex in
theorem decodeRel8_drop {d : Byte} (mnemonic : X86Mnemonic) (opcode opcode2 : Byte)
    (h : bytes.drop o = d :: rest) :
    decodeRel8 bytes mnemonic opcode opcode2 o =
      decodedInst mnemonic (o + 1) opcode opcode2 [.immediate 8 (d.signExtend 64)] := by
  rw [decodeRel8, decodeReadU8_drop h]
  rfl

omit hrex in
theorem decodeRel32_drop {d : BitVec 32} (mnemonic : X86Mnemonic) (opcode opcode2 : Byte)
    (h : bytes.drop o = bytes32 d ++ rest) :
    decodeRel32 bytes mnemonic opcode opcode2 o =
      decodedInst mnemonic (o + 4) opcode opcode2 [.immediate 32 (d.signExtend 64)] := by
  rw [decodeRel32, decodeReadLe32_drop h]
  rfl

omit hrex in
/-- The near conditional branches have a second opcode byte. -/
theorem decodeOpcode_jcc32 {d : BitVec 32} (zero : Bool)
    (h : bytes.drop o = (if zero then 0x84#8 else 0x85#8) :: (bytes32 d ++ rest)) :
    decodeOpcode bytes 0x0f#8 rex modeBits o =
      decodedInst (if zero then .jz else .jnz) (o + 5) 0x0f#8 (if zero then 0x84#8 else 0x85#8)
        [.immediate 32 (d.signExtend 64)] := by
  have hne : ¬ (0xb8#8 ≤ 0x0f#8 ∧ 0x0f#8 ≤ 0xbf#8) := by decide
  have hne' : ¬ (0x50#8 ≤ 0x0f#8 ∧ 0x0f#8 ≤ 0x57#8 ∨ 0x58#8 ≤ 0x0f#8 ∧ 0x0f#8 ≤ 0x5f#8) := by decide
  unfold decodeOpcode
  rw [if_neg hne, if_neg hne']
  simp only [decodeReadU8_drop h, decodeRel32_drop _ _ _ (drop_succ h)]
  cases zero <;> rfl

/-- **Every form** is read back after its opcode. -/
theorem decodeOpcode_form {f : Form} (hf : f.Valid modeBits p)
    (hw : modeBits = 64 → f.NeedsW = true → p.w = true)
    (h : bytes.drop o = f.tail modeBits ++ rest) :
    decodeOpcode bytes f.opcode rex modeBits o =
      decodedInst f.mnemonic (o + (f.tail modeBits).length) f.opcode f.opcode2
        (f.operands modeBits) := by
  cases f with
  | movImm dst imm =>
    have hrange := (regOpcode_fin (lowBits dst)).1
    unfold decodeOpcode
    rw [if_pos ⟨hrange.1, hrange.2.1⟩]
    exact decodeMovImm_drop hrex (fun h64 => hw h64 rfl) hf h
  | movLoad dst src =>
    have hd := decodeModrmMoveOrLea_mov hrex true (fun h64 => hw h64 rfl) hf.1 hf.2 h
    rw [Nat.add_assoc, Nat.add_comm 1] at hd
    exact hd
  | movStore dst src =>
    have hd := decodeModrmMoveOrLea_mov hrex false (fun h64 => hw h64 rfl) hf.1 hf.2 h
    rw [Nat.add_assoc, Nat.add_comm 1] at hd
    exact hd
  | lea dst src =>
    have hd := decodeModrmMoveOrLea_lea hrex (fun h64 => hw h64 rfl) hf.1 hf.2 h
    rw [Nat.add_assoc, Nat.add_comm 1] at hd
    exact hd
  | alu op regDest reg rm =>
    have hop : decodeBinaryMnemonic (op.opcode regDest) ≠ .invalid := by
      cases op <;> cases regDest <;> decide
    have hd := decodeModrmBinary_reg hrex (fun h64 => hw h64 rfl) hf.1 hf.2 hop h
    cases op <;> cases regDest <;> exact hd
  | test rm reg =>
    have hop : decodeBinaryMnemonic 0x85#8 ≠ .invalid := by decide
    exact decodeModrmBinary_reg hrex (fun h64 => hw h64 rfl) hf.1 hf.2 hop h
  | aluImm op rm imm =>
    have hd := decodeGroup1Imm_reg hrex (fun h64 => hw h64 rfl) hf h
    cases imm <;> exact hd
  | push r =>
    obtain ⟨hb8, h50, h57, h58, hfield⟩ := (regOpcode_fin (lowBits r)).2.1
    unfold decodeOpcode
    rw [if_neg (fun h' => hb8 h'.1), if_pos (Or.inl ⟨h50, h57⟩),
      Form.opcode, if_pos (show BitVec.ofNat 8 (0x50 + r % 8) < 0x58#8 from h58),
      show BitVec.ofNat 8 (0x50 + r % 8) &&& 7#8 = BitVec.ofNat 8 (r % 8) from hfield,
      decodeReg_regBit hf hrex.b]
    rfl
  | pop r =>
    obtain ⟨hb8, h58, h5f, hlt, hfield⟩ := (regOpcode_fin (lowBits r)).2.2
    unfold decodeOpcode
    rw [if_neg (fun h' => hb8 h'.1), if_pos (Or.inr ⟨h58, h5f⟩),
      Form.opcode, if_neg (show ¬ BitVec.ofNat 8 (0x58 + r % 8) < 0x58#8 from hlt),
      show BitVec.ofNat 8 (0x58 + r % 8) &&& 7#8 = BitVec.ofNat 8 (r % 8) from hfield,
      decodeReg_regBit hf hrex.b]
    rfl
  | branch op rel =>
    cases rel with
    | rel8 d => cases op <;> exact decodeRel8_drop _ _ _ h
    | rel32 d =>
      cases op with
      | jmp => exact decodeRel32_drop _ _ _ h
      | jz => exact decodeOpcode_jcc32 true h
      | jnz => exact decodeOpcode_jcc32 false h
  | nop => rfl
  | ret => rfl

end Instructions

/-! ### Prefixes -/

/-- No opcode of the subset is a REX prefix. -/
theorem Form.opcode_ne_rex (f : Form) : ¬ (0x40#8 ≤ f.opcode ∧ f.opcode ≤ 0x4f#8) := by
  have hreg : ∀ r : Fin 8, ¬ (0x40#8 ≤ BitVec.ofNat 8 (0xb8 + r) ∧ BitVec.ofNat 8 (0xb8 + r) ≤ 0x4f#8) ∧
      ¬ (0x40#8 ≤ BitVec.ofNat 8 (0x50 + r) ∧ BitVec.ofNat 8 (0x50 + r) ≤ 0x4f#8) ∧
      ¬ (0x40#8 ≤ BitVec.ofNat 8 (0x58 + r) ∧ BitVec.ofNat 8 (0x58 + r) ≤ 0x4f#8) := by
    decide
  cases f with
  | movImm dst _ => exact (hreg ⟨dst % 8, Nat.mod_lt _ (by decide)⟩).1
  | push r => exact (hreg ⟨r % 8, Nat.mod_lt _ (by decide)⟩).2.1
  | pop r => exact (hreg ⟨r % 8, Nat.mod_lt _ (by decide)⟩).2.2
  | alu op regDest _ _ =>
    show ¬ (0x40#8 ≤ op.opcode regDest ∧ op.opcode regDest ≤ 0x4f#8)
    cases op <;> cases regDest <;> decide
  | aluImm _ _ imm => cases imm <;> simp [Form.opcode]
  | branch op rel => cases op <;> cases rel <;> simp [Form.opcode]
  | movLoad _ _ => simp [Form.opcode]
  | movStore _ _ => simp [Form.opcode]
  | lea _ _ => simp [Form.opcode]
  | test _ _ => simp [Form.opcode]
  | nop => decide
  | ret => decide

namespace Encoding

variable {modeBits : Nat} {e : Encoding}

/-- The number of prefix bytes. -/
def prefixLength (e : Encoding) : Nat := (e.rex.map Rex.byte).toList.length

theorem decodePrefixes_bytes (he : e.Valid modeBits) (rest : List Byte) :
    decodePrefixes modeBits 0#8 0 (e.bytes modeBits ++ rest) =
      some (e.rexByte, e.form.opcode, e.prefixLength + 1) := by
  have hop : ¬ (modeBits = 64 ∧ 0x40#8 ≤ e.form.opcode ∧ e.form.opcode ≤ 0x4f#8) :=
    fun h => e.form.opcode_ne_rex h.2
  obtain ⟨rex, form⟩ := e
  cases rex with
  | none =>
    show decodePrefixes modeBits 0#8 0 (form.opcode :: (form.tail modeBits ++ rest)) = _
    rw [decodePrefixes, if_neg hop]
    rfl
  | some q =>
    have h64 : modeBits = 64 := by
      rcases he.mode with h32 | h64
      · cases he.rex (Or.inl h32)
      · exact h64
    show decodePrefixes modeBits 0#8 0 (q.byte :: form.opcode :: (form.tail modeBits ++ rest)) = _
    rw [decodePrefixes, if_pos ⟨h64, q.byte_range⟩, decodePrefixes, if_neg hop]
    rfl

theorem drop_bytes (rest : List Byte) :
    (e.bytes modeBits ++ rest).drop (e.prefixLength + 1) = e.form.tail modeBits ++ rest := by
  obtain ⟨rex, form⟩ := e
  cases rex <;> rfl

theorem length_bytes :
    (e.bytes modeBits).length = e.prefixLength + 1 + (e.form.tail modeBits).length := by
  obtain ⟨rex, form⟩ := e
  cases rex with
  | none => simp [Encoding.bytes, prefixLength, Nat.add_comm]
  | some q =>
    simp only [Encoding.bytes, prefixLength, Option.map_some, Option.toList_some,
      List.length_append, List.length_cons, List.length_nil]
    omega

/-- An instruction has at most fifteen bytes. -/
theorem length_bytes_le : (e.bytes modeBits).length ≤ 15 := by
  have hd : ∀ d : Disp, d.bytes.length ≤ 4 := by
    intro d
    cases d <;> simp [Disp.bytes]
  have hm : ∀ m : MemForm, m.bytes.length ≤ 5 := by
    intro m
    cases m with
    | base _ d => exact (hd d).trans (by decide)
    | sib _ _ _ d => exact Nat.succ_le_succ (hd d)
    | sibNoBase _ _ d => simp [MemForm.bytes]
    | bare d => simp [MemForm.bytes]
  have hr : ∀ m : RmForm, m.bytes.length ≤ 5 := by
    intro m
    cases m with
    | reg _ => exact Nat.zero_le 5
    | mem m => exact hm m
  have htail : (e.form.tail modeBits).length ≤ 8 := by
    cases e.form with
    | movImm dst imm =>
      rw [Form.tail]
      split <;> simp
    | movLoad dst src => exact (Nat.succ_le_succ (hr src)).trans (by decide)
    | movStore dst src => exact (Nat.succ_le_succ (hr dst)).trans (by decide)
    | lea dst src => exact (Nat.succ_le_succ (hm src)).trans (by decide)
    | alu _ _ _ _ => simp [Form.tail]
    | test _ _ => simp [Form.tail]
    | aluImm _ _ imm => cases imm <;> simp [Form.tail]
    | branch op rel => cases op <;> cases rel <;> simp [Form.tail]
    | push _ => simp [Form.tail]
    | pop _ => simp [Form.tail]
    | nop => simp [Form.tail]
    | ret => simp [Form.tail]
  have hp : e.prefixLength ≤ 1 := by
    unfold prefixLength
    cases e.rex <;> simp
  rw [length_bytes]
  omega

end Encoding

/-- **Decoding inverts encoding.**  Every encoding of the subset, in both modes, is decoded to
the instruction that it denotes, with the number of its bytes, whatever bytes follow. -/
theorem x86DecodeMode_encoding {modeBits : Nat} {e : Encoding} (he : e.Valid modeBits)
    (rest : List Byte) :
    x86DecodeMode (e.bytes modeBits ++ rest) modeBits = .ok (e.inst modeBits) := by
  have hne : (e.bytes modeBits ++ rest).isEmpty = false := by
    cases hb : e.bytes modeBits ++ rest with
    | nil =>
      have := congrArg List.length hb
      rw [List.length_append, Encoding.length_bytes, List.length_nil] at this
      omega
    | cons _ _ => rfl
  have hlen : (e.bytes modeBits).length % 256 = (e.bytes modeBits).length :=
    Nat.mod_eq_of_lt (Nat.lt_of_le_of_lt Encoding.length_bytes_le (by decide))
  rw [x86DecodeMode, hne, Encoding.decodePrefixes_bytes he]
  have hd := decodeOpcode_form e.rexBits he.form he.w (Encoding.drop_bytes (e := e) rest)
  simp only [Bool.false_eq_true, if_false, hd, decodedInst, ← Encoding.length_bytes, hlen]
  rfl

/-- `mov r9, [r13 + rcx*4 - 8]`: a base that needs a displacement and an index. -/
def movSample : Encoding :=
  ⟨some ⟨true, true, false, true⟩, .movLoad 9 (.mem (.sib 13 (some 1) 2 (.disp8 0xf8#8)))⟩

theorem movSample_valid : movSample.Valid 64 := by
  refine ⟨Or.inr rfl, ?_, fun _ _ => rfl, ⟨by decide, rfl⟩, ⟨by decide, rfl⟩, ?_, ?_⟩
  · rintro (h | h)
    · cases h
    · cases h
  · intro h
    cases h
  · exact ⟨⟨by decide, rfl⟩, by decide⟩

theorem x86DecodeMode_encoding_movSample :
    x86DecodeMode [0x4d#8, 0x8b#8, 0x4c#8, 0x8d#8, 0xf8#8, 0x90#8] 64 =
      .ok ⟨.mov, 5, 0x8b#8, 0#8, [.register 64 9,
        .memory 64 ⟨.baseIndex, 13, 1, 4, true, true, 0xfffffffffffffff8#64⟩]⟩ :=
  x86DecodeMode_encoding movSample_valid [0x90#8]

end Xair
