import Xair.X86RoundTrip

/-!
# The encodings that the decoder accepts

The converse of the round trip: what the decoder accepts is a form of the subset after
any number of REX prefixes (`x86DecodeMode_ok_iff`).  Each reading function is inverted:
from its success the bytes that stand at the offset are recovered, and the fields of
ModRM, SIB and opcode give back the registers.
-/

namespace Xair

open LittleEndian

/-! ### What a successful read says -/

theorem decodeReadU8_some {bytes : List Byte} {o : Nat} {b : Byte}
    (h : decodeReadU8 bytes o = some b) : bytes.drop o = b :: bytes.drop (o + 1) := by
  obtain ⟨hlt, rfl⟩ := List.getElem?_eq_some_iff.mp h
  exact List.drop_eq_getElem_cons hlt

theorem drop_eq_getD_cons {bytes : List Byte} {o : Nat} (h : o < bytes.length) :
    bytes.drop o = bytes.getD o 0#8 :: bytes.drop (o + 1) := by
  rw [List.getD_eq_getElem?_getD, List.getElem?_eq_getElem h, Option.getD_some]
  exact List.drop_eq_getElem_cons h

theorem decodeReadLe32_some {bytes : List Byte} {o : Nat} {d : BitVec 32}
    (h : decodeReadLe32 bytes o = some d) : bytes.drop o = bytes32 d ++ bytes.drop (o + 4) := by
  unfold decodeReadLe32 at h
  split at h
  · cases h
  · next hlen =>
    cases h
    rw [bytes32_le32, drop_eq_getD_cons (show o < bytes.length by omega),
      drop_eq_getD_cons (show o + 1 < bytes.length by omega),
      drop_eq_getD_cons (show o + 1 + 1 < bytes.length by omega),
      drop_eq_getD_cons (show o + 1 + 1 + 1 < bytes.length by omega)]
    rfl

theorem decodeReadLe64_some {bytes : List Byte} {o : Nat} {d : BitVec 64}
    (h : decodeReadLe64 bytes o = some d) : bytes.drop o = bytes64 d ++ bytes.drop (o + 8) := by
  unfold decodeReadLe64 at h
  split at h
  · cases h
  · next lo hlo =>
    split at h
    · cases h
    · next hi hhi =>
      cases h
      rw [bytes64, low32_le64, high32_le64, decodeReadLe32_some hlo, decodeReadLe32_some hhi,
        List.append_assoc]

/-! ### Fields -/

/-- Every byte is the ModRM or SIB byte of its fields. -/
theorem byte_fields : ∀ b : Fin 256,
    BitVec.ofNat 8 b = BitVec.ofNat 8 ((BitVec.ofNat 8 b >>> 6).toNat * 64 +
      (BitVec.ofNat 8 b >>> 3 &&& 7#8).toNat * 8 + (BitVec.ofNat 8 b &&& 7#8).toNat) ∧
    (BitVec.ofNat 8 b >>> 6).toNat < 4 ∧ (BitVec.ofNat 8 b >>> 3 &&& 7#8).toNat < 8 ∧
    (BitVec.ofNat 8 b &&& 7#8).toNat < 8 := by
  decide +kernel

theorem modrm_fields (b : Byte) :
    b = BitVec.ofNat 8 ((b >>> 6).toNat * 64 + (b >>> 3 &&& 7#8).toNat * 8 + (b &&& 7#8).toNat) ∧
    (b >>> 6).toNat < 4 ∧ (b >>> 3 &&& 7#8).toNat < 8 ∧ (b &&& 7#8).toNat < 8 := by
  have h := byte_fields ⟨b.toNat, b.isLt⟩
  simpa only [BitVec.ofNat_toNat, BitVec.setWidth_eq] using h

/-- A field with a REX bit is a register. -/
theorem exists_regBit (modeBits : Nat) (bit : Bool) (field : Byte) (hf : field.toNat < 8)
    (h64 : modeBits ≠ 64 → bit = false) :
    ∃ r, RegBit modeBits bit r ∧ r % 8 = field.toNat := by
  cases bit with
  | false =>
    refine ⟨field.toNat, ⟨?_, ?_⟩, by omega⟩
    · split <;> omega
    · rw [eq_comm, decide_eq_false_iff_not]
      omega
  | true =>
    have hm : modeBits = 64 := by
      by_contra hm
      cases h64 hm
    refine ⟨field.toNat + 8, ⟨?_, ?_⟩, by omega⟩
    · rw [if_pos hm]
      omega
    · rw [eq_comm, decide_eq_true_iff]
      omega

theorem toNat_eq_ofNat {b : Byte} {n : Nat} (h : b.toNat = n) : b = BitVec.ofNat 8 n := by
  rw [← h, BitVec.ofNat_toNat, BitVec.setWidth_eq]

/-! ### Operands -/

theorem decodeDisplacement_ok {bytes : List Byte} {mod : Byte} {o : Nat} {r : Word × Nat}
    (hmod : mod.toNat < 4) (h3 : mod ≠ 3#8) (h : decodeDisplacement bytes mod o = .ok r) :
    ∃ d : Disp, ∃ rest, mod = BitVec.ofNat 8 d.mod ∧ bytes.drop o = d.bytes ++ rest := by
  unfold decodeDisplacement at h
  split at h
  · next h1 =>
    split at h
    · cases h
    · next d hd => exact ⟨.disp8 d, _, h1, decodeReadU8_some hd⟩
  · next h1 =>
    split at h
    · next h2 =>
      split at h
      · cases h
      · next d hd => exact ⟨.disp32 d, _, h2, decodeReadLe32_some hd⟩
    · next h2 =>
      refine ⟨.none, _, ?_, rfl⟩
      have hn : mod.toNat ≠ 1 ∧ mod.toNat ≠ 2 ∧ mod.toNat ≠ 3 :=
        ⟨fun h' => h1 (toNat_eq_ofNat h'), fun h' => h2 (toNat_eq_ofNat h'),
          fun h' => h3 (toNat_eq_ofNat h')⟩
      exact toNat_eq_ofNat (show mod.toNat = 0 by omega)

section Operands

variable {bytes : List Byte} {o modeBits operandBits : Nat} {rex : Byte} {p : Rex}
  (h64 : modeBits ≠ 64 → p = Rex.none)
include h64

/-- The index that a SIB byte announces. -/
theorem exists_indexBit (field : Byte) (hf : field.toNat < 8) :
    ∃ i : Option Nat, IndexBit modeBits p.x i ∧ i.getD 4 % 8 = field.toNat := by
  by_cases hnone : p.x = false ∧ field.toNat = 4
  · exact ⟨none, hnone.1, hnone.2.symm⟩
  · obtain ⟨i, hi, hfield⟩ := exists_regBit modeBits p.x field hf fun hm => by rw [h64 hm]; rfl
    refine ⟨some i, ⟨hi, ?_⟩, hfield⟩
    rintro rfl
    exact hnone ⟨hi.2, hfield.symm⟩

theorem decodeSib_ok {mod : Byte} {r : X86Operand × Nat} (hmod : mod.toNat < 4) (h3 : mod ≠ 3#8)
    (h : decodeSib bytes mod rex modeBits operandBits o = .ok r) :
    ∃ m : MemForm, ∃ rest, m.Valid modeBits p ∧ mod = BitVec.ofNat 8 m.mod ∧ m.rm % 8 = 4 ∧
      bytes.drop o = m.bytes ++ rest := by
  unfold decodeSib at h
  split at h
  · cases h
  · next sib hsib =>
    obtain ⟨hbyte, hs, hi, hb⟩ := modrm_fields sib
    obtain ⟨i, hindex, hifield⟩ := exists_indexBit h64 (sib >>> 3 &&& 7#8) hi
    obtain ⟨b, hbase, hbfield⟩ := exists_regBit modeBits p.b (sib &&& 7#8) hb
      fun hm => by rw [h64 hm]; rfl
    dsimp only at h
    split at h
    · next h05 =>
      split at h
      · cases h
      · next d hd =>
        refine ⟨.sibNoBase i ⟨_, hs⟩ d, bytes.drop (o + 1 + 4), hindex, h05.1, rfl, ?_⟩
        rw [MemForm.bytes, sibByte, hifield, show 5 % 8 = (sib &&& 7#8).toNat by rw [h05.2]; rfl,
          ← hbyte, decodeReadU8_some hsib, decodeReadLe32_some hd]
        rfl
    · next h05 =>
      split at h
      · cases h
      · next d _ hd =>
        obtain ⟨disp, rest, hdmod, hdrop⟩ := decodeDisplacement_ok hmod h3 hd
        refine ⟨.sib b i ⟨_, hs⟩ disp, rest, ⟨hbase, ?_, hindex⟩, hdmod, rfl, ?_⟩
        · rintro rfl h5
          exact h05 ⟨hdmod, toNat_eq_ofNat (hbfield.symm.trans h5)⟩
        · rw [MemForm.bytes, sibByte, hifield, hbfield, ← hbyte, decodeReadU8_some hsib, hdrop]
          rfl

theorem decodeMemoryOperand_ok {mod rm : Byte} {r : X86Operand × Nat} (hmod : mod.toNat < 4)
    (hrm : rm.toNat < 8) (h : decodeMemoryOperand bytes mod rm rex modeBits operandBits o = .ok r) :
    ∃ m : MemForm, ∃ rest, m.Valid modeBits p ∧ mod = BitVec.ofNat 8 m.mod ∧ m.rm % 8 = rm.toNat ∧
      bytes.drop o = m.bytes ++ rest := by
  unfold decodeMemoryOperand at h
  split at h
  · cases h
  next h3 =>
  split at h
  · next h4 =>
    obtain ⟨m, rest, hm, hmm, hr, hdrop⟩ := decodeSib_ok h64 hmod h3 h
    exact ⟨m, rest, hm, hmm, by rw [hr, h4]; rfl, hdrop⟩
  next h4 =>
  split at h
  · next h05 =>
    split at h
    · cases h
    · next d hd =>
      exact ⟨.bare d, _, trivial, h05.1, by rw [h05.2]; rfl, decodeReadLe32_some hd⟩
  next h05 =>
  split at h
  · cases h
  · next d _ hd =>
    obtain ⟨disp, rest, hdmod, hdrop⟩ := decodeDisplacement_ok hmod h3 hd
    obtain ⟨b, hbase, hbfield⟩ := exists_regBit modeBits p.b rm hrm
      fun hm => by rw [h64 hm]; rfl
    refine ⟨.base b disp, rest, ⟨hbase, ?_, ?_⟩, hdmod, hbfield, hdrop⟩
    · intro h'
      exact h4 (toNat_eq_ofNat (hbfield.symm.trans h'))
    · rintro rfl h5
      exact h05 ⟨hdmod, toNat_eq_ofNat (hbfield.symm.trans h5)⟩

theorem decodeRmOperand_ok {mod rm : Byte} {r : X86Operand × Nat} (hmod : mod.toNat < 4)
    (hrm : rm.toNat < 8) (h : decodeRmOperand bytes mod rm rex modeBits operandBits o = .ok r) :
    ∃ m : RmForm, ∃ rest, m.Valid modeBits p ∧ mod = BitVec.ofNat 8 m.mod ∧ m.rm % 8 = rm.toNat ∧
      bytes.drop o = m.bytes ++ rest := by
  unfold decodeRmOperand at h
  split at h
  · next h3 =>
    obtain ⟨reg, hreg, hfield⟩ := exists_regBit modeBits p.b rm hrm
      fun hm => by rw [h64 hm]; rfl
    exact ⟨.reg reg, _, hreg, h3, hfield, rfl⟩
  · obtain ⟨m, rest, hm, hrest⟩ := decodeMemoryOperand_ok h64 hmod hrm h
    exact ⟨.mem m, rest, hm, hrest⟩

end Operands

/-! ### Instructions -/

theorem modrm_eq {modrm : Byte} {m r n : Nat} (hm : modrm >>> 6 = BitVec.ofNat 8 m)
    (hlt : m < 4) (hr : r % 8 = (modrm >>> 3 &&& 7#8).toNat) (hn : n % 8 = (modrm &&& 7#8).toNat) :
    modrm = modrmByte m r n := by
  obtain ⟨hbyte, -, -, -⟩ := modrm_fields modrm
  rw [modrmByte, hr, hn, show m = (modrm >>> 6).toNat by rw [hm, BitVec.toNat_ofNat]; omega]
  exact hbyte

/-- The opcodes with a mnemonic of their own. -/
theorem decodeBinaryMnemonic_cases {opcode : Byte} (h : decodeBinaryMnemonic opcode ≠ .invalid) :
    opcode = 0x85#8 ∨ ∃ (op : AluOp) (regDest : Bool), op.opcode regDest = opcode := by
  unfold decodeBinaryMnemonic at h
  split at h
  · exact .inr ⟨.add, false, rfl⟩
  · exact .inr ⟨.add, true, rfl⟩
  · exact .inr ⟨.or, false, rfl⟩
  · exact .inr ⟨.or, true, rfl⟩
  · exact .inr ⟨.and, false, rfl⟩
  · exact .inr ⟨.and, true, rfl⟩
  · exact .inr ⟨.sub, false, rfl⟩
  · exact .inr ⟨.sub, true, rfl⟩
  · exact .inr ⟨.xor, false, rfl⟩
  · exact .inr ⟨.xor, true, rfl⟩
  · exact .inr ⟨.cmp, false, rfl⟩
  · exact .inr ⟨.cmp, true, rfl⟩
  · exact .inl rfl
  · exact absurd rfl h

/-- The opcode extensions of group 1 that have a mnemonic. -/
theorem exists_group : ∀ g : Fin 8, decodeGroup1Mnemonic (BitVec.ofNat 8 g) ≠ .invalid →
    ∃ op : AluOp, op.group = g
  | 0, _ => ⟨.add, rfl⟩
  | 1, _ => ⟨.or, rfl⟩
  | 2, h => absurd rfl h
  | 3, h => absurd rfl h
  | 4, _ => ⟨.and, rfl⟩
  | 5, _ => ⟨.sub, rfl⟩
  | 6, _ => ⟨.xor, rfl⟩
  | 7, _ => ⟨.cmp, rfl⟩

/-- The form `f` stands after its opcode at the offset `o`, under the bits `p` of the last
prefix. -/
def Form.At (modeBits : Nat) (p : Rex) (bytes : List Byte) (o : Nat) (f : Form) : Prop :=
  f.Valid modeBits p ∧ (modeBits = 64 → f.NeedsW = true → p.w = true) ∧
    ∃ rest, bytes.drop o = f.tail modeBits ++ rest

/-- A branch at its place. -/
theorem branch_at {modeBits : Nat} {p : Rex} {bytes rest : List Byte} {o : Nat} {op : BranchOp}
    {rel : Rel}
    (h : bytes.drop o = (Form.branch op rel).tail modeBits ++ rest) :
    (Form.branch op rel).At modeBits p bytes o :=
  ⟨trivial, fun _ h' => Bool.noConfusion h', rest, h⟩

section Instructions

variable {bytes : List Byte} {o modeBits : Nat} {rex : Byte} {p : Rex} {inst : X86DecodedInst}
  (hrex : RexBits rex p) (h64 : modeBits ≠ 64 → p = Rex.none)
include hrex

/-- What the demand for REX.W lets through. -/
theorem wDemand_inv (h : ¬ (modeBits = 64 ∧ rex &&& 8#8 = 0#8)) : modeBits = 64 → p.w = true := by
  intro hm
  cases hw : p.w with
  | true => rfl
  | false => exact absurd ⟨hm, hrex.w.mpr hw⟩ h

include h64

theorem decodeModrmMoveOrLea_ok {opcode : Byte}
    (hop : opcode = 0x8b#8 ∨ opcode = 0x89#8 ∨ opcode = 0x8d#8)
    (h : decodeModrmMoveOrLea bytes opcode rex modeBits o = .ok inst) :
    ∃ f : Form, f.opcode = opcode ∧ f.At modeBits p bytes o := by
  unfold decodeModrmMoveOrLea at h
  split at h
  · cases h
  next hw =>
  have hw := wDemand_inv hrex hw
  split at h
  · cases h
  next modrm hmodrm =>
  obtain ⟨-, hmod, hregf, hrmf⟩ := modrm_fields modrm
  obtain ⟨reg, hreg, hregfield⟩ := exists_regBit modeBits p.r (modrm >>> 3 &&& 7#8) hregf
    fun hm => by rw [h64 hm]; rfl
  unfold decodeModrm at h
  dsimp only at h
  split at h
  · next hlea =>
    split at h
    · cases h
    split at h
    · cases h
    next hmem =>
    obtain ⟨m, rest, hm, hmm, hr, hdrop⟩ := decodeMemoryOperand_ok h64 hmod hrmf hmem
    refine ⟨.lea reg m, hlea.symm, ⟨hreg, hm⟩, fun h' _ => hw h', rest, ?_⟩
    rw [decodeReadU8_some hmodrm, hdrop, modrm_eq hmm (RmForm.mem m).mod_lt hregfield hr]
    rfl
  · next hlea =>
    split at h
    · cases h
    next hrm =>
    obtain ⟨m, rest, hm, hmm, hr, hdrop⟩ := decodeRmOperand_ok h64 hmod hrmf hrm
    have hbytes : bytes.drop o = modrmByte m.mod reg m.rm :: (m.bytes ++ rest) := by
      rw [decodeReadU8_some hmodrm, hdrop, modrm_eq hmm m.mod_lt hregfield hr]
    rcases hop with rfl | rfl | rfl
    · exact ⟨.movLoad reg m, rfl, ⟨hreg, hm⟩, fun h' _ => hw h', rest, hbytes⟩
    · exact ⟨.movStore m reg, rfl, ⟨hreg, hm⟩, fun h' _ => hw h', rest, hbytes⟩
    · exact absurd rfl hlea

/-- A register operand comes from `mod` field 3, with nothing after ModRM. -/
theorem decodeRmOperand_register {mod rm : Byte} {n r o' : Nat} (hmod : mod.toNat < 4)
    (hrm : rm.toNat < 8)
    (h : decodeRmOperand bytes mod rm rex modeBits modeBits o = .ok (.register n r, o')) :
    ∃ reg, RegBit modeBits p.b reg ∧ mod = BitVec.ofNat 8 3 ∧ reg % 8 = rm.toNat ∧ o' = o := by
  obtain ⟨m, rest, hm, hmm, hr, hdrop⟩ := decodeRmOperand_ok h64 hmod hrm h
  have hread := decodeRmOperand_drop hrex hm hdrop
  rw [← hmm, hr, BitVec.ofNat_toNat, BitVec.setWidth_eq, h] at hread
  cases m with
  | reg reg =>
    cases hread
    exact ⟨_, hm, hmm, hr, rfl⟩
  | mem m => cases hread

theorem decodeModrmBinary_ok {opcode : Byte}
    (h : decodeModrmBinary bytes opcode rex modeBits o = .ok inst) :
    ∃ f : Form, f.opcode = opcode ∧ f.At modeBits p bytes o := by
  unfold decodeModrmBinary at h
  split at h
  · cases h
  next hw =>
  have hw := wDemand_inv hrex hw
  split at h
  · cases h
  next modrm hmodrm =>
  obtain ⟨-, hmod, hregf, hrmf⟩ := modrm_fields modrm
  obtain ⟨reg, hreg, hregfield⟩ := exists_regBit modeBits p.r (modrm >>> 3 &&& 7#8) hregf
    fun hm => by rw [h64 hm]; rfl
  unfold decodeModrm at h
  dsimp only at h
  split at h
  · cases h
  · next hrm =>
    obtain ⟨rm, hrm, hmm, hr, -⟩ := decodeRmOperand_register hrex h64 hmod hrmf hrm
    have hbytes : bytes.drop o = [modrmByte 3 reg rm] ++ bytes.drop (o + 1) := by
      rw [decodeReadU8_some hmodrm, modrm_eq hmm (by decide) hregfield hr]
      rfl
    split at h
    · cases h
    next hmn =>
    rcases decodeBinaryMnemonic_cases hmn with rfl | ⟨op, regDest, rfl⟩
    · exact ⟨.test rm reg, rfl, ⟨hreg, hrm⟩, fun h' _ => hw h', _, hbytes⟩
    · exact ⟨.alu op regDest reg rm, rfl, ⟨hreg, hrm⟩, fun h' _ => hw h', _, hbytes⟩
  · cases h

omit hrex h64 in
theorem decodeGroup1ImmValue_ok {opcode : Byte} {r : Word × Nat} (n rm : Nat) (op : AluOp)
    (hop : opcode = 0x81#8 ∨ opcode = 0x83#8)
    (h : decodeGroup1ImmValue bytes opcode o = .ok r) :
    ∃ (imm : AluImm) (rest : List Byte), (Form.aluImm op rm imm).opcode = opcode ∧
      modrmByte 3 op.group rm :: bytes.drop o = (Form.aluImm op rm imm).tail n ++ rest := by
  unfold decodeGroup1ImmValue at h
  split at h
  · next h83 =>
    split at h
    · cases h
    · next d hd =>
      exact ⟨.imm8 d, _, h83.symm, congrArg (_ :: ·) (decodeReadU8_some hd)⟩
  · next h83 =>
    split at h
    · cases h
    · next d hd =>
      exact ⟨.imm32 d, _, (hop.resolve_right h83).symm, congrArg (_ :: ·) (decodeReadLe32_some hd)⟩

theorem decodeGroup1Imm_ok {opcode : Byte} (hop : opcode = 0x81#8 ∨ opcode = 0x83#8)
    (h : decodeGroup1Imm bytes opcode rex modeBits o = .ok inst) :
    ∃ f : Form, f.opcode = opcode ∧ f.At modeBits p bytes o := by
  unfold decodeGroup1Imm at h
  split at h
  · cases h
  next hw =>
  have hw := wDemand_inv hrex hw
  split at h
  · cases h
  next modrm hmodrm =>
  obtain ⟨-, hmod, hregf, hrmf⟩ := modrm_fields modrm
  unfold decodeModrm at h
  dsimp only at h
  split at h
  · cases h
  · next hrm =>
    obtain ⟨rm, hreg, hmm, hr, rfl⟩ := decodeRmOperand_register hrex h64 hmod hrmf hrm
    split at h
    · cases h
    next himm =>
    split at h
    · cases h
    next hmn =>
    obtain ⟨op, hgroup⟩ := exists_group ⟨_, hregf⟩
      (by rwa [BitVec.ofNat_toNat, BitVec.setWidth_eq])
    obtain ⟨imm, rest, hopc, hbytes⟩ := decodeGroup1ImmValue_ok modeBits rm op hop himm
    have hmodrm' : modrm = modrmByte 3 op.group rm :=
      modrm_eq hmm (by decide) (by rw [hgroup]; exact Nat.mod_eq_of_lt hregf) hr
    refine ⟨.aluImm op rm imm, hopc, hreg, fun h' _ => hw h', rest, ?_⟩
    rw [decodeReadU8_some hmodrm, hmodrm', hbytes]
  · cases h

theorem decodeMovImm_ok {opcode : Byte} (hop : 0xb8#8 ≤ opcode ∧ opcode ≤ 0xbf#8)
    (h : decodeMovImm bytes opcode rex modeBits o = .ok inst) :
    ∃ f : Form, f.opcode = opcode ∧ f.At modeBits p bytes o := by
  have h1 := BitVec.le_def.mp hop.1
  have h2 := BitVec.le_def.mp hop.2
  simp only [BitVec.toNat_ofNat] at h1 h2
  unfold decodeMovImm at h
  split at h
  · cases h
  next hw =>
  have hw := wDemand_inv hrex hw
  have hfield : (BitVec.ofNat 8 (opcode.toNat - 0xb8)).toNat = opcode.toNat - 0xb8 := by
    rw [BitVec.toNat_ofNat]
    omega
  obtain ⟨dst, hdst, hlow⟩ := exists_regBit modeBits p.b
    (BitVec.ofNat 8 (opcode.toNat - 0xb8)) (by omega) fun hm => by rw [h64 hm]; rfl
  have hopc : BitVec.ofNat 8 (0xb8 + dst % 8) = opcode :=
    (toNat_eq_ofNat (show opcode.toNat = 0xb8 + dst % 8 by omega)).symm
  dsimp only at h
  split at h
  · next hm =>
    split at h
    · cases h
    next imm himm =>
    refine ⟨.movImm dst imm, hopc, hdst, fun h' _ => hw h', bytes.drop (o + 8), ?_⟩
    rw [Form.tail, if_pos hm]
    exact decodeReadLe64_some himm
  · next hm =>
    split at h
    · cases h
    next imm himm =>
    refine ⟨.movImm dst (le64 imm 0#32), hopc, hdst, fun h' _ => hw h', bytes.drop (o + 4), ?_⟩
    rw [Form.tail, if_neg hm, low32_le64]
    exact decodeReadLe32_some himm

omit hrex h64 in
theorem decodeRel8_ok {mn : X86Mnemonic} {opcode opcode2 : Byte}
    (h : decodeRel8 bytes mn opcode opcode2 o = .ok inst) :
    ∃ d rest, bytes.drop o = [d] ++ rest := by
  unfold decodeRel8 at h
  split at h
  · cases h
  · next hd => exact ⟨_, _, decodeReadU8_some hd⟩

omit hrex h64 in
theorem decodeRel32_ok {mn : X86Mnemonic} {opcode opcode2 : Byte}
    (h : decodeRel32 bytes mn opcode opcode2 o = .ok inst) :
    ∃ d rest, bytes.drop o = bytes32 d ++ rest := by
  unfold decodeRel32 at h
  split at h
  · cases h
  · next hd => exact ⟨_, _, decodeReadLe32_some hd⟩

omit hrex in
/-- `push` and `pop` hold the register in the low bits of the opcode. -/
theorem pushPop_ok {opcode : Byte}
    (hop : 0x50#8 ≤ opcode ∧ opcode ≤ 0x57#8 ∨ 0x58#8 ≤ opcode ∧ opcode ≤ 0x5f#8) :
    ∃ f : Form, f.opcode = opcode ∧ f.At modeBits p bytes o := by
  simp only [BitVec.le_def, BitVec.toNat_ofNat] at hop
  have hfield : (BitVec.ofNat 8 (opcode.toNat % 8)).toNat = opcode.toNat % 8 := by
    rw [BitVec.toNat_ofNat]
    omega
  obtain ⟨r, hr, hlow⟩ := exists_regBit modeBits p.b
    (BitVec.ofNat 8 (opcode.toNat % 8)) (by omega) fun hm => by rw [h64 hm]; rfl
  rcases hop with hpush | hpop
  · have hopc : opcode.toNat = 0x50 + r % 8 := by omega
    exact ⟨.push r, (toNat_eq_ofNat hopc).symm, hr, fun _ h' => Bool.noConfusion h', _, rfl⟩
  · have hopc : opcode.toNat = 0x58 + r % 8 := by omega
    exact ⟨.pop r, (toNat_eq_ofNat hopc).symm, hr, fun _ h' => Bool.noConfusion h', _, rfl⟩

/-- **Every accepted opcode** is that of a form of the subset, which stands after it. -/
theorem decodeOpcode_ok {opcode : Byte}
    (h : decodeOpcode bytes opcode rex modeBits o = .ok inst) :
    ∃ f : Form, f.opcode = opcode ∧ f.At modeBits p bytes o := by
  unfold decodeOpcode at h
  split at h
  · next hop => exact decodeMovImm_ok hrex h64 hop h
  split at h
  · next hop => exact pushPop_ok h64 hop
  split at h
  · exact ⟨.nop, rfl, trivial, fun _ h' => Bool.noConfusion h', _, rfl⟩
  · exact decodeModrmMoveOrLea_ok hrex h64 (by decide) h
  · exact decodeModrmMoveOrLea_ok hrex h64 (by decide) h
  · exact decodeModrmMoveOrLea_ok hrex h64 (by decide) h
  iterate 13 exact decodeModrmBinary_ok hrex h64 h
  · exact decodeGroup1Imm_ok hrex h64 (.inl rfl) h
  · exact decodeGroup1Imm_ok hrex h64 (.inr rfl) h
  · obtain ⟨d, rest, hd⟩ := decodeRel8_ok h
    exact ⟨.branch .jmp (.rel8 d), rfl, branch_at hd⟩
  · obtain ⟨d, rest, hd⟩ := decodeRel32_ok h
    exact ⟨.branch .jmp (.rel32 d), rfl, branch_at hd⟩
  · obtain ⟨d, rest, hd⟩ := decodeRel8_ok h
    exact ⟨.branch .jz (.rel8 d), rfl, branch_at hd⟩
  · obtain ⟨d, rest, hd⟩ := decodeRel8_ok h
    exact ⟨.branch .jnz (.rel8 d), rfl, branch_at hd⟩
  · split at h
    · cases h
    next opcode2 hread =>
    split at h
    · next hop2 =>
      obtain ⟨d, rest, hd⟩ := decodeRel32_ok h
      have hbytes : bytes.drop o = opcode2 :: (bytes32 d ++ rest) := by
        rw [decodeReadU8_some hread, hd]
      rcases hop2 with rfl | rfl
      · exact ⟨.branch .jz (.rel32 d), rfl, branch_at hbytes⟩
      · exact ⟨.branch .jnz (.rel32 d), rfl, branch_at hbytes⟩
    · cases h
  · exact ⟨.ret, rfl, trivial, fun _ h' => Bool.noConfusion h', _, rfl⟩
  · cases h

end Instructions

/-! ### Prefixes -/

/-- Every REX byte has its four bits. -/
theorem exists_rex_fin : ∀ b : Fin 256, 0x40#8 ≤ BitVec.ofNat 8 b → BitVec.ofNat 8 b ≤ 0x4f#8 →
    (Rex.mk (BitVec.ofNat 8 b &&& 8#8 != 0#8) (BitVec.ofNat 8 b &&& 4#8 != 0#8)
      (BitVec.ofNat 8 b &&& 2#8 != 0#8) (BitVec.ofNat 8 b &&& 1#8 != 0#8)).byte =
      BitVec.ofNat 8 b := by
  decide +kernel

theorem exists_rex {b : Byte} (h : 0x40#8 ≤ b ∧ b ≤ 0x4f#8) : ∃ p : Rex, p.byte = b := by
  have hfin := exists_rex_fin ⟨b.toNat, b.isLt⟩
  simp only [BitVec.ofNat_toNat, BitVec.setWidth_eq] at hfin
  exact ⟨_, hfin h.1 h.2⟩

/-- The byte that the prefix loop keeps, `rex` being the one before. -/
def lastRexByte (rex : Byte) (ps : List Rex) : Byte := (ps.getLast?.map Rex.byte).getD rex

theorem lastRexByte_cons (rex : Byte) (p : Rex) (ps : List Rex) :
    lastRexByte rex (p :: ps) = lastRexByte p.byte ps := by
  unfold lastRexByte
  rw [List.getLast?_cons, Option.map_some, Option.getD_some]
  cases ps.getLast? with
  | none => rfl
  | some q => rfl

/-- The prefix loop runs over the prefixes. -/
theorem decodePrefixes_map {modeBits : Nat} {opcode : Byte} (rest : List Byte)
    (hop : ¬ (modeBits = 64 ∧ 0x40#8 ≤ opcode ∧ opcode ≤ 0x4f#8)) (ps : List Rex)
    (hps : modeBits ≠ 64 → ps = []) (rex : Byte) (o : Nat) :
    decodePrefixes modeBits rex o (ps.map Rex.byte ++ opcode :: rest) =
      some (lastRexByte rex ps, opcode, o + ps.length + 1) := by
  induction ps generalizing rex o with
  | nil =>
    rw [List.map_nil, List.nil_append, decodePrefixes, if_neg hop]
    rfl
  | cons p ps ih =>
    have h64 : modeBits = 64 := by
      by_contra hne
      cases hps hne
    rw [List.map_cons, List.cons_append, decodePrefixes, if_pos ⟨h64, p.byte_range⟩,
      ih (fun hne => absurd h64 hne), lastRexByte_cons, List.length_cons]
    congr 3
    omega

/-- What the prefix loop ran over. -/
theorem decodePrefixes_some {modeBits : Nat} {r : Byte × Byte × Nat} (bytes : List Byte)
    (rex : Byte)
    (o : Nat) (h : decodePrefixes modeBits rex o bytes = some r) :
    ∃ (ps : List Rex) (rest : List Byte), (modeBits ≠ 64 → ps = []) ∧
      bytes = ps.map Rex.byte ++ r.2.1 :: rest ∧
      r = (lastRexByte rex ps, r.2.1, o + ps.length + 1) := by
  induction bytes generalizing rex o with
  | nil => cases h
  | cons b bytes ih =>
    rw [decodePrefixes] at h
    split at h
    · next hrex =>
      obtain ⟨p, rfl⟩ := exists_rex hrex.2
      obtain ⟨ps, rest, -, hbytes, hr⟩ := ih p.byte (o + 1) h
      refine ⟨p :: ps, rest, fun hne => absurd hrex.1 hne, congrArg (p.byte :: ·) hbytes, ?_⟩
      rw [hr, lastRexByte_cons, List.length_cons]
      congr 2
      omega
    · cases h
      exact ⟨[], bytes, fun _ => rfl, rfl, rfl⟩

/-! ### Accepted bytes -/

/-- A form after any number of REX prefixes, the last of which applies. -/
structure PrefixedForm where
  prefixes : List Rex
  form : Form
  deriving DecidableEq, Repr

namespace PrefixedForm

/-- The bits of the last prefix, all clear when there is none. -/
def rex (e : PrefixedForm) : Rex := e.prefixes.getLast?.getD Rex.none

def bytes (modeBits : Nat) (e : PrefixedForm) : List Byte :=
  e.prefixes.map Rex.byte ++ e.form.opcode :: e.form.tail modeBits

/-- What the decoder reports. -/
def reported (modeBits : Nat) (e : PrefixedForm) : X86DecodedInst :=
  ⟨e.form.mnemonic, (e.bytes modeBits).length % 256, e.form.opcode, e.form.opcode2,
    e.form.operands modeBits⟩

/-- The prefixes fit the mode and the form. -/
structure Accepted (modeBits : Nat) (e : PrefixedForm) : Prop where
  prefixes : modeBits ≠ 64 → e.prefixes = []
  w : modeBits = 64 → e.form.NeedsW = true → e.rex.w = true
  form : e.form.Valid modeBits e.rex

theorem length_bytes (modeBits : Nat) (e : PrefixedForm) :
    (e.bytes modeBits).length = e.prefixes.length + 1 + (e.form.tail modeBits).length := by
  rw [bytes, List.length_append, List.length_map, List.length_cons]
  omega

theorem rexBits (ps : List Rex) : RexBits (lastRexByte 0#8 ps) (ps.getLast?.getD Rex.none) := by
  unfold lastRexByte
  cases ps.getLast? with
  | none => exact ⟨by decide, by decide, by decide, by decide⟩
  | some p =>
    obtain ⟨hw, hr, hx, hb⟩ := p.byte_bits
    exact ⟨hw, hr, hx, hb⟩

section

variable {modeBits : Nat} {e : PrefixedForm}

theorem decodePrefixes_bytes (he : e.Accepted modeBits) (rest : List Byte) :
    decodePrefixes modeBits 0#8 0 (e.bytes modeBits ++ rest) =
      some (lastRexByte 0#8 e.prefixes, e.form.opcode, e.prefixes.length + 1) := by
  have hop : ¬ (modeBits = 64 ∧ 0x40#8 ≤ e.form.opcode ∧ e.form.opcode ≤ 0x4f#8) :=
    fun h => e.form.opcode_ne_rex h.2
  rw [bytes, List.append_assoc, List.cons_append,
    decodePrefixes_map _ hop _ he.prefixes, Nat.zero_add]

theorem drop_bytes (rest : List Byte) :
    (e.bytes modeBits ++ rest).drop (e.prefixes.length + 1) = e.form.tail modeBits ++ rest := by
  have hlen : e.prefixes.length + 1 = (e.prefixes.map Rex.byte ++ [e.form.opcode]).length := by
    rw [List.length_append, List.length_map, List.length_singleton]
  rw [bytes, List.append_cons (e.prefixes.map Rex.byte), List.append_assoc, hlen, List.drop_left]

/-- An accepted form is decoded to what is reported of it. -/
theorem x86DecodeMode_bytes (he : e.Accepted modeBits) (rest : List Byte) :
    x86DecodeMode (e.bytes modeBits ++ rest) modeBits = .ok (e.reported modeBits) := by
  have hne : (e.bytes modeBits ++ rest).isEmpty = false := by
    cases hb : e.bytes modeBits ++ rest with
    | nil =>
      have := congrArg List.length hb
      rw [List.length_append, length_bytes, List.length_nil] at this
      omega
    | cons _ _ => rfl
  have hd := decodeOpcode_form (rexBits e.prefixes) he.form he.w (drop_bytes (e := e) rest)
  rw [x86DecodeMode, hne, decodePrefixes_bytes he]
  simp only [Bool.false_eq_true, if_false, hd, decodedInst, ← length_bytes]
  rfl

end

end PrefixedForm

/-- **What the decoder accepts**: the bytes of the forms of the subset after any REX prefixes,
in 64-bit mode with REX.W in the last one where the form needs it. -/
theorem x86DecodeMode_ok_iff {modeBits : Nat} {bytes : List Byte} {inst : X86DecodedInst} :
    x86DecodeMode bytes modeBits = .ok inst ↔
      ∃ (e : PrefixedForm) (rest : List Byte), e.Accepted modeBits ∧
        bytes = e.bytes modeBits ++ rest ∧ inst = e.reported modeBits := by
  constructor
  · intro h
    have hdec := h
    unfold x86DecodeMode at hdec
    split at hdec
    · cases hdec
    split at hdec
    · cases hdec
    next rex opcode o hprefixes =>
    obtain ⟨ps, rest, hps, hbytes, hr⟩ := decodePrefixes_some _ _ _ hprefixes
    cases hr
    obtain ⟨f, hf, hvalid, hw, tail, htail⟩ := decodeOpcode_ok (PrefixedForm.rexBits ps)
      (fun hne => by rw [hps hne]; rfl) hdec
    have he : PrefixedForm.Accepted modeBits ⟨ps, f⟩ := ⟨hps, hw, hvalid⟩
    have hdrop : bytes.drop (0 + ps.length + 1) = rest := by
      rw [hbytes, Nat.zero_add, List.append_cons,
        show ps.length + 1 = (ps.map Rex.byte ++ [opcode]).length by
          rw [List.length_append, List.length_map, List.length_singleton], List.drop_left]
    have hall : bytes = PrefixedForm.bytes modeBits ⟨ps, f⟩ ++ tail := by
      rw [hbytes, PrefixedForm.bytes, hf, List.append_assoc, List.cons_append, ← htail, hdrop]
    refine ⟨⟨ps, f⟩, tail, he, hall, ?_⟩
    rw [hall, PrefixedForm.x86DecodeMode_bytes he] at h
    cases h
    rfl
  · rintro ⟨e, rest, he, rfl, rfl⟩
    exact PrefixedForm.x86DecodeMode_bytes he rest

/-! ### What the encoding rules assign -/

/-- The meaning of accepted bytes: an instruction of the subset, or an exchange of two
registers, which is none. -/
inductive X86Assigned
  | inst (mnemonic : X86Mnemonic) (operands : List X86Operand)
  | exchange (sizeBits : Nat) (a b : X86Reg)
  deriving DecidableEq, Repr

/-- What the rules of the 64-bit mode assign to a form under its last prefix.  Opcode `90` is
`xchg` of the register that REX.B extends, here `r8`, with `rax`, and `nop` only without it. -/
def PrefixedForm.assigned (e : PrefixedForm) : X86Assigned :=
  if e.form = .nop ∧ e.rex.b = true then .exchange (if e.rex.w then 64 else 32) x86R8 0
  else .inst e.form.mnemonic (e.form.operands 64)

/-- The rules assign `a` to the instruction at the head of the bytes. -/
def X86Assigns (bytes : List Byte) (a : X86Assigned) : Prop :=
  ∃ (e : PrefixedForm) (rest : List Byte), e.Accepted 64 ∧ bytes = e.bytes 64 ++ rest ∧
    a = e.assigned

/-- Opcode `90` under a last prefix with REX.B. -/
def ExchangeBytes (bytes : List Byte) : Prop :=
  ∃ (ps : List Rex) (p : Rex) (rest : List Byte), p.b = true ∧
    bytes = (ps ++ [p]).map Rex.byte ++ 0x90#8 :: rest

theorem Form.eq_nop_iff (f : Form) : f = .nop ↔ f.opcode = 0x90#8 := by
  have hreg : ∀ r : Fin 8, BitVec.ofNat 8 (0xb8 + r) ≠ 0x90#8 ∧ BitVec.ofNat 8 (0x50 + r) ≠ 0x90#8 ∧
      BitVec.ofNat 8 (0x58 + r) ≠ 0x90#8 := by
    decide
  constructor
  · rintro rfl
    rfl
  · intro h
    cases f with
    | nop => rfl
    | movImm dst _ => exact absurd h (hreg (lowBits dst)).1
    | push r => exact absurd h (hreg (lowBits r)).2.1
    | pop r => exact absurd h (hreg (lowBits r)).2.2
    | alu op regDest _ _ => cases op <;> cases regDest <;> cases h
    | aluImm _ _ imm => cases imm <;> cases h
    | branch op rel => cases op <;> cases rel <;> cases h
    | _ => cases h

theorem RexBits.unique {rex : Byte} {p q : Rex} (hp : RexBits rex p) (hq : RexBits rex q) :
    p = q := by
  have bit : ∀ {a b : Bool}, (a = false ↔ b = false) → a = b := by decide
  obtain ⟨w, r, x, b⟩ := p
  obtain ⟨w', r', x', b'⟩ := q
  obtain rfl : w = w' := bit (hp.w.symm.trans hq.w)
  obtain rfl : r = r' := bit (hp.r.symm.trans hq.r)
  obtain rfl : x = x' := bit (hp.x.symm.trans hq.x)
  obtain rfl : b = b' := bit (hp.b.symm.trans hq.b)
  rfl

/-- **The rules are unambiguous.** -/
theorem X86Assigns.unique {bytes : List Byte} {a b : X86Assigned} (ha : X86Assigns bytes a)
    (hb : X86Assigns bytes b) : a = b := by
  obtain ⟨e, rest, he, hbytes, rfl⟩ := ha
  obtain ⟨f, rest', hf, hbytes', rfl⟩ := hb
  have hbefore := PrefixedForm.decodePrefixes_bytes he rest
  have hinst := PrefixedForm.x86DecodeMode_bytes he rest
  rw [← hbytes, hbytes', PrefixedForm.decodePrefixes_bytes hf] at hbefore
  rw [← hbytes, hbytes', PrefixedForm.x86DecodeMode_bytes hf] at hinst
  simp only [Option.some.injEq, Prod.mk.injEq] at hbefore
  have hrex : f.rex = e.rex :=
    RexBits.unique (PrefixedForm.rexBits f.prefixes) (hbefore.1 ▸ PrefixedForm.rexBits e.prefixes)
  have hnop : f.form = .nop ↔ e.form = .nop := by
    rw [Form.eq_nop_iff, Form.eq_nop_iff, hbefore.2.1]
  have hrep : f.reported 64 = e.reported 64 := Except.ok.inj hinst
  have hmn : f.form.mnemonic = e.form.mnemonic := congrArg X86DecodedInst.mnemonic hrep
  have hops : f.form.operands 64 = e.form.operands 64 := congrArg X86DecodedInst.operands hrep
  simp only [PrefixedForm.assigned, hrex, hnop, hmn, hops]

/-- Bytes of an exchange have that meaning. -/
theorem ExchangeBytes.assigns {bytes : List Byte} (h : ExchangeBytes bytes) :
    ∃ n, X86Assigns bytes (.exchange n x86R8 0) := by
  obtain ⟨ps, p, rest, hb, rfl⟩ := h
  have hrex : PrefixedForm.rex ⟨ps ++ [p], .nop⟩ = p := by
    simp [PrefixedForm.rex]
  refine ⟨_, ⟨ps ++ [p], .nop⟩, rest, ⟨fun h => absurd rfl h, ?_, trivial⟩, ?_,
    (if_pos ⟨rfl, by rw [hrex]; exact hb⟩).symm⟩
  · exact fun _ h => Bool.noConfusion h
  · rw [PrefixedForm.bytes, List.append_assoc]
    rfl

/-- **The reported meaning is the assigned one** exactly for the accepted bytes that are no
exchange of `r8` and `rax`. -/
theorem x86Decode64_assigned_iff {bytes : List Byte} {inst : X86DecodedInst}
    (h : x86Decode64 bytes = .ok inst) :
    X86Assigns bytes (.inst inst.mnemonic inst.operands) ↔ ¬ ExchangeBytes bytes := by
  constructor
  · intro ha hx
    obtain ⟨n, hn⟩ := hx.assigns
    cases ha.unique hn
  · intro hx
    obtain ⟨e, rest, he, rfl, rfl⟩ := x86DecodeMode_ok_iff.mp h
    refine ⟨e, rest, he, rfl, ?_⟩
    have hne : ¬ (e.form = .nop ∧ e.rex.b = true) := by
      rintro ⟨hnop, hb⟩
      apply hx
      rcases List.eq_nil_or_concat e.prefixes with hnil | ⟨ps, p, hps⟩
      · rw [PrefixedForm.rex, hnil] at hb
        cases hb
      · rw [List.concat_eq_append] at hps
        have hrex : e.rex = p := by simp [PrefixedForm.rex, hps]
        refine ⟨ps, p, rest, hrex ▸ hb, ?_⟩
        rw [PrefixedForm.bytes, hps, hnop, List.append_assoc]
        rfl
    rw [PrefixedForm.assigned, if_neg hne]
    rfl

/-- `mov r8, [rbx + 8]`, with a REX prefix, a ModRM byte and a displacement. -/
theorem x86Decode64_assigned_iff_mov :
    X86Assigns [0x4c#8, 0x8b#8, 0x43#8, 0x08#8] (.inst .mov [.register 64 8,
      .memory 64 ⟨.baseIndex, 3, 16, 1, true, false, 8#64⟩]) := by
  have h : x86Decode64 [0x4c#8, 0x8b#8, 0x43#8, 0x08#8] = .ok ⟨.mov, 4, 0x8b#8, 0#8,
      [.register 64 8, .memory 64 ⟨.baseIndex, 3, 16, 1, true, false, 8#64⟩]⟩ := by decide
  refine (x86Decode64_assigned_iff h).mpr ?_
  rintro ⟨ps, p, rest, -, hbytes⟩
  -- no byte is the opcode of an exchange
  have hmem : 0x90#8 ∈ [0x4c#8, 0x8b#8, 0x43#8, 0x08#8] := by
    rw [hbytes]
    simp
  revert hmem
  decide

/-- `49 90` is reported as `nop`. -/
theorem x86Decode64_exchange :
    ¬ ∀ (bytes : List Byte) (inst : X86DecodedInst), x86Decode64 bytes = .ok inst →
      X86Assigns bytes (.inst inst.mnemonic inst.operands) := by
  intro h
  have ha := h [0x49#8, 0x90#8] ⟨.nop, 2, 0x90#8, 0#8, []⟩ (by decide)
  have hx : ExchangeBytes [0x49#8, 0x90#8] := ⟨[], ⟨true, false, false, true⟩, [], rfl, rfl⟩
  obtain ⟨n, hn⟩ := hx.assigns
  cases ha.unique hn

end Xair
