import Xair.X86Accepts

/-!
# Locality of the decoder

How far the decoder reads (`x86DecodeOffset`), and that it depends on the bytes before
that offset only: more bytes change nothing, and fewer are noticed
(`x86DecodeMode_local`).  Each reading function is followed with and without a suffix;
what does not run out of bytes is the same.
-/

namespace Xair

open LittleEndian

/-! ### The offset of the decoder -/

/-- The offset behind a ModRM byte and what belongs to its operand. -/
def modrmOffset (bytes : List Byte) (rex : Byte) (modeBits offset : Nat) : Nat :=
  match decodeReadU8 bytes offset with
  | none => offset
  | some modrm =>
    let (mod, _, rmField) := decodeModrm modrm
    match decodeRmOperand bytes mod rmField rex modeBits modeBits (offset + 1) with
    | .error _ => offset + 1
    | .ok (_, offset) => offset

/-- The offset behind the instruction with the given opcode, which ends before `offset`. -/
def opcodeOffset (bytes : List Byte) (opcode rex : Byte) (modeBits offset : Nat) : Nat :=
  if 0xb8#8 ≤ opcode ∧ opcode ≤ 0xbf#8 then if modeBits = 64 then offset + 8 else offset + 4
  else
    match opcode with
    | 0x8b#8 | 0x89#8 | 0x8d#8
    | 0x01#8 | 0x03#8 | 0x09#8 | 0x0b#8 | 0x21#8 | 0x23#8 | 0x29#8 | 0x2b#8
    | 0x31#8 | 0x33#8 | 0x39#8 | 0x3b#8 | 0x85#8 => modrmOffset bytes rex modeBits offset
    | 0x81#8 => modrmOffset bytes rex modeBits offset + 4
    | 0x83#8 => modrmOffset bytes rex modeBits offset + 1
    | 0xeb#8 | 0x74#8 | 0x75#8 => offset + 1
    | 0xe9#8 => offset + 4
    | 0x0f#8 => offset + 1 + 4
    | _ => offset

/-- The local `offset` of `xair_x86_decode_mode` where it returns `XAIR_OK`, before it is
narrowed to the 8 bits of `length`. -/
def x86DecodeOffset (bytes : List Byte) (modeBits : Nat) : Nat :=
  match decodePrefixes modeBits 0#8 0 bytes with
  | none => 0
  | some (rex, opcode, offset) => opcodeOffset bytes opcode rex modeBits offset

theorem opcodeOffset_pushPop (bytes : List Byte) (rex : Byte) (modeBits o : Nat) : ∀ r : Fin 8,
    opcodeOffset bytes (BitVec.ofNat 8 (0x50 + r)) rex modeBits o = o ∧
      opcodeOffset bytes (BitVec.ofNat 8 (0x58 + r)) rex modeBits o = o
  | 0 | 1 | 2 | 3 | 4 | 5 | 6 | 7 => ⟨rfl, rfl⟩

section

variable {bytes rest : List Byte} {o modeBits : Nat} {rex : Byte} {p : Rex} (hrex : RexBits rex p)
include hrex

theorem modrmOffset_drop {m : RmForm} {reg : Nat} (hm : m.Valid modeBits p)
    (h : bytes.drop o = modrmByte m.mod reg m.rm :: (m.bytes ++ rest)) :
    modrmOffset bytes rex modeBits o = o + (m.bytes.length + 1) := by
  rw [modrmOffset, decodeReadU8_drop h]
  simp only [decodeModrm_modrmByte m.mod_lt, decodeRmOperand_drop hrex hm (drop_succ h)]
  omega

theorem modrmOffset_reg {reg rm : Nat} (hm : RegBit modeBits p.b rm)
    (h : bytes.drop o = modrmByte 3 reg rm :: rest) :
    modrmOffset bytes rex modeBits o = o + 1 :=
  modrmOffset_drop hrex (m := .reg rm) hm h

/-- The offset moves over the bytes of the form. -/
theorem opcodeOffset_form {f : Form} (hf : f.Valid modeBits p)
    (h : bytes.drop o = f.tail modeBits ++ rest) :
    opcodeOffset bytes f.opcode rex modeBits o = o + (f.tail modeBits).length := by
  cases f with
  | movImm dst imm =>
    have hrange := (regOpcode_fin (lowBits dst)).1
    unfold opcodeOffset
    rw [if_pos ⟨hrange.1, hrange.2.1⟩, Form.tail]
    split <;> simp
  | movLoad dst src => exact modrmOffset_drop hrex hf.2 h
  | movStore dst src => exact modrmOffset_drop hrex hf.2 h
  | lea dst src => exact modrmOffset_drop hrex (m := .mem src) hf.2 h
  | alu op regDest reg rm =>
    have hd := modrmOffset_reg hrex hf.2 h
    cases op <;> cases regDest <;> exact hd
  | test rm reg => exact modrmOffset_reg hrex hf.2 h
  | aluImm op rm imm =>
    cases imm with
    | imm8 d => exact congrArg (· + 1) (modrmOffset_reg hrex hf h)
    | imm32 d => exact congrArg (· + 4) (modrmOffset_reg hrex hf h)
  | push r => exact (opcodeOffset_pushPop bytes rex modeBits o (lowBits r)).1
  | pop r => exact (opcodeOffset_pushPop bytes rex modeBits o (lowBits r)).2
  | branch op rel => cases op <;> cases rel <;> rfl
  | nop => rfl
  | ret => rfl

end

/-- **The offset is the number of bytes** of the accepted form. -/
theorem x86DecodeOffset_bytes {modeBits : Nat} {e : PrefixedForm} (he : e.Accepted modeBits)
    (rest : List Byte) :
    x86DecodeOffset (e.bytes modeBits ++ rest) modeBits = (e.bytes modeBits).length := by
  rw [x86DecodeOffset, PrefixedForm.decodePrefixes_bytes he]
  show opcodeOffset _ _ _ _ _ = _
  rw [opcodeOffset_form (PrefixedForm.rexBits e.prefixes) he.form
    (PrefixedForm.drop_bytes (e := e) rest), PrefixedForm.length_bytes]

/-- The length is the offset, narrowed. -/
theorem x86DecodeMode_length {modeBits : Nat} {bytes : List Byte} {inst : X86DecodedInst}
    (h : x86DecodeMode bytes modeBits = .ok inst) :
    inst.length = x86DecodeOffset bytes modeBits % 256 := by
  obtain ⟨e, rest, he, rfl, rfl⟩ := x86DecodeMode_ok_iff.mp h
  rw [x86DecodeOffset_bytes he]
  rfl

theorem x86DecodeOffset_le {modeBits : Nat} {bytes : List Byte} {inst : X86DecodedInst}
    (h : x86DecodeMode bytes modeBits = .ok inst) :
    1 ≤ x86DecodeOffset bytes modeBits ∧ x86DecodeOffset bytes modeBits ≤ bytes.length := by
  obtain ⟨e, rest, he, rfl, rfl⟩ := x86DecodeMode_ok_iff.mp h
  rw [x86DecodeOffset_bytes he, List.length_append, PrefixedForm.length_bytes]
  omega

/-! ### Locality -/

/-- `y` is `x`, unless `x` ran out of bytes. -/
def Settled {α : Type} (x y : Except X86DecodeError α) : Prop := x ≠ .error .range → y = x

section Locality

variable {α : Type}

theorem settled_refl (x : Except X86DecodeError α) : Settled x x := fun _ => rfl

theorem settled_range (y : Except X86DecodeError α) : Settled (.error .range) y :=
  fun h => absurd rfl h

theorem Settled.of_ok {x y : Except X86DecodeError α} (h : Settled x y) {a : α} (hx : x = .ok a) :
    y = .ok a := by
  rw [← hx]
  apply h
  rw [hx]
  simp

variable (bytes s : List Byte)

theorem decodeReadU8_append {o : Nat} {b : Byte} (h : decodeReadU8 bytes o = some b) :
    decodeReadU8 (bytes ++ s) o = some b := by
  obtain ⟨hlt, rfl⟩ := List.getElem?_eq_some_iff.mp h
  rw [decodeReadU8, List.getElem?_append_left hlt, List.getElem?_eq_getElem hlt]

theorem decodeReadLe32_append {o : Nat} {d : BitVec 32} (h : decodeReadLe32 bytes o = some d) :
    decodeReadLe32 (bytes ++ s) o = some d := by
  have hlen : o ≤ bytes.length := by
    unfold decodeReadLe32 at h
    split at h
    · cases h
    · omega
  have hdrop : (bytes ++ s).drop o = bytes32 d ++ (bytes.drop (o + 4) ++ s) := by
    rw [List.drop_append_of_le_length hlen, decodeReadLe32_some h, List.append_assoc]
  exact decodeReadLe32_drop hdrop

theorem decodeReadLe64_append {o : Nat} {d : BitVec 64} (h : decodeReadLe64 bytes o = some d) :
    decodeReadLe64 (bytes ++ s) o = some d := by
  unfold decodeReadLe64 at h ⊢
  split at h
  · cases h
  next lo hlo =>
  split at h
  · cases h
  next hi hhi =>
  rw [decodeReadLe32_append bytes s hlo, decodeReadLe32_append bytes s hhi]
  exact h

theorem decodeDisplacement_settled (mod : Byte) (o : Nat) :
    Settled (decodeDisplacement bytes mod o) (decodeDisplacement (bytes ++ s) mod o) := by
  unfold decodeDisplacement
  split
  · cases h : decodeReadU8 bytes o with
    | none => exact settled_range _
    | some d =>
      rw [decodeReadU8_append bytes s h]
      exact settled_refl _
  split
  · cases h : decodeReadLe32 bytes o with
    | none => exact settled_range _
    | some d =>
      rw [decodeReadLe32_append bytes s h]
      exact settled_refl _
  · exact settled_refl _

theorem decodeSib_settled (mod rex : Byte) (modeBits operandBits o : Nat) :
    Settled (decodeSib bytes mod rex modeBits operandBits o)
      (decodeSib (bytes ++ s) mod rex modeBits operandBits o) := by
  unfold decodeSib
  cases h : decodeReadU8 bytes o with
  | none => exact settled_range _
  | some sib =>
    rw [decodeReadU8_append bytes s h]
    dsimp only
    split
    · cases h32 : decodeReadLe32 bytes (o + 1) with
      | none => exact settled_range _
      | some d =>
        rw [decodeReadLe32_append bytes s h32]
        exact settled_refl _
    · cases hx : decodeDisplacement bytes mod (o + 1) with
      | error e => exact settled_range _
      | ok r =>
        rw [(decodeDisplacement_settled bytes s mod (o + 1)).of_ok hx]
        exact settled_refl _

theorem decodeMemoryOperand_settled (mod rm rex : Byte) (modeBits operandBits o : Nat) :
    Settled (decodeMemoryOperand bytes mod rm rex modeBits operandBits o)
      (decodeMemoryOperand (bytes ++ s) mod rm rex modeBits operandBits o) := by
  unfold decodeMemoryOperand
  split
  · exact settled_refl _
  split
  · exact decodeSib_settled bytes s mod rex modeBits operandBits o
  split
  · cases h32 : decodeReadLe32 bytes o with
    | none => exact settled_range _
    | some d =>
      rw [decodeReadLe32_append bytes s h32]
      exact settled_refl _
  · cases hx : decodeDisplacement bytes mod o with
    | error e => exact settled_range _
    | ok r =>
      rw [(decodeDisplacement_settled bytes s mod o).of_ok hx]
      exact settled_refl _

theorem decodeRmOperand_settled (mod rm rex : Byte) (modeBits operandBits o : Nat) :
    Settled (decodeRmOperand bytes mod rm rex modeBits operandBits o)
      (decodeRmOperand (bytes ++ s) mod rm rex modeBits operandBits o) := by
  unfold decodeRmOperand
  split
  · exact settled_refl _
  · exact decodeMemoryOperand_settled bytes s mod rm rex modeBits operandBits o

theorem decodeModrmMoveOrLea_settled (opcode rex : Byte) (modeBits o : Nat) :
    Settled (decodeModrmMoveOrLea bytes opcode rex modeBits o)
      (decodeModrmMoveOrLea (bytes ++ s) opcode rex modeBits o) := by
  unfold decodeModrmMoveOrLea
  split
  · exact settled_refl _
  cases h : decodeReadU8 bytes o with
  | none => exact settled_range _
  | some modrm =>
    rw [decodeReadU8_append bytes s h]
    dsimp only
    split
    · split
      · exact settled_refl _
      · cases hx : decodeMemoryOperand bytes (decodeModrm modrm).1 (decodeModrm modrm).2.2 rex
            modeBits modeBits (o + 1) with
        | error e => exact settled_range _
        | ok r =>
          rw [(decodeMemoryOperand_settled bytes s _ _ rex modeBits modeBits (o + 1)).of_ok hx]
          exact settled_refl _
    · cases hx : decodeRmOperand bytes (decodeModrm modrm).1 (decodeModrm modrm).2.2 rex
          modeBits modeBits (o + 1) with
      | error e => exact settled_range _
      | ok r =>
        rw [(decodeRmOperand_settled bytes s _ _ rex modeBits modeBits (o + 1)).of_ok hx]
        exact settled_refl _

theorem decodeModrmBinary_settled (opcode rex : Byte) (modeBits o : Nat) :
    Settled (decodeModrmBinary bytes opcode rex modeBits o)
      (decodeModrmBinary (bytes ++ s) opcode rex modeBits o) := by
  unfold decodeModrmBinary
  split
  · exact settled_refl _
  cases h : decodeReadU8 bytes o with
  | none => exact settled_range _
  | some modrm =>
    rw [decodeReadU8_append bytes s h]
    dsimp only
    cases hx : decodeRmOperand bytes (decodeModrm modrm).1 (decodeModrm modrm).2.2 rex
        modeBits modeBits (o + 1) with
    | error e => exact settled_range _
    | ok r =>
      rw [(decodeRmOperand_settled bytes s _ _ rex modeBits modeBits (o + 1)).of_ok hx]
      exact settled_refl _

theorem decodeGroup1ImmValue_settled (opcode : Byte) (o : Nat) :
    Settled (decodeGroup1ImmValue bytes opcode o) (decodeGroup1ImmValue (bytes ++ s) opcode o) := by
  unfold decodeGroup1ImmValue
  split
  · cases h : decodeReadU8 bytes o with
    | none => exact settled_range _
    | some d =>
      rw [decodeReadU8_append bytes s h]
      exact settled_refl _
  · cases h : decodeReadLe32 bytes o with
    | none => exact settled_range _
    | some d =>
      rw [decodeReadLe32_append bytes s h]
      exact settled_refl _

theorem decodeGroup1Imm_settled (opcode rex : Byte) (modeBits o : Nat) :
    Settled (decodeGroup1Imm bytes opcode rex modeBits o)
      (decodeGroup1Imm (bytes ++ s) opcode rex modeBits o) := by
  unfold decodeGroup1Imm
  split
  · exact settled_refl _
  cases h : decodeReadU8 bytes o with
  | none => exact settled_range _
  | some modrm =>
    rw [decodeReadU8_append bytes s h]
    dsimp only
    cases hx : decodeRmOperand bytes (decodeModrm modrm).1 (decodeModrm modrm).2.2 rex
        modeBits modeBits (o + 1) with
    | error e => exact settled_range _
    | ok r =>
      rw [(decodeRmOperand_settled bytes s _ _ rex modeBits modeBits (o + 1)).of_ok hx]
      split
      · exact settled_range _
      · next bits rm offset hr =>
        -- an immediate that is not cut off is the same with more bytes behind it
        have himm := decodeGroup1ImmValue_settled bytes s opcode offset
        cases hi : decodeGroup1ImmValue bytes opcode offset with
        | error e =>
          by_cases he : e = .range
          · rw [he]
            exact settled_range _
          · rw [himm (by rw [hi]; simpa using he), hi]
            exact settled_refl _
        | ok imm =>
          rw [himm.of_ok hi]
          exact settled_refl _
      · exact settled_refl _

theorem decodeMovImm_settled (opcode rex : Byte) (modeBits o : Nat) :
    Settled (decodeMovImm bytes opcode rex modeBits o)
      (decodeMovImm (bytes ++ s) opcode rex modeBits o) := by
  unfold decodeMovImm
  split
  · exact settled_refl _
  dsimp only
  split
  · cases h : decodeReadLe64 bytes o with
    | none => exact settled_range _
    | some d =>
      rw [decodeReadLe64_append bytes s h]
      exact settled_refl _
  · cases h : decodeReadLe32 bytes o with
    | none => exact settled_range _
    | some d =>
      rw [decodeReadLe32_append bytes s h]
      exact settled_refl _

theorem decodeRel8_settled (mn : X86Mnemonic) (opcode opcode2 : Byte) (o : Nat) :
    Settled (decodeRel8 bytes mn opcode opcode2 o)
      (decodeRel8 (bytes ++ s) mn opcode opcode2 o) := by
  unfold decodeRel8
  cases h : decodeReadU8 bytes o with
  | none => exact settled_range _
  | some d =>
    rw [decodeReadU8_append bytes s h]
    exact settled_refl _

theorem decodeRel32_settled (mn : X86Mnemonic) (opcode opcode2 : Byte) (o : Nat) :
    Settled (decodeRel32 bytes mn opcode opcode2 o)
      (decodeRel32 (bytes ++ s) mn opcode opcode2 o) := by
  unfold decodeRel32
  cases h : decodeReadLe32 bytes o with
  | none => exact settled_range _
  | some d =>
    rw [decodeReadLe32_append bytes s h]
    exact settled_refl _

theorem decodeOpcode_settled (opcode rex : Byte) (modeBits o : Nat) :
    Settled (decodeOpcode bytes opcode rex modeBits o)
      (decodeOpcode (bytes ++ s) opcode rex modeBits o) := by
  unfold decodeOpcode
  split
  · exact decodeMovImm_settled bytes s _ rex modeBits o
  split
  · exact settled_refl _
  split
  · exact settled_refl _
  iterate 3 exact decodeModrmMoveOrLea_settled bytes s _ rex modeBits o
  iterate 13 exact decodeModrmBinary_settled bytes s _ rex modeBits o
  iterate 2 exact decodeGroup1Imm_settled bytes s _ rex modeBits o
  · exact decodeRel8_settled bytes s _ _ _ o
  · exact decodeRel32_settled bytes s _ _ _ o
  · exact decodeRel8_settled bytes s _ _ _ o
  · exact decodeRel8_settled bytes s _ _ _ o
  · cases h : decodeReadU8 bytes o with
    | none => exact settled_range _
    | some opcode2 =>
      rw [decodeReadU8_append bytes s h]
      dsimp only
      split
      · exact decodeRel32_settled bytes s _ _ _ (o + 1)
      · exact settled_refl _
  · exact settled_refl _
  · exact settled_refl _

omit bytes in
theorem decodePrefixes_append {modeBits : Nat} {r : Byte × Byte × Nat} (bytes : List Byte)
    (rex : Byte)
    (o : Nat) (h : decodePrefixes modeBits rex o bytes = some r) :
    decodePrefixes modeBits rex o (bytes ++ s) = some r := by
  induction bytes generalizing rex o with
  | nil => cases h
  | cons b bytes ih =>
    rw [decodePrefixes] at h
    rw [List.cons_append, decodePrefixes]
    split at h
    · next hrex =>
      rw [if_pos hrex]
      exact ih b (o + 1) h
    · next hrex =>
      rw [if_neg hrex]
      exact h

/-- **More bytes change nothing**, once decoding did not run out of them. -/
theorem x86DecodeMode_settled (modeBits : Nat) (hne : bytes ≠ []) :
    Settled (x86DecodeMode bytes modeBits) (x86DecodeMode (bytes ++ s) modeBits) := by
  have hne1 : bytes.isEmpty = false := by simpa using hne
  have hne2 : (bytes ++ s).isEmpty = false := by simp [hne]
  rw [x86DecodeMode, x86DecodeMode, hne1, hne2]
  simp only [Bool.false_eq_true, if_false]
  cases h : decodePrefixes modeBits 0#8 0 bytes with
  | none => exact settled_range _
  | some r =>
    rw [decodePrefixes_append s bytes 0#8 0 h]
    exact decodeOpcode_settled bytes s _ _ modeBits _

end Locality

/-- The offset depends on the bytes before it only. -/
theorem x86DecodeOffset_append {modeBits : Nat} {bytes : List Byte} {inst : X86DecodedInst}
    (h : x86DecodeMode bytes modeBits = .ok inst) (s : List Byte) :
    x86DecodeOffset (bytes ++ s) modeBits = x86DecodeOffset bytes modeBits := by
  obtain ⟨e, rest, he, rfl, rfl⟩ := x86DecodeMode_ok_iff.mp h
  rw [List.append_assoc, x86DecodeOffset_bytes he, x86DecodeOffset_bytes he]

/-- Bytes that are cut off before the offset are noticed. -/
theorem x86DecodeMode_take {modeBits : Nat} {bytes : List Byte} {inst : X86DecodedInst}
    (h : x86DecodeMode bytes modeBits = .ok inst) {k : Nat} (hk : 0 < k)
    (hlt : k < x86DecodeOffset bytes modeBits) :
    x86DecodeMode (bytes.take k) modeBits = .error .range := by
  by_contra hne
  have hle := (x86DecodeOffset_le h).2
  have hlen : (bytes.take k).length = k := List.length_take_of_le (by omega)
  have hnil : bytes.take k ≠ [] := by
    intro hnil
    rw [hnil, List.length_nil] at hlen
    omega
  have hwhole := x86DecodeMode_settled _ (bytes.drop k) modeBits hnil hne
  rw [List.take_append_drop, h] at hwhole
  -- the prefix is accepted with the same offset, which it does not reach
  have hoff := x86DecodeOffset_append hwhole.symm (bytes.drop k)
  have hle' := (x86DecodeOffset_le hwhole.symm).2
  rw [List.take_append_drop] at hoff
  omega

/-- **Decoding is local, and truncation is noticed.** -/
theorem x86DecodeMode_local (modeBits : Nat) (b : List Byte) :
    (∀ s inst, x86DecodeMode b modeBits = .ok inst →
      x86DecodeMode (b ++ s) modeBits = .ok inst ∧
        x86DecodeOffset (b ++ s) modeBits = x86DecodeOffset b modeBits) ∧
    (∀ s op op2, x86DecodeMode b modeBits = .error (.unsupported op op2) →
      x86DecodeMode (b ++ s) modeBits = .error (.unsupported op op2)) ∧
    ∀ inst k, x86DecodeMode b modeBits = .ok inst → 0 < k → k < x86DecodeOffset b modeBits →
      x86DecodeMode (b.take k) modeBits = .error .range := by
  have hne : ∀ {r}, x86DecodeMode b modeBits = r → r ≠ .error .badArg → b ≠ [] := by
    rintro r hr hbad rfl
    exact hbad hr.symm
  refine ⟨fun s inst h => ⟨?_, x86DecodeOffset_append h s⟩, fun s op op2 h => ?_,
    fun inst k h => x86DecodeMode_take h⟩
  · exact (x86DecodeMode_settled b s modeBits (hne h (by simp))).of_ok h
  · rw [x86DecodeMode_settled b s modeBits (hne h (by simp)) (by rw [h]; simp), h]

end Xair
