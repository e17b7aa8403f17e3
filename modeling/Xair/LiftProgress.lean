import Xair.LiftRecord
import Xair.X86Local

/-!
# The bytes of a lift

The decoder reports the length of an instruction in 8 bits and takes any number of
prefixes, so that the reported length is the one that was read when the encoding is no
longer than an x86 instruction can be.  Then a lift makes progress: its instructions
tile the addresses that it has read (`x86Lift_tiles`).
-/

namespace Xair

open LittleEndian

/-! ### The length of one instruction -/

/-- The reported length is what has been read, at least one byte and at most fifteen. -/
structure LengthRight (bytes : List Byte) (modeBits : Nat) (inst : X86DecodedInst) : Prop where
  pos : 1 ≤ inst.length
  size : inst.length ≤ min bytes.length 15
  read : inst.length = x86DecodeOffset bytes modeBits

/-- The bytes begin with an encoding of at most fifteen bytes, its prefixes included. -/
def ShortEncoding (modeBits : Nat) (bytes : List Byte) : Prop :=
  ∃ (e : PrefixedForm) (rest : List Byte), e.Accepted modeBits ∧
    bytes = e.bytes modeBits ++ rest ∧ (e.bytes modeBits).length ≤ 15

theorem lengthRight_iff {modeBits : Nat} {bytes : List Byte} {inst : X86DecodedInst}
    (h : x86DecodeMode bytes modeBits = .ok inst) :
    LengthRight bytes modeBits inst ↔ ShortEncoding modeBits bytes := by
  have hlen := x86DecodeMode_length h
  obtain ⟨hpos, hle⟩ := x86DecodeOffset_le h
  constructor
  · intro hr
    obtain ⟨e, rest, he, rfl, rfl⟩ := x86DecodeMode_ok_iff.mp h
    refine ⟨e, rest, he, rfl, ?_⟩
    have hsize := hr.size
    rw [hr.read, x86DecodeOffset_bytes he] at hsize
    omega
  · rintro ⟨e, rest, he, rfl, hshort⟩
    rw [x86DecodeOffset_bytes he] at hlen hpos hle
    have hread : (e.bytes modeBits).length % 256 = (e.bytes modeBits).length := by omega
    rw [hread] at hlen
    refine ⟨?_, ?_, ?_⟩
    · omega
    · omega
    · rw [x86DecodeOffset_bytes he, hlen]

theorem MemForm.length_bytes_le (m : MemForm) : m.bytes.length ≤ 5 := by
  have hd : ∀ d : Disp, d.bytes.length ≤ 4 := fun d => by cases d <;> simp [Disp.bytes]
  cases m with
  | base _ d => exact (hd d).trans (by omega)
  | sib _ _ _ d => exact Nat.succ_le_succ (hd d)
  | sibNoBase => exact Nat.le_refl _
  | bare => exact Nat.le_succ _

theorem RmForm.length_bytes_le (m : RmForm) : m.bytes.length ≤ 5 := by
  cases m with
  | reg => exact Nat.zero_le _
  | mem m => exact m.length_bytes_le

theorem Form.length_tail_le (f : Form) (modeBits : Nat) : (f.tail modeBits).length ≤ 8 := by
  cases f with
  | movImm _ imm =>
    show (if modeBits = 64 then bytes64 imm else bytes32 (low32 imm)).length ≤ 8
    split
    · exact Nat.le_refl _
    · exact Nat.le_succ_of_le (Nat.le_add_right 4 3)
  | movLoad _ src => exact Nat.succ_le_succ (src.length_bytes_le.trans (by omega))
  | movStore dst _ => exact Nat.succ_le_succ (dst.length_bytes_le.trans (by omega))
  | lea _ src => exact Nat.succ_le_succ (src.length_bytes_le.trans (by omega))
  | aluImm _ _ imm => cases imm <;> simp [Form.tail]
  | branch op rel => cases op <;> cases rel <;> simp [Form.tail]
  | _ => simp [Form.tail]

/-- Six prefixes are not too many for any form. -/
theorem shortEncoding_of_prefixes {modeBits : Nat} {e : PrefixedForm} (he : e.Accepted modeBits)
    (hp : e.prefixes.length ≤ 6) (rest : List Byte) :
    ShortEncoding modeBits (e.bytes modeBits ++ rest) := by
  refine ⟨e, rest, he, rfl, ?_⟩
  have htail := e.form.length_tail_le modeBits
  rw [PrefixedForm.length_bytes]
  omega

/-- Without prefixes every reported length is right. -/
theorem lengthRight_of_noPrefix {modeBits : Nat} (hm : modeBits ≠ 64) {bytes : List Byte}
    {inst : X86DecodedInst} (h : x86DecodeMode bytes modeBits = .ok inst) :
    LengthRight bytes modeBits inst := by
  obtain ⟨e, rest, he, hbytes, -⟩ := x86DecodeMode_ok_iff.mp h
  refine (lengthRight_iff h).mpr ?_
  rw [hbytes]
  refine shortEncoding_of_prefixes he ?_ rest
  rw [he.prefixes hm]
  exact Nat.zero_le _

/-! ### Tiling -/

/-- The size of the instruction at an address: the number of bytes that the decoder reads. -/
def sizeAt (image : Image) (arch : Arch) (pc : Word) : Nat :=
  match imageOffset image pc with
  | none => 0
  | some offset => x86DecodeOffset (image.bytes.drop offset) arch.bits

/-- The instructions tile the addresses from `pc` up to `stop`: each is reported as long as
it is, and ends where the next one starts. -/
def Tiles (image : Image) (arch : Arch) : Word → List (X86DecodedInst × Word) → Word → Prop
  | pc, [], stop => pc = stop
  | pc, (inst, next) :: insts, stop =>
    (1 ≤ inst.length ∧ inst.length ≤ 15 ∧ inst.length = sizeAt image arch pc ∧
      next.toNat = pc.toNat + inst.length) ∧ Tiles image arch next insts stop

/-- Each of the instructions that are met from `pc` on, at most `n`, has an encoding of at
most fifteen bytes and ends below `2 ^ 64`; `zf` tells whether the flag has been set, without
which a conditional branch is not lifted. -/
def ShortFrom (image : Image) (modeBits : Nat) : Nat → Bool → Word → Prop
  | 0, _, _ => True
  | n + 1, zf, pc => ∀ (offset : Nat) (e : PrefixedForm) (rest : List Byte),
    imageOffset image pc = some offset → e.Accepted modeBits →
    image.bytes.drop offset = e.bytes modeBits ++ rest →
    ((e.form.mnemonic = .jz ∨ e.form.mnemonic = .jnz) ∧ zf = false) ∨
      ((e.bytes modeBits).length ≤ 15 ∧ pc.toNat + (e.bytes modeBits).length < 2 ^ 64 ∧
        (e.form.mnemonic.endsBlock = true ∨ ShortFrom image modeBits n
          (zf || e.form.mnemonic.isAlu) (pc + BitVec.ofNat 64 (e.bytes modeBits).length)))

section Tiling

variable {image : Image} {arch : Arch} {pc : Word} {inst : X86DecodedInst}

theorem x86Decode_eq (arch : Arch) (bytes : List Byte) :
    x86Decode arch bytes = x86DecodeMode bytes arch.bits := by
  cases arch <;> rfl

/-- The encoding at an address decides the instruction and its size. -/
theorem DecodedAt.encoding (h : DecodedAt image arch pc inst) {offset : Nat} {e : PrefixedForm}
    {rest : List Byte} (ho : imageOffset image pc = some offset) (he : e.Accepted arch.bits)
    (hb : image.bytes.drop offset = e.bytes arch.bits ++ rest) :
    inst = e.reported arch.bits ∧ sizeAt image arch pc = (e.bytes arch.bits).length := by
  obtain ⟨offset', ho', hd⟩ := h
  obtain rfl : offset' = offset := Option.some.inj (ho'.symm.trans ho)
  rw [x86Decode_eq, hb, PrefixedForm.x86DecodeMode_bytes he] at hd
  refine ⟨(Except.ok.inj hd).symm, ?_⟩
  simp only [sizeAt, ho, hb, x86DecodeOffset_bytes he]

theorem DecodedAt.exists_encoding (h : DecodedAt image arch pc inst) :
    ∃ (offset : Nat) (e : PrefixedForm) (rest : List Byte),
      imageOffset image pc = some offset ∧ e.Accepted arch.bits ∧
      image.bytes.drop offset = e.bytes arch.bits ++ rest ∧ inst = e.reported arch.bits := by
  obtain ⟨offset, ho, hd⟩ := h
  rw [x86Decode_eq] at hd
  obtain ⟨e, rest, he, hb, hi⟩ := x86DecodeMode_ok_iff.mp hd
  exact ⟨offset, e, rest, ho, he, hb, hi⟩

/-- What `ShortFrom` asks of the instruction at `pc`. -/
theorem shortFrom_decodedAt (h : DecodedAt image arch pc inst) (n : Nat) (zf : Bool) :
    ShortFrom image arch.bits (n + 1) zf pc ↔
      ((inst.mnemonic = .jz ∨ inst.mnemonic = .jnz) ∧ zf = false) ∨
        ((1 ≤ inst.length ∧ inst.length ≤ 15 ∧ inst.length = sizeAt image arch pc ∧
            (inst.next pc).toNat = pc.toNat + inst.length) ∧
          (inst.mnemonic.endsBlock = true ∨
            ShortFrom image arch.bits n (zf || inst.mnemonic.isAlu) (inst.next pc))) := by
  -- for an encoding of the instruction both sides say the same
  have hone : ∀ {offset : Nat} {e : PrefixedForm} {rest : List Byte},
      imageOffset image pc = some offset → e.Accepted arch.bits →
      image.bytes.drop offset = e.bytes arch.bits ++ rest →
      ((e.bytes arch.bits).length ≤ 15 ∧ pc.toNat + (e.bytes arch.bits).length < 2 ^ 64 ↔
        1 ≤ inst.length ∧ inst.length ≤ 15 ∧ inst.length = sizeAt image arch pc ∧
            (inst.next pc).toNat = pc.toNat + inst.length) ∧
      ((e.bytes arch.bits).length ≤ 15 →
        inst.next pc = pc + BitVec.ofNat 64 (e.bytes arch.bits).length) := by
    intro offset e rest ho he hb
    obtain ⟨rfl, hsize⟩ := h.encoding ho he hb
    have hlen : (e.reported arch.bits).length = (e.bytes arch.bits).length % 256 := rfl
    have hpos : 1 ≤ (e.bytes arch.bits).length := by
      rw [PrefixedForm.length_bytes]
      omega
    have hnext : ((e.reported arch.bits).next pc).toNat =
        (pc.toNat + (e.reported arch.bits).length) % 2 ^ 64 := by
      rw [X86DecodedInst.next, BitVec.toNat_add, BitVec.toNat_ofNat, Nat.add_mod_mod]
    have hpc := pc.isLt
    rw [hsize, hnext, X86DecodedInst.next, hlen]
    refine ⟨?_, fun hshort => by rw [Nat.mod_eq_of_lt (by omega)]⟩
    omega
  constructor
  · intro hs
    obtain ⟨offset, e, rest, ho, he, hb, hi⟩ := h.exists_encoding
    obtain ⟨hiff, hnext⟩ := hone ho he hb
    rcases hs offset e rest ho he hb with hr | ⟨hshort, hfit, hgo⟩
    · rw [hi]
      exact .inl hr
    · refine .inr ⟨hiff.mp ⟨hshort, hfit⟩, ?_⟩
      rw [hnext hshort, hi]
      exact hgo
  · intro hs offset e rest ho he hb
    obtain ⟨hiff, hnext⟩ := hone ho he hb
    have hi := (h.encoding ho he hb).1
    rcases hs with hr | ⟨hr, hgo⟩
    · rw [hi] at hr
      exact .inl hr
    · obtain ⟨hshort, hfit⟩ := hiff.mpr hr
      refine .inr ⟨hshort, hfit, ?_⟩
      rw [hnext hshort, hi] at hgo
      exact hgo

theorem shortFrom_of_not_decodedAt (h : ∀ inst, ¬ DecodedAt image arch pc inst) (n : Nat)
    (zf : Bool) : ShortFrom image arch.bits (n + 1) zf pc := by
  intro offset e rest ho he hb
  refine absurd ⟨offset, ho, ?_⟩ (h (e.reported arch.bits))
  rw [x86Decode_eq, hb]
  exact PrefixedForm.x86DecodeMode_bytes he rest

theorem lifted_refused {zf : Bool} (h : (inst.mnemonic = .jz ∨ inst.mnemonic = .jnz) ∧ zf = false) :
    (StreamEnd.branch pc inst).lifted zf = [] := by
  obtain ⟨hm | hm, rfl⟩ := h <;> simp only [StreamEnd.lifted, StreamEnd.tests, hm] <;> rfl

theorem lifted_taken {zf : Bool}
    (h : ¬ ((inst.mnemonic = .jz ∨ inst.mnemonic = .jnz) ∧ zf = false)) :
    (StreamEnd.branch pc inst).lifted zf = [(inst, inst.next pc)] := by
  have ht : ((StreamEnd.branch pc inst).tests.isSome && !zf) = false := by
    cases zf with
    | true => exact Bool.and_false _
    | false =>
      simp only [StreamEnd.tests]
      split
      · next hm => exact absurd ⟨.inl hm, rfl⟩ h
      · next hm => exact absurd ⟨.inr hm, rfl⟩ h
      · rfl
  simp only [StreamEnd.lifted, ht]
  rfl

/-- **The lifted instructions tile their addresses** exactly when the encodings are short. -/
theorem tiles_iff (image : Image) (arch : Arch) (n : Nat) (zf : Bool) (pc : Word) :
    Tiles image arch pc
      ((x86Stream image arch n pc).1 ++ (x86Stream image arch n pc).2.lifted
        (zf || (x86Stream image arch n pc).1.any fun i => i.1.mnemonic.isAlu))
      (endPc pc ((x86Stream image arch n pc).1 ++ (x86Stream image arch n pc).2.lifted
        (zf || (x86Stream image arch n pc).1.any fun i => i.1.mnemonic.isAlu))) ↔
      ShortFrom image arch.bits n zf pc := by
  induction n generalizing zf pc with
  | zero => exact ⟨fun _ => trivial, fun _ => rfl⟩
  | succ n ih =>
    cases x86Stream_step image arch n pc with
    | @goes inst hat he hst =>
      have hcond : ¬ ((inst.mnemonic = .jz ∨ inst.mnemonic = .jnz) ∧ zf = false) := by
        rintro ⟨hm | hm, -⟩ <;> rw [hm] at he <;> cases he
      rw [hst, shortFrom_decodedAt hat, or_iff_right hcond, he]
      simp only [Bool.false_eq_true, false_or, ← ih, List.any_cons, ← Bool.or_assoc]
      exact Iff.rfl
    | @ends inst hat he hst =>
      rw [hst, shortFrom_decodedAt hat, he]
      simp only [true_or, and_true, List.nil_append, List.any_nil, Bool.or_false]
      by_cases hr : (inst.mnemonic = .jz ∨ inst.mnemonic = .jnz) ∧ zf = false
      · rw [lifted_refused hr]
        exact ⟨fun _ => .inl hr, fun _ => rfl⟩
      · rw [lifted_taken hr, or_iff_right hr]
        exact and_iff_left rfl
    | stops stop hst hne hnot =>
      rw [hst]
      refine ⟨fun _ => shortFrom_of_not_decodedAt hnot n zf, fun _ => ?_⟩
      cases stop with
      | branch a inst => exact absurd rfl (hne a inst)
      | _ => exact rfl

theorem Tiles.sum {insts : List (X86DecodedInst × Word)} {stop : Word}
    (h : Tiles image arch pc insts stop) :
    stop.toNat = pc.toNat + (insts.map fun i => i.1.length).sum := by
  induction insts generalizing pc with
  | nil =>
    obtain rfl : pc = stop := h
    rfl
  | cons i insts ih =>
    obtain ⟨⟨-, -, -, hnext⟩, hrest⟩ := h
    rw [ih hrest, hnext, List.map_cons, List.sum_cons, Nat.add_assoc]

end Tiling

/-- **The reported length** is right exactly on the short encodings, and a lift makes progress
exactly when it meets short encodings only. -/
theorem x86Lift_tiles {m : Module} (h : m.Reachable) (image : Image) (options : LiftOptions)
    (hok : (liftBasicBlock m image options).status = .ok) :
    (∀ (modeBits : Nat) (bytes : List Byte) (inst : X86DecodedInst),
      x86DecodeMode bytes modeBits = .ok inst →
      (LengthRight bytes modeBits inst ↔ ShortEncoding modeBits bytes)) ∧
    (liftBasicBlock m image options).result.instructions =
      (liftedInsts (options.stream image)).length ∧
    (Tiles image options.arch (liftBasicBlock m image options).result.start
        (liftedInsts (options.stream image)) (liftBasicBlock m image options).result.next ∧
      (liftBasicBlock m image options).result.bytesRead =
        ((liftedInsts (options.stream image)).map fun i => i.1.length).sum ↔
      ShortFrom image options.arch.bits options.limit false options.address) := by
  refine ⟨fun modeBits bytes inst hdec => lengthRight_iff hdec, ?_⟩
  have hr := liftBasicBlock_record h hok
  have htiles := tiles_iff image options.arch options.limit false options.address
  simp only [Bool.false_or] at htiles
  change Tiles image options.arch options.address (liftedInsts (options.stream image))
    (endPc options.address (liftedInsts (options.stream image))) ↔ _ at htiles
  refine ⟨hr.instructions, ?_⟩
  rw [hr.bytesRead, hr.next, hr.start, ← htiles]
  refine ⟨fun ht => ht.1, fun ht => ⟨ht, ?_⟩⟩
  have hsum := ht.sum
  rw [BitVec.toNat_sub_of_le (BitVec.le_def.mpr (by omega))]
  omega

theorem x86Lift_tiles_addRet : ShortFrom addRetImage 64 8 false 0x1000#64 := by
  have hinsts : liftedInsts (addRetOptions.stream addRetImage) =
      [(⟨.add, 3, 0x01#8, 0x00#8, [.register 64 0, .register 64 3]⟩, 0x1003#64),
        (⟨.ret, 1, 0xc3#8, 0x00#8, []⟩, 0x1004#64)] := by decide +kernel
  refine (x86Lift_tiles (m := Module.create) ⟨[], rfl⟩ addRetImage addRetOptions
    (by decide +kernel)).2.2.mp ⟨?_, by decide +kernel⟩
  have hnext : (liftBasicBlock Module.create addRetImage addRetOptions).result.next =
      0x1004#64 := by decide +kernel
  rw [hinsts, hnext]
  exact ⟨by decide +kernel, by decide +kernel, rfl⟩

/-- 255 times REX.W, and `NOP`. -/
def prefixedNop : Image := ⟨List.replicate 255 0x48#8 ++ [0x90#8], 0#64⟩

/-- The length of 256 bytes is reported as 0, and the lift takes the same bytes twice. -/
theorem x86Decode_prefixedNop :
    (¬ ∀ (modeBits : Nat) (bytes : List Byte) (inst : X86DecodedInst),
      modeBits = 32 ∨ modeBits = 64 → x86DecodeMode bytes modeBits = .ok inst →
      LengthRight bytes modeBits inst) ∧
    (liftBasicBlock Module.create prefixedNop ⟨.x8664, 0#64, 0, 2, none⟩).status = .ok ∧
    (liftBasicBlock Module.create prefixedNop ⟨.x8664, 0#64, 0, 2, none⟩).result.instructions =
      2 ∧
    (liftBasicBlock Module.create prefixedNop ⟨.x8664, 0#64, 0, 2, none⟩).result.bytesRead = 0 := by
  refine ⟨fun hall => ?_, by decide +kernel, by decide +kernel, by decide +kernel⟩
  have hdec : x86DecodeMode prefixedNop.bytes 64 = .ok ⟨.nop, 0, 0x90#8, 0#8, []⟩ := by
    decide +kernel
  exact absurd (hall 64 _ _ (.inr rfl) hdec).pos (by decide)

/-! ### Branch targets -/

/-- Addresses are added modulo `2 ^ 64`. -/
theorem toNat_x86AddI64 (a b : Word) :
    ((x86AddI64 a b).toNat : Int) = ((a.toNat : Int) + b.toInt) % 2 ^ 64 := by
  have hb := b.toInt_eq_toNat_cond
  rw [x86AddI64_eq, BitVec.toNat_add]
  split at hb <;> omega

/-- The address after an instruction of 32-bit code is at most the end of the image. -/
theorem DecodedAt.next_le {image : Image} {pc : Word} {inst : X86DecodedInst}
    (h : DecodedAt image .x8632 pc inst)
    (hsize : image.base.toNat + image.bytes.length ≤ 2 ^ 32) :
    (inst.next pc).toNat ≤ 2 ^ 32 := by
  obtain ⟨offset, ho, hd⟩ := h
  have hlen := (lengthRight_of_noPrefix (by decide) hd).size
  rw [List.length_drop] at hlen
  unfold imageOffset at ho
  split at ho
  · cases ho
  next hlt =>
    have hle := BitVec.le_def.mp (BitVec.not_lt.mp hlt)
    dsimp only at ho
    split at ho
    · cases ho
    next hin =>
      cases ho
      rw [BitVec.toNat_sub_of_le (BitVec.not_lt.mp hlt)] at hlen hin
      rw [X86DecodedInst.next, BitVec.toNat_add, BitVec.toNat_ofNat]
      omega

/-- The target is the address `next + rel` of the 32-bit address space. -/
def Target32 (r : LiftResult) (next rel : Word) : Prop :=
  (r.target.toNat : Int) = (next.toNat + rel.toInt) % 2 ^ 32 ∧ r.target.toNat < 2 ^ 32

/-- **The target of a branch** of 32-bit code is computed in 64 bits: it is right exactly when
the branch crosses neither 0 nor `2 ^ 32`. -/
theorem x86Lift32_target {m : Module} {image : Image} {options : LiftOptions} (h : m.Reachable)
    (harch : options.arch = .x8632) (hsize : image.base.toNat + image.bytes.length ≤ 2 ^ 32)
    (hok : (liftBasicBlock m image options).status = .ok)
    (hend : (liftBasicBlock m image options).result.endKind = .directJump ∨
      (liftBasicBlock m image options).result.endKind = .directCbranch) :
    ∃ pc inst n rel, (options.stream image).2 = .branch pc inst ∧
      inst.operands = [.immediate n rel] ∧
      (liftBasicBlock m image options).result.next = inst.next pc ∧
      (Target32 (liftBasicBlock m image options).result (inst.next pc) rel ↔
        0 ≤ (inst.next pc).toNat + rel.toInt ∧ (inst.next pc).toNat + rel.toInt < 2 ^ 32) := by
  have hr := liftBasicBlock_record h hok
  obtain ⟨pc, inst, n, rel, hstop, hops, htarget, hnext⟩ := hr.target hend
  refine ⟨pc, inst, n, rel, hstop, hops, hnext, ?_⟩
  have hat := ((x86Stream_consecutive image options.arch options.limit options.address).2.2
    pc inst hstop).2.1
  rw [harch] at hat
  have hle := hat.next_le hsize
  have hrel := rel.isLt
  have hint := rel.toInt_eq_toNat_cond
  have hadd := toNat_x86AddI64 (inst.next pc) rel
  rw [Target32, htarget]
  split at hint <;> omega

/-- `JMP` two bytes ahead, at 0x1000. -/
def jumpImage : Image := ⟨[0xeb#8, 0x02#8], 0x1000#64⟩

theorem x86Lift32_target_jump :
    ∃ pc inst n rel, (LiftOptions.stream ⟨.x8632, 0x1000#64, 0, 1, none⟩ jumpImage).2 =
        .branch pc inst ∧ inst.operands = [.immediate n rel] ∧
      (liftBasicBlock Module.create jumpImage ⟨.x8632, 0x1000#64, 0, 1, none⟩).result.next =
        inst.next pc ∧
      (Target32 (liftBasicBlock Module.create jumpImage ⟨.x8632, 0x1000#64, 0, 1, none⟩).result
          (inst.next pc) rel ↔
        0 ≤ (inst.next pc).toNat + rel.toInt ∧ (inst.next pc).toNat + rel.toInt < 2 ^ 32) :=
  x86Lift32_target ⟨[], rfl⟩ rfl (by decide) (by decide +kernel) (.inl (by decide +kernel))

/-- `JMP` 128 bytes back, at 0. -/
def jumpBackImage : Image := ⟨[0xeb#8, 0x80#8], 0#64⟩

/-- The lift of a branch that crosses 0. -/
def jumpBackLift : Lifted :=
  liftBasicBlock Module.create jumpBackImage ⟨.x8632, 0#64, 0, 1, none⟩

theorem x86Lift32_target_jumpBack : jumpBackLift.status = .ok ∧
    jumpBackLift.result.endKind = .directJump ∧ jumpBackLift.result.next = 2#64 ∧
    (LiftOptions.stream ⟨.x8632, 0#64, 0, 1, none⟩ jumpBackImage).2 =
      .branch 0#64 ⟨.jmp, 2, 0xeb#8, 0#8, [.immediate 8 (BitVec.ofInt 64 (-128))]⟩ ∧
    jumpBackLift.result.target.toNat = 2 ^ 64 - 126 ∧
    ¬ Target32 jumpBackLift.result 2#64 (BitVec.ofInt 64 (-128)) := by
  have htarget : jumpBackLift.result.target.toNat = 2 ^ 64 - 126 := by decide +kernel
  refine ⟨by decide +kernel, by decide +kernel, by decide +kernel, by decide +kernel,
    htarget, ?_⟩
  rintro ⟨-, hlt⟩
  omega

end Xair
