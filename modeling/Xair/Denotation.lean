import Xair.Draft
import Xair.WordMemory
import Xair.FoldSound
import Xair.X86Machine

/-!
# What the values of a block stand for

In one run of a block every value stands for one thing: a scalar for a word, a memory
token for a byte map.  `Denotes m b ρ` says that `ρ` gives the values of block `b`
what their operations compute from it, whatever the order of the operations; of a load
it says so only where the map is defined.  What a
key computes on machine words is worked out here, one lemma for a group of opcodes.
-/

namespace Xair

open LittleEndian

/-- What each value stands for. -/
structure Denotation where
  value : Nat → ExecValue
  memory : Nat → ByteMap

/-- The result of an operation stands for what the operation computes. -/
def Denotation.Fits (ρ : Denotation) (m : Module) (op : OpRec) : Prop :=
  match op.opcode with
  | .load => ∀ size w, execByteSizedScalar (m.valueType op.dst) = some size →
      (ρ.memory (op.srcAt 0)).loadU64 (ρ.value (op.srcAt 1)).lo size op.endian = some w →
      ρ.value op.dst = execValueMake (m.valueType op.dst) w 0#64
  | .store => ∀ size, execByteSizedScalar (ρ.value (op.srcAt 2)).type = some size →
      ρ.memory op.dst = (ρ.memory (op.srcAt 0)).storeU64 (ρ.value (op.srcAt 1)).lo
        (ρ.value (op.srcAt 2)).lo size op.endian
  | _ => ∀ mem, execOpValue (m.valueType op.dst) (fun v => .ok (ρ.value v)) mem op =
      .ok (ρ.value op.dst, mem)

/-- A load or store stays inside the address space and, if it is a load, inside what its
map defines. -/
def Denotation.InBounds (ρ : Denotation) (m : Module) (op : OpRec) : Prop :=
  match op.opcode with
  | .load => ∃ size w, execByteSizedScalar (m.valueType op.dst) = some size ∧
      ¬ FlatMemory.Wraps (ρ.value (op.srcAt 1)).lo size ∧
      (ρ.memory (op.srcAt 0)).loadU64 (ρ.value (op.srcAt 1)).lo size op.endian = some w
  | .store => ∃ size, execByteSizedScalar (ρ.value (op.srcAt 2)).type = some size ∧
      ¬ FlatMemory.Wraps (ρ.value (op.srcAt 1)).lo size
  | _ => True

/-- The denotation fits block `b` and the constants. -/
structure Denotes (m : Module) (b : Nat) (ρ : Denotation) : Prop where
  ops : ∀ o ∈ (m.blockRec b).ops, ρ.Fits m (m.opRec o)
  consts : ∀ v, m.valueIsGlobalConst v = true → ρ.value v = m.constValue v

theorem Denotes.const {m : Module} {b : Nat} {ρ : Denotation} (h : Denotes m b ρ) (hwf : m.WF)
    {v : Nat} {k : OpKey} (hc : m.Computes v k) (hk : k.opcode = .constU64) :
    ρ.value v = execValueMake k.type k.imm 0#64 := by
  obtain ⟨o, ho, rfl, hs⟩ := (valueNumberMatches_iff hwf).mp hc
  have hop := hwf.valueOp_dst ho
  have hcode : (m.opRec o).opcode = .constU64 := hs.opcode.trans hk
  have htype : m.valueType (m.opRec o).dst = k.type := hs.type
  have himm : (m.opRec o).imm = k.imm := hs.imm
  have hconst : m.valueIsGlobalConst (m.opRec o).dst = true := by
    simp [Module.valueIsGlobalConst, Module.validValue, (hwf.op_dst o ho).1, hop, hcode]
  rw [h.consts _ hconst, Module.constValue, hop, ← htype, ← himm]

/-- The result of any other operation fits its key. -/
theorem Denotes.fits {m : Module} {b : Nat} {ρ : Denotation} (h : Denotes m b ρ) (hwf : m.WF)
    (hb : b < m.blocks.length) {v : Nat} {k : OpKey} (hc : m.Computes v k)
    (hk : k.opcode ≠ .constU64) (hblock : k.block = b) :
    ρ.Fits m ⟨k.opcode, v, k.srcs, k.endian, k.imm⟩ := by
  obtain ⟨o, ho, rfl, hs⟩ := (valueNumberMatches_iff hwf).mp hc
  have hopb : (m.valueRec (m.opRec o).dst).block = b := by
    rcases hs.block with hconst | hblk
    · exact absurd (hs.opcode.symm.trans hconst) hk
    · exact hblk.trans hblock
  have hfit := h.ops o ((hwf.block_ops b hb o).mpr ⟨ho, hopb⟩)
  have heq : m.opRec o = ⟨k.opcode, (m.opRec o).dst, k.srcs, k.endian, k.imm⟩ := by
    have h1 : (m.opRec o).opcode = k.opcode := hs.opcode
    have h2 : (m.opRec o).src = k.srcs := hs.srcs
    have h3 : (m.opRec o).endian = k.endian := hs.endian
    have h4 : (m.opRec o).imm = k.imm := hs.imm
    rw [← h1, ← h2, ← h3, ← h4]
  rw [← heq]
  exact hfit

/-! ### Machine words as values -/

section Words

variable {n : Nat}

theorem toNat_setWidth_64 (hn : n ≤ 64) (x : BitVec n) : (x.setWidth 64).toNat = x.toNat :=
  BitVec.toNat_setWidth_of_le hn

/-- Truncation to a scalar type of `n` bits. -/
theorem truncateToType_eq {t : Ty} (hk : t.kind = .int ∨ t.kind = .addr) (hb : t.bits = n)
    (hn : n ≤ 64) (w : Word) : truncateToType w t = (w.setWidth n).setWidth 64 := by
  apply BitVec.eq_of_toNat_eq
  rw [truncateToType, if_neg (by rintro ⟨h1, h2⟩; rcases hk with h | h <;> contradiction), hb,
    and_maskForBits_toNat hn, toNat_setWidth_64 hn, BitVec.toNat_setWidth]

/-- A word of `n` bits is its own truncation. -/
theorem setWidth_and_mask (hn : n ≤ 64) (x : BitVec n) :
    (x.setWidth 64 : Word) &&& maskForBits n = x.setWidth 64 := by
  apply BitVec.eq_of_toNat_eq
  rw [and_maskForBits_toNat hn, toNat_setWidth_64 hn, Nat.mod_eq_of_lt x.isLt]

theorem setWidth_setWidth_64 (hn : n ≤ 64) (x : BitVec n) :
    (x.setWidth 64 : Word).setWidth n = x := by
  rw [BitVec.setWidth_setWidth_of_le _ hn, BitVec.setWidth_eq]

theorem setWidth_sub (hn : n ≤ 64) (a b : Word) :
    (a - b).setWidth n = a.setWidth n - b.setWidth n := by
  have h := BitVec.setWidth_add (a - b) b hn
  rw [BitVec.sub_add_cancel] at h
  rw [h, BitVec.add_sub_cancel]

/-- The value of a scalar type for a machine word. -/
def wordValue (t : Ty) (x : BitVec n) : ExecValue := ⟨t, x.setWidth 64, 0#64⟩

/-- The value of type `i1` for a condition. -/
def boolValue (c : Bool) : ExecValue := ⟨typeI 1, boolU64 c, 0#64⟩

theorem wordValue_inj {t : Ty} (hn : n ≤ 64) {x y : BitVec n} (h : wordValue t x = wordValue t y) :
    x = y := by
  have hlo : (x.setWidth 64 : Word) = y.setWidth 64 := congrArg ExecValue.lo h
  rw [← setWidth_setWidth_64 hn x, hlo, setWidth_setWidth_64 hn y]

theorem execValueMake_word {t : Ty} (hk : t.kind = .int ∨ t.kind = .addr) (hb : t.bits = n)
    (hn : n ≤ 64) (w : Word) : execValueMake t w 0#64 = wordValue t (w.setWidth n) := by
  rw [execValueMake, truncateToType_eq hk hb hn]
  rfl

theorem execValueMake_bool (c : Bool) : execValueMake (typeI 1) (boolU64 c) 0#64 = boolValue c := by
  cases c <;> rfl

end Words

/-! ### What the opcodes compute -/

section Opcodes

variable {n : Nat} {t u : Ty}

/-- The machine operation of a word opcode. -/
def wordOp (opcode : Opcode) (x y : BitVec n) : BitVec n :=
  match opcode with
  | .add | .addrAdd => x + y
  | .sub => x - y
  | .mul => x * y
  | .and => x &&& y
  | .or => x ||| y
  | _ => x ^^^ y

/-- The opcodes that compute a machine word from two. -/
def Opcode.isWordOp (opcode : Opcode) : Bool :=
  match opcode with
  | .add | .sub | .mul | .and | .or | .xor | .addrAdd => true
  | _ => false

/-- The executor refuses a binary operation for the types of its sources only. -/
theorem execBinaryOp_words {opcode : Opcode} (out : Ty) {lhs rhs : ExecValue}
    (hop : opcode.isWordOp = true ∨ opcode = .eq) (hl : execScalarU64Type lhs.type = true)
    (hr : rhs.type.bits ≤ 64) : ∃ w, execBinaryOp opcode out lhs rhs = .ok (execValueMake out w 0#64) := by
  have hlb : lhs.type.bits ≤ 64 := (execScalarU64Type_iff.mp hl).2
  unfold execBinaryOp
  rw [if_neg (by simp [hl]; omega)]
  rcases hop with hop | rfl
  · cases opcode <;> simp only [Opcode.isWordOp, Bool.false_eq_true] at hop <;>
      exact ⟨_, rfl⟩
  · exact ⟨_, rfl⟩

theorem execBinaryOp_wordOp {opcode : Opcode} {out : Ty} (hop : opcode.isWordOp = true)
    (hn : n ≤ 64) (ht : t.kind = .int ∨ t.kind = .addr) (htb : t.bits = n) (hub : u.bits = n)
    (ho : out.kind = .int ∨ out.kind = .addr) (hob : out.bits = n) (x y : BitVec n) :
    execBinaryOp opcode out (wordValue t x) (wordValue u y) =
      .ok (wordValue out (wordOp opcode x y)) := by
  have hx := setWidth_setWidth_64 hn x
  have hy := setWidth_setWidth_64 hn y
  have hscalar : execScalarU64Type t = true := execScalarU64Type_iff.mpr ⟨ht, by omega⟩
  have hmake := fun w => execValueMake_word ho hob hn w
  unfold execBinaryOp
  simp only [wordValue, hscalar, htb, hub, setWidth_and_mask hn, Bool.not_true, Bool.false_or,
    Bool.or_self, decide_eq_true_eq, if_neg (Nat.not_lt.mpr hn)]
  cases opcode <;> simp only [Opcode.isWordOp, Bool.false_eq_true] at hop <;>
    simp only [wordOp, hmake, wordValue, BitVec.setWidth_add _ _ hn, BitVec.setWidth_mul _ _ hn,
      setWidth_sub hn, BitVec.setWidth_and, BitVec.setWidth_or, BitVec.setWidth_xor, hx, hy]

theorem execFlags_zf (opcode : Opcode) (l r : Word) (bits : Nat) :
    (execFlags opcode l r bits &&& execFlagZf != 0#64) =
      ((if opcode = .flagsAdd then (l &&& maskForBits bits) + (r &&& maskForBits bits)
        else (l &&& maskForBits bits) - (r &&& maskForBits bits)) &&& maskForBits bits == 0#64) := by
  unfold execFlags
  simp (disch := decide) only [orFlag_and_self, orFlag_and_other, BitVec.zero_and, ite_flag_ne_zero]
  split <;> rfl

theorem execLogicFlags_zf (w : Word) (bits : Nat) :
    (execLogicFlags w bits &&& execFlagZf != 0#64) = (w &&& maskForBits bits == 0#64) := by
  unfold execLogicFlags
  simp (disch := decide) only [orFlag_and_self, orFlag_and_other, BitVec.zero_and, ite_flag_ne_zero]

/-- Masking a word to `n` bits. -/
theorem and_mask_eq (hn : n ≤ 64) (w : Word) : w &&& maskForBits n = (w.setWidth n).setWidth 64 := by
  apply BitVec.eq_of_toNat_eq
  rw [and_maskForBits_toNat hn, toNat_setWidth_64 hn, BitVec.toNat_setWidth]

theorem setWidth_beq_zero (hn : n ≤ 64) (x : BitVec n) :
    ((x.setWidth 64 : Word) == 0#64) = (x == 0) := by
  rw [Bool.eq_iff_iff, beq_iff_eq, beq_iff_eq]
  constructor
  · intro h
    rw [← setWidth_setWidth_64 hn x, h]
    exact BitVec.setWidth_zero n 64
  · rintro rfl
    exact BitVec.setWidth_zero 64 n

/-- The flags of a sum or a difference of machine words: `ZF` says whether it is zero. -/
theorem execBinaryOp_flags {opcode : Opcode} (hop : opcode = .flagsAdd ∨ opcode = .flagsSub)
    (out : Ty) (hn : n ≤ 64) (x y : BitVec n) :
    ∃ w, execBinaryOp opcode out (wordValue (typeI n) x) (wordValue (typeI n) y) =
        .ok (execValueMake out w 0#64) ∧
      (w &&& execFlagZf != 0#64) = ((if opcode = .flagsAdd then x + y else x - y) == 0) := by
  refine ⟨execFlags opcode (x.setWidth 64) (y.setWidth 64) n, ?_, ?_⟩
  · unfold execBinaryOp
    simp only [wordValue, typeI, execScalarU64Type, Ty.isInt, Ty.isAddr, setWidth_and_mask hn]
    rcases hop with rfl | rfl <;> simp [Nat.not_lt.mpr hn, hn]
  · rw [execFlags_zf, and_mask_eq hn, setWidth_beq_zero hn]
    simp only [setWidth_and_mask hn]
    split
    · rw [BitVec.setWidth_add _ _ hn, setWidth_setWidth_64 hn, setWidth_setWidth_64 hn]
    · rw [setWidth_sub hn, setWidth_setWidth_64 hn, setWidth_setWidth_64 hn]

/-- The flags of a logical result: `ZF` says whether it is zero. -/
theorem execUnaryOp_flagsLogic {out : Ty} (ho : out.isFlags = true) (hn : n ≤ 64) (x : BitVec n) :
    ∃ w, execUnaryOp .flagsLogic out (wordValue (typeI n) x) = .ok (execValueMake out w 0#64) ∧
      (w &&& execFlagZf != 0#64) = (x == 0) := by
  refine ⟨execLogicFlags (x.setWidth 64) n, ?_, ?_⟩
  · simp [execUnaryOp, wordValue, ho, typeI, Ty.isInt, Nat.not_lt.mpr hn]
  · rw [execLogicFlags_zf, setWidth_and_mask hn, setWidth_beq_zero hn]

/-- Reinterpreting a machine word as an address or back. -/
theorem execUnaryOp_cast {opcode : Opcode} (hop : opcode = .intToAddr ∨ opcode = .addrToInt)
    {out : Ty} (hn : n ≤ 64) (ht : t.kind = .int ∨ t.kind = .addr) (htb : t.bits = n)
    (ho : out.kind = .int ∨ out.kind = .addr) (hob : out.bits = n) (x : BitVec n) :
    execUnaryOp opcode out (wordValue t x) = .ok (wordValue out x) := by
  have h1 : execScalarU64Type t = true := execScalarU64Type_iff.mpr ⟨ht, by omega⟩
  have h2 : execScalarU64Type out = true := execScalarU64Type_iff.mpr ⟨ho, by omega⟩
  have hmake : execValueMake out (x.setWidth 64) 0#64 = wordValue out x := by
    rw [execValueMake_word ho hob hn, setWidth_setWidth_64 hn]
  rcases hop with rfl | rfl <;> simp [execUnaryOp, h1, h2, wordValue] <;> exact hmake

theorem execBinaryOp_not (c : Bool) :
    execBinaryOp .eq (typeI 1) (boolValue c) (boolValue false) = .ok (boolValue (!c)) := by
  cases c <;> decide +kernel

end Opcodes

/-! ### Words in memory -/

section Memory

/-- The word that a load assembles is the number its bytes spell. -/
theorem decodeU64_le {size : Nat} {bytes : List (BitVec 8)} (hlen : bytes.length = size) :
    decodeU64From .le size 0 bytes 0#64 = BitVec.ofNat 64 (leNat bytes) := by
  apply word_eq_of_byteAt
  intro k hk
  rw [byteAt_decodeU64 .le hlen hk, byteAt_ofNat_leNat (n := 8) bytes hk]
  by_cases hks : k < size
  · rw [if_pos hks, shiftIndex]
  · rw [if_neg hks, List.getElem?_eq_none (by omega), Option.getD_none]

/-- The bytes that a store writes are those of the machine word. -/
theorem encodeU64_le {n size : Nat} (hn : n ≤ 64) (hs : 8 * size ≤ n) (x : BitVec n) :
    encodeU64 (x.setWidth 64) size .le = (List.range size).map (byteAt x) := by
  unfold encodeU64
  refine List.map_congr_left fun i hi => ?_
  have hi := List.mem_range.mp hi
  apply BitVec.eq_of_getLsbD_eq
  intro j hj
  have hff : (0xff#64).getLsbD j = true := by
    have : ∀ j < 8, (0xff#64).getLsbD j = true := by decide
    exact this j hj
  simp only [byteAt, shiftIndex, BitVec.getLsbD_setWidth, BitVec.getLsbD_and,
    BitVec.getLsbD_ushiftRight, BitVec.getLsbD_extractLsb', hj, decide_true, Bool.true_and, hff,
    Bool.and_true, Nat.mul_comm i 8]
  rw [decide_eq_true (by omega : 8 * i + j < 64), Bool.true_and]

end Memory

end Xair
