import Xair.Binary

/-!
# What the binary parser returns

The headers of the four layouts (ELF32, ELF64, PE32, PE32+) as tables of fields of
the file, and the theorem that the parser stays inside the file and returns the
segments that the table describes (`binaryViewLoad_faithful`).
-/

namespace Xair

open LittleEndian

/-! ### Tables -/

/-- The number in the `n` bytes at `offset`, little-endian. -/
def field (bytes : List Byte) (offset n : Nat) : Nat := leNat ((bytes.drop offset).take n)

/-- The permissions of a segment. -/
def segmentPerms (read write exec : Bool) : BitVec 32 :=
  (if read then 1#32 else 0#32) ||| (if write then 2#32 else 0#32) ||| (if exec then 4#32 else 0#32)

/-- The segment that a header describes; none when it takes no memory. -/
def segmentOf (bytes : List Byte) (va memSize fileSize fileOffset : Nat) (perms : BitVec 32)
    (i : Nat) : Option BinarySegment :=
  if memSize = 0 then none
  else some ⟨BitVec.ofNat 64 va, BitVec.ofNat 64 memSize, BitVec.ofNat 64 fileSize,
    BitVec.ofNat 64 fileOffset, perms, BitVec.ofNat 32 i, (bytes.drop fileOffset).take fileSize⟩

/-- Where the fields of a program header stand, and the bytes of a word. -/
structure ProgramHeaderLayout where
  word : Nat
  flags : Nat
  fileOffset : Nat
  vaddr : Nat
  filesz : Nat
  memsz : Nat

def elf64Layout : ProgramHeaderLayout := ⟨8, 4, 8, 16, 32, 40⟩

def elf32Layout : ProgramHeaderLayout := ⟨4, 24, 4, 8, 16, 20⟩

/-- The segment of program header `i`, which stands at `off`; `PT_LOAD` is 1. -/
def ProgramHeaderLayout.segment (l : ProgramHeaderLayout) (bytes : List Byte) (off i : Nat) :
    Option BinarySegment :=
  let flags := field bytes (off + l.flags) 4
  if field bytes off 4 = 1 then
    segmentOf bytes (field bytes (off + l.vaddr) l.word) (field bytes (off + l.memsz) l.word)
      (field bytes (off + l.filesz) l.word) (field bytes (off + l.fileOffset) l.word)
      (segmentPerms (flags.testBit 2) (flags.testBit 1) (flags.testBit 0)) i
  else none

/-- The `PT_LOAD` segments of an ELF64 file, in the order of its program headers. -/
def elf64Segments (bytes : List Byte) : List BinarySegment :=
  (List.range (field bytes 56 2)).filterMap fun i =>
    elf64Layout.segment bytes (field bytes 32 8 + i * field bytes 54 2) i

/-- The `PT_LOAD` segments of an ELF32 file. -/
def elf32Segments (bytes : List Byte) : List BinarySegment :=
  (List.range (field bytes 44 2)).filterMap fun i =>
    elf32Layout.segment bytes (field bytes 28 4 + i * field bytes 42 2) i

/-- The segment of section header `i` of a PE file, which stands at `off`. -/
def peSegment (bytes : List Byte) (imageBase off i : Nat) : Option BinarySegment :=
  let characteristics := field bytes (off + 36) 4
  segmentOf bytes (imageBase + field bytes (off + 12) 4)
    (max (field bytes (off + 8) 4) (field bytes (off + 16) 4)) (field bytes (off + 16) 4)
    (field bytes (off + 20) 4)
    (segmentPerms (characteristics.testBit 30) (characteristics.testBit 31)
      (characteristics.testBit 29)) i

/-- The offset of the COFF header. -/
def peCoff (bytes : List Byte) : Nat := field bytes 0x3c 4 + 4

/-- The segments of a PE file, in the order of its section headers. -/
def peSegments (bytes : List Byte) (imageBase : Nat) : List BinarySegment :=
  (List.range (field bytes (peCoff bytes + 2) 2)).filterMap fun i =>
    peSegment bytes imageBase (peCoff bytes + 20 + field bytes (peCoff bytes + 16) 2 + i * 40) i

/-- The four layouts. -/
inductive FileLayout
  | elf32 | elf64 | pe32 | pe64
  deriving DecidableEq, Repr

/-- The segments that a file of the layout describes. -/
def FileLayout.segments (bytes : List Byte) : FileLayout → List BinarySegment
  | .elf32 => elf32Segments bytes
  | .elf64 => elf64Segments bytes
  | .pe32 => peSegments bytes (field bytes (peCoff bytes + 20 + 28) 4)
  | .pe64 => peSegments bytes (field bytes (peCoff bytes + 20 + 24) 8)

/-- The marks by which a file has the layout. -/
def FileLayout.Marked (bytes : List Byte) : FileLayout → Prop
  | .elf32 => bytes.take 6 = [0x7f#8, 0x45#8, 0x4c#8, 0x46#8, 1#8, 1#8] ∧ field bytes 18 2 = 3
  | .elf64 => bytes.take 6 = [0x7f#8, 0x45#8, 0x4c#8, 0x46#8, 2#8, 1#8] ∧ field bytes 18 2 = 62
  | .pe32 => bytes.take 2 = [0x4d#8, 0x5a#8] ∧
      (bytes.drop (field bytes 0x3c 4)).take 4 = [0x50#8, 0x45#8, 0#8, 0#8] ∧
      field bytes (peCoff bytes) 2 = 0x14c ∧ field bytes (peCoff bytes + 20) 2 = 0x10b
  | .pe64 => bytes.take 2 = [0x4d#8, 0x5a#8] ∧
      (bytes.drop (field bytes 0x3c 4)).take 4 = [0x50#8, 0x45#8, 0#8, 0#8] ∧
      field bytes (peCoff bytes) 2 = 0x8664 ∧ field bytes (peCoff bytes + 20) 2 = 0x20b

def FileLayout.format : FileLayout → BinaryFormat
  | .elf32 | .elf64 => .elf
  | .pe32 | .pe64 => .pe

def FileLayout.arch : FileLayout → Arch
  | .elf32 | .pe32 => .x8632
  | .elf64 | .pe64 => .x8664

/-- The segment lies inside the file and has the file's bytes. -/
structure BinarySegment.InFile (bytes : List Byte) (s : BinarySegment) : Prop where
  range : s.fileOffset.toNat + s.fileSize.toNat ≤ bytes.length
  bytes_eq : s.bytes = (bytes.drop s.fileOffset.toNat).take s.fileSize.toNat

/-! ### Reads in range -/

theorem leNat_lt (bs : List Byte) : leNat bs < 256 ^ bs.length := by
  induction bs with
  | nil => exact Nat.one_pos
  | cons b bs ih =>
    have hb := b.isLt
    rw [leNat, List.length_cons, Nat.pow_succ]
    omega

theorem field_lt (bytes : List Byte) (offset n : Nat) : field bytes offset n < 256 ^ n := by
  have h := leNat_lt ((bytes.drop offset).take n)
  have hle : ((bytes.drop offset).take n).length ≤ n := List.length_take_le n _
  exact Nat.lt_of_lt_of_le h (Nat.pow_le_pow_right (by decide) hle)

theorem take_succ_drop {bytes : List Byte} {o : Nat} (h : o < bytes.length) (n : Nat) :
    (bytes.drop o).take (n + 1) = bytes[o] :: (bytes.drop (o + 1)).take n := by
  rw [List.drop_eq_getElem_cons h, List.take_succ_cons]

section Reads

variable {bytes : List Byte} (hsize : bytes.length < 2 ^ 63)
include hsize

theorem sizeAdd_eq {o k : Nat} (h : o + k ≤ bytes.length) : sizeAdd o k = o + k :=
  Nat.mod_eq_of_lt (by omega)

omit hsize in
theorem readByte_eq {o : Nat} (h : o < bytes.length) : readByte bytes o = some bytes[o] :=
  List.getElem?_eq_getElem h

theorem readLe16_eq {o : Nat} (h : o + 2 ≤ bytes.length) :
    readLe16 bytes o = some (BitVec.ofNat 16 (field bytes o 2)) := by
  rw [readLe16, sizeAdd_eq hsize (by omega), readByte_eq (by omega),
    readByte_eq (by omega), Option.bind_some, Option.bind_some, field,
    take_succ_drop (by omega), take_succ_drop (by omega), List.take_zero, ← toNat_le16, BitVec.ofNat_toNat,
    BitVec.setWidth_eq]

theorem readLe32_eq {o : Nat} (h : o + 4 ≤ bytes.length) :
    readLe32 bytes o = some (BitVec.ofNat 32 (field bytes o 4)) := by
  rw [readLe32, sizeAdd_eq hsize (by omega), sizeAdd_eq hsize (by omega),
    sizeAdd_eq hsize (by omega), readByte_eq (by omega), readByte_eq (by omega),
    readByte_eq (by omega), readByte_eq (by omega), Option.bind_some,
    Option.bind_some, Option.bind_some, Option.bind_some, field,
    take_succ_drop (by omega), take_succ_drop (by omega), take_succ_drop (by omega),
    take_succ_drop (by omega), List.take_zero, ← toNat_le32, BitVec.ofNat_toNat, BitVec.setWidth_eq]

omit hsize in
theorem field_add (o m n : Nat) (h : o + m ≤ bytes.length) :
    field bytes o (m + n) = field bytes o m + 256 ^ m * field bytes (o + m) n := by
  induction m generalizing o with
  | zero => simp [field, leNat]
  | succ m ih =>
    have ho : o < bytes.length := by omega
    have hi := ih (o + 1) (by omega)
    rw [field, field] at hi
    rw [field, field, Nat.succ_add, take_succ_drop ho, take_succ_drop ho, leNat, leNat, hi,
      show o + 1 + m = o + (m + 1) by omega, Nat.pow_succ, Nat.mul_add, ← Nat.add_assoc,
      ← Nat.mul_assoc, Nat.mul_comm 256 (256 ^ m)]

theorem readLe64_eq {o : Nat} (h : o + 8 ≤ bytes.length) :
    readLe64 bytes o = some (BitVec.ofNat 64 (field bytes o 8)) := by
  have hlo : field bytes o 4 < 2 ^ 32 := field_lt bytes o 4
  have hhi : field bytes (o + 4) 4 < 2 ^ 32 := field_lt bytes (o + 4) 4
  rw [readLe64, sizeAdd_eq hsize (by omega), readLe32_eq hsize (by omega),
    readLe32_eq hsize (by omega), Option.bind_some, Option.bind_some, field_add o 4 4 (by omega)]
  congr 1
  apply BitVec.eq_of_toNat_eq
  rw [toNat_le64, BitVec.toNat_ofNat, BitVec.toNat_ofNat, BitVec.toNat_ofNat, Nat.mod_eq_of_lt hlo,
    Nat.mod_eq_of_lt hhi, Nat.mod_eq_of_lt (by omega), show 256 ^ 4 = 2 ^ 32 from rfl]

theorem readBytes_eq {o : Nat} (n : Nat) (h : o + n ≤ bytes.length) :
    readBytes bytes o n = some ((bytes.drop o).take n) := by
  induction n generalizing o with
  | zero => rfl
  | succ n ih =>
    rw [readBytes, readByte_eq (by omega), Option.bind_some, sizeAdd_eq hsize (by omega),
      ih (by omega), Option.bind_some, take_succ_drop (by omega)]

end Reads

/-! ### Words and fields -/

section Fields

variable {bytes : List Byte}

theorem setWidth_field (offset : Nat) :
    (BitVec.ofNat 32 (field bytes offset 4)).setWidth 64 = BitVec.ofNat 64 (field bytes offset 4) := by
  have hlt : field bytes offset 4 < 2 ^ 32 := field_lt _ _ 4
  apply BitVec.eq_of_toNat_eq
  rw [BitVec.toNat_setWidth, BitVec.toNat_ofNat, BitVec.toNat_ofNat, Nat.mod_eq_of_lt hlt]

theorem field4_lt (offset : Nat) : field bytes offset 4 < 2 ^ 64 :=
  Nat.lt_trans (field_lt bytes offset 4) (by decide)

theorem ofNat_field_eq (bytes : List Byte) {n : Nat} (offset : Nat) {k : Nat} (hk : k < 256 ^ n) :
    BitVec.ofNat (8 * n) (field bytes offset n) = BitVec.ofNat (8 * n) k ↔
      field bytes offset n = k := by
  have hpow : 256 ^ n = 2 ^ (8 * n) := by rw [Nat.pow_mul]
  have hlt : field bytes offset n < 2 ^ (8 * n) := hpow ▸ field_lt bytes offset n
  constructor
  · intro he
    have := congrArg BitVec.toNat he
    rwa [BitVec.toNat_ofNat, BitVec.toNat_ofNat, Nat.mod_eq_of_lt hlt,
      Nat.mod_eq_of_lt (hpow ▸ hk)] at this
  · intro he
    rw [he]

theorem toNat_field (bytes : List Byte) {n : Nat} (offset : Nat) :
    (BitVec.ofNat (8 * n) (field bytes offset n)).toNat = field bytes offset n := by
  have hpow : 256 ^ n = 2 ^ (8 * n) := by rw [Nat.pow_mul]
  rw [BitVec.toNat_ofNat, Nat.mod_eq_of_lt (hpow ▸ field_lt bytes offset n)]

end Fields

/-! ### Permissions -/

theorem and_bit (flags : BitVec 32) (i : Nat) :
    (flags &&& BitVec.twoPow 32 i != 0#32) = (decide (i < 32) && flags.getLsbD i) := by
  rw [BitVec.and_twoPow]
  by_cases hi : i < 32
  · cases flags.getLsbD i with
    | false => simp
    | true =>
      have hne : BitVec.twoPow 32 i ≠ 0#32 := by
        intro h
        have := congrArg (fun x => x.getLsbD i) h
        simp [hi] at this
      simpa [hi] using hne
  · rw [BitVec.getLsbD_of_ge _ _ (by omega)]
    simp

theorem orPerms_eq (read write exec : Bool) :
    orPerm (orPerm (orPerm 0#32 binaryPermRead read) binaryPermWrite write) binaryPermExec exec =
      segmentPerms read write exec := by
  cases read <;> cases write <;> cases exec <;> rfl

theorem elfSegmentPerms_ofNat (flags : Nat) :
    elfSegmentPerms (BitVec.ofNat 32 flags) =
      segmentPerms (flags.testBit 2) (flags.testBit 1) (flags.testBit 0) := by
  have h : ∀ i < 32, (BitVec.ofNat 32 flags &&& BitVec.twoPow 32 i != 0#32) = flags.testBit i := by
    intro i hi
    rw [and_bit, BitVec.getLsbD_ofNat]
    simp [hi]
  rw [← h 2 (by decide), ← h 1 (by decide), ← h 0 (by decide), ← orPerms_eq]
  rfl

theorem peSectionPerms_ofNat (characteristics : Nat) :
    peSectionPerms (BitVec.ofNat 32 characteristics) =
      segmentPerms (characteristics.testBit 30) (characteristics.testBit 31)
        (characteristics.testBit 29) := by
  have h : ∀ i < 32, (BitVec.ofNat 32 characteristics &&& BitVec.twoPow 32 i != 0#32) =
      characteristics.testBit i := by
    intro i hi
    rw [and_bit, BitVec.getLsbD_ofNat]
    simp [hi]
  rw [← h 30 (by decide), ← h 31 (by decide), ← h 29 (by decide), ← orPerms_eq]
  rfl

/-! ### Segments and loops -/

/-- The view with segments appended. -/
def BinaryView.append (view : BinaryView) (segments : List BinarySegment) : BinaryView :=
  { view with segments := view.segments ++ segments }

/-- The result is `XAIR_ERR_RANGE`, or the view with the given segments of the file. -/
def Extends (bytes : List Byte) (view : BinaryView) (segments : List BinarySegment)
    (r : Option (Status × BinaryView)) : Prop :=
  (∃ v, r = some (.errRange, v)) ∨
    r = some (.ok, view.append segments) ∧ ∀ s ∈ segments, s.InFile bytes

section Segments

variable {bytes : List Byte} (hsize : bytes.length < 2 ^ 63)

theorem BinaryView.append_nil (view : BinaryView) : view.append [] = view := by
  rw [BinaryView.append, List.append_nil]

theorem extends_nil (view : BinaryView) : Extends bytes view [] (some (.ok, view)) :=
  Or.inr ⟨by rw [BinaryView.append_nil], fun _ hs => absurd hs List.not_mem_nil⟩

include hsize

theorem appendSegment_extends (view : BinaryView) {va memSize fileSize fileOffset : Nat}
    (perms : BitVec 32) (i : Nat) (hmem : memSize < 2 ^ 64) (hfs : fileSize < 2 ^ 64)
    (hfo : fileOffset < 2 ^ 64) :
    Extends bytes view (segmentOf bytes va memSize fileSize fileOffset perms i).toList
      (appendSegment bytes view (BitVec.ofNat 64 va) (BitVec.ofNat 64 memSize)
        (BitVec.ofNat 64 fileOffset) (BitVec.ofNat 64 fileSize) perms (BitVec.ofNat 32 i)) := by
  have efs : (BitVec.ofNat 64 fileSize).toNat = fileSize := by
    rw [BitVec.toNat_ofNat, Nat.mod_eq_of_lt hfs]
  have efo : (BitVec.ofNat 64 fileOffset).toNat = fileOffset := by
    rw [BitVec.toNat_ofNat, Nat.mod_eq_of_lt hfo]
  have ezero : BitVec.ofNat 64 memSize = 0#64 ↔ memSize = 0 := by
    constructor
    · intro h
      have := congrArg BitVec.toNat h
      rwa [BitVec.toNat_ofNat, Nat.mod_eq_of_lt hmem] at this
    · rintro rfl
      rfl
  rw [appendSegment, segmentOf, efs, efo]
  by_cases h0 : memSize = 0
  · rw [if_pos (ezero.mpr h0), if_pos h0]
    exact extends_nil view
  · rw [if_neg (fun h => h0 (ezero.mp h)), if_neg h0]
    split
    · exact Or.inl ⟨_, rfl⟩
    split
    · exact Or.inl ⟨_, rfl⟩
    next hr =>
    split
    · exact Or.inl ⟨_, rfl⟩
    have hrange : fileOffset + fileSize ≤ bytes.length := by
      rw [rangeOk] at hr
      simp only [Bool.not_eq_true, Bool.not_eq_false', decide_eq_true_eq] at hr
      omega
    rw [readBytes_eq hsize fileSize hrange]
    refine Or.inr ⟨rfl, fun s hs => ?_⟩
    rw [Option.toList_some, List.mem_singleton] at hs
    subst hs
    exact ⟨by rw [efs, efo]; exact hrange, by rw [efs, efo]⟩

omit hsize in
/-- **The loop over the headers** appends the segments of the headers in order, when every round
appends the segment of its header. -/
theorem headerLoop_extends {body : Nat → BinaryView → Option (Status × BinaryView)}
    {segment : Nat → Option BinarySegment} {count : Nat}
    (hbody : ∀ i < count, ∀ view, Extends bytes view (segment i).toList (body i view))
    (n : Nat) {i : Nat} (hi : i + n ≤ count) (view : BinaryView) :
    Extends bytes view ((List.range' i n).filterMap segment) (headerLoop body n i view) := by
  induction n generalizing i view with
  | zero => exact extends_nil view
  | succ n ih =>
    rw [headerLoop]
    rcases hbody i (by omega) view with ⟨v, hr⟩ | ⟨hr, hin⟩
    · rw [hr]
      exact Or.inl ⟨v, rfl⟩
    · rw [hr, Option.bind_some]
      have hsegs : (List.range' i (n + 1)).filterMap segment =
          (segment i).toList ++ (List.range' (i + 1) n).filterMap segment := by
        rw [List.range'_succ, List.filterMap_cons]
        cases segment i <;> rfl
      simp only [ne_eq, not_true_eq_false, if_false]
      rcases ih (i := i + 1) (by omega) (view.append (segment i).toList) with ⟨v, hr'⟩ | ⟨hr', hin'⟩
      · exact Or.inl ⟨v, hr'⟩
      · refine Or.inr ⟨?_, ?_⟩
        · rw [hsegs, hr']
          simp only [BinaryView.append, List.append_assoc]
        · intro s hs
          rw [hsegs, List.mem_append] at hs
          exact hs.elim (hin s) (hin' s)

end Segments

/-- What a parser returns: `XAIR_ERR_RANGE`, or `XAIR_ERR_UNSUPPORTED` with the view untouched
but for its architecture, or the segments of a layout whose marks the file has. -/
def Parsed (bytes : List Byte) (view : BinaryView) (layouts : List FileLayout)
    (r : Option (Status × BinaryView)) : Prop :=
  (∃ v, r = some (.errRange, v)) ∨ r = some (.errUnsupported, view) ∨
    ∃ l ∈ layouts, l.Marked bytes ∧ ∃ v, r = some (.ok, v) ∧ v.format = l.format ∧
      v.arch = some l.arch ∧ v.segments = l.segments bytes ∧ ∀ s ∈ v.segments, s.InFile bytes

/-- A loop over the headers of a layout, on a view without segments. -/
theorem parsed_of_extends {bytes : List Byte} {v view0 : BinaryView} {layouts : List FileLayout}
    {l : FileLayout} {r : Option (Status × BinaryView)} (h : Extends bytes v (l.segments bytes) r)
    (hl : l ∈ layouts) (hmark : l.Marked bytes) (hformat : v.format = l.format)
    (harch : v.arch = some l.arch) (hnil : v.segments = []) :
    Parsed bytes view0 layouts (r.map finishView) := by
  rcases h with ⟨v', rfl⟩ | ⟨rfl, hin⟩
  · exact Or.inl ⟨v', rfl⟩
  · have hsegs : (v.append (l.segments bytes)).segments = l.segments bytes := by
      rw [BinaryView.append, hnil, List.nil_append]
    simp only [Option.map_some, finishView]
    split
    · exact Or.inl ⟨_, rfl⟩
    · exact Or.inr (Or.inr ⟨l, hl, hmark, _, rfl, hformat, harch, hsegs, by rwa [hsegs]⟩)

/-! ### ELF -/

section Parsers

variable {bytes : List Byte} (hsize : bytes.length < 2 ^ 63)
include hsize

/-- The header `i` of a table that lies inside the file. -/
theorem tableEntry {base entry count i width : Nat} (hi : i < count) (hwidth : width ≤ entry)
    (h : base + entry * count ≤ bytes.length) :
    sizeAdd base (sizeMul i entry) = base + i * entry ∧ base + i * entry + width ≤ bytes.length := by
  have hmul : i * entry + entry ≤ entry * count := by
    calc i * entry + entry = entry * (i + 1) := by rw [Nat.mul_succ, Nat.mul_comm]
      _ ≤ entry * count := Nat.mul_le_mul_left entry hi
  have hmod : sizeMul i entry = i * entry := Nat.mod_eq_of_lt (by omega)
  exact ⟨by rw [hmod, sizeAdd_eq hsize (by omega)], by omega⟩

theorem parseElf64Header_extends {phoff phentsize count i : Nat} (hi : i < count)
    (hent : 56 ≤ phentsize) (h : phoff + phentsize * count ≤ bytes.length) (view : BinaryView) :
    Extends bytes view (elf64Layout.segment bytes (phoff + i * phentsize) i).toList
      (parseElf64Header bytes phoff phentsize i view) := by
  obtain ⟨hoff, hin⟩ := tableEntry hsize hi hent h
  have hadd : ∀ k, k ≤ 56 → sizeAdd (phoff + i * phentsize) k = phoff + i * phentsize + k :=
    fun k hk => sizeAdd_eq hsize (by omega)
  have htype := ofNat_field_eq bytes (n := 4) (phoff + i * phentsize) (k := 1) (by decide)
  rw [parseElf64Header, hoff]
  simp only [hadd 4 (by decide), hadd 8 (by decide), hadd 16 (by decide), hadd 32 (by decide),
    hadd 40 (by decide), readLe32_eq hsize (show phoff + i * phentsize + 4 ≤ _ by omega),
    readLe32_eq hsize (show phoff + i * phentsize + 4 + 4 ≤ _ by omega),
    readLe64_eq hsize (show phoff + i * phentsize + 8 + 8 ≤ _ by omega),
    readLe64_eq hsize (show phoff + i * phentsize + 16 + 8 ≤ _ by omega),
    readLe64_eq hsize (show phoff + i * phentsize + 32 + 8 ≤ _ by omega),
    readLe64_eq hsize (show phoff + i * phentsize + 40 + 8 ≤ _ by omega), Option.bind_some, htype,
    elfSegmentPerms_ofNat]
  rw [ProgramHeaderLayout.segment]
  by_cases ht : field bytes (phoff + i * phentsize) 4 = 1
  · rw [if_pos ht, if_pos ht]
    exact appendSegment_extends hsize view _ i (field_lt _ _ 8) (field_lt _ _ 8) (field_lt _ _ 8)
  · rw [if_neg ht, if_neg ht]
    exact extends_nil view

theorem parseElf32Header_extends {phoff phentsize count i : Nat} (hi : i < count)
    (hent : 32 ≤ phentsize) (h : phoff + phentsize * count ≤ bytes.length) (view : BinaryView) :
    Extends bytes view (elf32Layout.segment bytes (phoff + i * phentsize) i).toList
      (parseElf32Header bytes phoff phentsize i view) := by
  obtain ⟨hoff, hin⟩ := tableEntry hsize hi hent h
  have hadd : ∀ k, k ≤ 32 → sizeAdd (phoff + i * phentsize) k = phoff + i * phentsize + k :=
    fun k hk => sizeAdd_eq hsize (by omega)
  have htype := ofNat_field_eq bytes (n := 4) (phoff + i * phentsize) (k := 1) (by decide)
  rw [parseElf32Header, hoff]
  simp only [hadd 4 (by decide), hadd 8 (by decide), hadd 16 (by decide), hadd 20 (by decide),
    hadd 24 (by decide), readLe32_eq hsize (show phoff + i * phentsize + 4 ≤ _ by omega),
    readLe32_eq hsize (show phoff + i * phentsize + 4 + 4 ≤ _ by omega),
    readLe32_eq hsize (show phoff + i * phentsize + 8 + 4 ≤ _ by omega),
    readLe32_eq hsize (show phoff + i * phentsize + 16 + 4 ≤ _ by omega),
    readLe32_eq hsize (show phoff + i * phentsize + 20 + 4 ≤ _ by omega),
    readLe32_eq hsize (show phoff + i * phentsize + 24 + 4 ≤ _ by omega), Option.bind_some,
    htype, elfSegmentPerms_ofNat, setWidth_field]
  rw [ProgramHeaderLayout.segment]
  by_cases ht : field bytes (phoff + i * phentsize) 4 = 1
  · rw [if_pos ht, if_pos ht]
    exact appendSegment_extends hsize view _ i (field4_lt _) (field4_lt _) (field4_lt _)
  · rw [if_neg ht, if_neg ht]
    exact extends_nil view

omit hsize in
theorem rangeOk_iff {size offset need : Nat} :
    (!rangeOk size offset need) = true ↔ ¬ (offset + need ≤ size) := by
  rw [rangeOk, Bool.not_eq_true', decide_eq_false_iff_not]
  omega

omit hsize in
/-- The marks of `parse_elf_view` with the class byte. -/
theorem elfMarked {c : Byte} (hlen : 16 ≤ bytes.length)
    (hident : matchIdent bytes elfIdent = some true) (hc : readByte bytes 4 = some c) :
    bytes.take 6 = [0x7f#8, 0x45#8, 0x4c#8, 0x46#8, c, 1#8] := by
  simp only [elfIdent, matchIdent, readByte_eq (show 0 < bytes.length by omega),
    readByte_eq (show 1 < bytes.length by omega), readByte_eq (show 2 < bytes.length by omega),
    readByte_eq (show 3 < bytes.length by omega), readByte_eq (show 5 < bytes.length by omega),
    Option.bind_some] at hident
  rw [readByte_eq (show 4 < bytes.length by omega), Option.some.injEq] at hc
  have htake : (bytes.drop 0).take 6 =
      [bytes[0], bytes[1], bytes[2], bytes[3], bytes[4], bytes[5]] := by
    rw [take_succ_drop (by omega), take_succ_drop (by omega), take_succ_drop (by omega),
      take_succ_drop (by omega), take_succ_drop (by omega), take_succ_drop (by omega),
      List.take_zero]
  rw [List.drop_zero] at htake
  rw [htake, hc]
  grind

omit hsize in
/-- A table of headers that the checks of a parser let pass lies inside the file. -/
theorem tableInside {phoff phentsize count : Nat} (he : phentsize < 256 ^ 2) (hc : count < 256 ^ 2)
    (h : ¬ (!rangeOk bytes.length phoff (sizeMul phentsize count)) = true) :
    phoff + phentsize * count ≤ bytes.length := by
  have hmul : phentsize * count < 2 ^ 64 := by
    calc phentsize * count ≤ 256 ^ 2 * 256 ^ 2 := Nat.mul_le_mul he.le hc.le
      _ < 2 ^ 64 := by decide
  rw [rangeOk_iff, Decidable.not_not, sizeMul, Nat.mod_eq_of_lt hmul] at h
  exact h

theorem parseElf64View_parsed {view : BinaryView} (hview : view.segments = [])
    (hmark : bytes.take 6 = [0x7f#8, 0x45#8, 0x4c#8, 0x46#8, 2#8, 1#8]) :
    Parsed bytes view [.elf32, .elf64] (parseElf64View bytes view) := by
  rw [parseElf64View]
  split
  · exact Or.inl ⟨_, rfl⟩
  next hlen =>
  rw [rangeOk_iff, Decidable.not_not] at hlen
  have hmachine := ofNat_field_eq bytes (n := 2) 18 (k := 62) (by decide)
  simp only [readLe16_eq hsize (show 18 + 2 ≤ _ by omega),
    readLe64_eq hsize (show 24 + 8 ≤ _ by omega), readLe64_eq hsize (show 32 + 8 ≤ _ by omega),
    readLe16_eq hsize (show 54 + 2 ≤ _ by omega), readLe16_eq hsize (show 56 + 2 ≤ _ by omega),
    Option.bind_some, ne_eq, hmachine]
  split
  · exact Or.inr (Or.inl rfl)
  next hm =>
  rw [Decidable.not_not] at hm
  have hphoff := toNat_field bytes (n := 8) 32
  have hentsize := toNat_field bytes (n := 2) 54
  have hnum := toNat_field bytes (n := 2) 56
  simp only [Nat.reduceMul] at hphoff hentsize hnum
  rw [hphoff, hentsize, hnum]
  split
  · exact Or.inl ⟨_, rfl⟩
  next hchecks =>
  rw [not_or, not_or, not_or] at hchecks
  obtain ⟨-, hent, -, hrange⟩ := hchecks
  have hin := tableInside (field_lt _ _ 2) (field_lt _ _ 2) hrange
  have hext : Extends bytes (elfView view .x8664 (BitVec.ofNat 64 (field bytes 24 8)))
      (elf64Segments bytes) (headerLoop (parseElf64Header bytes (field bytes 32 8) (field bytes 54 2))
        (field bytes 56 2) 0 (elfView view .x8664 (BitVec.ofNat 64 (field bytes 24 8)))) := by
    rw [elf64Segments, List.range_eq_range']
    exact headerLoop_extends
      (fun i hi v => parseElf64Header_extends hsize hi (by omega) hin v) _ (by omega) _
  exact parsed_of_extends (l := .elf64) hext (by simp) ⟨hmark, hm⟩ rfl rfl hview

theorem parseElf32View_parsed {view : BinaryView} (hview : view.segments = [])
    (hmark : bytes.take 6 = [0x7f#8, 0x45#8, 0x4c#8, 0x46#8, 1#8, 1#8]) :
    Parsed bytes view [.elf32, .elf64] (parseElf32View bytes view) := by
  rw [parseElf32View]
  split
  · exact Or.inl ⟨_, rfl⟩
  next hlen =>
  rw [rangeOk_iff, Decidable.not_not] at hlen
  have hmachine := ofNat_field_eq bytes (n := 2) 18 (k := 3) (by decide)
  simp only [readLe16_eq hsize (show 18 + 2 ≤ _ by omega),
    readLe32_eq hsize (show 24 + 4 ≤ _ by omega), readLe32_eq hsize (show 28 + 4 ≤ _ by omega),
    readLe16_eq hsize (show 42 + 2 ≤ _ by omega), readLe16_eq hsize (show 44 + 2 ≤ _ by omega),
    Option.bind_some, ne_eq, hmachine]
  split
  · exact Or.inr (Or.inl rfl)
  next hm =>
  rw [Decidable.not_not] at hm
  have hphoff := toNat_field bytes (n := 4) 28
  have hentsize := toNat_field bytes (n := 2) 42
  have hnum := toNat_field bytes (n := 2) 44
  simp only [Nat.reduceMul] at hphoff hentsize hnum
  rw [hphoff, hentsize, hnum]
  split
  · exact Or.inl ⟨_, rfl⟩
  next hchecks =>
  rw [not_or, not_or] at hchecks
  obtain ⟨hent, -, hrange⟩ := hchecks
  have hin := tableInside (field_lt _ _ 2) (field_lt _ _ 2) hrange
  have hext : Extends bytes (elfView view .x8632 ((BitVec.ofNat 32 (field bytes 24 4)).setWidth 64))
      (elf32Segments bytes) (headerLoop (parseElf32Header bytes (field bytes 28 4) (field bytes 42 2))
        (field bytes 44 2) 0 (elfView view .x8632 ((BitVec.ofNat 32 (field bytes 24 4)).setWidth 64))) := by
    rw [elf32Segments, List.range_eq_range']
    exact headerLoop_extends
      (fun i hi v => parseElf32Header_extends hsize hi (by omega) hin v) _ (by omega) _
  exact parsed_of_extends (l := .elf32) hext (by simp) ⟨hmark, hm⟩ rfl rfl hview

omit hsize in
theorem matchIdent_ne_none {ident : List (Nat × Byte)} (h : ∀ p ∈ ident, p.1 < bytes.length) :
    ∃ b, matchIdent bytes ident = some b := by
  induction ident with
  | nil => exact ⟨true, rfl⟩
  | cons p rest ih =>
    have hp := h p List.mem_cons_self
    rw [matchIdent, readByte_eq hp, Option.bind_some]
    split
    · exact ⟨false, rfl⟩
    · exact ih fun q hq => h q (List.mem_cons_of_mem p hq)

theorem parseElfView_parsed (view : BinaryView) (hview : view.segments = []) :
    Parsed bytes view [.elf32, .elf64] (parseElfView bytes view) := by
  rw [parseElfView]
  split
  · exact Or.inr (Or.inl rfl)
  next hlen =>
  rw [rangeOk_iff, Decidable.not_not] at hlen
  obtain ⟨ident, hident⟩ : ∃ b, matchIdent bytes elfIdent = some b := matchIdent_ne_none (by
    intro p hp
    simp only [elfIdent, List.mem_cons, List.not_mem_nil, or_false] at hp
    rcases hp with rfl | rfl | rfl | rfl | rfl <;> simp only <;> omega)
  rw [hident, Option.bind_some]
  cases ident with
  | false => exact Or.inr (Or.inl rfl)
  | true =>
    have hc := readByte_eq (show 4 < bytes.length by omega)
    simp only [Bool.not_true, Bool.false_eq_true, if_false, hc, Option.bind_some]
    split
    · next h1 => exact parseElf32View_parsed hsize hview (elfMarked (by omega) hident (h1 ▸ hc))
    split
    · next h2 => exact parseElf64View_parsed hsize hview (elfMarked (by omega) hident (h2 ▸ hc))
    · exact Or.inr (Or.inl rfl)

/-! ### PE -/

theorem parsePeSection_extends {imageBase sectionOffset count i : Nat} (hi : i < count)
    (h : sectionOffset + 40 * count ≤ bytes.length) (view : BinaryView) :
    Extends bytes view (peSegment bytes imageBase (sectionOffset + i * 40) i).toList
      (parsePeSection bytes (BitVec.ofNat 64 imageBase) sectionOffset i view) := by
  obtain ⟨hoff, hin⟩ := tableEntry hsize hi (le_refl 40) h
  have hadd : ∀ k, k ≤ 40 → sizeAdd (sectionOffset + i * 40) k = sectionOffset + i * 40 + k :=
    fun k hk => sizeAdd_eq hsize (by omega)
  have hmax : ∀ a b : Nat, a < 2 ^ 64 → b < 2 ^ 64 →
      maxU64 (BitVec.ofNat 64 a) (BitVec.ofNat 64 b) = BitVec.ofNat 64 (max a b) := by
    intro a b ha hb
    have hlt : BitVec.ofNat 64 b < BitVec.ofNat 64 a ↔ b < a := by
      rw [BitVec.lt_def, BitVec.toNat_ofNat, BitVec.toNat_ofNat, Nat.mod_eq_of_lt ha,
        Nat.mod_eq_of_lt hb]
    rw [maxU64]
    simp only [hlt]
    split
    · rw [Nat.max_eq_left (by omega)]
    · rw [Nat.max_eq_right (by omega)]
  rw [parsePeSection, hoff]
  simp only [hadd 8 (by decide), hadd 12 (by decide), hadd 16 (by decide), hadd 20 (by decide),
    hadd 36 (by decide), readLe32_eq hsize (show sectionOffset + i * 40 + 8 + 4 ≤ _ by omega),
    readLe32_eq hsize (show sectionOffset + i * 40 + 12 + 4 ≤ _ by omega),
    readLe32_eq hsize (show sectionOffset + i * 40 + 16 + 4 ≤ _ by omega),
    readLe32_eq hsize (show sectionOffset + i * 40 + 20 + 4 ≤ _ by omega),
    readLe32_eq hsize (show sectionOffset + i * 40 + 36 + 4 ≤ _ by omega), Option.bind_some,
    peSectionPerms_ofNat, setWidth_field, hmax _ _ (field4_lt _) (field4_lt _), ← BitVec.ofNat_add]
  exact appendSegment_extends hsize view _ i (max_lt (field4_lt _) (field4_lt _)) (field4_lt _)
    (field4_lt _)

/-- The section table of a PE file whose optional header gives the image base. -/
theorem parsePeSections_parsed {l : FileLayout} {imageBase sectionOffset count : Nat}
    {arch : Arch} (entryRva : BitVec 32) {view : BinaryView} (hview : view.segments = [])
    (hl : l ∈ [FileLayout.pe32, .pe64]) (hformat : l.format = .pe) (harch : l.arch = arch)
    (hmark : l.Marked bytes) (hcount : count < 256 ^ 2)
    (hsegs : l.segments bytes = (List.range count).filterMap fun i =>
      peSegment bytes imageBase (sectionOffset + i * 40) i) :
    Parsed bytes view [.pe32, .pe64] (parsePeSections bytes arch (BitVec.ofNat 64 imageBase) entryRva
      sectionOffset count view) := by
  rw [parsePeSections]
  split
  · exact Or.inl ⟨_, rfl⟩
  next hrange =>
  have hin : sectionOffset + 40 * count ≤ bytes.length := by
    rw [rangeOk_iff, Decidable.not_not, sizeMul, Nat.mod_eq_of_lt (by omega)] at hrange
    omega
  have hloop : ∀ v : BinaryView, Extends bytes v (l.segments bytes)
      (headerLoop (parsePeSection bytes (BitVec.ofNat 64 imageBase) sectionOffset) count 0 v) := by
    intro v
    rw [hsegs, List.range_eq_range']
    exact headerLoop_extends (fun i hi v => parsePeSection_extends hsize hi hin v) _ (by omega) _
  exact parsed_of_extends (hloop _) hl hmark hformat.symm (congrArg some harch.symm) hview

theorem parsePeView_parsed (view : BinaryView) (hview : view.segments = []) :
    Parsed bytes view [.pe32, .pe64] (parsePeView bytes view) := by
  rw [parsePeView]
  split
  · exact Or.inr (Or.inl rfl)
  next hlen =>
  rw [rangeOk_iff, Decidable.not_not] at hlen
  rw [readByte_eq (show 0 < bytes.length by omega), Option.bind_some]
  split
  · exact Or.inr (Or.inl rfl)
  next hM =>
  rw [readByte_eq (show 1 < bytes.length by omega), Option.bind_some]
  split
  · exact Or.inr (Or.inl rfl)
  next hZ =>
  have hmz : bytes.take 2 = [0x4d#8, 0x5a#8] := by
    have htake : (bytes.drop 0).take 2 = [bytes[0], bytes[1]] := by
      rw [take_succ_drop (by omega), take_succ_drop (by omega), List.take_zero]
    rw [List.drop_zero, Decidable.not_not.mp hM, Decidable.not_not.mp hZ] at htake
    exact htake
  have hpe := toNat_field bytes (n := 4) 0x3c
  simp only [Nat.reduceMul] at hpe
  rw [readLe32_eq hsize (by omega), Option.bind_some, hpe]
  split
  · exact Or.inr (Or.inl rfl)
  next hcoff =>
  rw [rangeOk_iff, Decidable.not_not] at hcoff
  rw [readBytes_eq hsize 4 (by omega), Option.bind_some]
  split
  · exact Or.inr (Or.inl rfl)
  next hsig =>
  rw [ne_eq, Decidable.not_not] at hsig
  have hcoffset : sizeAdd (field bytes 0x3c 4) 4 = peCoff bytes := sizeAdd_eq hsize (by omega)
  have hpecoff : peCoff bytes = field bytes 0x3c 4 + 4 := rfl
  have hadd : ∀ k, k ≤ 20 → sizeAdd (peCoff bytes) k = peCoff bytes + k :=
    fun k hk => sizeAdd_eq hsize (by omega)
  rw [hcoffset, parsePeCoff]
  have hcount := toNat_field bytes (n := 2) (peCoff bytes + 2)
  have hoptsize := toNat_field bytes (n := 2) (peCoff bytes + 16)
  simp only [Nat.reduceMul] at hcount hoptsize
  simp only [hadd 2 (by decide), hadd 16 (by decide), hadd 20 (by decide),
    readLe16_eq hsize (show peCoff bytes + 2 ≤ _ by omega),
    readLe16_eq hsize (show peCoff bytes + 2 + 2 ≤ _ by omega),
    readLe16_eq hsize (show peCoff bytes + 16 + 2 ≤ _ by omega), Option.bind_some, hcount, hoptsize]
  rw [parsePeOptional]
  split
  · exact Or.inl ⟨_, rfl⟩
  next hopt =>
  rw [Bool.or_eq_true, rangeOk_iff, decide_eq_true_eq, not_or, Decidable.not_not] at hopt
  obtain ⟨hoptin, hopt32⟩ := hopt
  have haddo : ∀ k, k ≤ 32 → sizeAdd (peCoff bytes + 20) k = peCoff bytes + 20 + k :=
    fun k hk => sizeAdd_eq hsize (by omega)
  have hmachine := fun (k : Nat) (hk : k < 256 ^ 2) =>
    ofNat_field_eq bytes (n := 2) (peCoff bytes) hk
  have hmagic := fun (k : Nat) (hk : k < 256 ^ 2) =>
    ofNat_field_eq bytes (n := 2) (peCoff bytes + 20) hk
  have hsection : sizeAdd (peCoff bytes + 20) (field bytes (peCoff bytes + 16) 2) =
      peCoff bytes + 20 + field bytes (peCoff bytes + 16) 2 := sizeAdd_eq hsize (by omega)
  simp only [haddo 16 (by decide), haddo 24 (by decide), haddo 28 (by decide),
    readLe16_eq hsize (show peCoff bytes + 20 + 2 ≤ _ by omega),
    readLe32_eq hsize (show peCoff bytes + 20 + 16 + 4 ≤ _ by omega),
    readLe32_eq hsize (show peCoff bytes + 20 + 28 + 4 ≤ _ by omega),
    readLe64_eq hsize (show peCoff bytes + 20 + 24 + 8 ≤ _ by omega), Option.bind_some, hsection,
    hmachine 0x8664 (by decide), hmachine 0x14c (by decide), hmagic 0x20b (by decide),
    hmagic 0x10b (by decide), setWidth_field]
  split
  · next h64 =>
    exact parsePeSections_parsed hsize (l := .pe64) _ hview (by simp) rfl rfl
      ⟨hmz, hsig, h64.1, h64.2⟩ (field_lt _ _ 2) rfl
  split
  · next h32 =>
    exact parsePeSections_parsed hsize (l := .pe32) _ hview (by simp) rfl rfl
      ⟨hmz, hsig, h32.1, h32.2⟩ (field_lt _ _ 2) rfl
  · exact Or.inr (Or.inl rfl)

end Parsers

/-! ### The parser -/

/-- A load is refused with an empty view, or it returns the segments of a layout whose marks
the file has. -/
theorem binaryViewLoad_cases (file : FileBytes) :
    (∃ e, e ≠ Status.ok ∧ binaryViewLoad file = some (e, BinaryView.empty)) ∨
      ∃ l : FileLayout, l.Marked file.bytes ∧ ∃ view, binaryViewLoad file = some (.ok, view) ∧
        view.format = l.format ∧ view.arch = some l.arch ∧ view.segments = l.segments file.bytes ∧
        ∀ s ∈ view.segments, s.InFile file.bytes := by
  rw [binaryViewLoad]
  rcases parseElfView_parsed file.size_lt BinaryView.empty rfl with
    ⟨v, hr⟩ | hr | ⟨l, -, hmark, v, hr, h⟩
  · rw [hr]
    exact .inl ⟨.errRange, by decide, rfl⟩
  · rw [hr, Option.bind_some]
    simp only [if_true]
    rcases parsePeView_parsed file.size_lt BinaryView.empty rfl with
      ⟨v, hr⟩ | hr | ⟨l, -, hmark, v, hr, h⟩
    · rw [hr]
      exact .inl ⟨.errRange, by decide, rfl⟩
    · rw [hr]
      exact .inl ⟨.errUnsupported, by decide, rfl⟩
    · rw [hr]
      exact .inr ⟨l, hmark, v, rfl, h⟩
  · rw [hr]
    exact .inr ⟨l, hmark, v, rfl, h⟩

/-- **The parser is in-bounds and faithful.**  It never reads at or beyond the end of the file.
When it succeeds the file has the marks of a layout, the view's segments are those of the
layout's headers that take memory, in order, and each of them lies inside the file and has its
bytes.  Otherwise the view is empty. -/
theorem binaryViewLoad_faithful (file : FileBytes) :
    ∃ status view, binaryViewLoad file = some (status, view) ∧
      (status ≠ .ok → view = BinaryView.empty) ∧
      (status = .ok → ∃ l : FileLayout, l.Marked file.bytes ∧ view.format = l.format ∧
        view.arch = some l.arch ∧ view.segments = l.segments file.bytes ∧
        ∀ s ∈ view.segments, s.InFile file.bytes) := by
  rcases binaryViewLoad_cases file with ⟨e, he, hload⟩ | ⟨l, hmark, view, hload, h⟩
  · exact ⟨e, BinaryView.empty, hload, fun _ => rfl, fun hok => absurd hok he⟩
  · exact ⟨.ok, view, hload, fun hne => absurd rfl hne, fun _ => ⟨l, hmark, h⟩⟩

end Xair
