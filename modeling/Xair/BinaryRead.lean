import Mathlib.Data.List.Pairwise
import Xair.BinaryView

/-!
# Reading a view

`xair_binary_view_find_segment`, `xair_binary_view_read` and the image that
`xair_binary_load_path` copies out of a view.  A segment is looked up by the extent it has
in memory and read by the extent it has in the file (`binaryViewLoad_extents`), and a read
looks up the segment of its first byte only (`binaryViewRead_consistent`).
-/

namespace Xair

/-- `xair_binary_view_find_segment`. -/
def binaryViewFindSegment (view : BinaryView) (va : Word) (requiredPerms : BitVec 32) :
    Option BinarySegment :=
  view.segments.find? fun segment =>
    segment.perms &&& requiredPerms == requiredPerms && decide (segment.va ≤ va) &&
      decide (va - segment.va < segment.memSize)

/-- `xair_binary_view_read`.  A segment holds the `file_size` bytes that `append_segment` has
copied. -/
def binaryViewRead (view : BinaryView) (va : Word) (size : Nat) : Except Status (List Byte) :=
  match binaryViewFindSegment view va 0#32 with
  | none => .error .errRange
  | some segment =>
    let offset := va - segment.va
    if segment.fileSize < offset ∨ (segment.fileSize - offset).toNat < size then .error .errRange
    else .ok ((segment.bytes.drop offset.toNat).take size)

/-- `xair_binary_image`; `segment_size` is the number of bytes. -/
structure BinaryImage where
  format : BinaryFormat
  arch : Option Arch
  entry : Word
  imageBase : Word
  segmentBase : Word
  segmentBytes : List Byte
  deriving DecidableEq, Repr

/-- The image after `memset`. -/
def BinaryImage.empty : BinaryImage := ⟨.unknown, none, 0#64, 0#64, 0#64, []⟩

/-- The segment that `xair_binary_load_path` copies: one with the entry that can be executed,
or else any with the entry. -/
def binaryEntrySegment (view : BinaryView) : Option BinarySegment :=
  match binaryViewFindSegment view view.entry binaryPermExec with
  | some segment => some segment
  | none => binaryViewFindSegment view view.entry 0#32

/-- `xair_binary_load_path` after `read_file`. -/
def binaryLoad (file : FileBytes) : Option (Status × BinaryImage) :=
  (binaryViewLoad file).bind fun (status, view) =>
  if status ≠ .ok then some (status, BinaryImage.empty)
  else
    match binaryEntrySegment view with
    | none => some (.errRange, BinaryImage.empty)
    | some segment =>
      if sizeMax < segment.fileSize.toNat then some (.errRange, BinaryImage.empty)
      else
        some (.ok, ⟨view.format, view.arch, view.entry, view.imageBase, segment.va,
          segment.bytes.take segment.fileSize.toNat⟩)

/-! ### Lookups and reads -/

section Reads

variable {view : BinaryView} {va : Word} {perms : BitVec 32} {segment : BinarySegment}

/-- The address, as a number, lies in the memory of the segment. -/
def BinarySegment.Covers (segment : BinarySegment) (address : Nat) : Prop :=
  segment.va.toNat ≤ address ∧ address < segment.va.toNat + segment.memSize.toNat

theorem binaryViewFindSegment_some (h : binaryViewFindSegment view va perms = some segment) :
    segment ∈ view.segments ∧ segment.va ≤ va ∧ va - segment.va < segment.memSize := by
  have hp := List.find?_some h
  simp only [Bool.and_eq_true, decide_eq_true_eq] at hp
  exact ⟨List.mem_of_find?_eq_some h, hp.1.2, hp.2⟩

theorem toNat_sub_va (h : segment.va ≤ va) :
    (va - segment.va).toNat = va.toNat - segment.va.toNat :=
  BitVec.toNat_sub_of_le h

theorem binaryViewRead_ok {size : Nat} {bytes : List Byte}
    (h : binaryViewRead view va size = .ok bytes) :
    ∃ segment, binaryViewFindSegment view va 0#32 = some segment ∧
      va.toNat - segment.va.toNat + size ≤ segment.fileSize.toNat ∧
      bytes = (segment.bytes.drop (va.toNat - segment.va.toNat)).take size := by
  unfold binaryViewRead at h
  split at h
  · cases h
  · next segment hfind =>
    obtain ⟨-, hle, -⟩ := binaryViewFindSegment_some hfind
    dsimp only at h
    split at h
    · cases h
    · next hin =>
      rw [not_or, BitVec.not_lt] at hin
      obtain ⟨hoff, hsize⟩ := hin
      rw [BitVec.toNat_sub_of_le hoff, toNat_sub_va hle] at hsize
      rw [BitVec.le_def, toNat_sub_va hle] at hoff
      cases h
      refine ⟨segment, hfind, by omega, ?_⟩
      rw [toNat_sub_va hle]

end Reads

/-! ### Extents -/

/-- The program header at `off`, when it is loaded and takes memory, has no more bytes in the
file than in memory. -/
def ProgramHeaderLayout.Fits (l : ProgramHeaderLayout) (bytes : List Byte) (off : Nat) : Prop :=
  field bytes off 4 = 1 → field bytes (off + l.memsz) l.word ≠ 0 →
    field bytes (off + l.filesz) l.word ≤ field bytes (off + l.memsz) l.word

/-- The program headers of an ELF file fit; the extents of a PE section are made to. -/
def FileLayout.HeadersFit (bytes : List Byte) : FileLayout → Prop
  | .elf32 => ∀ i < field bytes 44 2,
      elf32Layout.Fits bytes (field bytes 28 4 + i * field bytes 42 2)
  | .elf64 => ∀ i < field bytes 56 2,
      elf64Layout.Fits bytes (field bytes 32 8 + i * field bytes 54 2)
  | .pe32 | .pe64 => True

/-- The bytes that the file gives to a segment have their addresses in the segment. -/
structure ExtentsKept (file : FileBytes) (view : BinaryView) : Prop where
  segments : ∀ s ∈ view.segments, s.fileSize ≤ s.memSize
  reads : ∀ va size bytes, binaryViewRead view va size = .ok bytes →
    ∃ s, binaryViewFindSegment view va 0#32 = some s ∧ bytes.length = size ∧
      ∀ i < size, s.Covers (va.toNat + i)
  image : ∀ image, binaryLoad file = some (.ok, image) →
    ∃ s, binaryEntrySegment view = some s ∧ image.segmentBase = s.va ∧
      ∀ i < image.segmentBytes.length, s.Covers (image.segmentBase.toNat + i)

section Extents

variable {bytes : List Byte}

theorem segmentOf_fits {va memSize fileSize fileOffset : Nat} {perms : BitVec 32} {i : Nat}
    (hmem : memSize < 2 ^ 64) (hfile : fileSize < 2 ^ 64) :
    (∀ s, segmentOf bytes va memSize fileSize fileOffset perms i = some s →
      s.fileSize ≤ s.memSize) ↔ (memSize ≠ 0 → fileSize ≤ memSize) := by
  have hle : BitVec.ofNat 64 fileSize ≤ BitVec.ofNat 64 memSize ↔ fileSize ≤ memSize := by
    rw [BitVec.le_def, BitVec.toNat_ofNat, BitVec.toNat_ofNat, Nat.mod_eq_of_lt hmem,
      Nat.mod_eq_of_lt hfile]
  rw [segmentOf]
  split
  · next h0 => exact ⟨fun _ h => absurd h0 h, fun _ s hs => absurd hs (by simp)⟩
  · next h0 =>
    constructor
    · intro h _
      exact hle.mp (h _ rfl)
    · rintro h s ⟨⟩
      exact hle.mpr (h h0)

theorem field_word_lt {n : Nat} (hn : n ≤ 8) (offset : Nat) : field bytes offset n < 2 ^ 64 :=
  Nat.lt_of_lt_of_le (field_lt bytes offset n) (Nat.pow_le_pow_right (by decide) hn)

theorem ProgramHeaderLayout.fits_iff {l : ProgramHeaderLayout} (hl : l.word ≤ 8) (off i : Nat) :
    (∀ s, l.segment bytes off i = some s → s.fileSize ≤ s.memSize) ↔ l.Fits bytes off := by
  rw [ProgramHeaderLayout.segment, ProgramHeaderLayout.Fits]
  split
  · next h1 =>
    rw [segmentOf_fits (field_word_lt hl _) (field_word_lt hl _)]
    exact ⟨fun h _ => h, fun h => h h1⟩
  · next h1 => exact ⟨fun _ h => absurd h h1, fun _ s hs => absurd hs (by simp)⟩

theorem peSegment_fits (imageBase off i : Nat) (s : BinarySegment)
    (h : peSegment bytes imageBase off i = some s) : s.fileSize ≤ s.memSize :=
  (segmentOf_fits (Nat.max_lt.mpr ⟨field_word_lt (by decide) _, field_word_lt (by decide) _⟩)
    (field_word_lt (by decide) _)).mpr (fun _ => Nat.le_max_right _ _) s h

theorem forall_mem_table {n : Nat} {header : Nat → Option BinarySegment} {P : BinarySegment → Prop}
    {Q : Nat → Prop} (h : ∀ i, (∀ s, header i = some s → P s) ↔ Q i) :
    (∀ s ∈ (List.range n).filterMap header, P s) ↔ ∀ i < n, Q i := by
  constructor
  · intro hs i hi
    exact (h i).mp fun s hh => hs s (List.mem_filterMap.mpr ⟨i, List.mem_range.mpr hi, hh⟩)
  · intro hq s hs
    obtain ⟨i, hi, hh⟩ := List.mem_filterMap.mp hs
    exact (h i).mpr (hq i (List.mem_range.mp hi)) s hh

theorem FileLayout.segments_fit (l : FileLayout) :
    (∀ s ∈ l.segments bytes, s.fileSize ≤ s.memSize) ↔ l.HeadersFit bytes := by
  cases l with
  | elf32 => exact forall_mem_table fun i => ProgramHeaderLayout.fits_iff (by decide) _ i
  | elf64 => exact forall_mem_table fun i => ProgramHeaderLayout.fits_iff (by decide) _ i
  | pe32 | pe64 =>
    refine ⟨fun _ => trivial, fun _ s hs => ?_⟩
    obtain ⟨i, -, hh⟩ := List.mem_filterMap.mp hs
    exact peSegment_fits _ _ _ s hh

theorem FileLayout.marked_unique {l k : FileLayout} (hl : l.Marked bytes) (hk : k.Marked bytes) :
    l = k := by
  have hfirst : ∀ a b : Byte, ∀ xs ys : List Byte, bytes.take 6 = a :: xs →
      bytes.take 2 = b :: ys → a = b := by
    intro a b xs ys h6 h2
    cases bytes with
    | nil => simp at h6
    | cons c cs =>
      simp only [List.take_succ_cons, List.cons.injEq] at h6 h2
      exact h6.1.symm.trans h2.1
  cases l <;> cases k <;> simp only [FileLayout.Marked] at hl hk <;> try rfl
  all_goals first
    | exact absurd (hl.1.symm.trans hk.1) (by decide)
    | exact absurd (hfirst _ _ _ _ hl.1 hk.1) (by decide)
    | exact absurd (hfirst _ _ _ _ hk.1 hl.1) (by decide)
    | exact absurd (hl.2.2.1.symm.trans hk.2.2.1) (by decide)

/-- A segment that fits covers the address of each byte that the file gives to it. -/
theorem BinarySegment.covers_of_fits {s : BinarySegment} (h : s.fileSize ≤ s.memSize)
    {address : Nat} (hle : s.va.toNat ≤ address)
    (hlt : address - s.va.toNat < s.fileSize.toNat) : s.Covers address := by
  rw [BitVec.le_def] at h
  exact ⟨hle, by omega⟩

theorem binaryViewRead_length {view : BinaryView} {va : Word} {size : Nat} {read : List Byte}
    (hin : ∀ s ∈ view.segments, s.InFile bytes) (h : binaryViewRead view va size = .ok read) :
    read.length = size := by
  obtain ⟨s, hfind, hsize, rfl⟩ := binaryViewRead_ok h
  obtain ⟨hrange, hbytes⟩ := hin s (binaryViewFindSegment_some hfind).1
  have hlen : s.bytes.length = s.fileSize.toNat := by
    rw [hbytes, List.length_take, List.length_drop]
    omega
  rw [List.length_take, List.length_drop, hlen]
  omega

theorem binaryEntrySegment_mem {view : BinaryView} {s : BinarySegment}
    (h : binaryEntrySegment view = some s) : s ∈ view.segments := by
  rw [binaryEntrySegment] at h
  split at h
  · next hfind => exact Option.some.inj h ▸ (binaryViewFindSegment_some hfind).1
  · exact (binaryViewFindSegment_some h).1

/-- An image is the copy of the segment of the entry. -/
theorem binaryLoad_image {file : FileBytes} {view : BinaryView} {image : BinaryImage}
    (hload : binaryViewLoad file = some (.ok, view)) (h : binaryLoad file = some (.ok, image)) :
    ∃ s, binaryEntrySegment view = some s ∧ image.segmentBase = s.va ∧
      image.segmentBytes = s.bytes.take s.fileSize.toNat := by
  rw [binaryLoad, hload, Option.bind_some] at h
  simp only [ne_eq, not_true_eq_false, if_false] at h
  cases hfind : binaryEntrySegment view with
  | none => simp [hfind] at h
  | some s =>
    rw [hfind] at h
    dsimp only at h
    split at h
    · cases h
    · cases h
      exact ⟨s, rfl, rfl, rfl⟩

/-- The segments of a view that fit keep all extents. -/
theorem extentsKept_of_fits {file : FileBytes} {view : BinaryView}
    (hload : binaryViewLoad file = some (.ok, view))
    (hin : ∀ s ∈ view.segments, s.InFile file.bytes)
    (hfit : ∀ s ∈ view.segments, s.fileSize ≤ s.memSize) : ExtentsKept file view where
  segments := hfit
  reads := by
    intro va size read h
    obtain ⟨s, hfind, hsize, -⟩ := binaryViewRead_ok h
    obtain ⟨hmem, hle, -⟩ := binaryViewFindSegment_some hfind
    rw [BitVec.le_def] at hle
    refine ⟨s, hfind, binaryViewRead_length hin h, fun i hi => ?_⟩
    exact BinarySegment.covers_of_fits (hfit s hmem) (by omega) (by omega)
  image := by
    intro image h
    obtain ⟨s, hfind, hbase, hbytes⟩ := binaryLoad_image hload h
    refine ⟨s, hfind, hbase, fun i hi => ?_⟩
    rw [hbase]
    rw [hbytes, List.length_take] at hi
    exact BinarySegment.covers_of_fits (hfit s (binaryEntrySegment_mem hfind)) (by omega) (by omega)

/-- **A view keeps the extents of its segments when its headers do.**  After a load that
succeeds, no segment has more bytes in the file than in memory, and every byte that a read
delivers or an image holds has its address in the segment that was looked up, exactly when each
`PT_LOAD` header of an ELF file fits.  The extents of a PE section always do. -/
theorem binaryViewLoad_extents {file : FileBytes} {view : BinaryView}
    (hload : binaryViewLoad file = some (.ok, view)) :
    ExtentsKept file view ↔ ∀ l : FileLayout, l.Marked file.bytes → l.HeadersFit file.bytes := by
  rcases binaryViewLoad_cases file with
    ⟨e, he, href⟩ | ⟨l, hmark, view', hload', -, -, hsegs, hin⟩
  · rw [hload] at href
    cases href
    exact absurd rfl he
  · rw [hload] at hload'
    cases hload'
    rw [hsegs] at hin
    constructor
    · intro h k hk
      rw [← FileLayout.marked_unique hmark hk, ← FileLayout.segments_fit, ← hsegs]
      exact h.segments
    · intro h
      have hfit := (FileLayout.segments_fit l).mpr (h l hmark)
      exact extentsKept_of_fits hload (hsegs ▸ hin) (hsegs ▸ hfit)

end Extents

/-- The header of an ELF32 file whose program headers follow it. -/
def elf32Start (entry phnum : Byte) : List Byte :=
  [0x7f, 0x45, 0x4c, 0x46, 1, 1] ++ List.replicate 12 0 ++ [3] ++ List.replicate 5 0 ++ [entry] ++
    List.replicate 3 0 ++ [52] ++ List.replicate 13 0 ++ [32, 0, phnum] ++ List.replicate 7 0

/-- A `PT_LOAD` header whose numbers are bytes. -/
def elf32Load (fileOffset va filesz memsz : Byte) : List Byte :=
  [1, 0, 0, 0, fileOffset, 0, 0, 0, va, 0, 0, 0] ++ List.replicate 4 0 ++
    [filesz, 0, 0, 0, memsz, 0, 0, 0] ++ List.replicate 8 0

/-- A segment of one byte of the file and four bytes of memory. -/
def shortFile : FileBytes := ⟨elf32Start 16 1 ++ elf32Load 0 16 1 4, by decide⟩

/-- A segment of four bytes of the file and one byte of memory. -/
def longFile : FileBytes := ⟨elf32Start 16 1 ++ elf32Load 0 16 4 1, by decide⟩

/-- The view of a file of one segment at 16, which begins at the start of the file. -/
def oneSegment (memSize fileSize : Word) (bytes : List Byte) : BinaryView :=
  ⟨.elf, some .x8632, 16#64, 0#64, [⟨16#64, memSize, fileSize, 0#64, 0#32, 0#32, bytes⟩]⟩

set_option maxRecDepth 4000 in
theorem binaryViewLoad_extents_short :
    ExtentsKept shortFile (oneSegment 4#64 1#64 [0x7f#8]) ↔
      ∀ l : FileLayout, l.Marked shortFile.bytes → l.HeadersFit shortFile.bytes :=
  binaryViewLoad_extents (by decide)

set_option maxRecDepth 4000 in
/-- The one segment of `longFile` has four bytes of the file and one byte of memory. -/
theorem binaryViewLoad_extents_long :
    ¬ ∀ file view, binaryViewLoad file = some (.ok, view) → ExtentsKept file view := by
  intro h
  have hload : binaryViewLoad longFile =
      some (.ok, oneSegment 1#64 4#64 [0x7f#8, 0x45#8, 0x4c#8, 0x46#8]) := by decide
  have hseg := (h _ _ hload).segments _ List.mem_cons_self
  exact absurd hseg (by decide)

/-! ### Consistency -/

/-- No address lies in both segments. -/
def BinarySegment.Apart (s t : BinarySegment) : Prop := ∀ a, ¬ (s.Covers a ∧ t.Covers a)

instance : Std.Symm BinarySegment.Apart := ⟨fun _ _ h a hc => h a hc.symm⟩

/-- The segments are apart, and none has more bytes in the file than in memory. -/
structure BinaryView.Disjoint (view : BinaryView) : Prop where
  apart : view.segments.Pairwise BinarySegment.Apart
  fits : ∀ s ∈ view.segments, s.fileSize ≤ s.memSize

section Consistent

variable {view : BinaryView} {va : Word} {s t : BinarySegment}

/-- The lookup finds a segment that covers the address. -/
theorem binaryViewFindSegment_covers {perms : BitVec 32}
    (h : binaryViewFindSegment view va perms = some s) : s ∈ view.segments ∧ s.Covers va.toNat := by
  obtain ⟨hmem, hle, hlt⟩ := binaryViewFindSegment_some h
  rw [BitVec.lt_def, toNat_sub_va hle] at hlt
  rw [BitVec.le_def] at hle
  exact ⟨hmem, hle, by omega⟩

/-- One segment of a disjoint view covers an address. -/
theorem BinaryView.Disjoint.unique (h : view.Disjoint) {a : Nat} (hs : s ∈ view.segments)
    (ht : t ∈ view.segments) (hsa : s.Covers a) (hta : t.Covers a) : s = t := by
  by_contra hne
  exact h.apart.forall hs ht hne a ⟨hsa, hta⟩

/-- The address of the second read, when it does not pass the end of the address space. -/
theorem toNat_add_size {n : Nat} (h : va.toNat + n < 2 ^ 64) :
    (va + BitVec.ofNat 64 n).toNat = va.toNat + n := by
  rw [BitVec.toNat_add, BitVec.toNat_ofNat, Nat.add_mod_mod, Nat.mod_eq_of_lt h]

/-- Reads of one segment agree on the bytes that both cover. -/
theorem binaryViewRead_sameSegment {bytes first second : List Byte} {n m : Nat}
    (hsize : bytes.length < 2 ^ 63) (hin : ∀ s ∈ view.segments, s.InFile bytes)
    (h1 : binaryViewRead view va (n + m) = .ok first)
    (h2 : binaryViewRead view (va + BitVec.ofNat 64 n) m = .ok second)
    (hsame : binaryViewFindSegment view (va + BitVec.ofNat 64 n) 0#32 =
      binaryViewFindSegment view va 0#32) : second = first.drop n := by
  obtain ⟨s, hs, hlt, rfl⟩ := binaryViewRead_ok h1
  obtain ⟨t, ht, -, rfl⟩ := binaryViewRead_ok h2
  obtain rfl : s = t := Option.some.inj (hs.symm.trans (hsame.symm.trans ht))
  obtain ⟨hmem, hle, -⟩ := binaryViewFindSegment_some hs
  have hle' := (binaryViewFindSegment_some ht).2.1
  have hfile := (hin s hmem).range
  -- an offset that passed the end of the address space would lie before the segment
  have hoffset : (va + BitVec.ofNat 64 n).toNat - s.va.toNat = va.toNat - s.va.toNat + n := by
    rw [BitVec.le_def, BitVec.toNat_add, BitVec.toNat_ofNat] at hle'
    rw [BitVec.le_def] at hle
    rw [BitVec.toNat_add, BitVec.toNat_ofNat]
    omega
  rw [hoffset, List.drop_take, List.drop_drop, Nat.add_sub_cancel_left]

/-- The two lookups of a disjoint view find one segment. -/
theorem BinaryView.Disjoint.sameSegment (h : view.Disjoint) {first second : List Byte} {n m : Nat}
    (h1 : binaryViewRead view va (n + m) = .ok first)
    (h2 : binaryViewRead view (va + BitVec.ofNat 64 n) m = .ok second) (hm : 0 < m)
    (hva : va.toNat + n < 2 ^ 64) :
    binaryViewFindSegment view (va + BitVec.ofNat 64 n) 0#32 =
      binaryViewFindSegment view va 0#32 := by
  obtain ⟨s, hs, hlt, -⟩ := binaryViewRead_ok h1
  obtain ⟨t, ht, -, -⟩ := binaryViewRead_ok h2
  obtain ⟨hmem, hcover⟩ := binaryViewFindSegment_covers hs
  obtain ⟨hmem', hcover'⟩ := binaryViewFindSegment_covers ht
  rw [toNat_add_size hva] at hcover'
  have hle := hcover.1
  have hboth : s.Covers (va.toNat + n) :=
    BinarySegment.covers_of_fits (h.fits s hmem) (by omega) (by omega)
  rw [hs, ht, h.unique hmem hmem' hboth hcover']

/-- **Reads of a view agree where they look up one segment.**  When a read of `n + m` bytes and
a read of the last `m` of them succeed and the first bytes of both are looked up in the same
segment, they agree.  So do all such reads of a view whose segments are apart. -/
theorem binaryViewRead_consistent {file : FileBytes} {first second : List Byte} {n m : Nat}
    (hload : binaryViewLoad file = some (.ok, view))
    (h1 : binaryViewRead view va (n + m) = .ok first)
    (h2 : binaryViewRead view (va + BitVec.ofNat 64 n) m = .ok second) :
    (binaryViewFindSegment view (va + BitVec.ofNat 64 n) 0#32 =
      binaryViewFindSegment view va 0#32 → second = first.drop n) ∧
    (view.Disjoint → va.toNat + n < 2 ^ 64 → second = first.drop n) := by
  rcases binaryViewLoad_cases file with
    ⟨e, he, href⟩ | ⟨l, -, view', hload', -, -, -, hin⟩
  · rw [hload] at href
    cases href
    exact absurd rfl he
  · rw [hload] at hload'
    cases hload'
    have hsame := binaryViewRead_sameSegment file.size_lt hin h1 h2
    refine ⟨hsame, fun hdis hva => ?_⟩
    rcases Nat.eq_zero_or_pos m with rfl | hm
    · have hfirst : first.length = n := binaryViewRead_length hin h1
      have hsecond := binaryViewRead_length hin h2
      rw [List.drop_of_length_le (Nat.le_of_eq hfirst), List.eq_nil_of_length_eq_zero hsecond]
    · exact hsame (hdis.sameSegment h1 h2 hm hva)

end Consistent

/-- The view of a file of two segments. -/
def twoSegments (s t : BinarySegment) : BinaryView :=
  ⟨.elf, some .x8632, 16#64, 0#64, [s, t]⟩

/-- Segments of four bytes at 16 and at 20. -/
def apartFile : FileBytes := ⟨elf32Start 16 2 ++ elf32Load 0 16 4 4 ++ elf32Load 6 20 4 4, by decide⟩

/-- The view of `apartFile`. -/
def apartView : BinaryView :=
  twoSegments ⟨16#64, 4#64, 4#64, 0#64, 0#32, 0#32, [0x7f#8, 0x45#8, 0x4c#8, 0x46#8]⟩
    ⟨20#64, 4#64, 4#64, 6#64, 0#32, 1#32, List.replicate 4 0#8⟩

theorem apartView_disjoint : apartView.Disjoint where
  apart := by
    simp only [apartView, twoSegments, List.pairwise_cons, List.mem_singleton, forall_eq,
      List.not_mem_nil, false_implies, implies_true, List.Pairwise.nil, and_true,
      BinarySegment.Apart, BinarySegment.Covers, BitVec.toNat_ofNat]
    omega
  fits := by decide

set_option maxRecDepth 4000 in
theorem binaryViewRead_consistent_apart :
    apartView.Disjoint ∧ [0x4c#8, 0x46#8] = [0x45#8, 0x4c#8, 0x46#8].drop 1 :=
  ⟨apartView_disjoint, (binaryViewRead_consistent (n := 1)
    (show binaryViewLoad apartFile = some (.ok, apartView) by decide)
    (show binaryViewRead apartView 17#64 (1 + 2) = _ by rfl) (by decide)).2 apartView_disjoint
    (by decide)⟩

/-- A segment of eight bytes at 16, after one of four bytes at 20. -/
def overlapFile : FileBytes :=
  ⟨elf32Start 16 2 ++ elf32Load 0 20 4 4 ++ elf32Load 6 16 8 8, by decide⟩

/-- The view of `overlapFile`. -/
def overlapView : BinaryView :=
  twoSegments ⟨20#64, 4#64, 4#64, 0#64, 0#32, 0#32, [0x7f#8, 0x45#8, 0x4c#8, 0x46#8]⟩
    ⟨16#64, 8#64, 8#64, 6#64, 0#32, 1#32, List.replicate 8 0#8⟩

set_option maxRecDepth 4000 in
/-- Eight bytes at 16 are read from the second segment, the last four of them from the first. -/
theorem binaryViewRead_overlap :
    ¬ ∀ file view va n m first second, binaryViewLoad file = some (.ok, view) →
      binaryViewRead view va (n + m) = .ok first →
      binaryViewRead view (va + BitVec.ofNat 64 n) m = .ok second → second = first.drop n := by
  intro h
  have hread := h overlapFile overlapView 16#64 4 4 (List.replicate 8 0#8)
    [0x7f#8, 0x45#8, 0x4c#8, 0x46#8] (by decide) (by decide) (by decide)
  exact absurd hread (by decide)

end Xair
