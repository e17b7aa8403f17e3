import Xair.X86Decode

/-!
# The binary parser

`xair_binary.c`: the view of an ELF or PE file, from the bytes of the file.  A read
at an index at or beyond the end of the file is no value (`none`), and so is the
result of a parser that would make such a read.

A `size_t` is a natural number below `2 ^ 64`; its sums and products wrap
(`sizeAdd`, `sizeMul`).
-/

namespace Xair

open LittleEndian

/-- `xair_arch`. -/
inductive Arch
  | x8632 | x8664
  deriving DecidableEq, Repr

/-- The contents of a file that `read_file` returns, whose size is a nonnegative `long`. -/
structure FileBytes where
  bytes : List Byte
  size_lt : bytes.length < 2 ^ 63

/-- `xair_binary_format`. -/
inductive BinaryFormat
  | unknown | elf | pe
  deriving DecidableEq, Repr

/-- `xair_binary_segment`. -/
structure BinarySegment where
  va : Word
  memSize : Word
  fileSize : Word
  fileOffset : Word
  perms : BitVec 32
  sectionId : BitVec 32
  bytes : List Byte
  deriving DecidableEq, Repr

/-- `xair_binary_view`; no architecture is the zero of `memset`. -/
structure BinaryView where
  format : BinaryFormat
  arch : Option Arch
  entry : Word
  imageBase : Word
  segments : List BinarySegment
  deriving DecidableEq, Repr

/-- The view after `memset`. -/
def BinaryView.empty : BinaryView := ⟨.unknown, none, 0#64, 0#64, []⟩

/-- `SIZE_MAX`. -/
def sizeMax : Nat := 2 ^ 64 - 1

/-- A sum of two `size_t`. -/
def sizeAdd (a b : Nat) : Nat := (a + b) % 2 ^ 64

/-- A product of two `size_t`. -/
def sizeMul (a b : Nat) : Nat := (a * b) % 2 ^ 64

/-! ### Reads -/

/-- `bytes[offset]`. -/
def readByte (bytes : List Byte) (offset : Nat) : Option Byte := bytes[offset]?

/-- `read_le16`. -/
def readLe16 (bytes : List Byte) (offset : Nat) : Option (BitVec 16) :=
  (readByte bytes offset).bind fun p0 =>
  (readByte bytes (sizeAdd offset 1)).bind fun p1 =>
  some (le16 p0 p1)

/-- `read_le32`. -/
def readLe32 (bytes : List Byte) (offset : Nat) : Option (BitVec 32) :=
  (readByte bytes offset).bind fun p0 =>
  (readByte bytes (sizeAdd offset 1)).bind fun p1 =>
  (readByte bytes (sizeAdd offset 2)).bind fun p2 =>
  (readByte bytes (sizeAdd offset 3)).bind fun p3 =>
  some (le32 p0 p1 p2 p3)

/-- `read_le64`. -/
def readLe64 (bytes : List Byte) (offset : Nat) : Option (BitVec 64) :=
  (readLe32 bytes offset).bind fun lo =>
  (readLe32 bytes (sizeAdd offset 4)).bind fun hi =>
  some (le64 lo hi)

/-- The bytes that `memcpy` and `memcmp` read. -/
def readBytes (bytes : List Byte) (offset : Nat) : Nat → Option (List Byte)
  | 0 => some []
  | n + 1 =>
    (readByte bytes offset).bind fun b =>
    (readBytes bytes (sizeAdd offset 1) n).bind fun bs =>
    some (b :: bs)

/-- `range_ok`. -/
def rangeOk (size offset need : Nat) : Bool := decide (offset ≤ size ∧ need ≤ size - offset)

/-- `max_u64`. -/
def maxU64 (lhs rhs : Word) : Word := if rhs < lhs then lhs else rhs

/-! ### Segments -/

/-- `append_segment`. -/
def appendSegment (bytes : List Byte) (view : BinaryView)
    (va memSize fileOffset segmentFileSize : Word) (perms sectionId : BitVec 32) :
    Option (Status × BinaryView) :=
  if memSize = 0#64 then some (.ok, view)
  else if sizeMax < fileOffset.toNat ∨ sizeMax < segmentFileSize.toNat then some (.errRange, view)
  else if !rangeOk bytes.length fileOffset.toNat segmentFileSize.toNat then some (.errRange, view)
  else if view.segments.length = uint32Max ∨ view.segments.length = sizeMax then
    some (.errRange, view)
  else
    (readBytes bytes fileOffset.toNat segmentFileSize.toNat).bind fun segmentBytes =>
    some (.ok, { view with
      segments := view.segments ++
        [⟨va, memSize, segmentFileSize, fileOffset, perms, sectionId, segmentBytes⟩] })

def binaryPermRead : BitVec 32 := 1#32
def binaryPermWrite : BitVec 32 := 2#32
def binaryPermExec : BitVec 32 := 4#32

/-- `if (cond) perms |= perm`. -/
def orPerm (perms perm : BitVec 32) (cond : Bool) : BitVec 32 := if cond then perms ||| perm else perms

/-- `pe_section_perms`. -/
def peSectionPerms (characteristics : BitVec 32) : BitVec 32 :=
  let perms := orPerm 0#32 binaryPermRead (characteristics &&& 0x40000000#32 != 0#32)
  let perms := orPerm perms binaryPermWrite (characteristics &&& 0x80000000#32 != 0#32)
  orPerm perms binaryPermExec (characteristics &&& 0x20000000#32 != 0#32)

/-- `elf_segment_perms`. -/
def elfSegmentPerms (flags : BitVec 32) : BitVec 32 :=
  let perms := orPerm 0#32 binaryPermRead (flags &&& 4#32 != 0#32)
  let perms := orPerm perms binaryPermWrite (flags &&& 2#32 != 0#32)
  orPerm perms binaryPermExec (flags &&& 1#32 != 0#32)

/-- The loops over the headers: `body i` for `n` headers from `i` on, up to the first that
fails. -/
def headerLoop (body : Nat → BinaryView → Option (Status × BinaryView)) :
    Nat → Nat → BinaryView → Option (Status × BinaryView)
  | 0, _, view => some (.ok, view)
  | n + 1, i, view =>
    (body i view).bind fun (status, view) =>
    if status ≠ .ok then some (status, view) else headerLoop body n (i + 1) view

/-- The end of a parser: a view without segments is refused. -/
def finishView : Status × BinaryView → Status × BinaryView
  | (.ok, view) => (if view.segments.length = 0 then .errRange else .ok, view)
  | (status, view) => (status, view)

/-! ### PE -/

/-- The body of the loop of `parse_pe_view`. -/
def parsePeSection (bytes : List Byte) (imageBase : Word) (sectionOffset i : Nat)
    (view : BinaryView) : Option (Status × BinaryView) :=
  let off := sizeAdd sectionOffset (sizeMul i 40)
  (readLe32 bytes (sizeAdd off 8)).bind fun virtualSize =>
  (readLe32 bytes (sizeAdd off 12)).bind fun virtualAddress =>
  (readLe32 bytes (sizeAdd off 16)).bind fun rawSize =>
  (readLe32 bytes (sizeAdd off 20)).bind fun rawOffset =>
  (readLe32 bytes (sizeAdd off 36)).bind fun characteristics =>
  appendSegment bytes view (imageBase + virtualAddress.setWidth 64)
    (maxU64 (virtualSize.setWidth 64) (rawSize.setWidth 64)) (rawOffset.setWidth 64)
    (rawSize.setWidth 64) (peSectionPerms characteristics) (BitVec.ofNat 32 i)

/-- `parse_pe_view` from the section table on. -/
def parsePeSections (bytes : List Byte) (arch : Arch) (imageBase : Word) (entryRva : BitVec 32)
    (sectionOffset sectionCount : Nat) (view : BinaryView) : Option (Status × BinaryView) :=
  let view := { view with
    arch := some arch, format := .pe, imageBase := imageBase,
    entry := imageBase + entryRva.setWidth 64 }
  if !rangeOk bytes.length sectionOffset (sizeMul sectionCount 40) then some (.errRange, view)
  else
    (headerLoop (parsePeSection bytes imageBase sectionOffset) sectionCount 0 view).map finishView

/-- `parse_pe_view` from the optional header on. -/
def parsePeOptional (bytes : List Byte) (machine : BitVec 16) (sectionCount optionalOffset
    optionalSize : Nat) (view : BinaryView) : Option (Status × BinaryView) :=
  if !rangeOk bytes.length optionalOffset optionalSize || decide (optionalSize < 32) then
    some (.errRange, view)
  else
    (readLe16 bytes optionalOffset).bind fun magic =>
    (readLe32 bytes (sizeAdd optionalOffset 16)).bind fun entryRva =>
    let sectionOffset := sizeAdd optionalOffset optionalSize
    if machine = 0x8664#16 ∧ magic = 0x20b#16 then
      (readLe64 bytes (sizeAdd optionalOffset 24)).bind fun imageBase =>
      parsePeSections bytes .x8664 imageBase entryRva sectionOffset sectionCount view
    else if machine = 0x14c#16 ∧ magic = 0x10b#16 then
      (readLe32 bytes (sizeAdd optionalOffset 28)).bind fun imageBase =>
      parsePeSections bytes .x8632 (imageBase.setWidth 64) entryRva sectionOffset sectionCount view
    else some (.errUnsupported, view)

/-- `parse_pe_view` from the COFF header on. -/
def parsePeCoff (bytes : List Byte) (coffOffset : Nat) (view : BinaryView) :
    Option (Status × BinaryView) :=
  (readLe16 bytes coffOffset).bind fun machine =>
  (readLe16 bytes (sizeAdd coffOffset 2)).bind fun sectionCount =>
  (readLe16 bytes (sizeAdd coffOffset 16)).bind fun optionalSize =>
  parsePeOptional bytes machine sectionCount.toNat (sizeAdd coffOffset 20) optionalSize.toNat view

/-- `parse_pe_view`. -/
def parsePeView (bytes : List Byte) (view : BinaryView) : Option (Status × BinaryView) :=
  if !rangeOk bytes.length 0 0x40 then some (.errUnsupported, view)
  else
    (readByte bytes 0).bind fun b0 =>
    if b0 ≠ 0x4d#8 then some (.errUnsupported, view)
    else
      (readByte bytes 1).bind fun b1 =>
      if b1 ≠ 0x5a#8 then some (.errUnsupported, view)
      else
        (readLe32 bytes 0x3c).bind fun peOffset =>
        if !rangeOk bytes.length peOffset.toNat 24 then some (.errUnsupported, view)
        else
          (readBytes bytes peOffset.toNat 4).bind fun signature =>
          if signature ≠ [0x50#8, 0x45#8, 0#8, 0#8] then some (.errUnsupported, view)
          else parsePeCoff bytes (sizeAdd peOffset.toNat 4) view

/-! ### ELF -/

/-- The body of the loop of `parse_elf64_view`. -/
def parseElf64Header (bytes : List Byte) (phoff phentsize i : Nat) (view : BinaryView) :
    Option (Status × BinaryView) :=
  let off := sizeAdd phoff (sizeMul i phentsize)
  (readLe32 bytes off).bind fun type =>
  (readLe32 bytes (sizeAdd off 4)).bind fun flags =>
  (readLe64 bytes (sizeAdd off 8)).bind fun fileOffset =>
  (readLe64 bytes (sizeAdd off 16)).bind fun vaddr =>
  (readLe64 bytes (sizeAdd off 32)).bind fun filesz =>
  (readLe64 bytes (sizeAdd off 40)).bind fun memsz =>
  if type = 1#32 then
    appendSegment bytes view vaddr memsz fileOffset filesz (elfSegmentPerms flags)
      (BitVec.ofNat 32 i)
  else some (.ok, view)

/-- The body of the loop of `parse_elf32_view`. -/
def parseElf32Header (bytes : List Byte) (phoff phentsize i : Nat) (view : BinaryView) :
    Option (Status × BinaryView) :=
  let off := sizeAdd phoff (sizeMul i phentsize)
  (readLe32 bytes off).bind fun type =>
  (readLe32 bytes (sizeAdd off 4)).bind fun fileOffset =>
  (readLe32 bytes (sizeAdd off 8)).bind fun vaddr =>
  (readLe32 bytes (sizeAdd off 16)).bind fun filesz =>
  (readLe32 bytes (sizeAdd off 20)).bind fun memsz =>
  (readLe32 bytes (sizeAdd off 24)).bind fun flags =>
  if type = 1#32 then
    appendSegment bytes view (vaddr.setWidth 64) (memsz.setWidth 64) (fileOffset.setWidth 64)
      (filesz.setWidth 64) (elfSegmentPerms flags) (BitVec.ofNat 32 i)
  else some (.ok, view)

/-- The view after the checks of an ELF parser. -/
def elfView (view : BinaryView) (arch : Arch) (entry : Word) : BinaryView :=
  { view with format := .elf, arch := some arch, entry := entry, imageBase := 0#64 }

/-- `parse_elf64_view`. -/
def parseElf64View (bytes : List Byte) (view : BinaryView) : Option (Status × BinaryView) :=
  if !rangeOk bytes.length 0 64 then some (.errRange, view)
  else
    (readLe16 bytes 18).bind fun machine =>
    if machine ≠ 62#16 then some (.errUnsupported, view)
    else
      (readLe64 bytes 24).bind fun entry =>
      (readLe64 bytes 32).bind fun phoff =>
      (readLe16 bytes 54).bind fun phentsize =>
      (readLe16 bytes 56).bind fun phnum =>
      if sizeMax < phoff.toNat ∨ phentsize.toNat < 56 ∨ sizeMax / phentsize.toNat < phnum.toNat ∨
          !rangeOk bytes.length phoff.toNat (sizeMul phentsize.toNat phnum.toNat) then
        some (.errRange, view)
      else
        (headerLoop (parseElf64Header bytes phoff.toNat phentsize.toNat) phnum.toNat 0
          (elfView view .x8664 entry)).map finishView

/-- `parse_elf32_view`. -/
def parseElf32View (bytes : List Byte) (view : BinaryView) : Option (Status × BinaryView) :=
  if !rangeOk bytes.length 0 52 then some (.errRange, view)
  else
    (readLe16 bytes 18).bind fun machine =>
    if machine ≠ 3#16 then some (.errUnsupported, view)
    else
      (readLe32 bytes 24).bind fun entry =>
      (readLe32 bytes 28).bind fun phoff =>
      (readLe16 bytes 42).bind fun phentsize =>
      (readLe16 bytes 44).bind fun phnum =>
      if phentsize.toNat < 32 ∨ sizeMax / phentsize.toNat < phnum.toNat ∨
          !rangeOk bytes.length phoff.toNat (sizeMul phentsize.toNat phnum.toNat) then
        some (.errRange, view)
      else
        (headerLoop (parseElf32Header bytes phoff.toNat phentsize.toNat) phnum.toNat 0
          (elfView view .x8632 (entry.setWidth 64))).map finishView

/-- The `\x7f`, `E`, `L`, `F` and the little-endian mark that `parse_elf_view` compares, each
read after the one before it agrees. -/
def elfIdent : List (Nat × Byte) :=
  [(0, 0x7f#8), (1, 0x45#8), (2, 0x4c#8), (3, 0x46#8), (5, 1#8)]

/-- The comparisons of the `||` chain of `parse_elf_view`. -/
def matchIdent (bytes : List Byte) : List (Nat × Byte) → Option Bool
  | [] => some true
  | (i, c) :: rest =>
    (readByte bytes i).bind fun b => if b ≠ c then some false else matchIdent bytes rest

/-- `parse_elf_view`. -/
def parseElfView (bytes : List Byte) (view : BinaryView) : Option (Status × BinaryView) :=
  if !rangeOk bytes.length 0 16 then some (.errUnsupported, view)
  else
    (matchIdent bytes elfIdent).bind fun ident =>
    if !ident then some (.errUnsupported, view)
    else
      (readByte bytes 4).bind fun fileClass =>
      if fileClass = 1#8 then parseElf32View bytes view
      else if fileClass = 2#8 then parseElf64View bytes view
      else some (.errUnsupported, view)

/-- `xair_binary_view_load_path` after `read_file`. -/
def binaryViewLoad (file : FileBytes) : Option (Status × BinaryView) :=
  (parseElfView file.bytes BinaryView.empty).bind fun (status, view) =>
  (if status = .errUnsupported then parsePeView file.bytes view else some (status, view)).bind
    fun (status, view) =>
  some (status, if status ≠ .ok then BinaryView.empty else view)

end Xair
