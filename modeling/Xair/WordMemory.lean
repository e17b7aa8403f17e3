import Xair.ByteMap
import Xair.LittleEndian

/-!
# Words in byte memory

A word stored by `exec_store_u64` and read back by `exec_load_u64`.  The encoder and the
decoder are two loops with an index direction each (`shiftIndex`), and the bytes pass
through the page table.  Both loops are described by the bytes of the word
(`getElem?_encodeU64`, `byteAt_decodeU64`) and the page table by the map that it stands
for, so that the places of the bytes decide every load: the same one, the one with the
other direction, the ones inside the range, and the ones apart from it.
-/

namespace Xair

open LittleEndian

/-- The other byte order. -/
def Endian.opposite : Endian → Endian
  | .le => .be
  | .be => .le

/-- The word whose lowest `size` bytes are those of `value` from the last to the first. -/
def reverseBytes (size : Nat) (value : Word) : Word :=
  BitVec.ofNat 64 (leNat ((List.range size).map (byteAt value)).reverse)

/-! ### The places of the bytes -/

theorem shiftIndex_lt (endian : Endian) {size i : Nat} (hi : i < size) :
    shiftIndex endian size i < size := by
  cases endian with
  | le => exact hi
  | be =>
    show size - 1 - i < size
    omega

theorem shiftIndex_shiftIndex (endian : Endian) {size i : Nat} (hi : i < size) :
    shiftIndex endian size (shiftIndex endian size i) = i := by
  cases endian with
  | le => rfl
  | be =>
    show size - 1 - (size - 1 - i) = i
    omega

/-- With the other byte order it is looked for at the other end. -/
theorem shiftIndex_opposite (endian : Endian) (size i : Nat) :
    shiftIndex endian size (shiftIndex endian.opposite size i) = size - 1 - i := by
  cases endian <;> rfl

theorem shiftIndex_eq_iff (endian : Endian) {size i k : Nat} (hi : i < size) (hk : k < size) :
    k = shiftIndex endian size i ↔ i = shiftIndex endian size k := by
  constructor
  · intro h
    rw [h, shiftIndex_shiftIndex endian hi]
  · intro h
    rw [h, shiftIndex_shiftIndex endian hk]

/-! ### The two loops -/

theorem length_encodeU64 (value : Word) (size : Nat) (endian : Endian) :
    (encodeU64 value size endian).length = size := by
  rw [encodeU64, List.length_map, List.length_range]

theorem getElem?_encodeU64 (value : Word) (endian : Endian) {size i : Nat} (hi : i < size) :
    (encodeU64 value size endian)[i]? = some (byteAt value (shiftIndex endian size i)) := by
  rw [encodeU64, List.getElem?_map, List.getElem?_range hi, Option.map_some, Option.some_inj]
  apply BitVec.eq_of_getLsbD_eq
  intro j hj
  have hff : ∀ j < 8, (0xff#64).getLsbD j = true := by decide
  rw [getLsbD_byteAt _ _ hj, BitVec.getLsbD_setWidth, decide_eq_true hj, Bool.true_and,
    BitVec.getLsbD_and, hff j hj, Bool.and_true, BitVec.getLsbD_ushiftRight, Nat.mul_comm]

/-- The bytes of the word that the decoder's loop assembles from byte `i` on. -/
theorem byteAt_decodeU64From (endian : Endian) {size : Nat}
    (bytes : List (BitVec 8)) (i : Nat) (w : Word) (hi : i + bytes.length = size) {k : Nat}
    (hk : k < 8) :
    byteAt (decodeU64From endian size i bytes w) k = byteAt w k |||
      if k < size ∧ i ≤ shiftIndex endian size k then
        bytes[shiftIndex endian size k - i]?.getD 0#8
      else 0#8 := by
  induction bytes generalizing i w with
  | nil =>
    rw [List.length_nil] at hi
    have hend : ¬ (k < size ∧ i ≤ shiftIndex endian size k) := by
      rintro ⟨hks, hle⟩
      have := shiftIndex_lt endian hks
      omega
    rw [if_neg hend, decodeU64From, BitVec.or_zero]
  | cons b bs ih =>
    rw [List.length_cons] at hi
    rw [decodeU64From, ih (i + 1) _ (by omega), byteAt_or_shiftLeft (n := 8) w b _ hk,
      BitVec.or_assoc]
    congr 1
    by_cases hks : k < size
    · have hplace := shiftIndex_eq_iff endian (by omega : i < size) hks
      by_cases hhere : i = shiftIndex endian size k
      · -- byte `i` goes to place `k`
        rw [if_pos (hplace.mpr hhere), if_neg (by omega), if_pos ⟨hks, by omega⟩, ← hhere,
          Nat.sub_self, List.getElem?_cons_zero, Option.getD_some, BitVec.or_zero]
      · rw [if_neg fun h => hhere (hplace.mp h), BitVec.zero_or]
        by_cases hlater : i + 1 ≤ shiftIndex endian size k
        · have hsub : shiftIndex endian size k - i = shiftIndex endian size k - (i + 1) + 1 := by
            omega
          rw [if_pos ⟨hks, hlater⟩, if_pos ⟨hks, by omega⟩, hsub, List.getElem?_cons_succ]
        · rw [if_neg (by omega), if_neg (by omega)]
    · have hne : k ≠ shiftIndex endian size i := by
        have := shiftIndex_lt endian (by omega : i < size)
        omega
      rw [if_neg hne, if_neg (by omega), if_neg (by omega), BitVec.or_zero]

theorem byteAt_decodeU64 (endian : Endian) {size : Nat} {bytes : List (BitVec 8)}
    (hlen : bytes.length = size) {k : Nat} (hk : k < 8) :
    byteAt (decodeU64From endian size 0 bytes 0#64) k =
      if k < size then bytes[shiftIndex endian size k]?.getD 0#8 else 0#8 := by
  have hzero : byteAt 0#64 k = 0#8 := by
    apply BitVec.eq_of_getLsbD_eq
    intro j hj
    rw [getLsbD_byteAt _ _ hj, BitVec.getLsbD_zero, BitVec.getLsbD_zero]
  rw [byteAt_decodeU64From endian bytes 0 0#64 (by omega) hk, hzero, BitVec.zero_or,
    Nat.sub_zero]
  by_cases hks : k < size
  · rw [if_pos ⟨hks, Nat.zero_le _⟩, if_pos hks]
  · rw [if_neg fun h => hks h.1, if_neg hks]

theorem byteAt_loaded (value : Word) (endian e : Endian) (size k m : Nat) {j : Nat} (hj : j < 8) :
    byteAt (decodeU64From e m 0
        ((List.range m).map fun i => byteAt value (shiftIndex endian size (k + i))) 0#64) j =
      if j < m then byteAt value (shiftIndex endian size (k + shiftIndex e m j)) else 0#8 := by
  rw [byteAt_decodeU64 e (by rw [List.length_map, List.length_range]) hj]
  by_cases hjm : j < m
  · rw [if_pos hjm, if_pos hjm, List.getElem?_map, List.getElem?_range (shiftIndex_lt e hjm),
      Option.map_some, Option.getD_some]
  · rw [if_neg hjm, if_neg hjm]

theorem word_eq_of_byteAt {v w : Word} (h : ∀ k < 8, byteAt v k = byteAt w k) : v = w :=
  eq_of_byteAt (n := 8) h

theorem byteAt_reverseBytes (value : Word) {size k : Nat} (hk : k < 8) :
    byteAt (reverseBytes size value) k =
      if k < size then byteAt value (size - 1 - k) else 0#8 := by
  rw [reverseBytes, byteAt_ofNat_leNat (n := 8) _ hk]
  by_cases hks : k < size
  · rw [if_pos hks, List.getElem?_reverse (by simpa using hks), List.length_map, List.length_range,
      List.getElem?_map, List.getElem?_range (by omega), Option.map_some, Option.getD_some]
  · rw [if_neg hks, List.getElem?_eq_none (by simp; omega), Option.getD_none]

/-! ### Ranges of a byte map -/

namespace ByteMap

/-- A read answers with the bytes that are there. -/
theorem read_eq_some {f : ByteMap} {a : Word} {bytes : List (BitVec 8)}
    (h : ∀ i < bytes.length, f (a + BitVec.ofNat 64 i) = bytes[i]?) :
    f.read a bytes.length = some bytes := by
  induction bytes generalizing a with
  | nil => rfl
  | cons b bs ih =>
    have hfirst := h 0 (Nat.succ_pos _)
    rw [BitVec.add_zero, List.getElem?_cons_zero] at hfirst
    have hrest : f.read (a + 1#64) bs.length = some bs := by
      apply ih
      intro i hi
      have hnext := h (i + 1) (Nat.succ_lt_succ hi)
      rwa [offset_succ, List.getElem?_cons_succ] at hnext
    rw [List.length_cons, read, hfirst, hrest]
    rfl

theorem read_eq_none {f : ByteMap} {a : Word} {n i : Nat} (hi : i < n)
    (h : f (a + BitVec.ofNat 64 i) = none) : f.read a n = none := by
  induction n generalizing a i with
  | zero => cases hi
  | succ n ih =>
    rw [read]
    cases i with
    | zero =>
      rw [BitVec.add_zero] at h
      rw [h]
    | succ i =>
      rw [offset_succ] at h
      rw [ih (Nat.lt_of_succ_lt_succ hi) h]
      cases f a <;> rfl

theorem read_congr {f g : ByteMap} {a : Word} {n : Nat}
    (h : ∀ i < n, f (a + BitVec.ofNat 64 i) = g (a + BitVec.ofNat 64 i)) :
    f.read a n = g.read a n := by
  induction n generalizing a with
  | zero => rfl
  | succ n ih =>
    have hfirst := h 0 (Nat.succ_pos _)
    rw [BitVec.add_zero] at hfirst
    have hrest : f.read (a + 1#64) n = g.read (a + 1#64) n := by
      apply ih
      intro i hi
      have hnext := h (i + 1) (Nat.succ_lt_succ hi)
      rwa [offset_succ] at hnext
    rw [read, read, hfirst, hrest]

theorem write_inside (f : ByteMap) {a : Word} {data : List (BitVec 8)} {i : Nat}
    (hw : ¬ FlatMemory.Wraps a data.length) (hi : i < data.length) :
    f.write a data (a + BitVec.ofNat 64 i) = data[i]? := by
  rw [FlatMemory.Wraps] at hw
  have ha := a.isLt
  have hat : (a + BitVec.ofNat 64 i).toNat = a.toNat + i := by
    rw [BitVec.toNat_add, BitVec.toNat_ofNat, Nat.mod_eq_of_lt (a := i) (by omega),
      Nat.mod_eq_of_lt (by omega)]
  rw [write, hat, if_pos ⟨by omega, by omega⟩, Nat.add_sub_cancel_left]

theorem write_apart (f : ByteMap) {a x : Word} {data : List (BitVec 8)}
    (h : ∀ j < data.length, x ≠ a + BitVec.ofNat 64 j) : f.write a data x = f x := by
  rw [write, if_neg]
  rintro ⟨hle, hlt⟩
  apply h (x.toNat - a.toNat) (by omega)
  apply BitVec.eq_of_toNat_eq
  have hx := x.isLt
  rw [BitVec.toNat_add, BitVec.toNat_ofNat, Nat.mod_eq_of_lt (a := x.toNat - a.toNat) (by omega),
    Nat.mod_eq_of_lt (by omega)]
  omega

end ByteMap
/-! ### Stores and loads -/

/-- A store succeeds exactly when the size is at most eight and the range does not wrap, and
then it writes the bytes of the word into the map. -/
theorem execStoreU64_ok {pages pages' : List ExecPage} {space : Nat} {address value : Word}
    {size : Nat} {endian : Endian}
    (h : execStoreU64 pages space address value size endian = .ok pages') :
    size ≤ 8 ∧ ¬ FlatMemory.Wraps address size ∧
      flatOf pages' = (flatOf pages).write space address (encodeU64 value size endian) := by
  have hlen := length_encodeU64 value size endian
  rw [execStoreU64] at h
  split at h
  · cases h
  · next hs =>
    rw [execStoreBytes, hlen] at h
    split at h
    · cases h
    · next hw =>
      cases h
      have hw' : ¬ FlatMemory.Wraps address size := fun h' => hw ((execRangeWraps_iff _ _).mpr h')
      exact ⟨by omega, hw', flatOf_execStoreBytesFrom pages space address _ (by rwa [hlen])⟩

theorem execLoadU64_ok {pages : List ExecPage} {space : Nat} {a : Word} {size : Nat}
    {bytes : List (BitVec 8)} (hs : size ≤ 8) (hw : ¬ FlatMemory.Wraps a size)
    (hlen : bytes.length = size)
    (h : ∀ i < size, flatOf pages space (a + BitVec.ofNat 64 i) = bytes[i]?) (endian : Endian) :
    execLoadU64 pages space a size endian = .ok (decodeU64From endian size 0 bytes 0#64) := by
  subst hlen
  have hread : ((flatOf pages).space space).read a bytes.length = some bytes :=
    ByteMap.read_eq_some h
  rw [execLoadU64_eq pages space a hs, if_neg hw, ByteMap.loadU64, hread]
  rfl

section Stored

variable {pages pages' : List ExecPage} {space : Nat} {address value : Word} {size : Nat}
  {endian : Endian} (h : execStoreU64 pages space address value size endian = .ok pages')
include h

theorem flatOf_execStoreU64 {i : Nat} (hi : i < size) :
    flatOf pages' space (address + BitVec.ofNat 64 i) =
      some (byteAt value (shiftIndex endian size i)) := by
  obtain ⟨-, hw, hflat⟩ := execStoreU64_ok h
  have hlen := length_encodeU64 value size endian
  rw [hflat, FlatMemory.write_eq, ← getElem?_encodeU64 value endian hi]
  show ((flatOf pages).withSpace space _).space space _ = _
  rw [FlatMemory.space_withSpace]
  exact ByteMap.write_inside _ (by rwa [hlen]) (by rwa [hlen])

theorem flatOf_execStoreU64_apart {sp : Nat} {x : Word}
    (hx : sp ≠ space ∨ ∀ j < size, x ≠ address + BitVec.ofNat 64 j) :
    flatOf pages' sp x = flatOf pages sp x := by
  obtain ⟨-, -, hflat⟩ := execStoreU64_ok h
  rw [hflat, FlatMemory.write_eq]
  show ((flatOf pages).withSpace space _).space sp x = _
  by_cases hsp : sp = space
  · subst hsp
    rw [FlatMemory.space_withSpace]
    apply ByteMap.write_apart
    rw [length_encodeU64]
    exact hx.resolve_left fun hne => hne rfl
  · rw [FlatMemory.space_withSpace_ne _ _ hsp]
    rfl

theorem execLoadU64_inside {k m : Nat} (hkm : k + m ≤ size) (e : Endian) :
    execLoadU64 pages' space (address + BitVec.ofNat 64 k) m e =
      .ok (decodeU64From e m 0
        ((List.range m).map fun i => byteAt value (shiftIndex endian size (k + i))) 0#64) := by
  obtain ⟨hs, hw, -⟩ := execStoreU64_ok h
  apply execLoadU64_ok (by omega)
  · intro hw'
    rw [FlatMemory.Wraps] at hw hw'
    have ha := address.isLt
    have hat : (address + BitVec.ofNat 64 k).toNat = address.toNat + k := by
      rw [BitVec.toNat_add, BitVec.toNat_ofNat, Nat.mod_eq_of_lt (a := k) (by omega),
        Nat.mod_eq_of_lt (by omega)]
    omega
  · rw [List.length_map, List.length_range]
  · intro i hi
    rw [BitVec.add_assoc, ← BitVec.ofNat_add, flatOf_execStoreU64 h (by omega), List.getElem?_map,
      List.getElem?_range hi, Option.map_some]

end Stored

/-- **A word stored is read back.**  After a store of `size` bytes has succeeded, the load with
the same byte order returns the lowest `size` bytes of the value, the one with the other order
these bytes reversed, and after a little-endian store a little-endian load of `m` bytes at
offset `k` the bits from `8 * k` on.  Every load of bytes that are not in the stored range, or
in another space, answers as before. -/
theorem execLoadU64_execStoreU64 {pages pages' : List ExecPage} {space : Nat}
    {address value : Word} {size : Nat} {endian : Endian}
    (h : execStoreU64 pages space address value size endian = .ok pages') :
    execLoadU64 pages' space address size endian =
        .ok (BitVec.ofNat 64 (value.toNat % 2 ^ (8 * size))) ∧
      execLoadU64 pages' space address size endian.opposite = .ok (reverseBytes size value) ∧
      (endian = .le → ∀ k m, k + m ≤ size →
        execLoadU64 pages' space (address + BitVec.ofNat 64 k) m .le =
          .ok (BitVec.ofNat 64 (value.toNat / 2 ^ (8 * k) % 2 ^ (8 * m)))) ∧
      ∀ sp a n,
        (sp ≠ space ∨ ∀ i < n, ∀ j < size, a + BitVec.ofNat 64 i ≠ address + BitVec.ofNat 64 j) →
        (∀ e, execLoadU64 pages' sp a n e = execLoadU64 pages sp a n e) ∧
          execLoadBytes pages' sp a n = execLoadBytes pages sp a n := by
  have hwhole := fun e => execLoadU64_inside h (k := 0) (m := size) (by omega) e
  rw [BitVec.add_zero] at hwhole
  refine ⟨?_, ?_, fun hle k m hkm => ?_, fun sp a n hapart => ?_⟩
  · rw [hwhole]
    congr 1
    apply word_eq_of_byteAt
    intro j hj
    have hfield := byteAt_ofNat_field (n := 8) value 0 size hj
    rw [Nat.mul_zero, Nat.pow_zero, Nat.div_one, Nat.zero_add] at hfield
    rw [byteAt_loaded value endian endian size 0 size hj, hfield]
    refine if_ctx_congr Iff.rfl (fun hjs => ?_) fun _ => rfl
    rw [Nat.zero_add, shiftIndex_shiftIndex endian hjs]
  · rw [hwhole]
    congr 1
    apply word_eq_of_byteAt
    intro j hj
    rw [byteAt_loaded value endian endian.opposite size 0 size hj, byteAt_reverseBytes value hj,
      Nat.zero_add, shiftIndex_opposite]
  · subst hle
    rw [execLoadU64_inside h hkm]
    congr 1
    apply word_eq_of_byteAt
    intro j hj
    rw [byteAt_loaded value .le .le size k m hj, byteAt_ofNat_field (n := 8) value k m hj]
    rfl
  · -- the load loop meets the same bytes on both pages
    have hbytes : execLoadBytes pages' sp a n = execLoadBytes pages sp a n := by
      have hread : ((flatOf pages').space sp).read a n = ((flatOf pages).space sp).read a n := by
        apply ByteMap.read_congr
        intro i hi
        apply flatOf_execStoreU64_apart h
        exact hapart.imp_right fun hne => hne i hi
      rw [execLoadBytes, execLoadBytes, execLoadBytesFrom_eq, execLoadBytesFrom_eq, hread]
    exact ⟨fun e => by rw [execLoadU64, execLoadU64, hbytes], hbytes⟩

/-- Four bytes across the end of a page. -/
theorem execLoadU64_execStoreU64_acrossPages :
    ∃ pages', execStoreU64 [] 1 0xffe#64 0x1122334455667788#64 4 .be = .ok pages' ∧
      execLoadU64 pages' 1 0xffe#64 4 .be = .ok 0x55667788#64 ∧
      execLoadU64 pages' 1 0xffe#64 4 .le = .ok 0x88776655#64 ∧
      execLoadBytes pages' 0 0xffe#64 4 = .error .errRange := by
  have hstored : execStoreU64 [] 1 0xffe#64 0x1122334455667788#64 4 .be = .ok _ := rfl
  obtain ⟨hsame, hother, -, hapart⟩ := execLoadU64_execStoreU64 hstored
  exact ⟨_, hstored, hsame, hother, (hapart 0 0xffe#64 4 (.inl (by decide))).2⟩

end Xair
