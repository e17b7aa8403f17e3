import Xair.FlatMemory

/-!
# Byte maps

The immutable memory behind a token: a partial map from addresses to bytes.  A page
table stands for one such map in each space, a store of the executor writes the map
of its space and leaves the others alone (`execStoreU64_holds`), and a load reads the
map of its space (`execLoadU64_holds`).
-/

namespace Xair

/-- A partial map from addresses to bytes. -/
def ByteMap : Type := Word → Option (BitVec 8)

namespace ByteMap

/-- The map after `data` is written from `address` on. -/
def write (f : ByteMap) (address : Word) (data : List (BitVec 8)) : ByteMap := fun a =>
  if address.toNat ≤ a.toNat ∧ a.toNat < address.toNat + data.length then
    data[a.toNat - address.toNat]?
  else f a

/-- The bytes from `address` on, if all of them are defined. -/
def read (f : ByteMap) (address : Word) : Nat → Option (List (BitVec 8))
  | 0 => some []
  | n + 1 =>
    match f address with
    | none => none
    | some b => (read f (address + 1#64) n).map (b :: ·)

/-- The word at `address`. -/
def loadU64 (f : ByteMap) (address : Word) (size : Nat) (endian : Endian) : Option Word :=
  (f.read address size).map fun bytes => decodeU64From endian size 0 bytes 0#64

/-- The map after a word is stored at `address`. -/
def storeU64 (f : ByteMap) (address value : Word) (size : Nat) (endian : Endian) : ByteMap :=
  f.write address (encodeU64 value size endian)

theorem length_read {f : ByteMap} {n : Nat} {a : Word} {bytes : List (BitVec 8)}
    (h : f.read a n = some bytes) : bytes.length = n := by
  induction n generalizing a bytes with
  | zero => cases h; rfl
  | succ n ih =>
    rw [read] at h
    split at h
    · cases h
    · cases hr : f.read (a + 1#64) n with
      | none => rw [hr] at h; cases h
      | some rest =>
        rw [hr] at h
        cases h
        rw [List.length_cons, ih hr]

end ByteMap

/-- The map of one space. -/
def FlatMemory.space (f : FlatMemory) (space : Nat) : ByteMap := fun a => f space a

/-- The flat memory with the map of one space replaced. -/
def FlatMemory.withSpace (f : FlatMemory) (space : Nat) (g : ByteMap) : FlatMemory := fun sp a =>
  if sp = space then g a else f sp a

@[simp] theorem FlatMemory.space_withSpace (f : FlatMemory) (space : Nat) (g : ByteMap) :
    (f.withSpace space g).space space = g := by
  funext a
  simp [FlatMemory.space, FlatMemory.withSpace]

theorem FlatMemory.space_withSpace_ne (f : FlatMemory) {space sp : Nat} (g : ByteMap)
    (h : sp ≠ space) : (f.withSpace space g).space sp = f.space sp := by
  funext a
  simp [FlatMemory.space, FlatMemory.withSpace, h]

@[simp] theorem FlatMemory.withSpace_withSpace (f : FlatMemory) (space : Nat) (g h : ByteMap) :
    (f.withSpace space g).withSpace space h = f.withSpace space h := by
  funext sp a
  by_cases hsp : sp = space <;> simp [FlatMemory.withSpace, hsp]

@[simp] theorem FlatMemory.withSpace_space (f : FlatMemory) (space : Nat) :
    f.withSpace space (f.space space) = f := by
  funext sp a
  by_cases hsp : sp = space <;> simp [FlatMemory.withSpace, FlatMemory.space, hsp]

/-- A write to the flat memory is a write to the map of its space. -/
theorem FlatMemory.write_eq (f : FlatMemory) (space : Nat) (a : Word) (data : List (BitVec 8)) :
    f.write space a data = f.withSpace space ((f.space space).write a data) := by
  funext sp x
  by_cases hsp : sp = space
  · simp [FlatMemory.write, FlatMemory.withSpace, FlatMemory.space, ByteMap.write, hsp]
  · simp [FlatMemory.write, FlatMemory.withSpace, hsp]

/-- The load loop reads the map of its space, whatever the pages are. -/
theorem execLoadBytesFrom_eq (pages : List ExecPage) (space : Nat) (a : Word) (n : Nat) :
    execLoadBytesFrom pages space a n =
      match ((flatOf pages).space space).read a n with
      | none => .error .errRange
      | some bytes => .ok bytes := by
  induction n generalizing a with
  | zero => rfl
  | succ n ih =>
    have hbyte : execLoadByte pages space a = (flatOf pages).space space a := rfl
    rw [execLoadBytesFrom, ByteMap.read, ih, hbyte]
    cases (flatOf pages).space space a with
    | none => rfl
    | some b =>
      dsimp only
      cases ByteMap.read ((flatOf pages).space space) (a + 1#64) n with
      | none => rfl
      | some rest => rfl

/-- A load reads the map of its space, whatever the pages are. -/
theorem execLoadU64_eq (pages : List ExecPage) (space : Nat) (a : Word) {size : Nat} (hs : size ≤ 8)
    (endian : Endian) :
    execLoadU64 pages space a size endian =
      if FlatMemory.Wraps a size then .error .errBadArg
      else
        match ((flatOf pages).space space).loadU64 a size endian with
        | none => .error .errRange
        | some w => .ok w := by
  have hwraps := execRangeWraps_iff a size
  rw [execLoadU64, if_neg (by omega), execLoadBytes]
  by_cases hw : FlatMemory.Wraps a size
  · rw [if_pos (hwraps.mpr hw), if_pos hw]
  · rw [if_neg fun h' => hw (hwraps.mp h'), if_neg hw, execLoadBytesFrom_eq, ByteMap.loadU64]
    cases ByteMap.read ((flatOf pages).space space) a size <;> rfl

theorem execStoreU64_eq (pages : List ExecPage) (space : Nat) (a value : Word) {size : Nat}
    (hs : size ≤ 8) (endian : Endian) :
    execStoreU64 pages space a value size endian =
      if FlatMemory.Wraps a size then .error .errBadArg
      else .ok (execStoreBytesFrom pages space a (encodeU64 value size endian)) := by
  have hlen : (encodeU64 value size endian).length = size := by simp [encodeU64]
  have hwraps := execRangeWraps_iff a size
  rw [execStoreU64, if_neg (by omega), execStoreBytes, hlen]
  by_cases hw : FlatMemory.Wraps a size
  · rw [if_pos (hwraps.mpr hw), if_pos hw]
  · rw [if_neg fun h' => hw (hwraps.mp h'), if_neg hw]

section Holds

variable {pages : List ExecPage} {f : FlatMemory} (h : HoldsFlat pages f)
include h

/-- **A load reads the map of its space.** -/
theorem execLoadU64_holds (space : Nat) (a : Word) {size : Nat} (hs : size ≤ 8) (endian : Endian) :
    execLoadU64 pages space a size endian =
      if FlatMemory.Wraps a size then .error .errBadArg
      else
        match (f.space space).loadU64 a size endian with
        | none => .error .errRange
        | some w => .ok w := by
  rw [execLoadU64_eq pages space a hs, h.flatOf_eq]

/-- **A store writes the map of its space.** -/
theorem execStoreU64_holds (space : Nat) (a value : Word) {size : Nat} (hs : size ≤ 8)
    (endian : Endian) :
    (FlatMemory.Wraps a size ∧ execStoreU64 pages space a value size endian = .error .errBadArg) ∨
      (¬ FlatMemory.Wraps a size ∧
        ∃ pages', execStoreU64 pages space a value size endian = .ok pages' ∧
          HoldsFlat pages' (f.withSpace space ((f.space space).storeU64 a value size endian))) := by
  have hlen : (encodeU64 value size endian).length = size := by simp [encodeU64]
  rw [execStoreU64_eq pages space a value hs]
  by_cases hw : FlatMemory.Wraps a size
  · exact .inl ⟨hw, if_pos hw⟩
  · refine .inr ⟨hw, _, if_neg hw, ?_⟩
    have hstore := h.storeBytesFrom space a (encodeU64 value size endian) (by rw [hlen]; exact hw)
    rw [FlatMemory.write_eq] at hstore
    exact hstore

end Holds

end Xair
