import Xair.StaleValues
import Xair.KeyedList

/-!
# Flat memory under the executor's pages

The page table of `xair_exec_store_bytes` and `xair_exec_load_bytes` against a
partial map from a space and a 64-bit address to a byte.  An address is its page
number and its offset in the page (`pageNumber_pageOffset_inj`), so a page table
is a list of cells by key (`KeyedList`), and a byte stored into it is a byte
stored into the map.
-/

namespace Xair

/-! ### The map -/

/-- What memory is for: a byte for each space and address that was written. -/
def FlatMemory : Type := Nat → Word → Option (BitVec 8)

namespace FlatMemory

/-- Nothing was written. -/
def empty : FlatMemory := fun _ _ => none

/-- The range of `size` bytes from `address` passes the last address. -/
def Wraps (address : Word) (size : Nat) : Prop := 0 < size ∧ 2 ^ 64 - 1 < address.toNat + size - 1

instance (address : Word) (size : Nat) : Decidable (Wraps address size) :=
  inferInstanceAs (Decidable (_ ∧ _))

/-- The map after `data` is written from `address` on. -/
def write (f : FlatMemory) (space : Nat) (address : Word) (data : List (BitVec 8)) : FlatMemory :=
  fun sp a =>
    if sp = space ∧ address.toNat ≤ a.toNat ∧ a.toNat < address.toNat + data.length then
      data[a.toNat - address.toNat]?
    else f sp a

end FlatMemory

/-- A call of `xair_exec_store_bytes`. -/
structure StoreCall where
  space : Nat
  address : Word
  data : List (BitVec 8)
  deriving Repr

/-- The map after a call: a range that wraps is refused. -/
def FlatMemory.store (f : FlatMemory) (c : StoreCall) : FlatMemory :=
  if Wraps c.address c.data.length then f else f.write c.space c.address c.data

/-- The map after a sequence of calls. -/
def FlatMemory.storeAll (f : FlatMemory) (calls : List StoreCall) : FlatMemory :=
  calls.foldl FlatMemory.store f

/-- The executor's state after a sequence of calls of `xair_exec_store_bytes`. -/
def storeBytesAll (s : ExecState) (calls : List StoreCall) : ExecState :=
  calls.foldl (fun s c => (execStateStoreBytes s c.space c.address c.data).2) s

/-- `xair_exec_load_bytes`. -/
def execStateLoadBytes (s : ExecState) (space : Nat) (address : Word) (size : Nat) :
    Except Status (List (BitVec 8)) :=
  execLoadBytes s.mem.pages space address size

/-- What `exec_find_page_mut` compares. -/
def ExecPage.key (p : ExecPage) : Nat × Word := (p.space, p.number)

/-! ### Addresses -/

theorem pageOffset_eq (a : Word) : pageOffset a = a.toNat % 4096 := by
  rw [pageOffset, BitVec.toNat_and]
  exact Nat.and_two_pow_sub_one_eq_mod a.toNat 12

theorem pageNumber_toNat (a : Word) : (pageNumber a).toNat = a.toNat / 4096 := by
  rw [pageNumber, BitVec.toNat_ushiftRight, Nat.shiftRight_eq_div_pow]

/-- **The page number and the offset are the address.** -/
theorem pageNumber_pageOffset_inj {a b : Word} (hn : pageNumber a = pageNumber b)
    (ho : pageOffset a = pageOffset b) : a = b := by
  have hn' := congrArg BitVec.toNat hn
  rw [pageNumber_toNat, pageNumber_toNat] at hn'
  rw [pageOffset_eq, pageOffset_eq] at ho
  apply BitVec.eq_of_toNat_eq
  have ha := Nat.div_add_mod a.toNat 4096
  have hb := Nat.div_add_mod b.toNat 4096
  omega

theorem execRangeWraps_iff (address : Word) (size : Nat) :
    execRangeWraps address size = true ↔ FlatMemory.Wraps address size := by
  have h := address.isLt
  rw [execRangeWraps, decide_eq_true_iff, FlatMemory.Wraps]
  have hsub : (BitVec.allOnes 64 - address).toNat = 2 ^ 64 - 1 - address.toNat := by
    rw [BitVec.toNat_sub, BitVec.toNat_allOnes]
    omega
  rw [hsub]
  omega

/-- Below the last address, one byte further is one more. -/
theorem toNat_add_one {a : Word} (h : a.toNat + 1 < 2 ^ 64) : (a + 1#64).toNat = a.toNat + 1 := by
  rw [BitVec.toNat_add]
  exact Nat.mod_eq_of_lt h

/-! ### One byte -/

theorem ExecPage.is_iff (p : ExecPage) (space : Nat) (number : Word) :
    p.is space number = decide (p.key = (space, number)) := by
  rw [Bool.eq_iff_iff]
  simp [ExecPage.is, ExecPage.key, Prod.ext_iff]

theorem execStoreByte_eq (space : Nat) (a : Word) (b : BitVec 8) (pages : List ExecPage) :
    execStoreByte space a b pages =
      KeyedList.update ExecPage.key (space, pageNumber a) (ExecPage.fresh space (pageNumber a))
        (fun p => p.setByte (pageOffset a) b) pages := by
  induction pages with
  | nil => rfl
  | cons p ps ih => simp only [execStoreByte, KeyedList.update, ExecPage.is_iff, decide_eq_true_eq, ih]

theorem execLoadByte_eq (pages : List ExecPage) (space : Nat) (a : Word) :
    execLoadByte pages space a =
      match KeyedList.lookup ExecPage.key (space, pageNumber a) pages with
      | none => none
      | some p => if p.defined (pageOffset a) then some (p.bytes (pageOffset a)) else none := by
  have hfind : (fun p : ExecPage => p.is space (pageNumber a)) =
      fun p => decide (p.key = (space, pageNumber a)) :=
    funext fun p => p.is_iff space (pageNumber a)
  rewrite [execLoadByte, hfind]
  rfl

theorem lookup_execStoreByte_self (space : Nat) (a : Word) (b : BitVec 8) (pages : List ExecPage) :
    KeyedList.lookup ExecPage.key (space, pageNumber a) (execStoreByte space a b pages) =
      some (((KeyedList.lookup ExecPage.key (space, pageNumber a) pages).getD
        (ExecPage.fresh space (pageNumber a))).setByte (pageOffset a) b) := by
  rw [execStoreByte_eq]
  apply KeyedList.lookup_update_self
  · rfl
  · intro p
    rfl

theorem lookup_execStoreByte_ne {space sp : Nat} {a x : Word} (b : BitVec 8)
    (h : (sp, pageNumber x) ≠ (space, pageNumber a)) (pages : List ExecPage) :
    KeyedList.lookup ExecPage.key (sp, pageNumber x) (execStoreByte space a b pages) =
      KeyedList.lookup ExecPage.key (sp, pageNumber x) pages := by
  rw [execStoreByte_eq]
  apply KeyedList.lookup_update_ne h
  · rfl
  · intro p
    rfl

/-- **One byte stored** is read back at its address and nowhere else. -/
theorem execLoadByte_execStoreByte (pages : List ExecPage) (space sp : Nat) (a x : Word)
    (b : BitVec 8) :
    execLoadByte (execStoreByte space a b pages) sp x =
      if sp = space ∧ x = a then some b else execLoadByte pages sp x := by
  rw [execLoadByte_eq, execLoadByte_eq]
  by_cases hkey : (sp, pageNumber x) = (space, pageNumber a)
  · obtain ⟨hsp, hn⟩ := Prod.ext_iff.mp hkey
    simp only at hsp hn
    rw [hkey, lookup_execStoreByte_self]
    by_cases ho : pageOffset x = pageOffset a
    · rw [if_pos ⟨hsp, pageNumber_pageOffset_inj hn ho⟩]
      simp only [ExecPage.setByte, if_pos ho, if_true]
    · have hne : x ≠ a := fun h => ho (h ▸ rfl)
      rw [if_neg (fun h => hne h.2)]
      cases KeyedList.lookup ExecPage.key (space, pageNumber a) pages with
      | none => simp [ExecPage.setByte, ExecPage.fresh, ho]
      | some p => simp [ExecPage.setByte, ho]
  · have hne : ¬ (sp = space ∧ x = a) := fun h => hkey (by rw [h.1, h.2])
    rw [if_neg hne, lookup_execStoreByte_ne b hkey]

theorem nodup_execStoreByte {pages : List ExecPage} (space : Nat) (a : Word) (b : BitVec 8)
    (h : (pages.map ExecPage.key).Nodup) :
    ((execStoreByte space a b pages).map ExecPage.key).Nodup := by
  rw [execStoreByte_eq]
  apply KeyedList.nodup_update _ _ h
  · rfl
  · intro p
    rfl

theorem nodup_execStoreBytesFrom {pages : List ExecPage} (space : Nat) (a : Word)
    (data : List (BitVec 8)) (h : (pages.map ExecPage.key).Nodup) :
    ((execStoreBytesFrom pages space a data).map ExecPage.key).Nodup := by
  induction data generalizing pages a with
  | nil => exact h
  | cons b bs ih => exact ih _ (nodup_execStoreByte space a b h)

/-! ### A range of bytes -/

/-- The map that a page table stands for. -/
def flatOf (pages : List ExecPage) : FlatMemory := execLoadByte pages

/-- The page table holds the map: its pages are told apart by their keys, and a byte is
found exactly where the map has it. -/
structure HoldsFlat (pages : List ExecPage) (f : FlatMemory) : Prop where
  keys : (pages.map ExecPage.key).Nodup
  byte : ∀ sp a, execLoadByte pages sp a = f sp a

theorem HoldsFlat.flatOf_eq {pages : List ExecPage} {f : FlatMemory} (h : HoldsFlat pages f) :
    flatOf pages = f :=
  funext fun sp => funext fun a => h.byte sp a

theorem holdsFlat_nil : HoldsFlat [] FlatMemory.empty := ⟨List.nodup_nil, fun _ _ => rfl⟩

theorem FlatMemory.write_nil (f : FlatMemory) (space : Nat) (a : Word) : f.write space a [] = f := by
  funext sp x
  rw [FlatMemory.write, if_neg]
  rintro ⟨-, h1, h2⟩
  simp only [List.length_nil] at h2
  omega

/-- A range that does not wrap is written byte by byte. -/
theorem FlatMemory.write_cons (f : FlatMemory) (space : Nat) {a : Word} (b : BitVec 8)
    {bs : List (BitVec 8)} (h : ¬ Wraps a (b :: bs).length) :
    f.write space a (b :: bs) = (f.write space a [b]).write space (a + 1#64) bs := by
  rw [Wraps, List.length_cons] at h
  funext sp x
  have hx := x.isLt
  cases bs with
  | nil => rw [FlatMemory.write_nil]
  | cons b' bs =>
    rw [List.length_cons] at h
    have ha : (a + 1#64).toNat = a.toNat + 1 := toNat_add_one (by omega)
    simp only [FlatMemory.write, List.length_cons, List.length_nil, ha]
    by_cases hsp : sp = space
    · by_cases hlow : a.toNat + 1 ≤ x.toNat ∧ x.toNat < a.toNat + 1 + (bs.length + 1)
      · have hsub : x.toNat - a.toNat = x.toNat - (a.toNat + 1) + 1 := by omega
        rw [if_pos ⟨hsp, by omega, by omega⟩, if_pos ⟨hsp, hlow⟩, hsub, List.getElem?_cons_succ]
      · rw [if_neg (c := sp = space ∧ a.toNat + 1 ≤ x.toNat ∧ _) (fun hh => hlow hh.2)]
        by_cases hx0 : x.toNat = a.toNat
        · rw [if_pos ⟨hsp, by omega, by omega⟩, if_pos ⟨hsp, by omega, by omega⟩, hx0, Nat.sub_self]
          rfl
        · rw [if_neg (by omega), if_neg (by omega)]
    · rw [if_neg (fun hh => hsp hh.1), if_neg (fun hh => hsp hh.1), if_neg (fun hh => hsp hh.1)]

/-- **One byte stored** is one byte written, whatever the pages are. -/
theorem flatOf_execStoreByte (pages : List ExecPage) (space : Nat) (a : Word) (b : BitVec 8) :
    flatOf (execStoreByte space a b pages) = (flatOf pages).write space a [b] := by
  funext sp x
  rw [flatOf, execLoadByte_execStoreByte, FlatMemory.write, flatOf]
  by_cases hx : sp = space ∧ x = a
  · obtain ⟨rfl, rfl⟩ := hx
    rw [if_pos ⟨rfl, rfl⟩, if_pos ⟨rfl, le_refl _, by simp⟩, Nat.sub_self]
    rfl
  · rw [if_neg hx, if_neg]
    rintro ⟨hsp, h1, h2⟩
    simp only [List.length_singleton] at h2
    exact hx ⟨hsp, BitVec.eq_of_toNat_eq (by omega)⟩

theorem flatOf_execStoreBytesFrom (pages : List ExecPage) (space : Nat) (a : Word)
    (data : List (BitVec 8)) (hw : ¬ FlatMemory.Wraps a data.length) :
    flatOf (execStoreBytesFrom pages space a data) = (flatOf pages).write space a data := by
  induction data generalizing pages a with
  | nil => rw [FlatMemory.write_nil, execStoreBytesFrom]
  | cons b bs ih =>
    have hnext : ¬ FlatMemory.Wraps (a + 1#64) bs.length := by
      intro hwrap
      have ha := a.isLt
      rw [FlatMemory.Wraps, List.length_cons] at hw
      rw [FlatMemory.Wraps] at hwrap
      rw [toNat_add_one (by omega)] at hwrap
      omega
    rw [FlatMemory.write_cons _ space b hw, ← flatOf_execStoreByte, execStoreBytesFrom, ih _ _ hnext]

/-- **The store loop** writes the range into the map. -/
theorem HoldsFlat.storeBytesFrom {pages : List ExecPage} {f : FlatMemory} (h : HoldsFlat pages f)
    (space : Nat) (a : Word) (data : List (BitVec 8))
    (hw : ¬ FlatMemory.Wraps a data.length) :
    HoldsFlat (execStoreBytesFrom pages space a data) (f.write space a data) := by
  refine ⟨nodup_execStoreBytesFrom space a data h.keys, fun sp x => ?_⟩
  rw [← h.flatOf_eq, ← flatOf_execStoreBytesFrom pages space a data hw]
  rfl

/-- A call of `xair_exec_store_bytes` is the call on the map. -/
theorem HoldsFlat.store {s : ExecState} {f : FlatMemory} (h : HoldsFlat s.mem.pages f)
    (c : StoreCall) :
    HoldsFlat (execStateStoreBytes s c.space c.address c.data).2.mem.pages (f.store c) := by
  rw [execStateStoreBytes, execStoreBytes, FlatMemory.store]
  by_cases hw : FlatMemory.Wraps c.address c.data.length
  · rw [if_pos ((execRangeWraps_iff _ _).mpr hw), if_pos hw]
    exact h
  · rw [if_neg (fun h' => hw ((execRangeWraps_iff _ _).mp h')), if_neg hw]
    exact h.storeBytesFrom c.space c.address c.data hw

theorem HoldsFlat.storeAll {s : ExecState} {f : FlatMemory} (h : HoldsFlat s.mem.pages f)
    (calls : List StoreCall) :
    HoldsFlat (storeBytesAll s calls).mem.pages (f.storeAll calls) := by
  induction calls generalizing s f with
  | nil => exact h
  | cons c cs ih => exact ih (h.store c)

/-! ### Loads -/

theorem offset_succ (a : Word) (i : Nat) :
    a + BitVec.ofNat 64 (i + 1) = a + 1#64 + BitVec.ofNat 64 i := by
  rw [Nat.add_comm, BitVec.ofNat_add, BitVec.add_assoc]

section Loads

variable {pages : List ExecPage} {f : FlatMemory} (h : HoldsFlat pages f) (space : Nat)
include h

/-- The load loop returns bytes exactly when they are those of the map. -/
theorem HoldsFlat.loadBytesFrom_ok (a : Word) (n : Nat) (bytes : List (BitVec 8)) :
    execLoadBytesFrom pages space a n = .ok bytes ↔
      bytes.length = n ∧ ∀ i < n, bytes[i]? = f space (a + BitVec.ofNat 64 i) := by
  induction n generalizing a bytes with
  | zero =>
    rw [execLoadBytesFrom]
    constructor
    · rintro ⟨⟩
      exact ⟨rfl, fun i hi => absurd hi (Nat.not_lt_zero i)⟩
    · rintro ⟨hl, -⟩
      rw [List.eq_nil_of_length_eq_zero hl]
  | succ n ih =>
    rw [execLoadBytesFrom, h.byte]
    have hfirst : a + BitVec.ofNat 64 0 = a := BitVec.add_zero a
    cases hb : f space a with
    | none =>
      constructor
      · intro h'
        cases h'
      · rintro ⟨hl, hi⟩
        have h0 := hi 0 (Nat.succ_pos n)
        rw [hfirst, hb, List.getElem?_eq_none_iff] at h0
        omega
    | some b =>
      have hrest := fun bs => ih (a + 1#64) bs
      constructor
      · intro h'
        cases hr : execLoadBytesFrom pages space (a + 1#64) n with
        | error e =>
          rw [hr] at h'
          cases h'
        | ok bs =>
          rw [hr] at h'
          cases h'
          obtain ⟨hl, hi⟩ := (hrest bs).mp hr
          refine ⟨by rw [List.length_cons, hl], fun i hin => ?_⟩
          cases i with
          | zero => rw [hfirst, hb, List.getElem?_cons_zero]
          | succ i => rw [List.getElem?_cons_succ, offset_succ, hi i (Nat.lt_of_succ_lt_succ hin)]
      · rintro ⟨hl, hi⟩
        cases bytes with
        | nil => cases hl
        | cons b' bs =>
          have h0 := hi 0 (Nat.succ_pos n)
          rw [hfirst, hb, List.getElem?_cons_zero, Option.some.injEq] at h0
          have hbs : execLoadBytesFrom pages space (a + 1#64) n = .ok bs := by
            refine (hrest bs).mpr ⟨Nat.succ.inj hl, fun i hin => ?_⟩
            have := hi (i + 1) (Nat.succ_lt_succ hin)
            rwa [List.getElem?_cons_succ, offset_succ] at this
          rw [hbs, h0]
          rfl

/-- The load loop fails exactly at a byte that the map does not have. -/
theorem HoldsFlat.loadBytesFrom_error (a : Word) (n : Nat) (e : Status) :
    execLoadBytesFrom pages space a n = .error e ↔
      e = .errRange ∧ ∃ i < n, f space (a + BitVec.ofNat 64 i) = none := by
  induction n generalizing a with
  | zero =>
    constructor
    · rintro ⟨⟩
    · rintro ⟨-, i, hi, -⟩
      exact absurd hi (Nat.not_lt_zero i)
  | succ n ih =>
    rw [execLoadBytesFrom, h.byte]
    have hfirst : a + BitVec.ofNat 64 0 = a := BitVec.add_zero a
    cases hb : f space a with
    | none =>
      constructor
      · rintro ⟨⟩
        exact ⟨rfl, 0, Nat.succ_pos n, by rw [hfirst, hb]⟩
      · rintro ⟨rfl, -⟩
        rfl
    | some b =>
      have hmap : (execLoadBytesFrom pages space (a + 1#64) n).map (b :: ·) = .error e ↔
          execLoadBytesFrom pages space (a + 1#64) n = .error e := by
        cases execLoadBytesFrom pages space (a + 1#64) n with
        | error e' => exact Iff.rfl
        | ok bs =>
          constructor
          · rintro ⟨⟩
          · rintro ⟨⟩
      rw [hmap, ih]
      constructor
      · rintro ⟨he, i, hi, hn⟩
        exact ⟨he, i + 1, Nat.succ_lt_succ hi, by rw [offset_succ, hn]⟩
      · rintro ⟨he, i, hi, hn⟩
        refine ⟨he, ?_⟩
        cases i with
        | zero =>
          rw [hfirst, hb] at hn
          cases hn
        | succ i => exact ⟨i, Nat.lt_of_succ_lt_succ hi, by rw [← offset_succ, hn]⟩

end Loads

/-- **The pages hold the flat memory.**  After any calls of `xair_exec_store_bytes` on a fresh
state no two pages have the same space and number, and both calls answer as the map does:
they refuse the ranges that wrap, a load fails on the others exactly at a byte that was never
written, and it returns the bytes last written. -/
theorem execLoadBytes_storeBytesAll (m : Module) (calls : List StoreCall) :
    let s := storeBytesAll (freshState m) calls
    let f := FlatMemory.empty.storeAll calls
    (s.mem.pages.map ExecPage.key).Nodup ∧
    (∀ space a data,
      if FlatMemory.Wraps a data.length then execStateStoreBytes s space a data = (.errBadArg, s)
      else (execStateStoreBytes s space a data).1 = .ok) ∧
    ∀ space a n,
      (execStateLoadBytes s space a n = .error .errBadArg ↔ FlatMemory.Wraps a n) ∧
      (execStateLoadBytes s space a n = .error .errRange ↔
        ¬ FlatMemory.Wraps a n ∧ ∃ i < n, f space (a + BitVec.ofNat 64 i) = none) ∧
      ∀ bytes, execStateLoadBytes s space a n = .ok bytes ↔
        ¬ FlatMemory.Wraps a n ∧ bytes.length = n ∧
          ∀ i < n, bytes[i]? = f space (a + BitVec.ofNat 64 i) := by
  intro s f
  have h : HoldsFlat s.mem.pages f := HoldsFlat.storeAll holdsFlat_nil calls
  refine ⟨h.keys, fun space a data => ?_, fun space a n => ?_⟩
  · rw [execStateStoreBytes, execStoreBytes]
    by_cases hw : FlatMemory.Wraps a data.length
    · rw [if_pos hw, if_pos ((execRangeWraps_iff _ _).mpr hw)]
    · rw [if_neg hw, if_neg (fun h' => hw ((execRangeWraps_iff _ _).mp h'))]
  · rw [execStateLoadBytes, execLoadBytes]
    by_cases hw : FlatMemory.Wraps a n
    · rw [if_pos ((execRangeWraps_iff _ _).mpr hw)]
      refine ⟨⟨fun _ => hw, fun _ => rfl⟩, ⟨?_, fun h' => absurd hw h'.1⟩,
        fun bytes => ⟨?_, fun h' => absurd hw h'.1⟩⟩
      · rintro ⟨⟩
      · rintro ⟨⟩
    · rw [if_neg (fun h' => hw ((execRangeWraps_iff _ _).mp h')), h.loadBytesFrom_error,
        h.loadBytesFrom_error]
      refine ⟨⟨fun h' => ?_, fun h' => absurd h' hw⟩, ⟨fun h' => ⟨hw, h'.2⟩, fun h' => ⟨rfl, h'.2⟩⟩,
        fun bytes => ?_⟩
      · cases h'.1
      · rw [h.loadBytesFrom_ok]
        exact ⟨fun h' => ⟨hw, h'⟩, fun h' => h'.2⟩

/-! ### Every state holds a map -/

section Reachable

variable {m : Module} {s : ExecState}

theorem nodup_execStoreBytes {pages pages' : List ExecPage} {space : Nat} {a : Word}
    {data : List (BitVec 8)} (h : (pages.map ExecPage.key).Nodup)
    (hs : execStoreBytes pages space a data = .ok pages') : (pages'.map ExecPage.key).Nodup := by
  unfold execStoreBytes at hs
  split at hs
  · cases hs
  · cases hs
    exact nodup_execStoreBytesFrom space a data h

/-- An operation keeps the keys of the pages apart. -/
theorem nodup_execOpValue {out : Ty} {read : Nat → Except Status ExecValue} {mem mem' : ExecMemory}
    {op : OpRec} {x : ExecValue} (h : (mem.pages.map ExecPage.key).Nodup)
    (hx : execOpValue out read mem op = .ok (x, mem')) :
    (mem'.pages.map ExecPage.key).Nodup := by
  by_cases hop : op.opcode.isMemoryOp
  · rw [execOpValue_memoryOp hop] at hx
    unfold execMemoryOp at hx
    repeat' split at hx
    all_goals cases hx
    · exact h
    · next hst =>
      unfold execStoreU64 at hst
      split at hst
      · cases hst
      · exact nodup_execStoreBytes h hst
  · have hsame := execOpValue_quiet hop hx mem
    rw [hx] at hsame
    cases hsame
    exact h

theorem execDefineAll_mem (m : Module) (s : ExecState) (vs : List Nat) (xs : List ExecValue) :
    (execDefineAll m s vs xs).2.mem = s.mem := by
  induction vs generalizing s xs with
  | nil => rfl
  | cons v vs ih =>
    cases xs with
    | nil => rfl
    | cons x xs =>
      have hdef : (execDefineValue m s v x).2.mem = s.mem := by
        unfold execDefineValue
        split
        · rfl
        · split <;> rfl
      rw [execDefineAll]
      split
      · next s' hs =>
        rw [hs] at hdef
        exact (ih s' xs).trans hdef
      · next hs =>
        rw [hs] at hdef
        exact hdef

/-- **Every state holds the map of its pages**, whatever calls and runs came before. -/
theorem ExecState.Reachable.holdsFlat (h : s.Reachable m) :
    HoldsFlat s.mem.pages (flatOf s.mem.pages) := by
  refine ⟨?_, fun _ _ => rfl⟩
  induction h with
  | create hc =>
    unfold execStateCreate at hc
    split at hc
    · cases hc
    · cases hc
      exact List.nodup_nil
  | @setParam s v x _ ih =>
    unfold execSetParam
    split
    · exact ih
    · split
      · exact ih
      · unfold execDefineValue
        split
        · exact ih
        · split <;> exact ih
  | @storeBytes s space address data _ ih =>
    unfold execStateStoreBytes
    split
    · exact ih
    · next hs => exact nodup_execStoreBytes ih hs
  | @run s entry limit _ ih =>
    unfold execRun
    split
    · exact ih
    · refine interpRun_keeps (Q := fun s : ExecState => (s.mem.pages.map ExecPage.key).Nodup) ?_ ?_
        limit entry ih
      · intro s op hs
        show (execOp m s op).2.mem.pages.map ExecPage.key |>.Nodup
        unfold execOp
        split
        · exact hs
        · next x mem hx =>
          have hmem := nodup_execOpValue hs hx
          unfold execDefineValue
          split
          · exact hmem
          · split <;> exact hmem
      · intro s target args hs
        show (execTransferArgs m s target args).2.mem.pages.map ExecPage.key |>.Nodup
        unfold execTransferArgs
        split
        · exact hs
        · split
          · exact hs
          · split
            · exact hs
            · rw [execDefineAll_mem]
              exact hs

end Reachable

end Xair
