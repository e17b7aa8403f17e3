import Xair.LinearProbe
import Xair.Reachable

/-!
# Value numbering is hash-consing

The value-number table is an instance of `LinearProbe`: its capacity is a power of
two, so masking an index is taking it modulo the capacity, and fewer than half of
its slots are used.  `TableOk` ties its entries to the operations of the module; it
holds after every sequence of building calls (`hashConsed_runCalls`), and with it a
lookup hits exactly when a structurally identical operation exists.
-/

namespace Xair

/-! ### The table as an instance of linear probing -/

/-- The hash that places an entry. -/
def ValueNumberEntry.home (e : ValueNumberEntry) : Nat := e.hash.toNat

/-- A capacity of the table: a power of two, and at least two. -/
def IsCap (cap : Nat) : Prop := ∃ n, cap = 2 ^ (n + 1)

theorem IsCap.mask {cap : Nat} (h : IsCap cap) (i : Nat) : i &&& (cap - 1) = i % cap := by
  obtain ⟨n, rfl⟩ := h
  exact Nat.and_two_pow_sub_one_eq_mod i (n + 1)

section Table

variable {table : List (Option ValueNumberEntry)}

theorem freeSlot_eq (h : IsCap table.length) (n i : Nat) :
    freeSlot table n i = LinearProbe.firstFree table n i := by
  induction n generalizing i with
  | zero => rfl
  | succ n ih =>
    rw [freeSlot, LinearProbe.firstFree, LinearProbe.slot]
    cases table.getD i none with
    | none => rfl
    | some e =>
      simp only [nextSlot, h.mask]
      exact ih _

theorem placeEntry_eq (h : IsCap table.length) (e : ValueNumberEntry) :
    placeEntry table e = LinearProbe.insert ValueNumberEntry.home table e := by
  unfold placeEntry LinearProbe.insert
  rw [freeSlot_eq h, homeSlot, h.mask]
  rfl

theorem foldl_placeEntry_eq (h : IsCap table.length) (es : List ValueNumberEntry) :
    es.foldl placeEntry table = es.foldl (LinearProbe.insert ValueNumberEntry.home) table := by
  induction es generalizing table with
  | nil => rfl
  | cons e es ih =>
    rw [List.foldl_cons, List.foldl_cons, placeEntry_eq h]
    exact ih (by rw [LinearProbe.length_insert]; exact h)

/-- The test that ends the probe loop at a hit. -/
def probeTest (m : Module) (hash : Word) (k : OpKey) (e : ValueNumberEntry) : Bool :=
  decide (e.hash = hash) && valueNumberMatches m e.value k

theorem probe_eq {m : Module} (h : IsCap m.valueNumbers.length) (hash : Word) (k : OpKey)
    (n i : Nat) : (probe m hash k n i).1 =
      (LinearProbe.find m.valueNumbers (probeTest m hash k) n i).map ValueNumberEntry.value := by
  induction n generalizing i with
  | zero => rfl
  | succ n ih =>
    rw [probe, LinearProbe.find, LinearProbe.slot]
    cases m.valueNumbers.getD i none with
    | none => rfl
    | some e =>
      have htest : (e.hash = hash ∧ valueNumberMatches m e.value k = true) ↔
          probeTest m hash k e = true := by simp [probeTest]
      simp only [htest]
      by_cases hp : probeTest m hash k e = true
      · simp [hp]
      · simp only [hp, if_false, Bool.false_eq_true, nextSlot, Module.valueNumberCap, h.mask]
        exact ih _

end Table

/-- The search for an unused slot from the home of `hash` stops. -/
def FindsFree (table : List (Option ValueNumberEntry)) (hash : Word) : Prop :=
  ∃ i, freeSlot table table.length (homeSlot table.length hash) = some i

/-- What holds of the table, its count and the entries it stands for. -/
structure TableOk (table : List (Option ValueNumberEntry)) (count : Nat)
    (entries : List ValueNumberEntry) : Prop where
  cap : table = [] ∨ IsCap table.length
  load : table = [] ∧ count = 0 ∨ count * 2 < table.length
  count_eq : count = entries.length
  perm : (LinearProbe.entries table).Perm entries
  clustered : LinearProbe.Clustered ValueNumberEntry.home table

section TableOk

variable {table : List (Option ValueNumberEntry)} {count : Nat} {es : List ValueNumberEntry}

theorem TableOk.used (h : TableOk table count es) : (LinearProbe.entries table).length = count := by
  rw [h.perm.length_eq, h.count_eq]

theorem tableOk_nil : TableOk [] 0 [] :=
  ⟨.inl rfl, .inl ⟨rfl, rfl⟩, rfl, .refl _, fun j e he => by simp [LinearProbe.slot] at he⟩

/-- Every search stops in a table that is less than half full. -/
theorem TableOk.findsFree (h : TableOk table count es) (hne : table ≠ []) (hash : Word) :
    FindsFree table hash := by
  have hcap := h.cap.resolve_left hne
  have hlt : (LinearProbe.entries table).length < table.length := by
    rw [h.used]
    rcases h.load with ⟨hn, -⟩ | hl
    · exact absurd hn hne
    · omega
  obtain ⟨j, hj⟩ := LinearProbe.firstFree_of_lt hash.toNat hlt
  exact ⟨j, by rw [freeSlot_eq hcap, homeSlot, hcap.mask, hj]⟩

/-- Placing an entry where there is room for one more. -/
theorem TableOk.place (h : TableOk table count es) (hl : (count + 1) * 2 < table.length)
    (e : ValueNumberEntry) : TableOk (placeEntry table e) (count + 1) (es ++ [e]) := by
  have hne : table ≠ [] := fun hn => by rw [hn] at hl; simp at hl
  have hcap := h.cap.resolve_left hne
  have hlt : (LinearProbe.entries table).length < table.length := by rw [h.used]; omega
  obtain ⟨h1, h2⟩ := LinearProbe.insert_clustered h.clustered hlt e
  rw [placeEntry_eq hcap]
  have hlen : (LinearProbe.insert ValueNumberEntry.home table e).length = table.length :=
    LinearProbe.length_insert e
  refine ⟨.inr (by rw [hlen]; exact hcap), .inr (by rw [hlen]; exact hl),
    by rw [h.count_eq, List.length_append, List.length_singleton], ?_, h1⟩
  exact (h2.trans (h.perm.cons e)).trans (List.perm_append_singleton e es).symm

end TableOk

/-! ### Growing the table -/

/-- The capacity `value_number_prepare_insert` grows to. -/
def nextCap (m : Module) : Nat := if m.valueNumberCap = 0 then 64 else m.valueNumberCap * 2

/-- Every insertion of a rehash to the next capacity finds an unused slot. -/
def RehashStops (m : Module) : Prop :=
  ∀ pre e post, m.valueNumbers.filterMap id = pre ++ e :: post →
    FindsFree (pre.foldl placeEntry (List.replicate (nextCap m) none)) e.hash

section Grow

variable {m : Module} {es : List ValueNumberEntry}

theorem isCap_nextCap (h : TableOk m.valueNumbers m.valueNumberCount es) : IsCap (nextCap m) := by
  unfold nextCap Module.valueNumberCap
  split
  · exact ⟨5, rfl⟩
  · next hne =>
    obtain ⟨n, hn⟩ := h.cap.resolve_left fun hn => hne (by rw [hn]; rfl)
    exact ⟨n + 1, by rw [hn, Nat.pow_succ _ (n + 1)]⟩

/-- There is room for one more than the entries in a grown table. -/
theorem nextCap_gt (h : TableOk m.valueNumbers m.valueNumberCount es) :
    (m.valueNumberCount + 1) * 2 < nextCap m := by
  unfold nextCap Module.valueNumberCap
  rcases h.load with ⟨hn, hc⟩ | hl
  · rw [hn, hc]
    decide
  · have hne : m.valueNumbers ≠ [] := fun hn => by rw [hn] at hl; simp at hl
    obtain ⟨n, hn⟩ := h.cap.resolve_left hne
    have hpos := Nat.two_pow_pos n
    rw [if_neg (by omega)]
    omega

/-- A rehash keeps the entries and leaves room for one more. -/
theorem foldl_grow (h : TableOk m.valueNumbers m.valueNumberCount es) :
    LinearProbe.Clustered ValueNumberEntry.home (valueNumberGrow m (nextCap m)).valueNumbers ∧
      (LinearProbe.entries (valueNumberGrow m (nextCap m)).valueNumbers).Perm
        (LinearProbe.entries m.valueNumbers) ∧
      (valueNumberGrow m (nextCap m)).valueNumbers.length = nextCap m ∧ RehashStops m := by
  have hcap := isCap_nextCap h
  have hgt := nextCap_gt h
  have hrep : (List.replicate (nextCap m) (none : Option ValueNumberEntry)).length = nextCap m :=
    List.length_replicate
  have hused := h.used
  have hempty : LinearProbe.Clustered ValueNumberEntry.home (List.replicate (nextCap m) none) :=
    LinearProbe.clustered_replicate _
  obtain ⟨h1, h2, h3, h4⟩ := LinearProbe.foldl_insert (LinearProbe.entries m.valueNumbers) hempty
    (by rw [LinearProbe.entries_replicate, hrep, List.length_nil]; omega)
  have heq : (LinearProbe.entries m.valueNumbers).foldl placeEntry (List.replicate (nextCap m) none) =
      (LinearProbe.entries m.valueNumbers).foldl (LinearProbe.insert ValueNumberEntry.home)
        (List.replicate (nextCap m) none) :=
    foldl_placeEntry_eq (by rw [hrep]; exact hcap) _
  rw [← heq] at h1 h2 h3
  rw [LinearProbe.entries_replicate, List.append_nil] at h2
  refine ⟨h1, h2, h3.trans hrep, fun pre e post hpre => ?_⟩
  obtain ⟨j, hj⟩ := h4 pre e post hpre
  -- the partial table has the capacity of the whole one
  have hlen : (pre.foldl placeEntry (List.replicate (nextCap m) none)).length = nextCap m := by
    rw [foldl_placeEntry_eq (by rw [hrep]; exact hcap)]
    refine (LinearProbe.foldl_insert pre (LinearProbe.clustered_replicate _) ?_).2.2.1.trans hrep
    have := congrArg List.length hpre
    rw [List.length_append, List.length_cons] at this
    change (LinearProbe.entries m.valueNumbers).length = _ at this
    rw [LinearProbe.entries_replicate, hrep, List.length_nil]
    omega
  refine ⟨j, ?_⟩
  rw [hlen, freeSlot_eq (by rw [hlen]; exact hcap), homeSlot, hcap.mask,
    foldl_placeEntry_eq (by rw [hrep]; exact hcap)]
  rwa [hrep] at hj

/-- **Preparing an insertion** keeps the table in order and makes room for one more. -/
theorem tableOk_prepareInsert (h : TableOk m.valueNumbers m.valueNumberCount es) :
    TableOk (valueNumberPrepareInsert m).valueNumbers (valueNumberPrepareInsert m).valueNumberCount
        es ∧
      ((valueNumberPrepareInsert m).valueNumberCount + 1) * 2 <
        (valueNumberPrepareInsert m).valueNumbers.length := by
  unfold valueNumberPrepareInsert
  split
  · next hroom => exact ⟨h, hroom.2⟩
  · change TableOk (valueNumberGrow m (nextCap m)).valueNumbers
        (valueNumberGrow m (nextCap m)).valueNumberCount es ∧
      ((valueNumberGrow m (nextCap m)).valueNumberCount + 1) * 2 <
        (valueNumberGrow m (nextCap m)).valueNumbers.length
    obtain ⟨h1, h2, h3, -⟩ := foldl_grow h
    have hgt := nextCap_gt h
    have hcount : (valueNumberGrow m (nextCap m)).valueNumberCount = m.valueNumberCount := h.used
    rw [hcount, h3]
    refine ⟨⟨.inr (by rw [h3]; exact isCap_nextCap h), .inr (by rw [h3]; omega), h.count_eq,
      h2.trans h.perm, h1⟩, hgt⟩

end Grow

/-! ### Structural identity -/

/-- The arguments with which an operation of the module was built. -/
def Module.opKey (m : Module) (op : OpRec) : OpKey :=
  ⟨(m.valueRec op.dst).block, op.opcode, m.valueType op.dst, op.src, op.imm, op.endian⟩

/-- The table entry of an operation. -/
def Module.opEntry (m : Module) (op : OpRec) : ValueNumberEntry :=
  ⟨valueNumberHash (m.opKey op), op.dst⟩

/-- Structurally identical: alike in opcode, type, sources, immediate and
endianness, and in the block unless it is a constant. -/
structure SameOp (k l : OpKey) : Prop where
  opcode : k.opcode = l.opcode
  type : k.type = l.type
  srcs : k.srcs = l.srcs
  imm : k.imm = l.imm
  endian : k.endian = l.endian
  block : k.opcode = .constU64 ∨ k.block = l.block

theorem SameOp.refl (k : OpKey) : SameOp k k := ⟨rfl, rfl, rfl, rfl, rfl, .inr rfl⟩

theorem SameOp.symm {k l : OpKey} (h : SameOp k l) : SameOp l k :=
  ⟨h.opcode.symm, h.type.symm, h.srcs.symm, h.imm.symm, h.endian.symm,
    h.block.imp (fun hc => h.opcode ▸ hc) Eq.symm⟩

/-- Structurally identical operations hash alike. -/
theorem SameOp.hash {k l : OpKey} (h : SameOp k l) : valueNumberHash k = valueNumberHash l := by
  obtain ⟨kb, ko, kt, ks, ki, ke⟩ := k
  obtain ⟨lb, lo, lt, ls, li, ln⟩ := l
  obtain ⟨h1, h2, h3, h4, h5, h6⟩ := h
  dsimp only at h1 h2 h3 h4 h5 h6
  subst h1 h2 h3 h4 h5
  rcases h6 with h6 | h6
  · subst h6
    simp [valueNumberHash, valueNumberIsGlobal]
  · rw [h6]

section Matches

variable {m : Module}

/-- **The match predicate is structural identity** with the operation of the value. -/
theorem valueNumberMatches_iff (hwf : m.WF) {v : Nat} {k : OpKey} :
    valueNumberMatches m v k = true ↔
      ∃ o < m.ops.length, (m.opRec o).dst = v ∧ SameOp (m.opKey (m.opRec o)) k := by
  unfold valueNumberMatches
  constructor
  · intro h
    cases hop : m.valueOp v with
    | none => simp [hop] at h
    | some op =>
      obtain ⟨o, ho, rfl, rfl⟩ := hwf.valueOp_some hop
      simp only [hop, Bool.and_eq_true, Bool.or_eq_true, beq_iff_eq, valueNumberIsGlobal] at h
      obtain ⟨⟨⟨-, h1⟩, h2⟩, ⟨⟨⟨h3, h4⟩, h5⟩, h6⟩, h7⟩ := h
      exact ⟨o, ho, rfl, h3, h1, h7, h5, h6, h2.imp (fun hc => h3.trans hc) id⟩
  · rintro ⟨o, ho, rfl, h1, h2, h3, h4, h5, h6⟩
    rw [hwf.valueOp_dst ho]
    have hlt := (hwf.op_dst o ho).1
    simp only [Module.opKey] at h1 h2 h3 h4 h5 h6
    simp only [Module.validValue, hlt, decide_true, h2, h1, h3, h4, h5, valueNumberIsGlobal,
      beq_self_eq_true, Bool.and_self, Bool.true_and, Bool.and_true, Bool.or_eq_true, beq_iff_eq]
    exact h6.imp (fun hc => h1 ▸ hc) id

end Matches

/-! ### The invariant -/

/-- The table stands for the operations `os` of the module, no two of which are
structurally identical. -/
structure Tabled (m : Module) (os : List Nat) : Prop where
  table : TableOk m.valueNumbers m.valueNumberCount (os.map fun o => m.opEntry (m.opRec o))
  lt : ∀ o ∈ os, o < m.ops.length
  unique : ∀ o ∈ os, ∀ p ∈ os, SameOp (m.opKey (m.opRec o)) (m.opKey (m.opRec p)) → o = p

/-- The table stands for the operations of the module, no two of which are
structurally identical. -/
structure Numbered (m : Module) : Prop where
  table : TableOk m.valueNumbers m.valueNumberCount (m.ops.map m.opEntry)
  created : m.stats.created = m.ops.length
  unique : ∀ o < m.ops.length, ∀ p < m.ops.length,
    SameOp (m.opKey (m.opRec o)) (m.opKey (m.opRec p)) → o = p

theorem map_range_opRec (m : Module) : (List.range m.ops.length).map m.opRec = m.ops := by
  refine List.ext_getElem (by simp) fun o h1 h2 => ?_
  rw [List.getElem_map, List.getElem_range, Module.opRec, List.getD_eq_getElem _ _ h2]

/-- In a numbered module the table stands for all operations. -/
theorem numbered_iff {m : Module} :
    Numbered m ↔ Tabled m (List.range m.ops.length) ∧ m.stats.created = m.ops.length := by
  have hmap : (List.range m.ops.length).map (fun o => m.opEntry (m.opRec o)) =
      m.ops.map m.opEntry := by
    conv_rhs => rw [← map_range_opRec m]
    rw [List.map_map]
    rfl
  constructor
  · rintro ⟨ht, hc, hu⟩
    refine ⟨⟨by rwa [hmap], fun o ho => List.mem_range.mp ho, fun o ho p hp => ?_⟩, hc⟩
    exact hu o (List.mem_range.mp ho) p (List.mem_range.mp hp)
  · rintro ⟨⟨ht, -, hu⟩, hc⟩
    refine ⟨by rwa [hmap] at ht, hc, fun o ho p hp => ?_⟩
    exact hu o (List.mem_range.mpr ho) p (List.mem_range.mpr hp)

theorem numbered_create : Numbered Module.create :=
  ⟨tableOk_nil, rfl, fun o ho => by simp [Module.create] at ho⟩

section Lookup

variable {m : Module} {os : List Nat}

theorem SameOp.trans {k l j : OpKey} (h : SameOp k l) (h' : SameOp l j) : SameOp k j := by
  refine ⟨h.opcode.trans h'.opcode, h.type.trans h'.type, h.srcs.trans h'.srcs,
    h.imm.trans h'.imm, h.endian.trans h'.endian, ?_⟩
  rcases h.block with hc | hb
  · exact .inl hc
  · rcases h'.block with hc | hb'
    · exact .inl (h.opcode.trans hc)
    · exact .inr (hb.trans hb')

/-- A hit of the lookup is the result of an operation of the table with that key. -/
theorem Tabled.lookup_some (hwf : m.WF) (h : Tabled m os) {k : OpKey} {v : Nat}
    (hv : (valueNumberLookup m (valueNumberHash k) k).2 = some v) :
    ∃ o ∈ os, (m.opRec o).dst = v ∧ SameOp (m.opKey (m.opRec o)) k := by
  have hcap0 : m.valueNumberCap ≠ 0 := by
    intro h0
    rw [valueNumberLookup, if_pos h0] at hv
    cases hv
  have hne : m.valueNumbers ≠ [] := fun hn => hcap0 (by rw [Module.valueNumberCap, hn]; rfl)
  have hprobe : (probe m (valueNumberHash k) k m.valueNumberCap
      (homeSlot m.valueNumberCap (valueNumberHash k))).1 = some v := by
    rw [valueNumberLookup, if_neg hcap0] at hv
    split at hv
    · next hp => rw [hp]; exact hv
    · cases hv
  rw [probe_eq (h.table.cap.resolve_left hne), Option.map_eq_some_iff] at hprobe
  obtain ⟨e, he, rfl⟩ := hprobe
  obtain ⟨htest, hmem⟩ := LinearProbe.find_some _ _ he
  obtain ⟨o, ho, rfl⟩ := List.mem_map.mp (h.table.perm.mem_iff.mp hmem)
  rw [probeTest, Bool.and_eq_true] at htest
  obtain ⟨p, hp, hd, hs⟩ := (valueNumberMatches_iff hwf).mp htest.2
  obtain rfl := hwf.dst_inj hp (h.lt o ho) hd
  exact ⟨p, ho, rfl, hs⟩

/-- **A lookup hits exactly when the table has an operation with that key.** -/
theorem Tabled.lookup_iff (hwf : m.WF) (h : Tabled m os) (k : OpKey) :
    (∃ v, (valueNumberLookup m (valueNumberHash k) k).2 = some v) ↔
      ∃ o ∈ os, SameOp (m.opKey (m.opRec o)) k := by
  constructor
  · rintro ⟨v, hv⟩
    obtain ⟨o, ho, -, hs⟩ := h.lookup_some hwf hv
    exact ⟨o, ho, hs⟩
  · rintro ⟨o, ho, hs⟩
    have hmem : m.opEntry (m.opRec o) ∈ LinearProbe.entries m.valueNumbers :=
      h.table.perm.mem_iff.mpr (List.mem_map.mpr ⟨o, ho, rfl⟩)
    have hne : m.valueNumbers ≠ [] := by
      intro hn
      rw [hn] at hmem
      simp [LinearProbe.entries] at hmem
    have hcap := h.table.cap.resolve_left hne
    -- the entry of that operation passes the test of the probe loop
    have htest : probeTest m (valueNumberHash k) k (m.opEntry (m.opRec o)) = true := by
      simp only [probeTest, Module.opEntry, hs.hash, decide_true, Bool.true_and]
      exact (valueNumberMatches_iff hwf).mpr ⟨o, h.lt o ho, rfl, hs⟩
    obtain ⟨e, he⟩ := LinearProbe.find_isSome h.table.clustered hmem htest
    have hhome : (m.opEntry (m.opRec o)).home % m.valueNumbers.length =
        homeSlot m.valueNumberCap (valueNumberHash k) := by
      rw [homeSlot, Module.valueNumberCap, hcap.mask, ValueNumberEntry.home, Module.opEntry, hs.hash]
    rw [hhome] at he
    have hprobe := probe_eq hcap (valueNumberHash k) k m.valueNumbers.length
      (homeSlot m.valueNumberCap (valueNumberHash k))
    rw [he] at hprobe
    refine ⟨e.value, ?_⟩
    have hcap0 : m.valueNumberCap ≠ 0 := by
      rw [Module.valueNumberCap]
      exact fun h0 => hne (List.length_eq_zero_iff.mp h0)
    rw [valueNumberLookup, if_neg hcap0]
    change (probe m (valueNumberHash k) k m.valueNumberCap _).1 = _ at hprobe
    split
    · next v c hp => rw [hp] at hprobe; exact hprobe
    · next c hp => rw [hp] at hprobe; cases hprobe

/-- Identical operations are one operation, so a hit is the result of the only one. -/
theorem Tabled.lookup_eq (hwf : m.WF) (h : Tabled m os) {k : OpKey} {o : Nat} (ho : o ∈ os)
    (hs : SameOp (m.opKey (m.opRec o)) k) {v : Nat}
    (hv : (valueNumberLookup m (valueNumberHash k) k).2 = some v) : v = (m.opRec o).dst := by
  obtain ⟨p, hp, rfl, hsp⟩ := h.lookup_some hwf hv
  rw [h.unique p hp o ho (hsp.trans hs.symm)]

/-- **A lookup hits exactly when a structurally identical operation exists.** -/
theorem valueNumberLookup_iff (hwf : m.WF) (h : Numbered m) (k : OpKey) :
    (∃ v, (valueNumberLookup m (valueNumberHash k) k).2 = some v) ↔
      ∃ o < m.ops.length, SameOp (m.opKey (m.opRec o)) k := by
  rw [(numbered_iff.mp h).1.lookup_iff hwf]
  simp only [List.mem_range]

end Lookup

/-! ### Calls -/

/-- Nothing that the table depends on changes: the operations, the records of the
existing values, and the table itself. -/
structure TableFrame (m m' : Module) : Prop where
  ops : m'.ops = m.ops
  valueRec : ∀ v < m.values.length, m'.valueRec v = m.valueRec v
  values_le : m.values.length ≤ m'.values.length
  table : m'.valueNumbers = m.valueNumbers
  count : m'.valueNumberCount = m.valueNumberCount
  created : m'.stats.created = m.stats.created

section Frame

variable {m m' : Module}

theorem TableFrame.refl (m : Module) : TableFrame m m :=
  ⟨rfl, fun _ _ => rfl, Nat.le_refl _, rfl, rfl, rfl⟩

theorem TableFrame.trans {m'' : Module} (h : TableFrame m m') (h' : TableFrame m' m'') :
    TableFrame m m'' :=
  ⟨h'.ops.trans h.ops,
    fun v hv => (h'.valueRec v (Nat.lt_of_lt_of_le hv h.values_le)).trans (h.valueRec v hv),
    Nat.le_trans h.values_le h'.values_le, h'.table.trans h.table, h'.count.trans h.count,
    h'.created.trans h.created⟩

/-- The key of an operation depends on the record of its result. -/
theorem opKey_congr {op : OpRec} (h : m'.valueRec op.dst = m.valueRec op.dst) :
    m'.opKey op = m.opKey op := by
  rw [Module.opKey, Module.opKey, Module.valueType, Module.valueType, h]

theorem Tabled.frame {os : List Nat} (hwf : m.WF) (h : Tabled m os) (hf : TableFrame m m') :
    Tabled m' os := by
  have hrec : ∀ o, m'.opRec o = m.opRec o := fun o => by rw [Module.opRec, hf.ops]; rfl
  have hkey : ∀ o ∈ os, m'.opKey (m'.opRec o) = m.opKey (m.opRec o) := fun o ho => by
    rw [hrec, opKey_congr (hf.valueRec _ (hwf.op_dst o (h.lt o ho)).1)]
  refine ⟨?_, fun o ho => hf.ops ▸ h.lt o ho, fun o ho p hp hs => ?_⟩
  · rw [hf.table, hf.count]
    have hmap : (os.map fun o => m'.opEntry (m'.opRec o)) = os.map fun o => m.opEntry (m.opRec o) :=
      List.map_congr_left fun o ho => by
        rw [Module.opEntry, Module.opEntry, hkey o ho, hrec]
    rw [hmap]
    exact h.table
  · rw [hkey o ho, hkey p hp] at hs
    exact h.unique o ho p hp hs

theorem Numbered.frame (hwf : m.WF) (h : Numbered m) (hf : TableFrame m m') : Numbered m' := by
  obtain ⟨ht, hc⟩ := numbered_iff.mp h
  exact numbered_iff.mpr ⟨hf.ops ▸ ht.frame hwf hf, by rw [hf.created, hf.ops, hc]⟩

theorem tableFrame_of_eq (h1 : m'.ops = m.ops) (h2 : m'.values = m.values)
    (h3 : m'.valueNumbers = m.valueNumbers) (h4 : m'.valueNumberCount = m.valueNumberCount)
    (h5 : m'.stats.created = m.stats.created) : TableFrame m m' :=
  ⟨h1, fun v _ => by rw [Module.valueRec, h2]; rfl, by rw [h2], h3, h4, h5⟩

theorem tableFrame_lookup (m : Module) (hash : Word) (k : OpKey) :
    TableFrame m (valueNumberLookup m hash k).1 := by
  unfold valueNumberLookup
  split
  · exact .refl m
  · split <;> exact tableFrame_of_eq rfl rfl rfl rfl rfl

theorem tableFrame_blockCreate (m : Module) (name : Option Name) :
    TableFrame m (blockCreate m name).1 := by
  rcases blockCreate_cases m name with ⟨e, he⟩ | ⟨-, -, he⟩
  · rw [he]; exact .refl m
  · rw [he]; exact tableFrame_of_eq rfl rfl rfl rfl rfl

theorem tableFrame_blockAddParam (m : Module) (b : Nat) (t : Ty) (name : Option Name) :
    TableFrame m (blockAddParam m b t name).1 := by
  rcases blockAddParam_cases m b t name with ⟨e, he⟩ | ⟨-, -, -, -, he⟩
  · rw [he]; exact .refl m
  · rw [he]
    refine ⟨rfl, fun v hv => ?_, by simp [Module.withParam], rfl, rfl, rfl⟩
    rw [Module.withParam_old hv]

theorem tableFrame_appendTermArgs (m : Module) (args : ArgArray) :
    TableFrame m (appendTermArgs m args).1 := by
  rcases appendTermArgs_cases m args with ⟨e, he⟩ | ⟨ids, -, he⟩
  · rw [he]; exact .refl m
  · rw [he]; exact tableFrame_of_eq rfl rfl rfl rfl rfl

theorem tableFrame_setTerm (m : Module) (b : Nat) (t : TermRec) :
    TableFrame m (setTerm m b t).1 := by
  unfold setTerm
  split
  · exact .refl m
  · exact tableFrame_of_eq rfl rfl rfl rfl rfl

theorem tableFrame_setJump (m : Module) (b t : Nat) (args : ArgArray) :
    TableFrame m (setJump m b t args).1 := by
  have h := tableFrame_appendTermArgs m args
  unfold setJump
  split
  · exact .refl m
  · split
    · next he => rw [he] at h; exact h
    · next he => rw [he] at h; exact h.trans (tableFrame_setTerm _ _ _)

theorem tableFrame_setCbranch (m : Module) (b c t : Nat) (ta : ArgArray) (f : Nat) (fa : ArgArray) :
    TableFrame m (setCbranch m b c t ta f fa).1 := by
  have h := tableFrame_appendTermArgs m ta
  unfold setCbranch
  split
  · exact .refl m
  · split
    · next he => rw [he] at h; exact h
    · next m₁ _ he =>
      rw [he] at h
      have h' := tableFrame_appendTermArgs m₁ fa
      split
      · next he' => rw [he'] at h'; exact h.trans h'
      · next he' => rw [he'] at h'; exact (h.trans h').trans (tableFrame_setTerm _ _ _)

theorem tableFrame_setReturn (m : Module) (b : Nat) (vs : ArgArray) :
    TableFrame m (setReturn m b vs).1 := by
  have h := tableFrame_appendTermArgs m vs
  unfold setReturn
  split
  · exact .refl m
  · split
    · next he => rw [he] at h; exact h
    · next he => rw [he] at h; exact h.trans (tableFrame_setTerm _ _ _)

end Frame

/-! ### Building an operation -/

/-- What a building call that returns `v` has done: it reused the one structurally
identical operation and left the arrays alone, or there was none and it appended one
operation with its result. -/
def BuildResult (m : Module) (k : OpKey) (m' : Module) (v : Nat) : Prop :=
  (∃ o < m.ops.length, SameOp (m.opKey (m.opRec o)) k ∧ v = (m.opRec o).dst ∧
    m'.ops = m.ops ∧ m'.values = m.values) ∨
  ((∀ o < m.ops.length, ¬ SameOp (m.opKey (m.opRec o)) k) ∧ v = m.values.length ∧
    m'.values.length = m.values.length + 1 ∧ m'.ops.length = m.ops.length + 1 ∧
    (m'.valueRec v).op = some m.ops.length ∧ (m'.opRec m.ops.length).dst = v ∧
    m'.opKey (m'.opRec m.ops.length) = k)

section Build

variable {m : Module}

theorem buildResult_addOp (hwf : m.WF) (h : Numbered m) {k : OpKey} {name : Option Name} {v : Nat}
    (hv : (addOp m k name).2 = .ok v) : BuildResult m k (addOp m k name).1 v := by
  have hlook := valueNumberLookup_iff hwf h k
  rcases addOp_cases m k name with ⟨-, e, he⟩ | ⟨-, -, hc, w, hw, -, hl⟩ |
    ⟨-, -, -, -, -, -, hl, hc, hw⟩
  · rw [he] at hv
    cases hv
  · obtain ⟨o, ho, hs⟩ := hlook.mp ⟨w, hl⟩
    rw [hw] at hv
    cases hv
    exact .inl ⟨o, ho, hs, (numbered_iff.mp h).1.lookup_eq hwf (List.mem_range.mpr ho) hs hl,
      hc.ops, hc.values⟩
  · rw [hw] at hv
    cases hv
    right
    have hop : (addOp m k name).1.opRec m.ops.length =
        ⟨k.opcode, m.values.length, k.srcs, k.endian, k.imm⟩ := by
      rw [hc.opRec, Module.withOp_newOp]
    have hval : (addOp m k name).1.valueRec m.values.length =
        ⟨k.type, k.block, some m.ops.length, copyName name [118] m.values.length⟩ := by
      rw [hc.valueRec, Module.withOp_new]
    refine ⟨fun o ho hs => ?_, rfl, by rw [hc.values]; simp [Module.withOp],
      by rw [hc.ops]; simp [Module.withOp], by rw [hval], by rw [hop], ?_⟩
    · obtain ⟨w, hw⟩ := hlook.mpr ⟨o, ho, hs⟩
      rw [hl] at hw
      cases hw
    · rw [hop, Module.opKey, Module.valueType, hval]

/-- Preparing an insertion depends on the table and its count only. -/
theorem TableFrame.prepareInsert {m' : Module} (h : TableFrame m m') :
    TableFrame (valueNumberPrepareInsert m) (valueNumberPrepareInsert m') := by
  unfold valueNumberPrepareInsert valueNumberGrow Module.valueNumberCap
  rw [h.table, h.count]
  split
  · exact h
  · exact ⟨h.ops, h.valueRec, h.values_le, rfl, rfl, h.created⟩

/-- The table after `add_op`: unchanged, prepared for an insertion that then failed,
or with the entry of the new operation. -/
theorem addOp_table (m : Module) (k : OpKey) (name : Option Name) :
    TableFrame m (addOp m k name).1 ∨
    TableFrame (valueNumberPrepareInsert m) (addOp m k name).1 ∨
    ((valueNumberLookup m (valueNumberHash k) k).2 = none ∧
      (∃ n, SameCore (m.withOp k n) (addOp m k name).1) ∧
      (addOp m k name).1.valueNumbers =
        placeEntry (valueNumberPrepareInsert m).valueNumbers ⟨valueNumberHash k, m.values.length⟩ ∧
      (addOp m k name).1.valueNumberCount = (valueNumberPrepareInsert m).valueNumberCount + 1 ∧
      (addOp m k name).1.stats.created = m.stats.created + 1) := by
  have hl := tableFrame_lookup m (valueNumberHash k) k
  have hc := sameCore_valueNumberLookup m (valueNumberHash k) k
  cases hlook : valueNumberLookup m (valueNumberHash k) k with
  | mk m₁ r =>
    rw [hlook] at hl hc
    have hprep := hl.prepareInsert
    have hcore := hc.trans (sameCore_valueNumberPrepareInsert m₁)
    by_cases hguard : (m.frozen || !m.validBlock k.block || decide (3 < k.srcs.length)) = true
    · left
      rw [addOp, if_pos hguard]
      exact .refl m
    by_cases hterm : (m.blockRec k.block).term.kind ≠ .none
    · left
      rw [addOp, if_neg hguard, if_pos hterm]
      exact .refl m
    by_cases hlen : uint32Max ≤ m.ops.length
    · left
      rw [addOp, if_neg hguard, if_neg hterm, if_pos hlen]
      exact .refl m
    have hadd := addOp.eq_1 m k name
    rw [if_neg hguard, if_neg hterm, if_neg hlen, hlook] at hadd
    cases r with
    | some v =>
      left
      rw [hadd]
      exact hl
    | none =>
      right
      rcases addValue_cases (valueNumberPrepareInsert m₁) k.block k.type name with
        ⟨e, he⟩ | ⟨-, -, -, -, he⟩
      · left
        simp only [he] at hadd
        rw [hadd]
        exact hprep
      · right
        simp only [he] at hadd
        rcases addOp_cases m k name with ⟨-, e, hres⟩ | ⟨-, -, -, v, -, -, hres⟩ |
          ⟨-, -, -, -, -, -, -, hsame, -⟩
        · rw [hadd] at hres
          cases hres
        · rw [hlook] at hres
          cases hres
        · rw [hadd] at hsame ⊢
          refine ⟨rfl, ⟨_, hsame⟩, ?_, congrArg (· + 1) hprep.count, ?_⟩
          · show placeEntry (valueNumberPrepareInsert m₁).valueNumbers
              ⟨valueNumberHash k, (valueNumberPrepareInsert m₁).values.length⟩ = _
            rw [hprep.table, hcore.values]
          · have hcr : (valueNumberPrepareInsert m).stats.created = m.stats.created := by
              unfold valueNumberPrepareInsert
              split <;> rfl
            exact congrArg (· + 1) (hprep.created.trans hcr)

/-- Preparing an insertion keeps the operations that the table stands for. -/
theorem Tabled.prepareInsert {os : List Nat} (h : Tabled m os) :
    Tabled (valueNumberPrepareInsert m) os ∧
      ((valueNumberPrepareInsert m).valueNumberCount + 1) * 2 <
        (valueNumberPrepareInsert m).valueNumbers.length := by
  obtain ⟨hprep, hroom⟩ := tableOk_prepareInsert h.table
  have hcore := sameCore_valueNumberPrepareInsert m
  have hrec : ∀ o, (valueNumberPrepareInsert m).opRec o = m.opRec o := hcore.opRec
  have hkey : ∀ op, (valueNumberPrepareInsert m).opKey op = m.opKey op := fun op =>
    opKey_congr (hcore.valueRec _)
  refine ⟨⟨?_, fun o ho => by rw [hcore.ops]; exact h.lt o ho, fun o ho p hp hs => ?_⟩, hroom⟩
  · simp only [Module.opEntry, hrec, hkey]
    exact hprep
  · rw [hrec, hrec, hkey, hkey] at hs
    exact h.unique o ho p hp hs

/-- **Building an operation keeps the table in order**: it stands for the same operations
as before, or for the new one as well. -/
theorem tabled_addOp {os : List Nat} (hwf : m.WF) (h : Tabled m os) (k : OpKey)
    (name : Option Name) :
    (Tabled (addOp m k name).1 os ∧ SameCore m (addOp m k name).1 ∧
        (addOp m k name).1.stats.created = m.stats.created) ∨
      (Tabled (addOp m k name).1 (os ++ [m.ops.length]) ∧
        (∃ n, SameCore (m.withOp k n) (addOp m k name).1) ∧
        (addOp m k name).1.stats.created = m.stats.created + 1) := by
  obtain ⟨hprep, hroom⟩ := h.prepareInsert
  have hcore := sameCore_valueNumberPrepareInsert m
  have hsame : (addOp m k name).1.ops = m.ops → SameCore m (addOp m k name).1 := fun heq => by
    rcases addOp_cases m k name with ⟨hc, -⟩ | ⟨-, -, hc, -⟩ | ⟨-, -, -, -, -, -, -, hc, -⟩
    · exact hc
    · exact hc
    · have hlen := congrArg List.length (hc.ops.symm.trans heq)
      simp [Module.withOp] at hlen
  rcases addOp_table m k name with hf | hf | ⟨hl, ⟨n, hc⟩, ht, hcount, hcr⟩
  · exact .inl ⟨h.frame hwf hf, hsame hf.ops, hf.created⟩
  · have hcr : (valueNumberPrepareInsert m).stats.created = m.stats.created := by
      unfold valueNumberPrepareInsert
      split <;> rfl
    exact .inl ⟨hprep.frame (hwf.congr hcore) hf, hsame (hf.ops.trans hcore.ops),
      hf.created.trans hcr⟩
  · -- the new operation differs from every other one
    have hnew : ∀ o ∈ os, ¬ SameOp (m.opKey (m.opRec o)) k := fun o ho hs => by
      obtain ⟨v, hv⟩ := (h.lookup_iff hwf k).mpr ⟨o, ho, hs⟩
      rw [hl] at hv
      cases hv
    have hval : ∀ v < m.values.length, (addOp m k name).1.valueRec v = m.valueRec v := fun v hv => by
      rw [hc.valueRec, Module.withOp_old hv]
    have hlast : (addOp m k name).1.valueRec m.values.length =
        ⟨k.type, k.block, some m.ops.length, n⟩ := by
      rw [hc.valueRec, Module.withOp_new]
    have hops : (addOp m k name).1.ops.length = m.ops.length + 1 := by
      rw [hc.ops]
      simp [Module.withOp]
    have hold : ∀ o ∈ os, (addOp m k name).1.opRec o = m.opRec o ∧
        (addOp m k name).1.opKey (m.opRec o) = m.opKey (m.opRec o) := fun o ho => by
      rw [hc.opRec, Module.withOp_oldOp (h.lt o ho)]
      exact ⟨rfl, opKey_congr (hval _ (hwf.op_dst o (h.lt o ho)).1)⟩
    have hlastOp : (addOp m k name).1.opRec m.ops.length =
        ⟨k.opcode, m.values.length, k.srcs, k.endian, k.imm⟩ := by
      rw [hc.opRec, Module.withOp_newOp]
    have hkey : (addOp m k name).1.opKey ((addOp m k name).1.opRec m.ops.length) = k := by
      rw [hlastOp, Module.opKey, Module.valueType, hlast]
    refine .inr ⟨⟨?_, ?_, ?_⟩, ⟨n, hc⟩, hcr⟩
    · have hmap : (os.map fun o => (addOp m k name).1.opEntry ((addOp m k name).1.opRec o)) =
          os.map fun o => m.opEntry (m.opRec o) := List.map_congr_left fun o ho => by
        rw [(hold o ho).1, Module.opEntry, Module.opEntry, (hold o ho).2]
      rw [ht, hcount, List.map_append, hmap, List.map_singleton, Module.opEntry, hkey, hlastOp]
      exact (tableOk_prepareInsert h.table).1.place hroom _
    · intro o ho
      rw [hops]
      rcases List.mem_append.mp ho with ho | ho
      · exact Nat.lt_succ_of_lt (h.lt o ho)
      · rw [List.mem_singleton.mp ho]
        exact Nat.lt_succ_self _
    · intro o ho p hp hs
      rcases List.mem_append.mp ho with ho | ho <;> rcases List.mem_append.mp hp with hp | hp
      · rw [(hold o ho).1, (hold p hp).1, (hold o ho).2, (hold p hp).2] at hs
        exact h.unique o ho p hp hs
      · rw [List.mem_singleton.mp hp, hkey, (hold o ho).1, (hold o ho).2] at hs
        exact absurd hs (hnew o ho)
      · rw [List.mem_singleton.mp ho, hkey, (hold p hp).1, (hold p hp).2] at hs
        exact absurd hs.symm (hnew p hp)
      · rw [List.mem_singleton.mp ho, List.mem_singleton.mp hp]

theorem numbered_addOp (hwf : m.WF) (h : Numbered m) (k : OpKey) (name : Option Name) :
    Numbered (addOp m k name).1 := by
  obtain ⟨ht, hc⟩ := numbered_iff.mp h
  rcases tabled_addOp hwf ht k name with ⟨ht', hcore, hcr⟩ | ⟨ht', ⟨n, hcore⟩, hcr⟩
  · rw [numbered_iff, hcore.ops, hcr]
    exact ⟨ht', hc⟩
  · have hlen : (addOp m k name).1.ops.length = m.ops.length + 1 := by
      rw [hcore.ops]
      simp [Module.withOp]
    rw [numbered_iff, hlen, hcr, List.range_succ]
    exact ⟨ht', by rw [hc]⟩

end Build

/-- The operation a building call asks for. -/
def Call.key (m : Module) : Call → Option OpKey
  | .buildConstU64 b t w _ => some ⟨b, .constU64, t, [], w, .le⟩
  | .buildUnary b op t s _ => some ⟨b, op, t, [s], 0#64, .le⟩
  | .buildBinary b op t l r _ => some ⟨b, op, t, [l, r], 0#64, .le⟩
  | .buildLoad b t mem a e _ => some ⟨b, .load, t, [mem, a], 0#64, e⟩
  | .buildStore b mem a d e _ => some ⟨b, .store, m.valueType mem, [mem, a, d], 0#64, e⟩
  | _ => none

/-- A building call fails at its own checks or is `add_op` on its key. -/
theorem Call.run_key {m : Module} {c : Call} {k : OpKey} (h : c.key m = some k) :
    (∃ e, c.run m = (m, .error e)) ∨
      ∃ name, c.run m = ((addOp m k name).1, (addOp m k name).2.map some) := by
  cases c <;> simp only [Call.key, Option.some.injEq, reduceCtorEq] at h <;> subst h
  case buildConstU64 b t w name =>
    simp only [Call.run, Xair.buildConstU64]
    split
    · exact .inl ⟨_, rfl⟩
    · exact .inr ⟨name, rfl⟩
  case buildUnary b op t s name =>
    simp only [Call.run, Xair.buildUnary]
    split
    · exact .inl ⟨_, rfl⟩
    · exact .inr ⟨name, rfl⟩
  case buildBinary b op t l r name =>
    simp only [Call.run, Xair.buildBinary]
    split
    · exact .inl ⟨_, rfl⟩
    · exact .inr ⟨name, rfl⟩
  case buildLoad b t mem a e name =>
    simp only [Call.run, Xair.buildLoad]
    split
    · exact .inl ⟨_, rfl⟩
    · exact .inr ⟨name, rfl⟩
  case buildStore b mem a d e name =>
    simp only [Call.run, Xair.buildStore]
    split
    · exact .inl ⟨_, rfl⟩
    · exact .inr ⟨name, rfl⟩

/-- A call that builds: neither canonicalization nor freezing. -/
def Call.Builds (c : Call) : Prop := c ≠ .canonicalize ∧ c ≠ .freeze

instance (c : Call) : Decidable c.Builds := inferInstanceAs (Decidable (_ ∧ _))

/-- A call that builds something other than an operation leaves the table alone. -/
theorem Call.tableFrame {m : Module} {c : Call} (hc : c.Builds) (hk : c.key m = none) :
    TableFrame m (c.run m).1 := by
  cases c <;> simp only [Call.key, reduceCtorEq] at hk
  case blockCreate name => exact tableFrame_blockCreate m name
  case blockAddParam b t name => exact tableFrame_blockAddParam m b t name
  case setJump b t args => exact tableFrame_setJump m b t args
  case setCbranch b c t ta f fa => exact tableFrame_setCbranch m b c t ta f fa
  case setReturn b vs => exact tableFrame_setReturn m b vs
  case setTrap b code =>
    simp only [Call.run, Xair.setTrap]
    split
    · exact .refl m
    · exact tableFrame_setTerm m b _
  case setFault b code =>
    simp only [Call.run, Xair.setFault]
    split
    · exact .refl m
    · exact tableFrame_setTerm m b _
  case canonicalize => exact absurd rfl hc.1
  case freeze => exact absurd rfl hc.2

/-- Every building call keeps the table in order. -/
theorem numbered_call {m : Module} (hwf : m.WF) (h : Numbered m) {c : Call} (hc : c.Builds) :
    Numbered (c.run m).1 := by
  cases hk : c.key m with
  | some k =>
    rcases Call.run_key hk with ⟨e, he⟩ | ⟨name, he⟩
    · rw [he]; exact h
    · rw [he]; exact numbered_addOp hwf h k name
  | none => exact h.frame hwf (Call.tableFrame hc hk)

/-- What a building call has done that returns a value. -/
theorem buildResult_call {m : Module} (hwf : m.WF) (h : Numbered m) {c : Call} {k : OpKey}
    (hk : c.key m = some k) {v : Nat} (hv : (c.run m).2 = .ok (some v)) :
    BuildResult m k (c.run m).1 v := by
  rcases Call.run_key hk with ⟨e, he⟩ | ⟨name, he⟩
  · rw [he] at hv
    cases hv
  · rw [he] at hv ⊢
    refine buildResult_addOp hwf h ?_
    cases hr : (addOp m k name).2 with
    | error e => rw [hr] at hv; cases hv
    | ok w => rw [hr] at hv; cases hv; rfl

/-! ### Any call -/

/-- A table that was cleared stands for no operation. -/
theorem tabled_nil {m : Module} (hn : m.valueNumbers = []) (hc : m.valueNumberCount = 0) :
    Tabled m [] := by
  refine ⟨?_, fun o ho => (List.not_mem_nil ho).elim, fun o ho => (List.not_mem_nil ho).elim⟩
  rw [hn, hc]
  exact tableOk_nil

/-- Canonicalization leaves an empty table. -/
theorem table_canonicalizedModule (m : Module) :
    (canonicalizedModule m).valueNumbers = [] ∧ (canonicalizedModule m).valueNumberCount = 0 := by
  have hfold : (foldedModule m).valueNumbers = [] ∧ (foldedModule m).valueNumberCount = 0 := by
    refine localSteps_induct (P := fun m => m.valueNumbers = [] ∧ m.valueNumberCount = 0) ?_
      (localSteps_foldedModule m) ⟨rfl, rfl⟩
    rintro m₁ m₂ h ⟨ho, hr⟩
    exact h
  rw [canonicalizedModule_eq, eliminateDeadValues, compactLiveValues_eq]
  split
  · exact hfold
  · exact hfold

/-! ### Hash-consing -/

/-- Every loop over the table stops, because fewer than half the slots are used: the
probe loop meets an unused slot from every home, the insertion loop does in the table
prepared for it, and so does every insertion of a rehash. -/
structure LoopsStop (m : Module) : Prop where
  half : m.valueNumbers = [] ∨ (m.valueNumbers.filterMap id).length * 2 < m.valueNumberCap
  lookup : m.valueNumbers ≠ [] → ∀ hash, FindsFree m.valueNumbers hash
  insert : ∀ hash, FindsFree (valueNumberPrepareInsert m).valueNumbers hash
  rehash : RehashStops m

theorem loopsStop {m : Module} (h : Numbered m) : LoopsStop m := by
  obtain ⟨hprep, hroom⟩ := tableOk_prepareInsert h.table
  refine ⟨?_, h.table.findsFree, hprep.findsFree fun hn => by rw [hn] at hroom; simp at hroom,
    (foldl_grow h.table).2.2.2⟩
  rcases h.table.load with ⟨hn, -⟩ | hl
  · exact .inl hn
  · refine .inr ?_
    have hused : (m.valueNumbers.filterMap id).length = m.valueNumberCount := h.table.used
    rw [hused]
    exact hl

/-- **Value numbering is exact hash-consing.**  After every sequence of building calls
no two operations are structurally identical, the three counts agree and every loop
over the table stops; and a building call that succeeds next reuses the structurally
identical operation if there is one and otherwise appends a new one. -/
theorem hashConsed_runCalls (calls : List Call) (hcalls : ∀ c ∈ calls, c.Builds) :
    let m := runCalls Module.create calls
    (∀ o < m.ops.length, ∀ p < m.ops.length,
        SameOp (m.opKey (m.opRec o)) (m.opKey (m.opRec p)) → o = p) ∧
      m.valueNumberCount = m.ops.length ∧ m.stats.created = m.ops.length ∧ LoopsStop m ∧
      ∀ (c : Call) k v, c.key m = some k → (c.run m).2 = .ok (some v) → BuildResult m k (c.run m).1 v := by
  have key : ∀ (calls : List Call) (m : Module), (∀ c ∈ calls, c.Builds) → m.WF → Numbered m →
      (runCalls m calls).WF ∧ Numbered (runCalls m calls) := by
    intro calls
    induction calls with
    | nil => intro m _ hwf hn; exact ⟨hwf, hn⟩
    | cons c calls ih =>
      intro m hb hwf hn
      exact ih _ (fun d hd => hb d (by simp [hd])) (wf_call hwf c)
        (numbered_call hwf hn (hb c (by simp)))
  obtain ⟨hwf, hn⟩ := key calls _ hcalls wf_create numbered_create
  refine ⟨hn.unique, ?_, hn.created, loopsStop hn, fun c k v hk hv => buildResult_call hwf hn hk hv⟩
  rw [hn.table.count_eq, List.length_map]

/-- A constant built in two blocks, and the same sum built twice in one. -/
def reuseSample : List Call :=
  [.blockCreate none, .blockCreate none, .buildConstU64 0 (typeI 8) 2#64 none,
    .buildConstU64 1 (typeI 8) 2#64 none, .buildBinary 0 .add (typeI 8) 0 0 none,
    .buildBinary 0 .add (typeI 8) 0 0 none]

theorem hashConsed_runCalls_reuseSample :
    let m := runCalls Module.create reuseSample
    (∀ o < m.ops.length, ∀ p < m.ops.length,
        SameOp (m.opKey (m.opRec o)) (m.opKey (m.opRec p)) → o = p) ∧
      m.valueNumberCount = m.ops.length ∧ m.stats.created = m.ops.length ∧ LoopsStop m ∧
      ∀ (c : Call) k v, c.key m = some k → (c.run m).2 = .ok (some v) → BuildResult m k (c.run m).1 v :=
  hashConsed_runCalls reuseSample (by decide)

end Xair
