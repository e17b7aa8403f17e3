import Xair.Liveness
import Mathlib.Data.List.Nodup
import Mathlib.Data.List.Pairwise

/-!
# The numbering of surviving values and operations

`compactMaps` walks the blocks and numbers their parameters and their live
operations.  `valueOrder` and `opOrder` list what it numbers, in that order, and
`compactMaps_numbers` says that the maps it builds are the inverses of these
lists.
-/

namespace Xair

/-- `f` is the inverse of the list `l`: it sends each element to its position. -/
def Indexes (f : Nat → Option Nat) (l : List Nat) : Prop :=
  ∀ v j, f v = some j ↔ l[j]? = some v

namespace Indexes

variable {f : Nat → Option Nat} {l : List Nat}

theorem nil : Indexes (fun _ => none) [] := fun v j => by simp

/-- Number one more element. -/
theorem concat (h : Indexes f l) {v : Nat} (hv : v ∉ l) :
    Indexes (fun u => if u = v then some l.length else f u) (l ++ [v]) := by
  intro u j
  by_cases hu : u = v
  · subst hu
    simp only [if_true, Option.some.injEq]
    constructor
    · rintro rfl
      exact List.getElem?_concat_length
    · intro hj
      by_contra hne
      have hlt : j < l.length := by
        have := List.getElem?_eq_some_iff.mp hj
        have := this.1
        simp only [List.length_append, List.length_singleton] at this
        omega
      rw [List.getElem?_append_left hlt] at hj
      exact hv (List.mem_of_getElem? hj)
  · simp only [hu, if_false]
    rw [h u j]
    rcases Nat.lt_trichotomy j l.length with hj | rfl | hj
    · rw [List.getElem?_append_left hj]
    · rw [List.getElem?_concat_length, List.getElem?_eq_none (Nat.le_refl _)]
      simp [Ne.symm hu]
    · rw [List.getElem?_eq_none (by omega), List.getElem?_eq_none (by simp; omega)]

theorem mem (h : Indexes f l) {v j : Nat} (hf : f v = some j) : v ∈ l :=
  List.mem_of_getElem? ((h v j).mp hf)

theorem some_of_mem (h : Indexes f l) {v : Nat} (hv : v ∈ l) : ∃ j, f v = some j := by
  obtain ⟨j, hj⟩ := List.getElem?_of_mem hv
  exact ⟨j, (h v j).mpr hj⟩

theorem lt (h : Indexes f l) {v j : Nat} (hf : f v = some j) : j < l.length :=
  (List.getElem?_eq_some_iff.mp ((h v j).mp hf)).1

theorem inj (h : Indexes f l) {u v j : Nat} (hu : f u = some j) (hv : f v = some j) : u = v :=
  Option.some.inj (((h u j).mp hu).symm.trans ((h v j).mp hv))

theorem surj (h : Indexes f l) {j : Nat} (hj : j < l.length) : ∃ v, f v = some j :=
  ⟨l[j], (h _ j).mpr (List.getElem?_eq_getElem hj)⟩

end Indexes

/-! ### What is numbered -/

/-- The operations of a block whose results are live. -/
def Module.liveOps (m : Module) (live : ValueSet) (os : List Nat) : List Nat :=
  os.filter fun o => live (m.opRec o).dst

/-- The values that are numbered, in order. -/
def Module.valueOrder (m : Module) (live : ValueSet) : List Nat :=
  m.blocks.flatMap fun bb => bb.params ++ m.dsts (m.liveOps live bb.ops)

/-- The operations that are numbered, in order. -/
def Module.opOrder (m : Module) (live : ValueSet) : List Nat :=
  m.blocks.flatMap fun bb => m.liveOps live bb.ops

/-- The maps number `vs` and `os`. -/
structure Numbers (maps : CompactMaps) (vs os : List Nat) : Prop where
  value : Indexes maps.valueMap vs
  valueCount : maps.newValueCount = vs.length
  op : Indexes maps.opMap os
  opCount : maps.newOpCount = os.length

section Numbers

variable {m : Module} {live : ValueSet} {maps : CompactMaps} {vs os : List Nat}

theorem Numbers.addParams (h : Numbers maps vs os) (ps : List Nat) (hnd : (vs ++ ps).Nodup) :
    Numbers (ps.foldl CompactMaps.addParam maps) (vs ++ ps) os := by
  induction ps generalizing maps vs with
  | nil => simpa using h
  | cons p ps ih =>
    have hp : p ∉ vs := fun hp =>
      (List.nodup_append.mp hnd).2.2 p hp p (by simp) rfl
    have hstep : Numbers (maps.addParam p) (vs ++ [p]) os := by
      refine ⟨?_, by simp [CompactMaps.addParam, h.valueCount], h.op, h.opCount⟩
      have := h.value.concat hp
      rwa [← h.valueCount] at this
    have hassoc : vs ++ p :: ps = vs ++ [p] ++ ps := by simp
    rw [hassoc] at hnd ⊢
    exact ih hstep hnd

theorem Numbers.addOps (h : Numbers maps vs os) (ops : List Nat)
    (hv : (vs ++ m.dsts (m.liveOps live ops)).Nodup) (ho : (os ++ m.liveOps live ops).Nodup) :
    Numbers (ops.foldl (CompactMaps.addOp m live) maps) (vs ++ m.dsts (m.liveOps live ops))
      (os ++ m.liveOps live ops) := by
  induction ops generalizing maps vs os with
  | nil => simpa [Module.liveOps, Module.dsts] using h
  | cons o ops ih =>
    cases hl : live (m.opRec o).dst with
    | false =>
      have hlive : m.liveOps live (o :: ops) = m.liveOps live ops := by
        simp [Module.liveOps, hl]
      have hskip : CompactMaps.addOp m live maps o = maps := by simp [CompactMaps.addOp, hl]
      rw [hlive] at hv ho ⊢
      rw [List.foldl_cons, hskip]
      exact ih h hv ho
    | true =>
      have hlive : m.liveOps live (o :: ops) = o :: m.liveOps live ops := by
        simp [Module.liveOps, hl]
      have hv' : vs ++ m.dsts (m.liveOps live (o :: ops)) =
          vs ++ [(m.opRec o).dst] ++ m.dsts (m.liveOps live ops) := by
        simp [hlive, Module.dsts]
      have ho' : os ++ m.liveOps live (o :: ops) = os ++ [o] ++ m.liveOps live ops := by
        simp [hlive]
      rw [hv'] at hv ⊢
      rw [ho'] at ho ⊢
      have hdst : (m.opRec o).dst ∉ vs := fun hd =>
        (List.nodup_append.mp (List.nodup_append.mp hv).1).2.2 _ hd _ (by simp) rfl
      have hop : o ∉ os := fun hd =>
        (List.nodup_append.mp (List.nodup_append.mp ho).1).2.2 _ hd _ (by simp) rfl
      refine ih ?_ hv ho
      have h1 := h.value.concat hdst
      have h2 := h.op.concat hop
      rw [← h.valueCount] at h1
      rw [← h.opCount] at h2
      simp only [CompactMaps.addOp, hl, if_true]
      exact ⟨h1, by simp [h.valueCount], h2, by simp [h.opCount]⟩

theorem compactMaps_numbers (hv : (m.valueOrder live).Nodup) (ho : (m.opOrder live).Nodup) :
    Numbers (compactMaps m live) (m.valueOrder live) (m.opOrder live) := by
  unfold compactMaps Module.valueOrder Module.opOrder at *
  have key : ∀ (bs : List BlockRec) (maps : CompactMaps) (vs os : List Nat),
      Numbers maps vs os →
      (vs ++ bs.flatMap fun bb => bb.params ++ m.dsts (m.liveOps live bb.ops)).Nodup →
      (os ++ bs.flatMap fun bb => m.liveOps live bb.ops).Nodup →
      Numbers (bs.foldl (fun maps bb => bb.ops.foldl (CompactMaps.addOp m live)
          (bb.params.foldl CompactMaps.addParam maps)) maps)
        (vs ++ bs.flatMap fun bb => bb.params ++ m.dsts (m.liveOps live bb.ops))
        (os ++ bs.flatMap fun bb => m.liveOps live bb.ops) := by
    intro bs
    induction bs with
    | nil => intro maps vs os h _ _; simpa using h
    | cons bb bs ih =>
      intro maps vs os h hv ho
      simp only [List.flatMap_cons, ← List.append_assoc] at hv ho ⊢
      have hv1 := (List.nodup_append.mp hv).1
      have ho1 := (List.nodup_append.mp ho).1
      have hv0 := (List.nodup_append.mp hv1).1
      exact ih _ _ _ ((h.addParams bb.params hv0).addOps bb.ops hv1 ho1) hv ho
  simpa using key m.blocks _ [] [] ⟨.nil, rfl, .nil, rfl⟩ (by simpa using hv) (by simpa using ho)

end Numbers

/-! ### In a well-formed module nothing is numbered twice -/

section Nodup

variable {m : Module} {live : ValueSet}

theorem blockRec_getElem {b : Nat} (hb : b < m.blocks.length) : m.blocks[b] = m.blockRec b := by
  rw [Module.blockRec, List.getD_eq_getElem _ _ hb]

theorem mem_liveOps {os : List Nat} {o : Nat} :
    o ∈ m.liveOps live os ↔ o ∈ os ∧ live (m.opRec o).dst = true := by
  simp [Module.liveOps]

/-- A list of lists, one for each block, has no duplicates when each has none and
each element tells its block. -/
theorem nodup_flatMap_blocks (f : BlockRec → List Nat) (owner : Nat → Nat)
    (hnd : ∀ b < m.blocks.length, (f (m.blockRec b)).Nodup)
    (hown : ∀ b < m.blocks.length, ∀ v ∈ f (m.blockRec b), owner v = b) :
    (m.blocks.flatMap f).Nodup := by
  rw [List.nodup_flatMap]
  constructor
  · intro bb hbb
    obtain ⟨b, hb, rfl⟩ := mem_blocks_iff.mp hbb
    exact hnd b hb
  · rw [List.pairwise_iff_getElem]
    intro i j hi hj hij v hv hv'
    rw [blockRec_getElem hi] at hv
    rw [blockRec_getElem hj] at hv'
    have h1 := hown i hi v hv
    have h2 := hown j hj v hv'
    omega

theorem Module.WF.dst_inj (hwf : m.WF) {o p : Nat} (ho : o < m.ops.length) (hp : p < m.ops.length)
    (h : (m.opRec o).dst = (m.opRec p).dst) : o = p := by
  have h1 := (hwf.op_dst o ho).2
  rw [h, (hwf.op_dst p hp).2] at h1
  exact (Option.some.inj h1).symm

theorem opOrder_nodup (hwf : m.WF) : (m.opOrder live).Nodup := by
  refine nodup_flatMap_blocks _ (fun o => (m.valueRec (m.opRec o).dst).block) ?_ ?_
  · intro b hb
    exact ((hwf.ops_sorted b hb).imp fun h => Nat.ne_of_lt h).filter _
  · intro b hb o ho
    exact ((hwf.block_ops b hb o).mp (mem_liveOps.mp ho).1).2

theorem valueOrder_nodup (hwf : m.WF) : (m.valueOrder live).Nodup := by
  have hdst : ∀ b < m.blocks.length, ∀ v ∈ m.dsts (m.liveOps live (m.blockRec b).ops),
      ∃ o < m.ops.length, (m.opRec o).dst = v ∧ (m.valueRec v).block = b := by
    intro b hb v hv
    obtain ⟨o, ho, rfl⟩ := List.mem_map.mp hv
    obtain ⟨h1, h2⟩ := (hwf.block_ops b hb o).mp (mem_liveOps.mp ho).1
    exact ⟨o, h1, rfl, h2⟩
  refine nodup_flatMap_blocks _ (fun v => (m.valueRec v).block) ?_ ?_
  · intro b hb
    refine List.nodup_append.mpr ⟨hwf.params_nodup b hb, ?_, ?_⟩
    · refine List.Nodup.map_on ?_ (((hwf.ops_sorted b hb).imp fun h => Nat.ne_of_lt h).filter _)
      intro o ho p hp h
      exact hwf.dst_inj ((hwf.block_ops b hb o).mp (mem_liveOps.mp ho).1).1
        ((hwf.block_ops b hb p).mp (mem_liveOps.mp hp).1).1 h
    · intro v hv w hw hvw
      subst hvw
      obtain ⟨o, ho, rfl, -⟩ := hdst b hb _ hw
      have := ((hwf.block_params b hb _).mp hv).2.1
      rw [(hwf.op_dst o ho).2] at this
      cases this
  · intro b hb v hv
    rcases List.mem_append.mp hv with hv | hv
    · exact ((hwf.block_params b hb v).mp hv).2.2
    · obtain ⟨_, _, _, h⟩ := hdst b hb v hv
      exact h

/-- The numbered operations are the live ones. -/
theorem mem_opOrder (hwf : m.WF) {o : Nat} :
    o ∈ m.opOrder live ↔ o < m.ops.length ∧ live (m.opRec o).dst = true := by
  constructor
  · intro ho
    obtain ⟨bb, hbb, ho⟩ := List.mem_flatMap.mp ho
    obtain ⟨b, hb, rfl⟩ := mem_blocks_iff.mp hbb
    obtain ⟨h1, h2⟩ := mem_liveOps.mp ho
    exact ⟨((hwf.block_ops b hb o).mp h1).1, h2⟩
  · rintro ⟨ho, hlive⟩
    have hb := hwf.value_block _ (hwf.op_dst o ho).1
    exact List.mem_flatMap.mpr ⟨_, blockRec_mem hb,
      mem_liveOps.mpr ⟨(hwf.block_ops _ hb o).mpr ⟨ho, rfl⟩, hlive⟩⟩

/-- The numbered values are the live ones. -/
theorem mem_valueOrder (hwf : m.WF) (hlive : ∀ v, live v = true → v < m.values.length)
    (hparam : ∀ b < m.blocks.length, ∀ v ∈ (m.blockRec b).params, live v = true) {v : Nat} :
    v ∈ m.valueOrder live ↔ live v = true := by
  constructor
  · intro hv
    obtain ⟨bb, hbb, hv⟩ := List.mem_flatMap.mp hv
    obtain ⟨b, hb, rfl⟩ := mem_blocks_iff.mp hbb
    rcases List.mem_append.mp hv with hv | hv
    · exact hparam b hb v hv
    · obtain ⟨o, ho, rfl⟩ := List.mem_map.mp hv
      exact (mem_liveOps.mp ho).2
  · intro hv
    have hlt := hlive v hv
    have hb := hwf.value_block v hlt
    refine List.mem_flatMap.mpr ⟨_, blockRec_mem hb, ?_⟩
    cases hop : (m.valueRec v).op with
    | none => exact List.mem_append_left _ ((hwf.block_params _ hb v).mpr ⟨hlt, hop, rfl⟩)
    | some o =>
      obtain ⟨ho, hd⟩ := hwf.value_op v hlt o hop
      refine List.mem_append_right _ (List.mem_map.mpr ⟨o, ?_, hd⟩)
      exact mem_liveOps.mpr ⟨(hwf.block_ops _ hb o).mpr ⟨ho, by rw [hd]⟩, by rw [hd]; exact hv⟩

end Nodup

end Xair
