import Xair.Invariant
import Xair.MarkSearch

/-!
# Live values

`liveValues`, the marking pass of `eliminate_dead_values`, is a depth-first
search from the parameters and the terminator uses of every block.
`liveValues_iff` says which values it marks.  A parameter has no operation, so
the result of an operation is live exactly when some terminator uses it,
directly or through other operations (`live_op_iff`).
-/

namespace Xair

open MarkSearch (Edge Marks)

/-- The sources of the operation that defines `v`. -/
def Module.sources (m : Module) (v : Nat) : List Nat :=
  match m.valueOp v with
  | some op => op.src
  | none => []

/-- The values that liveness starts from. -/
def Module.liveRoots (m : Module) : List Nat :=
  m.blocks.flatMap fun bb => bb.params ++ m.termUses bb.term

/-- `v` is used by a terminator, directly or through operations. -/
def Module.UsedByTerm (m : Module) (v : Nat) : Prop :=
  ∃ b < m.blocks.length, ∃ u ∈ m.termUses (m.blockRec b).term, u < m.values.length ∧
    Relation.ReflTransGen (Edge m.sources) u v

section Marking

variable {m : Module}

theorem markLiveValue_eq (fuel : Nat) (live : ValueSet) (v : Nat) :
    markLiveValue m fuel live v = MarkSearch.mark m.values.length m.sources fuel live v := by
  induction fuel generalizing live v with
  | zero => rfl
  | succ fuel ih =>
    have hf : markLiveValue m fuel = MarkSearch.mark m.values.length m.sources fuel :=
      funext fun l => funext fun u => ih l u
    have hc : (!m.validValue v || live v) = (decide (m.values.length ≤ v) || live v) := by
      rw [Module.validValue, ← decide_not]
      simp only [not_lt]
    rw [markLiveValue, MarkSearch.mark, hc]
    split
    · rfl
    · rw [hf, Module.sources]
      cases m.valueOp v <;> rfl

theorem markLiveValues_marks (live : ValueSet) (vs : List Nat) :
    Marks m.values.length m.sources live (markLiveValues m live vs) vs := by
  have hle : ∀ s : ValueSet, MarkSearch.unmarked m.values.length s ≤ m.values.length := fun s => by
    simpa [MarkSearch.unmarked] using
      List.countP_le_length (p := fun v => !s v) (l := List.range m.values.length)
  refine MarkSearch.foldl_marks m.values.length (fun s v hs => ?_) vs (hle live)
  rw [markLiveValue_eq]
  exact MarkSearch.mark_marks _ s v (Nat.lt_succ_of_le hs)

theorem liveValues_marks (m : Module) :
    Marks m.values.length m.sources ValueSet.empty (liveValues m) m.liveRoots := by
  unfold liveValues Module.liveRoots
  have key : ∀ (bs : List BlockRec) (live : ValueSet),
      Marks m.values.length m.sources live
        (bs.foldl (fun live bb =>
          markLiveValues m (markLiveValues m live bb.params) (m.termUses bb.term)) live)
        (bs.flatMap fun bb => bb.params ++ m.termUses bb.term) := by
    intro bs
    induction bs with
    | nil => intro live; exact .refl live
    | cons bb bs ih =>
      intro live
      exact ((markLiveValues_marks live bb.params).append (markLiveValues_marks _ _)).append (ih _)
  exact key m.blocks ValueSet.empty

theorem Module.valueOp_eq (hwf : m.WF) {v o : Nat} (hv : v < m.values.length)
    (ho : (m.valueRec v).op = some o) : m.valueOp v = some (m.opRec o) := by
  have hlt := (hwf.value_op v hv o ho).1
  rw [Module.valueOp, ho, Module.opRec, List.getD_eq_getElem _ _ hlt]
  exact List.getElem?_eq_getElem hlt

/-- A value with an operation is the result of that operation. -/
theorem Module.WF.valueOp_some (hwf : m.WF) {v : Nat} {op : OpRec} (h : m.valueOp v = some op) :
    ∃ o < m.ops.length, (m.opRec o).dst = v ∧ op = m.opRec o := by
  cases ho : (m.valueRec v).op with
  | none => simp [Module.valueOp, ho] at h
  | some o =>
    have hv : v < m.values.length := by
      by_contra hn
      rw [Module.valueRec, List.getD_eq_default _ _ (by omega)] at ho
      cases ho
    obtain ⟨h1, h2⟩ := hwf.value_op v hv o ho
    rw [m.valueOp_eq hwf hv ho] at h
    exact ⟨o, h1, h2, (Option.some.inj h).symm⟩

/-- The result of an operation is defined by it. -/
theorem Module.WF.valueOp_dst (hwf : m.WF) {o : Nat} (ho : o < m.ops.length) :
    m.valueOp (m.opRec o).dst = some (m.opRec o) :=
  m.valueOp_eq hwf (hwf.op_dst o ho).1 (hwf.op_dst o ho).2

theorem Module.WF.sources_dst (hwf : m.WF) {o : Nat} (ho : o < m.ops.length) :
    m.sources (m.opRec o).dst = (m.opRec o).src := by
  rw [Module.sources, hwf.valueOp_dst ho]

theorem Module.WF.sources_lt (hwf : m.WF) {v : Nat} (hv : v < m.values.length) :
    ∀ w ∈ m.sources v, w < m.values.length := by
  intro w hw
  cases ho : (m.valueRec v).op with
  | none => simp [Module.sources, Module.valueOp, ho] at hw
  | some o =>
    rw [Module.sources, m.valueOp_eq hwf hv ho] at hw
    exact hwf.op_src o (hwf.value_op v hv o ho).1 w hw

/-- **Liveness.**  The marked values are those that a root reaches. -/
theorem liveValues_iff (hwf : m.WF) {v : Nat} : liveValues m v = true ↔
    ∃ r ∈ m.liveRoots, r < m.values.length ∧ Relation.ReflTransGen (Edge m.sources) r v :=
  (liveValues_marks m).iff fun _ hu => hwf.sources_lt hu

theorem live_lt {v : Nat} (h : liveValues m v = true) : v < m.values.length :=
  ((liveValues_marks m).sound v h rfl).1

theorem blockRec_mem {b : Nat} (hb : b < m.blocks.length) : m.blockRec b ∈ m.blocks := by
  rw [Module.blockRec, List.getD_eq_getElem _ _ hb]
  exact List.getElem_mem hb

theorem mem_blocks_iff {bb : BlockRec} :
    bb ∈ m.blocks ↔ ∃ b < m.blocks.length, m.blockRec b = bb := by
  constructor
  · intro h
    obtain ⟨b, hb, rfl⟩ := List.mem_iff_getElem.mp h
    exact ⟨b, hb, by rw [Module.blockRec, List.getD_eq_getElem _ _ hb]⟩
  · rintro ⟨b, hb, rfl⟩
    exact blockRec_mem hb

theorem live_param (hwf : m.WF) {b v : Nat} (hb : b < m.blocks.length)
    (hv : v ∈ (m.blockRec b).params) : liveValues m v = true := by
  refine (liveValues_marks m).roots v ?_ ((hwf.block_params b hb v).mp hv).1
  exact List.mem_flatMap.mpr ⟨_, blockRec_mem hb, List.mem_append_left _ hv⟩

theorem live_termUse {b v : Nat} (hb : b < m.blocks.length)
    (hv : v ∈ m.termUses (m.blockRec b).term) (hlt : v < m.values.length) :
    liveValues m v = true := by
  refine (liveValues_marks m).roots v ?_ hlt
  exact List.mem_flatMap.mpr ⟨_, blockRec_mem hb, List.mem_append_right _ hv⟩

/-- The sources of a live operation are live. -/
theorem live_src (hwf : m.WF) {o s : Nat} (ho : o < m.ops.length)
    (hlive : liveValues m (m.opRec o).dst = true) (hs : s ∈ (m.opRec o).src) :
    liveValues m s = true :=
  (liveValues_marks m).closed _ hlive rfl s (by rwa [hwf.sources_dst ho]) (hwf.op_src o ho s hs)

/-- Nothing is reached from a parameter but itself. -/
theorem reach_param {p v : Nat} (hp : (m.valueRec p).op = none)
    (h : Relation.ReflTransGen (Edge m.sources) p v) : v = p := by
  induction h with
  | refl => rfl
  | tail _ hw ih =>
    subst ih
    simp [Edge, Module.sources, Module.valueOp, hp] at hw

/-- The result of an operation is live when a terminator uses it. -/
theorem live_op_iff (hwf : m.WF) {o : Nat} (ho : o < m.ops.length) :
    liveValues m (m.opRec o).dst = true ↔ m.UsedByTerm (m.opRec o).dst := by
  rw [liveValues_iff hwf]
  constructor
  · rintro ⟨r, hr, hlt, hreach⟩
    obtain ⟨bb, hbb, hr⟩ := List.mem_flatMap.mp hr
    obtain ⟨b, hb, rfl⟩ := mem_blocks_iff.mp hbb
    rcases List.mem_append.mp hr with hp | hu
    · have hop := ((hwf.block_params b hb r).mp hp).2.1
      have := reach_param hop hreach
      rw [← this, (hwf.op_dst o ho).2] at hop
      cases hop
    · exact ⟨b, hb, r, hu, hlt, hreach⟩
  · rintro ⟨b, hb, u, hu, hlt, hreach⟩
    exact ⟨u, List.mem_flatMap.mpr ⟨_, blockRec_mem hb, List.mem_append_right _ hu⟩, hlt, hreach⟩

end Marking

end Xair
