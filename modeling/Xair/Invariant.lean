import Xair.Steps
import Mathlib.Data.List.Nodup

/-!
# The representation invariant

`Module.WF m` says that the cross references of a module are in order: an
operation and its result point at each other, each block lists exactly its own
operations and parameters, ids are valid, and the argument slices of terminators
are separate parts of `term_args`.  It also says that a block lists its
operations in the order of their ids, which the API never breaks.

`wf_buildStep` is the step lemma: every change a builder call can make keeps it.
-/

namespace Xair

/-- Position `k` of `term_args` belongs to an edge of `t`. -/
def TermRec.InSlice (t : TermRec) (falseArgs : Bool) (k : Nat) : Prop :=
  if falseArgs then t.falseArgOffset ≤ k ∧ k < t.falseArgOffset + t.falseArgCount
  else t.trueArgOffset ≤ k ∧ k < t.trueArgOffset + t.trueArgCount

/-- The targets and the condition of a terminator are valid, and its slices lie
inside `term_args`. -/
structure TermWF (m : Module) (t : TermRec) : Prop where
  jump : t.kind = .jump → t.trueTarget < m.blocks.length
  cbranch : t.kind = .cbranch → t.trueTarget < m.blocks.length ∧
    t.falseTarget < m.blocks.length ∧ t.condition < m.values.length
  true_le : t.trueArgOffset + t.trueArgCount ≤ m.termArgs.length
  false_le : t.falseArgOffset + t.falseArgCount ≤ m.termArgs.length

/-- The representation invariant of a module. -/
structure Module.WF (m : Module) : Prop where
  values_le : m.values.length ≤ uint32Max
  ops_le : m.ops.length ≤ uint32Max
  blocks_le : m.blocks.length ≤ uint32Max
  value_type : ∀ v < m.values.length, (m.valueType v).isValueType = true
  value_block : ∀ v < m.values.length, (m.valueRec v).block < m.blocks.length
  op_dst : ∀ o < m.ops.length, (m.opRec o).dst < m.values.length ∧
    (m.valueRec (m.opRec o).dst).op = some o
  value_op : ∀ v < m.values.length, ∀ o, (m.valueRec v).op = some o →
    o < m.ops.length ∧ (m.opRec o).dst = v
  op_src : ∀ o < m.ops.length, ∀ s ∈ (m.opRec o).src, s < m.values.length
  src_le : ∀ o < m.ops.length, (m.opRec o).src.length ≤ 3
  block_ops : ∀ b < m.blocks.length, ∀ o, o ∈ (m.blockRec b).ops ↔
    o < m.ops.length ∧ (m.valueRec (m.opRec o).dst).block = b
  ops_sorted : ∀ b < m.blocks.length, (m.blockRec b).ops.Pairwise (· < ·)
  block_params : ∀ b < m.blocks.length, ∀ v, v ∈ (m.blockRec b).params ↔
    v < m.values.length ∧ (m.valueRec v).op = none ∧ (m.valueRec v).block = b
  params_nodup : ∀ b < m.blocks.length, (m.blockRec b).params.Nodup
  term : ∀ b < m.blocks.length, TermWF m (m.blockRec b).term
  slices : ∀ b < m.blocks.length, ∀ b' < m.blocks.length, ∀ f f' k,
    (m.blockRec b).term.InSlice f k → (m.blockRec b').term.InSlice f' k → b = b' ∧ f = f'

theorem wf_create : Module.create.WF := by
  constructor <;> simp [Module.create]

/-- The invariant only speaks of the arrays. -/
theorem Module.WF.congr {m m' : Module} (h : m.WF) (hc : SameCore m m') : m'.WF := by
  obtain ⟨vs, os, bs, ta, vn, vc, st, fr⟩ := m
  obtain ⟨vs', os', bs', ta', vn', vc', st', fr'⟩ := m'
  obtain ⟨rfl, rfl, rfl, rfl⟩ := hc
  exact ⟨h.values_le, h.ops_le, h.blocks_le, h.value_type, h.value_block, h.op_dst, h.value_op,
    h.op_src, h.src_le, h.block_ops, h.ops_sorted, h.block_params, h.params_nodup,
    fun b hb => ⟨(h.term b hb).jump, (h.term b hb).cbranch, (h.term b hb).true_le,
      (h.term b hb).false_le⟩, h.slices⟩

namespace Module

theorem blockRec_withBlock (m : Module) (name : Name) (b : Nat) :
    (m.withBlock name).blockRec b = if b < m.blocks.length then m.blockRec b
      else if b = m.blocks.length then ⟨name, [], [], TermRec.empty .none⟩ else defaultBlock := by
  rw [blockRec, withBlock, getD_concat]; rfl

theorem valueRec_withParam (m : Module) (b : Nat) (t : Ty) (name : Name) (v : Nat) :
    (m.withParam b t name).valueRec v = if v < m.values.length then m.valueRec v
      else if v = m.values.length then ⟨t, b, none, name⟩ else defaultValue := by
  rw [valueRec, withParam, getD_concat]; rfl

theorem blockRec_withParam (m : Module) (b : Nat) (t : Ty) (name : Name) (c : Nat) :
    (m.withParam b t name).blockRec c = if b = c ∧ c < m.blocks.length then
      (m.blockRec b).appendParam m.values.length else m.blockRec c := by
  rw [blockRec, withParam, getD_set]; rfl

theorem valueRec_withOp (m : Module) (k : OpKey) (name : Name) (v : Nat) :
    (m.withOp k name).valueRec v = if v < m.values.length then m.valueRec v
      else if v = m.values.length then ⟨k.type, k.block, some m.ops.length, name⟩
      else defaultValue := by
  rw [valueRec, withOp, getD_concat]; rfl

theorem opRec_withOp (m : Module) (k : OpKey) (name : Name) (o : Nat) :
    (m.withOp k name).opRec o = if o < m.ops.length then m.opRec o
      else if o = m.ops.length then ⟨k.opcode, m.values.length, k.srcs, k.endian, k.imm⟩
      else defaultOp := by
  rw [opRec, withOp, getD_concat]; rfl

theorem blockRec_withOp (m : Module) (k : OpKey) (name : Name) (c : Nat) :
    (m.withOp k name).blockRec c = if k.block = c ∧ c < m.blocks.length then
      (m.blockRec k.block).appendOp m.ops.length else m.blockRec c := by
  rw [blockRec, withOp, getD_set]; rfl

theorem blockRec_withTerm (m : Module) (b : Nat) (t : TermRec) (ids : List Nat) (c : Nat) :
    (m.withTerm b t ids).blockRec c = if b = c ∧ c < m.blocks.length then
      { m.blockRec b with term := t } else m.blockRec c := by
  rw [blockRec, withTerm, getD_set]; rfl

end Module

/-- The empty terminator has no slices. -/
theorem not_inSlice_empty (kind : TermKind) (f : Bool) (k : Nat) :
    ¬ (TermRec.empty kind).InSlice f k := by
  cases f <;> simp [TermRec.InSlice, TermRec.empty]

theorem TermWF.mono {m m' : Module} {t : TermRec} (h : TermWF m t)
    (hb : m.blocks.length ≤ m'.blocks.length) (hv : m.values.length ≤ m'.values.length)
    (ha : m.termArgs.length ≤ m'.termArgs.length) : TermWF m' t :=
  ⟨fun hk => lt_of_lt_of_le (h.jump hk) hb,
    fun hk => ⟨lt_of_lt_of_le (h.cbranch hk).1 hb, lt_of_lt_of_le (h.cbranch hk).2.1 hb,
      lt_of_lt_of_le (h.cbranch hk).2.2 hv⟩,
    le_trans h.true_le ha, le_trans h.false_le ha⟩

section Preservation

variable {m : Module}

theorem Module.WF.withBlock (h : m.WF) (hlt : m.blocks.length < uint32Max) (name : Name) :
    (m.withBlock name).WF := by
  have hlen : (m.withBlock name).blocks.length = m.blocks.length + 1 := by simp [Module.withBlock]
  have hnone : ∀ v < m.values.length, (m.valueRec v).block ≠ m.blocks.length :=
    fun v hv => Nat.ne_of_lt (h.value_block v hv)
  have hterm : TermWF (m.withBlock name) (TermRec.empty .none) :=
    by constructor <;> simp [TermRec.empty]
  refine ⟨h.values_le, h.ops_le, by omega, h.value_type, ?_, h.op_dst, h.value_op, h.op_src,
    h.src_le, ?_, ?_, ?_, ?_, ?_, ?_⟩
  · intro v hv
    have := h.value_block v hv
    rw [hlen]
    exact lt_of_lt_of_le this (Nat.le_succ _)
  · intro b hb o
    rw [m.blockRec_withBlock]
    split
    · next hb' => exact h.block_ops b hb' o
    · obtain rfl : b = m.blocks.length := by omega
      simp only [if_true, List.not_mem_nil, false_iff, not_and]
      intro ho
      exact hnone _ (h.op_dst o ho).1
  · intro b hb
    rw [m.blockRec_withBlock]
    split
    · next hb' => exact h.ops_sorted b hb'
    · obtain rfl : b = m.blocks.length := by omega
      simp
  · intro b hb v
    rw [m.blockRec_withBlock]
    split
    · next hb' => exact h.block_params b hb' v
    · obtain rfl : b = m.blocks.length := by omega
      simp only [if_true, List.not_mem_nil, false_iff, not_and]
      intro hv _
      exact hnone v hv
  · intro b hb
    rw [m.blockRec_withBlock]
    split
    · next hb' => exact h.params_nodup b hb'
    · obtain rfl : b = m.blocks.length := by omega
      simp
  · intro b hb
    rw [m.blockRec_withBlock]
    split
    · next hb' => exact (h.term b hb').mono (by omega) le_rfl le_rfl
    · obtain rfl : b = m.blocks.length := by omega
      simpa using hterm
  · intro b hb b' hb' f f' k h1 h2
    rw [m.blockRec_withBlock] at h1 h2
    split at h1
    · next hlt1 =>
      split at h2
      · next hlt2 => exact h.slices b hlt1 b' hlt2 f f' k h1 h2
      · obtain rfl : b' = m.blocks.length := by omega
        rw [if_pos rfl] at h2
        exact absurd h2 (not_inSlice_empty _ _ _)
    · obtain rfl : b = m.blocks.length := by omega
      rw [if_pos rfl] at h1
      exact absurd h1 (not_inSlice_empty _ _ _)

section WithParam

variable {b : Nat} {t : Ty} {name : Name}

theorem Module.withParam_old {v : Nat} (hv : v < m.values.length) :
    (m.withParam b t name).valueRec v = m.valueRec v := by
  rw [m.valueRec_withParam, if_pos hv]

theorem Module.withParam_new :
    (m.withParam b t name).valueRec m.values.length = ⟨t, b, none, name⟩ := by
  rw [m.valueRec_withParam, if_neg (lt_irrefl _), if_pos rfl]

theorem Module.withParam_values :
    (m.withParam b t name).values.length = m.values.length + 1 := by
  simp [Module.withParam]

theorem Module.withParam_blocks : (m.withParam b t name).blocks.length = m.blocks.length := by
  simp [Module.withParam]

theorem Module.withParam_term (c : Nat) :
    ((m.withParam b t name).blockRec c).term = (m.blockRec c).term := by
  rw [m.blockRec_withParam]
  split
  · next hc => rw [← hc.1]; rfl
  · rfl

theorem Module.withParam_ops (c : Nat) :
    ((m.withParam b t name).blockRec c).ops = (m.blockRec c).ops := by
  rw [m.blockRec_withParam]
  split
  · next hc => rw [← hc.1]; rfl
  · rfl

/-- The new parameter is listed in its own block only. -/
theorem Module.WF.withParam_params (h : m.WF) {c : Nat} (hc : c < m.blocks.length) (v : Nat) :
    v ∈ ((m.withParam b t name).blockRec c).params ↔
      v < (m.withParam b t name).values.length ∧
        ((m.withParam b t name).valueRec v).op = none ∧
        ((m.withParam b t name).valueRec v).block = c := by
  rw [m.blockRec_withParam, Module.withParam_values]
  by_cases hbc : b = c
  · subst hbc
    rw [if_pos ⟨rfl, hc⟩]
    simp only [BlockRec.appendParam, List.mem_append, List.mem_singleton, h.block_params b hc v]
    constructor
    · rintro (⟨hv, h1, h2⟩ | rfl)
      · exact ⟨by omega, by rw [Module.withParam_old hv]; exact ⟨h1, h2⟩⟩
      · exact ⟨by omega, by rw [Module.withParam_new]; exact ⟨rfl, rfl⟩⟩
    · rintro ⟨hv, h1⟩
      rcases Nat.lt_succ_iff_lt_or_eq.mp hv with hv | hv
      · rw [Module.withParam_old hv] at h1; exact .inl ⟨hv, h1⟩
      · exact .inr hv
  · rw [if_neg (fun hh => hbc hh.1), h.block_params c hc v]
    constructor
    · rintro ⟨hv, h1⟩
      exact ⟨by omega, by rw [Module.withParam_old hv]; exact h1⟩
    · rintro ⟨hv, h1⟩
      rcases Nat.lt_succ_iff_lt_or_eq.mp hv with hv | rfl
      · rw [Module.withParam_old hv] at h1; exact ⟨hv, h1⟩
      · rw [Module.withParam_new] at h1; exact absurd h1.2 hbc

theorem Module.WF.withParam_nodup (h : m.WF) {c : Nat} (hc : c < m.blocks.length) :
    ((m.withParam b t name).blockRec c).params.Nodup := by
  rw [m.blockRec_withParam]
  split
  · next hbc =>
    rw [hbc.1]
    refine List.nodup_append.mpr ⟨h.params_nodup c hc, List.nodup_singleton _, ?_⟩
    intro x hx y hy
    have := ((h.block_params c hc x).mp hx).1
    rw [List.mem_singleton] at hy
    omega
  · exact h.params_nodup c hc

theorem Module.WF.withParam (h : m.WF) {b : Nat} {t : Ty} (ho : m.OpenBlock b)
    (ht : t.isValueType = true) (hlt : m.values.length < uint32Max) (name : Name) :
    (m.withParam b t name).WF := by
  have hvlen : (m.withParam b t name).values.length = m.values.length + 1 :=
    Module.withParam_values
  have hblen : (m.withParam b t name).blocks.length = m.blocks.length := Module.withParam_blocks
  refine ⟨by omega, h.ops_le, hblen ▸ h.blocks_le, ?_, ?_, ?_, ?_, ?_, h.src_le, ?_, ?_,
    fun c hc => h.withParam_params (hblen ▸ hc), fun c hc => h.withParam_nodup (hblen ▸ hc), ?_, ?_⟩
  · intro v hv
    rcases Nat.lt_succ_iff_lt_or_eq.mp (hvlen ▸ hv) with hv | rfl
    · rw [Module.valueType, Module.withParam_old hv]; exact h.value_type v hv
    · rw [Module.valueType, Module.withParam_new]; exact ht
  · intro v hv
    rw [hblen]
    rcases Nat.lt_succ_iff_lt_or_eq.mp (hvlen ▸ hv) with hv | rfl
    · rw [Module.withParam_old hv]; exact h.value_block v hv
    · rw [Module.withParam_new]; exact ho.1
  · intro o hoo
    have := h.op_dst o hoo
    exact ⟨by rw [hvlen]; exact Nat.lt_succ_of_lt this.1, by
      show ((m.withParam b t name).valueRec (m.opRec o).dst).op = some o
      rw [Module.withParam_old this.1]; exact this.2⟩
  · intro v hv o hvo
    rcases Nat.lt_succ_iff_lt_or_eq.mp (hvlen ▸ hv) with hv | rfl
    · rw [Module.withParam_old hv] at hvo; exact h.value_op v hv o hvo
    · rw [Module.withParam_new] at hvo; cases hvo
  · intro o hoo s hs
    rw [hvlen]
    exact Nat.lt_succ_of_lt (h.op_src o hoo s hs)
  · intro c hc o
    rw [Module.withParam_ops, h.block_ops c (hblen ▸ hc) o]
    refine and_congr_right fun hoo => ?_
    show _ ↔ ((m.withParam b t name).valueRec (m.opRec o).dst).block = c
    rw [Module.withParam_old (h.op_dst o hoo).1]
  · intro c hc
    rw [Module.withParam_ops]
    exact h.ops_sorted c (hblen ▸ hc)
  · intro c hc
    rw [Module.withParam_term]
    exact (h.term c (hblen ▸ hc)).mono (by omega) (by omega) le_rfl
  · intro c hc c' hc' f f' k h1 h2
    rw [Module.withParam_term] at h1 h2
    exact h.slices c (hblen ▸ hc) c' (hblen ▸ hc') f f' k h1 h2

end WithParam

section WithOp

variable {k : OpKey} {name : Name}

theorem Module.withOp_old {v : Nat} (hv : v < m.values.length) :
    (m.withOp k name).valueRec v = m.valueRec v := by
  rw [m.valueRec_withOp, if_pos hv]

theorem Module.withOp_new : (m.withOp k name).valueRec m.values.length =
    ⟨k.type, k.block, some m.ops.length, name⟩ := by
  rw [m.valueRec_withOp, if_neg (lt_irrefl _), if_pos rfl]

theorem Module.withOp_oldOp {o : Nat} (ho : o < m.ops.length) :
    (m.withOp k name).opRec o = m.opRec o := by
  rw [m.opRec_withOp, if_pos ho]

theorem Module.withOp_newOp : (m.withOp k name).opRec m.ops.length =
    ⟨k.opcode, m.values.length, k.srcs, k.endian, k.imm⟩ := by
  rw [m.opRec_withOp, if_neg (lt_irrefl _), if_pos rfl]

theorem Module.withOp_values : (m.withOp k name).values.length = m.values.length + 1 := by
  simp [Module.withOp]

theorem Module.withOp_ops : (m.withOp k name).ops.length = m.ops.length + 1 := by
  simp [Module.withOp]

theorem Module.withOp_blocks : (m.withOp k name).blocks.length = m.blocks.length := by
  simp [Module.withOp]

theorem Module.withOp_term (c : Nat) :
    ((m.withOp k name).blockRec c).term = (m.blockRec c).term := by
  rw [m.blockRec_withOp]
  split
  · next hc => rw [← hc.1]; rfl
  · rfl

theorem Module.withOp_params (c : Nat) :
    ((m.withOp k name).blockRec c).params = (m.blockRec c).params := by
  rw [m.blockRec_withOp]
  split
  · next hc => rw [← hc.1]; rfl
  · rfl

/-- The new operation and its result point at each other. -/
theorem Module.WF.withOp_dst (h : m.WF) {o : Nat} (ho : o < (m.withOp k name).ops.length) :
    ((m.withOp k name).opRec o).dst < (m.withOp k name).values.length ∧
      ((m.withOp k name).valueRec ((m.withOp k name).opRec o).dst).op = some o := by
  rcases Nat.lt_succ_iff_lt_or_eq.mp (Module.withOp_ops ▸ ho) with ho | rfl
  · have := h.op_dst o ho
    rw [Module.withOp_oldOp ho, Module.withOp_old this.1, Module.withOp_values]
    exact ⟨Nat.lt_succ_of_lt this.1, this.2⟩
  · rw [Module.withOp_newOp, Module.withOp_values, Module.withOp_new]
    exact ⟨Nat.lt_succ_self _, rfl⟩

theorem Module.WF.withOp_op (h : m.WF) {v : Nat} (hv : v < (m.withOp k name).values.length)
    {o : Nat} (hvo : ((m.withOp k name).valueRec v).op = some o) :
    o < (m.withOp k name).ops.length ∧ ((m.withOp k name).opRec o).dst = v := by
  rw [Module.withOp_ops]
  rcases Nat.lt_succ_iff_lt_or_eq.mp (Module.withOp_values ▸ hv) with hv | rfl
  · rw [Module.withOp_old hv] at hvo
    obtain ⟨h1, h2⟩ := h.value_op v hv o hvo
    exact ⟨Nat.lt_succ_of_lt h1, by rw [Module.withOp_oldOp h1]; exact h2⟩
  · rw [Module.withOp_new] at hvo
    cases hvo
    exact ⟨Nat.lt_succ_self _, by rw [Module.withOp_newOp]⟩

/-- An operation that was there is listed where it was. -/
theorem Module.withOp_mem_ops {o : Nat} (ho : o < m.ops.length) (c : Nat) :
    o ∈ ((m.withOp k name).blockRec c).ops ↔ o ∈ (m.blockRec c).ops := by
  rw [m.blockRec_withOp]
  split
  · next hbc =>
    rw [hbc.1]
    simp only [BlockRec.appendOp, List.mem_append, List.mem_singleton]
    exact ⟨fun hh => hh.resolve_right (by omega), .inl⟩
  · rfl

theorem Module.WF.withOp_not_mem_ops (h : m.WF) {o : Nat} (ho : m.ops.length < o) {c : Nat}
    (hc : c < m.blocks.length) : o ∉ ((m.withOp k name).blockRec c).ops := by
  rw [m.blockRec_withOp]
  split
  · next hbc =>
    rw [hbc.1]
    simp only [BlockRec.appendOp, List.mem_append, List.mem_singleton, h.block_ops c hc o]
    omega
  · rw [h.block_ops c hc o]
    omega

theorem Module.WF.withOp_block_ops (h : m.WF) {c : Nat} (hc : c < m.blocks.length) (o : Nat) :
    o ∈ ((m.withOp k name).blockRec c).ops ↔ o < (m.withOp k name).ops.length ∧
      ((m.withOp k name).valueRec ((m.withOp k name).opRec o).dst).block = c := by
  rw [Module.withOp_ops]
  rcases Nat.lt_trichotomy o m.ops.length with ho | rfl | ho
  · rw [Module.withOp_mem_ops ho, h.block_ops c hc o, Module.withOp_oldOp ho,
      Module.withOp_old (h.op_dst o ho).1]
    exact ⟨fun hh => ⟨by omega, hh.2⟩, fun hh => ⟨ho, hh.2⟩⟩
  · rw [Module.withOp_newOp, Module.withOp_new, m.blockRec_withOp]
    by_cases hbc : k.block = c
    · rw [if_pos ⟨hbc, hc⟩]
      simp [BlockRec.appendOp, hbc]
    · rw [if_neg (fun hh => hbc hh.1), h.block_ops c hc]
      simp [hbc]
  · exact iff_of_false (h.withOp_not_mem_ops ho hc) fun hh => by omega

theorem Module.WF.withOp_sorted (h : m.WF) {c : Nat} (hc : c < m.blocks.length) :
    ((m.withOp k name).blockRec c).ops.Pairwise (· < ·) := by
  rw [m.blockRec_withOp]
  split
  · next hbc =>
    rw [hbc.1]
    refine List.pairwise_append.mpr ⟨h.ops_sorted c hc, List.pairwise_singleton _ _, ?_⟩
    intro x hx y hy
    rw [List.mem_singleton] at hy
    rw [hy]
    exact ((h.block_ops c hc x).mp hx).1
  · exact h.ops_sorted c hc

theorem Module.WF.withOp_block_params (h : m.WF) {c : Nat} (hc : c < m.blocks.length) (v : Nat) :
    v ∈ ((m.withOp k name).blockRec c).params ↔ v < (m.withOp k name).values.length ∧
      ((m.withOp k name).valueRec v).op = none ∧
      ((m.withOp k name).valueRec v).block = c := by
  rw [Module.withOp_params, h.block_params c hc v, Module.withOp_values]
  constructor
  · rintro ⟨hv, h1⟩
    exact ⟨by omega, by rw [Module.withOp_old hv]; exact h1⟩
  · rintro ⟨hv, h1⟩
    rcases Nat.lt_succ_iff_lt_or_eq.mp hv with hv | rfl
    · rw [Module.withOp_old hv] at h1; exact ⟨hv, h1⟩
    · rw [Module.withOp_new] at h1; exact absurd h1.1 (by simp)

theorem Module.WF.withOp (h : m.WF) {k : OpKey} (ho : m.OpenBlock k.block)
    (ht : k.type.isValueType = true) (hs : ∀ s ∈ k.srcs, s < m.values.length)
    (hl : k.srcs.length ≤ 3) (hops : m.ops.length < uint32Max)
    (hlt : m.values.length < uint32Max) (name : Name) : (m.withOp k name).WF := by
  have hvlen : (m.withOp k name).values.length = m.values.length + 1 := Module.withOp_values
  have holen : (m.withOp k name).ops.length = m.ops.length + 1 := Module.withOp_ops
  have hblen : (m.withOp k name).blocks.length = m.blocks.length := Module.withOp_blocks
  refine ⟨by omega, by omega, hblen ▸ h.blocks_le, ?_, ?_, fun o ho => h.withOp_dst ho,
    fun v hv o hvo => h.withOp_op hv hvo, ?_, ?_, fun c hc => h.withOp_block_ops (hblen ▸ hc),
    fun c hc => h.withOp_sorted (hblen ▸ hc), fun c hc => h.withOp_block_params (hblen ▸ hc),
    ?_, ?_, ?_⟩
  · intro v hv
    rcases Nat.lt_succ_iff_lt_or_eq.mp (hvlen ▸ hv) with hv | rfl
    · rw [Module.valueType, Module.withOp_old hv]; exact h.value_type v hv
    · rw [Module.valueType, Module.withOp_new]; exact ht
  · intro v hv
    rw [hblen]
    rcases Nat.lt_succ_iff_lt_or_eq.mp (hvlen ▸ hv) with hv | rfl
    · rw [Module.withOp_old hv]; exact h.value_block v hv
    · rw [Module.withOp_new]; exact ho.1
  · intro o hoo s hss
    rw [hvlen]
    rcases Nat.lt_succ_iff_lt_or_eq.mp (holen ▸ hoo) with hoo | rfl
    · rw [Module.withOp_oldOp hoo] at hss
      exact Nat.lt_succ_of_lt (h.op_src o hoo s hss)
    · rw [Module.withOp_newOp] at hss
      exact Nat.lt_succ_of_lt (hs s hss)
  · intro o hoo
    rcases Nat.lt_succ_iff_lt_or_eq.mp (holen ▸ hoo) with hoo | rfl
    · rw [Module.withOp_oldOp hoo]; exact h.src_le o hoo
    · rw [Module.withOp_newOp]; exact hl
  · intro c hc
    rw [Module.withOp_params]
    exact h.params_nodup c (hblen ▸ hc)
  · intro c hc
    rw [Module.withOp_term]
    exact (h.term c (hblen ▸ hc)).mono (by omega) (by omega) le_rfl
  · intro c hc c' hc' f f' i h1 h2
    rw [Module.withOp_term] at h1 h2
    exact h.slices c (hblen ▸ hc) c' (hblen ▸ hc') f f' i h1 h2

end WithOp

theorem Module.WF.withArgs (h : m.WF) (ids : List Nat) : (m.withArgs ids).WF :=
  ⟨h.values_le, h.ops_le, h.blocks_le, h.value_type, h.value_block, h.op_dst, h.value_op,
    h.op_src, h.src_le, h.block_ops, h.ops_sorted, h.block_params, h.params_nodup,
    fun b hb => (h.term b hb).mono le_rfl le_rfl (by simp [Module.withArgs]), h.slices⟩

/-- The slices of a well-formed terminator end at the end of `term_args`. -/
theorem TermWF.inSlice_lt {t : TermRec} (h : TermWF m t) {f : Bool} {k : Nat}
    (hk : t.InSlice f k) : k < m.termArgs.length := by
  have h1 := h.true_le
  have h2 := h.false_le
  cases f <;> simp only [TermRec.InSlice, Bool.false_eq_true, if_false, if_true] at hk <;> omega

/-- The slices of a fresh terminator lie past the end of `term_args`, the false
one after the true one. -/
theorem FreshTerm.inSlice {t : TermRec} {ids : List Nat} (h : FreshTerm m t ids) {f : Bool}
    {k : Nat} (hk : t.InSlice f k) : m.termArgs.length ≤ k ∧
      (f = true → t.trueArgOffset + t.trueArgCount ≤ k) ∧
      (f = false → k < t.trueArgOffset + t.trueArgCount) := by
  cases f <;> simp only [TermRec.InSlice, Bool.false_eq_true, if_false, if_true] at hk
  · have := h.true_ge (by omega)
    exact ⟨by omega, by simp, fun _ => hk.2⟩
  · have := h.false_ge (by omega)
    exact ⟨by omega, fun _ => by omega, by simp⟩

theorem Module.WF.withTerm (h : m.WF) (b : Nat) {t : TermRec} {ids : List Nat}
    (ht : FreshTerm m t ids) : (m.withTerm b t ids).WF := by
  have hblen : (m.withTerm b t ids).blocks.length = m.blocks.length := by simp [Module.withTerm]
  have halen : (m.withTerm b t ids).termArgs.length = m.termArgs.length + ids.length := by
    simp [Module.withTerm]
  have hops : ∀ c, ((m.withTerm b t ids).blockRec c).ops = (m.blockRec c).ops := by
    intro c
    rw [m.blockRec_withTerm]
    split
    · next hc => rw [← hc.1]
    · rfl
  have hparams : ∀ c, ((m.withTerm b t ids).blockRec c).params = (m.blockRec c).params := by
    intro c
    rw [m.blockRec_withTerm]
    split
    · next hc => rw [← hc.1]
    · rfl
  have hterm : ∀ c, ((m.withTerm b t ids).blockRec c).term =
      if b = c ∧ c < m.blocks.length then t else (m.blockRec c).term := by
    intro c
    rw [m.blockRec_withTerm]
    split <;> rfl
  refine ⟨h.values_le, h.ops_le, hblen ▸ h.blocks_le, h.value_type, hblen.symm ▸ h.value_block,
    h.op_dst, h.value_op, h.op_src, h.src_le, ?_, ?_, ?_, ?_, ?_, ?_⟩
  · intro c hc o
    rw [hops]
    exact h.block_ops c (hblen ▸ hc) o
  · intro c hc
    rw [hops]
    exact h.ops_sorted c (hblen ▸ hc)
  · intro c hc v
    rw [hparams]
    exact h.block_params c (hblen ▸ hc) v
  · intro c hc
    rw [hparams]
    exact h.params_nodup c (hblen ▸ hc)
  · intro c hc
    rw [hterm]
    split
    · refine ⟨fun hk => ?_, fun hk => ?_, by rw [halen]; exact ht.true_le,
        by rw [halen]; exact ht.false_le⟩
      · rw [hblen]; exact ht.jump hk
      · rw [hblen]; exact ht.cbranch hk
    · exact (h.term c (hblen ▸ hc)).mono (by omega) le_rfl (by omega)
  · intro c hc c' hc' f f' k h1 h2
    have hc := hblen ▸ hc
    have hc' := hblen ▸ hc'
    rw [hterm] at h1 h2
    split at h1
    · next e1 =>
      obtain ⟨rfl, -⟩ := e1
      split at h2
      · next e2 =>
        obtain ⟨rfl, -⟩ := e2
        refine ⟨rfl, ?_⟩
        have g1 := ht.inSlice h1
        have g2 := ht.inSlice h2
        cases f <;> cases f' <;> simp_all <;> omega
      · have := (h.term c' hc').inSlice_lt h2
        have := (ht.inSlice h1).1
        omega
    · split at h2
      · have := (h.term c hc).inSlice_lt h1
        have := (ht.inSlice h2).1
        omega
      · exact h.slices c hc c' hc' f f' k h1 h2

/-- **Step lemma.**  Every change a builder call makes keeps the invariant. -/
theorem wf_buildStep {m' : Module} (h : m.WF) (hs : BuildStep m m') : m'.WF := by
  cases hs with
  | same hc => exact h.congr hc
  | block name hlt hc => exact (h.withBlock hlt name).congr hc
  | param b t name ho ht hlt hc => exact (h.withParam ho ht hlt name).congr hc
  | op k name ho ht hs hl hops hvals hc => exact (h.withOp ho ht hs hl hops hvals name).congr hc
  | args ids hc => exact (h.withArgs ids).congr hc
  | term b t ids _ ht hc => exact (h.withTerm b ht).congr hc

end Preservation

end Xair
