import Xair.LocalPass

/-!
# Modules built through the API

Every module that a sequence of public calls builds satisfies the representation
invariant (`wf_reachable`), and canonicalization of a verified module is a
compaction of the locally rewritten one (`canonicalizeModule_ok`).  The file ends
with the two facts about the API as a whole: the cross references between values,
operations, blocks and terminators, and what canonicalization removes and keeps.
-/

namespace Xair

/-! ### Canonicalization -/

/-- The module after the local pass of canonicalization. -/
def foldedModule (m : Module) : Module := (canonicalizeLocalOps (valueNumberClear m)).1

theorem canonicalizedModule_eq (m : Module) :
    canonicalizedModule m = (eliminateDeadValues (foldedModule m)).1 := rfl

/-- The terminators of a verified module use valid values. -/
theorem termUsesValid_of_verified {m : Module} (hver : m.Verified) : m.TermUsesValid := by
  intro b hb u hu
  have hterm := (verifyModule_ok_iff.mp hver b hb).term
  have hedge : ∀ {target args}, EdgeOk m (m.availableAtEnd b) target args → ∀ a ∈ args,
      a < m.values.length := by
    intro target args hok a ha
    obtain ⟨i, hi, rfl⟩ := List.mem_iff_getElem.mp ha
    have hall := List.forall₂_iff_get.mp hok.args_ok
    exact (valueIsAvailable_iff.mp (hall.2 i hi (by rw [← hall.1]; exact hi)).1).1
  unfold Module.termUses at hu
  unfold TermOk at hterm
  cases hk : (m.blockRec b).term.kind with
  | none => rw [hk] at hu; cases hu
  | jump => rw [hk] at hu hterm; exact hedge hterm u hu
  | cbranch =>
    rw [hk] at hu hterm
    rcases List.mem_cons.mp hu with rfl | hu
    · exact (valueIsAvailable_iff.mp hterm.1).1
    · rcases List.mem_append.mp hu with hu | hu
      · exact hedge hterm.2.2.1 u hu
      · exact hedge hterm.2.2.2 u hu
  | ret => rw [hk] at hu hterm; exact (valueIsAvailable_iff.mp (hterm u hu)).1
  | trap => rw [hk] at hu; cases hu
  | fault => rw [hk] at hu; cases hu

/-- The identity maps a module to any other with the same arrays. -/
theorem moduleMap_sameCore {m m' : Module} (hwf : m.WF) (hc : SameCore m m') :
    ModuleMap m m' some := by
  obtain ⟨vs, os, bs, ta, vn, vc, st, fr⟩ := m
  obtain ⟨vs', os', bs', ta', vn', vc', st', fr'⟩ := m'
  obtain ⟨rfl, rfl, rfl, rfl⟩ := hc
  exact ⟨rfl, fun v v' h hv => by cases h; exact ⟨hv, rfl⟩,
    fun v v' h hc => by cases h; exact ⟨hc, rfl⟩, fun b _ => List.forall₂_same.mpr fun _ _ => rfl,
    fun b hb p hp => ((hwf.block_params b hb p).mp hp).1,
    fun b _ => ⟨rfl, rfl, rfl, rfl, rfl, fun _ => rfl, fun _ => List.forall₂_same.mpr fun _ _ => rfl,
      fun _ => List.forall₂_same.mpr fun _ _ => rfl⟩⟩

theorem verified_congr {m m' : Module} (hwf : m.WF) (hc : SameCore m m') (hver : m.Verified) :
    m'.Verified := by
  have hm := moduleMap_sameCore hwf hc
  refine verified_rename (ω := some) hm (hwf.congr hc) hver
    (fun b _ => by rw [List.filterMap_some, hc.blockRec]) ?_ fun b _ pre p post d' _ hp => by cases hp
  intro b hb p hp p' hpp av av' hav hok
  cases hpp
  refine ⟨⟨?_, ?_, ?_, ?_, ?_, ?_, ?_⟩, by rw [hc.opRec]⟩
  · exact hc.ops ▸ hok.lt
  · rw [hc.opRec, hc.values]; exact hok.dst_lt
  · rw [hc.opRec, hc.valueRec]; exact hok.dst_block
  · rw [hc.opRec, hc.valueRec]; exact hok.dst_op
  · rw [hc.opRec]; exact fun s hs => hav s s rfl (hok.sources s hs)
  · rw [hc.opRec, hc.valueType]; exact hok.out_type
  · rw [hc.opRec, hc.valueType, funext hc.valueType]; exact hok.typed

section Canonicalize

variable {m : Module}

theorem wf_foldedModule (hwf : m.WF) : (foldedModule m).WF :=
  wf_canonicalizeLocalOps (hwf.congr (sameCore_valueNumberClear m))

theorem verified_foldedModule (hwf : m.WF) (hver : m.Verified) : (foldedModule m).Verified :=
  verified_canonicalizeLocalOps (hwf.congr (sameCore_valueNumberClear m))
    (verified_congr hwf (sameCore_valueNumberClear m) hver)

/-- Dead-value removal in a verified module is a compaction. -/
theorem compaction_canonicalizedModule (hwf : m.WF) (hver : m.Verified) :
    ∃ σ ω, Compaction (foldedModule m) (canonicalizedModule m) σ ω ∧
      ∀ v, (∃ v', σ v = some v') ↔ liveValues (foldedModule m) v = true :=
  compaction_eliminateDeadValues (wf_foldedModule hwf)
    (termUsesValid_of_verified (verified_foldedModule hwf hver))

theorem wf_canonicalizedModule (hwf : m.WF) (hver : m.Verified) : (canonicalizedModule m).WF := by
  obtain ⟨σ, ω, h, -⟩ := compaction_canonicalizedModule hwf hver
  exact h.wf (wf_foldedModule hwf)

theorem verified_canonicalizedModule (hwf : m.WF) (hver : m.Verified) :
    (canonicalizedModule m).Verified := by
  obtain ⟨σ, ω, h, -⟩ := compaction_canonicalizedModule hwf hver
  exact h.verified (wf_foldedModule hwf) (verified_foldedModule hwf hver)

/-- The statistics of a canonicalization that succeeds. -/
def canonicalizeStats (m : Module) : CanonicalizeStats where
  valuesBefore := m.values.length
  valuesAfter := (canonicalizedModule m).values.length
  operationsBefore := m.ops.length
  operationsAfter := (canonicalizedModule m).ops.length
  valueNumberEntriesBefore := m.valueNumberCount
  valueNumberEntriesAfter := (canonicalizedModule m).valueNumberCount
  operandsReordered := (canonicalizeLocalOps (valueNumberClear m)).2.operandsReordered
  constantsFolded := (canonicalizeLocalOps (valueNumberClear m)).2.constantsFolded
  deadValuesRemoved := (eliminateDeadValues (foldedModule m)).2.1
  deadOperationsRemoved := (eliminateDeadValues (foldedModule m)).2.2

/-- **Canonicalization of a verified module succeeds.** -/
theorem canonicalizeModule_ok (hwf : m.WF) (hf : m.frozen = false) (hver : m.Verified) :
    canonicalizeModule m = (canonicalizedModule m, .ok (canonicalizeStats m)) := by
  have h2 : verifyModule (canonicalizedModule m) = .ok () := verified_canonicalizedModule hwf hver
  have h1 : verifyModule m = .ok () := hver
  unfold canonicalizeModule
  rw [hf, h1]
  simp only [Bool.false_eq_true, if_false]
  rw [canonicalizedModule_eq, foldedModule] at h2
  simp only [h2]
  rfl

/-- A call of canonicalization keeps the module or replaces it by its canonical form. -/
theorem canonicalizeModule_cases (hwf : m.WF) :
    (canonicalizeModule m).1 = m ∨
      (m.frozen = false ∧ m.Verified ∧ (canonicalizeModule m).1 = canonicalizedModule m) := by
  by_cases hf : m.frozen = true
  · left; simp [canonicalizeModule, hf]
  · have hf : m.frozen = false := by simpa using hf
    cases hv : verifyModule m with
    | error e => left; simp [canonicalizeModule, hf, hv]
    | ok _ => exact .inr ⟨hf, hv, by rw [canonicalizeModule_ok hwf hf hv]⟩

end Canonicalize

/-! ### All calls -/

/-- What holds of the empty module and is kept by every call holds of every module. -/
theorem reachable_induct {P : Module → Prop} (hcreate : P Module.create)
    (hstep : ∀ m (c : Call), P m → P (c.run m).1) {m : Module} (h : m.Reachable) : P m := by
  obtain ⟨calls, rfl⟩ := h
  have key : ∀ (calls : List Call) (m : Module), P m → P (runCalls m calls) := by
    intro calls
    induction calls with
    | nil => intro m hm; exact hm
    | cons c calls ih => intro m hm; exact ih _ (hstep m c hm)
  exact key calls _ hcreate

theorem wf_call {m : Module} (h : m.WF) (c : Call) : (c.run m).1.WF := by
  by_cases hc : c = .canonicalize
  · subst hc
    show (canonicalizeModule m).1.WF
    rcases canonicalizeModule_cases h with he | ⟨-, hver, he⟩
    · rw [he]; exact h
    · rw [he]; exact wf_canonicalizedModule h hver
  · exact wf_buildStep h (c.buildStep m hc)

/-- **Every module built through the API is well formed.** -/
theorem wf_reachable {m : Module} (h : m.Reachable) : m.WF :=
  reachable_induct wf_create (fun _ c hm => wf_call hm c) h

/-! ### Counting -/

/-- The number of parameters of all blocks. -/
def Module.paramCount (m : Module) : Nat := (m.blocks.map fun bb => bb.params.length).sum

/-- The numbering of everything has as many values as the module. -/
theorem length_valueOrder {m : Module} (hwf : m.WF) :
    (m.valueOrder fun v => decide (v < m.values.length)).length = m.values.length := by
  have hmem : ∀ b < m.blocks.length, ∀ v ∈ (m.blockRec b).params,
      decide (v < m.values.length) = true := fun b hb v hv =>
    decide_eq_true ((hwf.block_params b hb v).mp hv).1
  have hperm : (m.valueOrder fun v => decide (v < m.values.length)).Perm
      (List.range m.values.length) := by
    refine (List.perm_ext_iff_of_nodup (valueOrder_nodup hwf) List.nodup_range).mpr fun v => ?_
    rw [mem_valueOrder hwf (fun _ h => of_decide_eq_true h) hmem, List.mem_range, decide_eq_true_eq]
  rw [hperm.length_eq, List.length_range]

/-- The numbering of everything has as many operations as the module. -/
theorem length_opOrder {m : Module} (hwf : m.WF) :
    (m.opOrder fun v => decide (v < m.values.length)).length = m.ops.length := by
  have hperm : (m.opOrder fun v => decide (v < m.values.length)).Perm
      (List.range m.ops.length) := by
    refine (List.perm_ext_iff_of_nodup (opOrder_nodup hwf) List.nodup_range).mpr fun o => ?_
    rw [mem_opOrder hwf, List.mem_range]
    exact ⟨fun h => h.1, fun h => ⟨h, decide_eq_true (hwf.op_dst o h).1⟩⟩
  rw [hperm.length_eq, List.length_range]

/-- Every value is a parameter or the result of one operation. -/
theorem values_length {m : Module} (hwf : m.WF) :
    m.values.length = m.paramCount + m.ops.length := by
  have hv := length_valueOrder hwf
  have ho := length_opOrder hwf
  have hsum : ∀ (live : ValueSet), (m.valueOrder live).length =
      m.paramCount + (m.opOrder live).length := by
    intro live
    unfold Module.valueOrder Module.opOrder Module.paramCount Module.dsts
    induction m.blocks with
    | nil => rfl
    | cons bb bs ih =>
      simp only [List.flatMap_cons, List.length_append, List.map_cons, List.sum_cons, ih,
        List.length_map]
      omega
  rw [← hv, hsum, ho]

theorem Compaction.paramCount {m m' : Module} {σ ω : Nat → Option Nat} (h : Compaction m m' σ ω) :
    m'.paramCount = m.paramCount := by
  have hlen : m'.blocks.map (fun bb => bb.params.length) =
      m.blocks.map fun bb => bb.params.length := by
    refine List.ext_getElem (by simp [h.blocks]) fun i h1 h2 => ?_
    have hi : i < m.blocks.length := by simpa using h2
    have hi' : i < m'.blocks.length := by simpa using h1
    rw [List.getElem_map, List.getElem_map, blockRec_getElem hi, blockRec_getElem hi',
      h.params i hi, List.length_map]
  rw [Module.paramCount, Module.paramCount, hlen]

theorem Compaction.removed {m m' : Module} {σ ω : Nat → Option Nat} (h : Compaction m m' σ ω)
    (hwf : m.WF) :
    m.values.length - m'.values.length = m.ops.length - m'.ops.length := by
  have h1 := values_length hwf
  have h2 := values_length (h.wf hwf)
  have h3 := h.paramCount
  have h4 := h.ops_le
  omega

/-- The removal counts are the differences of the lengths. -/
theorem eliminateDeadValues_counts (m : Module) :
    (eliminateDeadValues m).2.1 = m.values.length - (eliminateDeadValues m).1.values.length ∧
      (eliminateDeadValues m).2.2 = m.ops.length - (eliminateDeadValues m).1.ops.length := by
  rw [eliminateDeadValues, compactLiveValues_eq]
  split
  · simp
  · simp [renumberedModule]

/-- The local pass rewrites operation records and nothing else. -/
theorem localSteps_lengths {m m' : Module} (h : Relation.ReflTransGen LocalStep m m') :
    m'.values = m.values ∧ m'.ops.length = m.ops.length ∧ m'.blocks = m.blocks ∧
      m'.termArgs = m.termArgs := by
  refine localSteps_induct (P := fun m' => m'.values = m.values ∧ m'.ops.length = m.ops.length ∧
    m'.blocks = m.blocks ∧ m'.termArgs = m.termArgs) ?_ h ⟨rfl, rfl, rfl, rfl⟩
  rintro m₁ m₂ ⟨h1, h2, h3, h4⟩ ⟨ho, hr⟩
  exact ⟨h1, by simpa [Module.setOp] using h2, h3, h4⟩

theorem localSteps_foldedModule (m : Module) :
    Relation.ReflTransGen LocalStep (valueNumberClear m) (foldedModule m) :=
  localSteps_canonicalizeLocalOps _

theorem frozen_canonicalizedModule {m : Module} (hwf : m.WF) (hver : m.Verified) :
    (canonicalizedModule m).frozen = m.frozen := by
  obtain ⟨σ, ω, hc, -⟩ := compaction_canonicalizedModule hwf hver
  refine hc.frozen.trans (localSteps_induct (P := fun n => n.frozen = m.frozen) ?_
    (localSteps_foldedModule m) rfl)
  rintro m₁ m₂ hf ⟨ho, hr⟩
  exact hf

theorem localSteps_dst {m m' : Module} (h : Relation.ReflTransGen LocalStep m m') (o : Nat) :
    (m'.opRec o).dst = (m.opRec o).dst := by
  refine localSteps_induct (P := fun m' => (m'.opRec o).dst = (m.opRec o).dst) ?_ h rfl
  rintro m₁ m₂ h1 ⟨ho, hr⟩
  rw [opRec_setOp]
  split
  · next hp => rw [hr.dst, hp.1, h1]
  · exact h1

/-! ### Cross references -/

/-- The cross references of a module, read off its arrays. -/
structure Module.CrossRefs (m : Module) : Prop where
  dst_op : ∀ o < m.ops.length, (m.opRec o).dst < m.values.length ∧
    (m.valueRec (m.opRec o).dst).op = some o
  op_listed : ∀ o < m.ops.length, (m.blocks.flatMap BlockRec.ops).count o = 1 ∧
    (m.valueRec (m.opRec o).dst).block < m.blocks.length ∧
    o ∈ (m.blockRec (m.valueRec (m.opRec o).dst).block).ops
  listed_op : ∀ o ∈ m.blocks.flatMap BlockRec.ops, o < m.ops.length
  param_listed : ∀ v < m.values.length, (m.valueRec v).op = none →
    (m.blocks.flatMap BlockRec.params).count v = 1 ∧
    (m.valueRec v).block < m.blocks.length ∧ v ∈ (m.blockRec (m.valueRec v).block).params
  listed_param : ∀ v ∈ m.blocks.flatMap BlockRec.params,
    v < m.values.length ∧ (m.valueRec v).op = none
  src : ∀ o < m.ops.length, ∀ s ∈ (m.opRec o).src, s < m.values.length
  jump : ∀ b < m.blocks.length, (m.blockRec b).term.kind = .jump →
    (m.blockRec b).term.trueTarget < m.blocks.length
  cbranch : ∀ b < m.blocks.length, (m.blockRec b).term.kind = .cbranch →
    (m.blockRec b).term.trueTarget < m.blocks.length ∧
    (m.blockRec b).term.falseTarget < m.blocks.length ∧
    (m.blockRec b).term.condition < m.values.length
  slice_lt : ∀ b < m.blocks.length, ∀ f k, (m.blockRec b).term.InSlice f k →
    k < m.termArgs.length
  slices : ∀ b < m.blocks.length, ∀ b' < m.blocks.length, ∀ f f', (b, f) ≠ (b', f') → ∀ k,
    ¬ ((m.blockRec b).term.InSlice f k ∧ (m.blockRec b').term.InSlice f' k)
  count : m.values.length = m.paramCount + m.ops.length

/-- Every argument that a terminator refers to is a valid id. -/
def Module.ArgsValid (m : Module) : Prop :=
  ∀ b < m.blocks.length, ∀ f, (m.blockRec b).term.Uses f →
    ∀ a ∈ m.termArgsConst (m.blockRec b).term f, a < m.values.length

theorem crossRefs_of_wf {m : Module} (hwf : m.WF) : m.CrossRefs where
  dst_op := hwf.op_dst
  op_listed o ho := by
    have hb := hwf.value_block _ (hwf.op_dst o ho).1
    refine ⟨List.count_eq_one_of_mem ?_ ((mem_flatMap_ops hwf).mpr ho), hb,
      (hwf.block_ops _ hb o).mpr ⟨ho, rfl⟩⟩
    refine nodup_flatMap_blocks _ (fun o => (m.valueRec (m.opRec o).dst).block) ?_ ?_
    · exact fun b hb => (hwf.ops_sorted b hb).imp fun h => Nat.ne_of_lt h
    · exact fun b hb o ho => ((hwf.block_ops b hb o).mp ho).2
  listed_op o ho := (mem_flatMap_ops hwf).mp ho
  param_listed v hv hop := by
    have hb := hwf.value_block v hv
    have hmem := (hwf.block_params _ hb v).mpr ⟨hv, hop, rfl⟩
    refine ⟨List.count_eq_one_of_mem ?_ (List.mem_flatMap.mpr ⟨_, blockRec_mem hb, hmem⟩), hb, hmem⟩
    refine nodup_flatMap_blocks _ (fun v => (m.valueRec v).block) hwf.params_nodup ?_
    exact fun b hb v hv => ((hwf.block_params b hb v).mp hv).2.2
  listed_param v hv := by
    obtain ⟨bb, hbb, hv⟩ := List.mem_flatMap.mp hv
    obtain ⟨b, hb, rfl⟩ := mem_blocks_iff.mp hbb
    have := (hwf.block_params b hb v).mp hv
    exact ⟨this.1, this.2.1⟩
  src := hwf.op_src
  jump b hb := (hwf.term b hb).jump
  cbranch b hb := (hwf.term b hb).cbranch
  slice_lt b hb f k hk := (hwf.term b hb).inSlice_lt hk
  slices b hb b' hb' f f' hne k h := by
    obtain ⟨h1, h2⟩ := hwf.slices b hb b' hb' f f' k h.1 h.2
    exact hne (by rw [h1, h2])
  count := values_length hwf

/-- **The representation invariant.**  After every sequence of calls, successful or
failing, the cross references are in order; the arguments of terminators, which
the calls do not check, are valid in every module that the verifier accepts. -/
theorem crossRefs_runCalls (calls : List Call) :
    (runCalls Module.create calls).CrossRefs ∧
      ((runCalls Module.create calls).Verified → (runCalls Module.create calls).ArgsValid) :=
  ⟨crossRefs_of_wf (wf_reachable ⟨calls, rfl⟩), fun hver b hb _ hf a ha =>
    termUsesValid_of_verified hver b hb a (mem_termUses_of_uses hf ha)⟩

/-- A return of a value that does not exist is accepted by the call. -/
theorem argsValid_runCalls_fails :
    ¬ ∀ calls, (runCalls Module.create calls).CrossRefs ∧
      (runCalls Module.create calls).ArgsValid := by
  intro h
  have := (h [.blockCreate none, .setReturn 0 (.array [999])]).2 0 (by decide) false
    (.inr (.inr (by decide))) 999 (by decide)
  exact absurd this (by decide)

/-! ### What canonicalization removes -/

/-- `m'` is `m` without its dead operations, renamed by `σ` and `ω`. -/
structure RemovesDead (m m' : Module) (stats : CanonicalizeStats) (σ ω : Nat → Option Nat) :
    Prop where
  blocks : m'.blocks.length = m.blocks.length
  name : ∀ b < m.blocks.length, (m'.blockRec b).name = (m.blockRec b).name
  params : ∀ b < m.blocks.length, List.Forall₂ (fun v v' => σ v = some v')
    (m.blockRec b).params (m'.blockRec b).params
  term : ∀ b < m.blocks.length, TermMap m m' σ (m.blockRec b).term (m'.blockRec b).term
  kept : ∀ o < m.ops.length, (∃ o', ω o = some o') ↔ (foldedModule m).UsedByTerm (m.opRec o).dst
  order : ∀ b < m.blocks.length, (m'.blockRec b).ops = (m.blockRec b).ops.filterMap ω
  value_kept : ∀ v < m.values.length, (∃ v', σ v = some v') ↔
    ∀ o, (m.valueRec v).op = some o → ∃ o', ω o = some o'
  value_inj : ∀ u v v', σ u = some v' → σ v = some v' → u = v
  value_onto : ∀ v', v' < stats.valuesAfter ↔ ∃ v < m.values.length, σ v = some v'
  op_inj : ∀ o p o', ω o = some o' → ω p = some o' → o = p
  op_onto : ∀ o', o' < stats.operationsAfter ↔ ∃ o < m.ops.length, ω o = some o'
  valueRec : ∀ v v', σ v = some v' →
    m'.valueRec v' = { m.valueRec v with op := (m.valueRec v).op.bind ω }
  dst : ∀ o o', ω o = some o' → σ (m.opRec o).dst = some (m'.opRec o').dst
  src : ∀ o o', ω o = some o' → List.Forall₂ (fun s s' => σ s = some s')
    ((foldedModule m).opRec o).src (m'.opRec o').src
  opRec : ∀ o o', ω o = some o' → (m'.opRec o').opcode = ((foldedModule m).opRec o).opcode ∧
    (m'.opRec o').imm = ((foldedModule m).opRec o).imm ∧
    (m'.opRec o').endian = ((foldedModule m).opRec o).endian
  values_before : stats.valuesBefore = m.values.length
  values_after : stats.valuesAfter = m'.values.length
  operations_before : stats.operationsBefore = m.ops.length
  operations_after : stats.operationsAfter = m'.ops.length
  dead_values : stats.valuesAfter + stats.deadValuesRemoved = stats.valuesBefore
  dead_operations : stats.operationsAfter + stats.deadOperationsRemoved = stats.operationsBefore
  dead_eq : stats.deadValuesRemoved = stats.deadOperationsRemoved

/-- The folded module has the values, blocks and arguments of the original. -/
theorem foldedModule_core (m : Module) : (foldedModule m).values = m.values ∧
    (foldedModule m).ops.length = m.ops.length ∧ (foldedModule m).blocks = m.blocks ∧
    (foldedModule m).termArgs = m.termArgs := by
  have h := localSteps_lengths (localSteps_foldedModule m)
  exact h

theorem foldedModule_valueRec (m : Module) (v : Nat) :
    (foldedModule m).valueRec v = m.valueRec v := by
  rw [Module.valueRec, (foldedModule_core m).1]; rfl

theorem foldedModule_blockRec (m : Module) (b : Nat) :
    (foldedModule m).blockRec b = m.blockRec b := by
  rw [Module.blockRec, (foldedModule_core m).2.2.1]; rfl

theorem foldedModule_dst (m : Module) (o : Nat) :
    ((foldedModule m).opRec o).dst = (m.opRec o).dst := by
  have h := localSteps_dst (localSteps_foldedModule m) o
  exact h

theorem foldedModule_termArgsConst (m : Module) (t : TermRec) (f : Bool) :
    (foldedModule m).termArgsConst t f = m.termArgsConst t f := by
  rw [Module.termArgsConst, Module.termArgsConst, (foldedModule_core m).2.2.2]

theorem removesDead_canonicalizedModule {m : Module} (hwf : m.WF) (hver : m.Verified) :
    ∃ σ ω, RemovesDead m (canonicalizedModule m) (canonicalizeStats m) σ ω := by
  obtain ⟨σ, ω, h, hlive⟩ := compaction_canonicalizedModule hwf hver
  have hwf₁ := wf_foldedModule hwf
  obtain ⟨hvals, hops, hblocks, hargs⟩ := foldedModule_core m
  have hcounts := eliminateDeadValues_counts (foldedModule m)
  rw [← canonicalizedModule_eq] at hcounts
  have hvle := h.values_le
  have hole := h.ops_le
  have hremoved := h.removed hwf₁
  rw [hvals] at hvle hremoved hcounts
  rw [hops] at hole hremoved hcounts
  refine ⟨σ, ω, ?_, ?_, ?_, ?_, ?_, ?_, ?_, h.value_inj, ?_, h.op_inj, ?_, ?_, ?_, ?_, ?_, rfl, rfl,
    rfl, rfl, ?_, ?_, ?_⟩
  · rw [h.blocks, hblocks]
  · intro b hb
    rw [h.name b (hblocks ▸ hb), foldedModule_blockRec]
  · intro b hb
    have := (h.moduleMap hwf₁).params b (hblocks ▸ hb)
    rwa [foldedModule_blockRec] at this
  · intro b hb
    have ht := h.termMap (b := b) (hblocks ▸ hb)
    rw [foldedModule_blockRec] at ht
    exact ⟨ht.kind, ht.trueTarget, ht.falseTarget, ht.code, ht.trueArgCount, ht.condition,
      fun hk => foldedModule_termArgsConst m _ _ ▸ ht.trueArgs hk,
      fun hk => foldedModule_termArgsConst m _ _ ▸ ht.falseArgs hk⟩
  · intro o ho
    have ho₁ : o < (foldedModule m).ops.length := hops ▸ ho
    rw [h.op_dst o ho₁, hlive, live_op_iff hwf₁ ho₁, foldedModule_dst]
  · intro b hb
    rw [h.ops b (hblocks ▸ hb), foldedModule_blockRec]
  · intro v hv
    have hv₁ : v < (foldedModule m).values.length := hvals ▸ hv
    constructor
    · rintro ⟨v', hσ⟩ o ho
      obtain ⟨o', ho', -⟩ := h.op_bind hwf₁ hσ (by rw [foldedModule_valueRec]; exact ho)
      exact ⟨o', ho'⟩
    · intro hall
      cases hop : (m.valueRec v).op with
      | none =>
        have hb := hwf₁.value_block v hv₁
        refine h.param_kept _ hb v ((hwf₁.block_params _ hb v).mpr ⟨hv₁, ?_, rfl⟩)
        rw [foldedModule_valueRec, hop]
      | some o =>
        obtain ⟨o', ho'⟩ := hall o hop
        obtain ⟨h1, h2⟩ := hwf.value_op v hv o hop
        rw [← h2, ← foldedModule_dst]
        exact ⟨_, h.dst ho'⟩
  · intro v'
    rw [show (canonicalizeStats m).valuesAfter = (canonicalizedModule m).values.length from rfl,
      h.value_range v']
    exact ⟨fun ⟨v, hv⟩ => ⟨v, hvals ▸ h.value_lt v v' hv, hv⟩, fun ⟨v, _, hv⟩ => ⟨v, hv⟩⟩
  · intro o'
    rw [show (canonicalizeStats m).operationsAfter = (canonicalizedModule m).ops.length from rfl,
      h.op_range o']
    exact ⟨fun ⟨o, ho⟩ => ⟨o, hops ▸ h.op_lt o o' ho, ho⟩, fun ⟨o, _, ho⟩ => ⟨o, ho⟩⟩
  · intro v v' hv
    rw [h.valueRec v v' hv, foldedModule_valueRec]
  · intro o o' ho
    rw [← foldedModule_dst]
    exact h.dst ho
  · intro o o' ho
    rw [h.opRec o o' ho]
    exact forall₂_renamed (h.src_kept o o' ho)
  · intro o o' ho
    rw [h.opRec o o' ho]
    exact ⟨rfl, rfl, rfl⟩
  · show (canonicalizedModule m).values.length + (eliminateDeadValues (foldedModule m)).2.1 =
      m.values.length
    omega
  · show (canonicalizedModule m).ops.length + (eliminateDeadValues (foldedModule m)).2.2 =
      m.ops.length
    omega
  · show (eliminateDeadValues (foldedModule m)).2.1 = (eliminateDeadValues (foldedModule m)).2.2
    omega

/-- **Canonicalization succeeds and removes exactly the dead operations.** -/
theorem canonicalizeModule_removesDead {m : Module} (h : m.Reachable) (hf : m.frozen = false)
    (hver : m.Verified) : ∃ m' stats σ ω, canonicalizeModule m = (m', .ok stats) ∧
      RemovesDead m m' stats σ ω := by
  have hwf := wf_reachable h
  obtain ⟨σ, ω, hrem⟩ := removesDead_canonicalizedModule hwf hver
  exact ⟨_, _, σ, ω, canonicalizeModule_ok hwf hf hver, hrem⟩

/-- A block that folds `5 + 7`, computes a value nobody uses, and returns. -/
def foldSample : List Call :=
  [.blockCreate none, .buildConstU64 0 (typeI 32) 5 none, .buildConstU64 0 (typeI 32) 7 none,
    .buildBinary 0 .add (typeI 32) 0 1 none, .buildBinary 0 .xor (typeI 32) 2 0 none,
    .setReturn 0 (.array [2])]

theorem canonicalizeModule_removesDead_foldSample : ∃ m' stats σ ω,
    canonicalizeModule (runCalls Module.create foldSample) = (m', .ok stats) ∧
      RemovesDead (runCalls Module.create foldSample) m' stats σ ω :=
  canonicalizeModule_removesDead ⟨foldSample, rfl⟩ (by decide) (by decide)

end Xair
