import Xair.Reachable

/-!
# The order of ids

Ids are handed out in the order of creation: later operations have results with larger ids, and
a block lists its parameters by id (`ordered_of_reachable`).  Removing dead values numbers the
values block by block, parameters first (`Module.Before`), which need not be the old order.
-/

namespace Xair

/-- Ids grow with the operations and along the parameters of a block. -/
structure Module.Ordered (m : Module) : Prop where
  dst : ∀ o p, o < p → p < m.ops.length → (m.opRec o).dst < (m.opRec p).dst
  params : ∀ b < m.blocks.length, (m.blockRec b).params.Pairwise (· < ·)

section Steps

variable {m m' : Module}

theorem Module.Ordered.congr (h : m.Ordered) (hc : SameCore m m') : m'.Ordered := by
  refine ⟨fun o p hop hp => ?_, fun b hb => ?_⟩
  · rw [hc.opRec, hc.opRec]
    exact h.dst o p hop (hc.ops ▸ hp)
  · rw [hc.blockRec]
    exact h.params b (hc.blocks ▸ hb)

theorem Module.Ordered.withBlock (h : m.Ordered) (name : Name) : (m.withBlock name).Ordered := by
  refine ⟨h.dst, fun b hb => ?_⟩
  rw [m.blockRec_withBlock]
  split
  · next hlt => exact h.params b hlt
  · split <;> exact List.Pairwise.nil

theorem Module.Ordered.withParam (h : m.Ordered) (hwf : m.WF) (b : Nat) (t : Ty) (name : Name) :
    (m.withParam b t name).Ordered := by
  refine ⟨h.dst, fun c hc => ?_⟩
  have hc : c < m.blocks.length := by simpa [Module.withParam] using hc
  rw [m.blockRec_withParam]
  split
  · next hbc =>
    rw [hbc.1]
    refine List.pairwise_append.mpr ⟨h.params c hc, List.pairwise_singleton _ _, fun u hu v hv => ?_⟩
    rw [List.mem_singleton.mp hv]
    exact ((hwf.block_params c hc u).mp hu).1
  · exact h.params c hc

theorem Module.Ordered.withOp (h : m.Ordered) (hwf : m.WF) (k : OpKey) (name : Name) :
    (m.withOp k name).Ordered := by
  refine ⟨fun o p hop hp => ?_, fun c hc => ?_⟩
  · have hp : p < m.ops.length + 1 := by simpa [Module.withOp] using hp
    have ho : o < m.ops.length := by omega
    rw [Module.withOp_oldOp ho]
    rcases Nat.lt_succ_iff_lt_or_eq.mp hp with hp | rfl
    · rw [Module.withOp_oldOp hp]
      exact h.dst o p hop hp
    · rw [Module.withOp_newOp]
      exact (hwf.op_dst o ho).1
  · rw [Module.withOp_params]
    exact h.params c (Module.withOp_blocks ▸ hc)

theorem Module.Ordered.withTerm (h : m.Ordered) (b : Nat) (t : TermRec) (ids : List Nat) :
    (m.withTerm b t ids).Ordered := by
  refine ⟨h.dst, fun c hc => ?_⟩
  have hc : c < m.blocks.length := by simpa [Module.withTerm] using hc
  rw [m.blockRec_withTerm]
  split
  · next hbc =>
    rw [hbc.1]
    exact h.params c hc
  · exact h.params c hc

theorem ordered_buildStep (hwf : m.WF) (h : m.Ordered) (hs : BuildStep m m') : m'.Ordered := by
  cases hs with
  | same hc => exact h.congr hc
  | block name _ hc => exact (h.withBlock name).congr hc
  | param b t name _ _ _ hc => exact (h.withParam hwf b t name).congr hc
  | op k name _ _ _ _ _ _ hc => exact (h.withOp hwf k name).congr hc
  | args ids hc =>
    have hargs : (m.withArgs ids).Ordered := ⟨h.dst, h.params⟩
    exact hargs.congr hc
  | term b t ids _ _ hc => exact (h.withTerm b t ids).congr hc

theorem ordered_foldedModule (h : m.Ordered) : (foldedModule m).Ordered := by
  obtain ⟨-, hops, hblocks, -⟩ := foldedModule_core m
  refine ⟨fun o p hop hp => ?_, fun b hb => ?_⟩
  · rw [foldedModule_dst, foldedModule_dst]
    exact h.dst o p hop (hops ▸ hp)
  · rw [foldedModule_blockRec]
    exact h.params b (hblocks ▸ hb)

end Steps

/-! ### Numbering -/

/-- A list and its positions grow together. -/
theorem Indexes.pairwise {f : Nat → Option Nat} {l : List Nat} (h : Indexes f l) :
    l.Pairwise fun u v => ∀ i j, f u = some i → f v = some j → i < j := by
  have hpos : ∀ (i : Nat) (hi : i < l.length) (a : Nat), f l[i] = some a → a = i := by
    intro i hi a ha
    have hi' : f l[i] = some i := (h _ i).mpr (List.getElem?_eq_getElem hi)
    exact Option.some.inj (ha.symm.trans hi')
  rw [List.pairwise_iff_getElem]
  intro i j hi hj hij a b ha hb
  rw [hpos i hi a ha, hpos j hj b hb]
  exact hij

section Numbering

variable {m : Module} {live : ValueSet}

/-- The results of the numbered operations are numbered in the same order. -/
theorem dsts_opOrder_sublist (m : Module) (live : ValueSet) :
    (m.dsts (m.opOrder live)).Sublist (m.valueOrder live) := by
  unfold Module.dsts Module.opOrder Module.valueOrder
  induction m.blocks with
  | nil => exact List.Sublist.slnil
  | cons bb bs ih =>
    rw [List.flatMap_cons, List.flatMap_cons, List.map_append]
    exact (List.sublist_append_right bb.params _).append ih

/-- The parameters of a block are numbered in order. -/
theorem params_sublist {b : Nat} (hb : b < m.blocks.length) :
    (m.blockRec b).params.Sublist (m.valueOrder live) := by
  have hmem := blockRec_mem hb
  unfold Module.valueOrder
  generalize m.blockRec b = bb at hmem
  generalize m.blocks = bs at hmem
  induction bs with
  | nil => cases hmem
  | cons cc bs ih =>
    rw [List.flatMap_cons]
    rcases List.mem_cons.mp hmem with rfl | hmem
    · exact ((List.sublist_append_left _ _).trans (List.sublist_append_left _ _))
    · exact (ih hmem).trans (List.sublist_append_right _ _)

/-- **Renumbering puts ids in order.** -/
theorem ordered_renumberedModule (hwf : m.WF) (h : Closed m live) :
    (renumberedModule m (compactMaps m live)).Ordered := by
  have hc := compaction_renumberedModule hwf h
  have hn := h.numbers hwf
  have hvalues := hn.value.pairwise
  refine ⟨fun o' p' hop hp => ?_, fun b hb => ?_⟩
  · obtain ⟨p, hp⟩ := (hc.op_range p').mp hp
    obtain ⟨o, ho⟩ := (hc.op_range o').mp (Nat.lt_trans hop ((hc.op_range p').mpr ⟨p, hp⟩))
    have hdsts := (hvalues.sublist (dsts_opOrder_sublist m live))
    rw [Module.dsts, List.pairwise_map, List.pairwise_iff_getElem] at hdsts
    obtain ⟨ho₁, ho₂⟩ := List.getElem?_eq_some_iff.mp ((hn.op o o').mp ho)
    obtain ⟨hp₁, hp₂⟩ := List.getElem?_eq_some_iff.mp ((hn.op p p').mp hp)
    have hlt := hdsts o' p' ho₁ hp₁ hop
    rw [ho₂, hp₂] at hlt
    exact hlt _ _ (hc.dst ho) (hc.dst hp)
  · have hb : b < m.blocks.length := hc.blocks ▸ hb
    rw [hc.params b hb, List.pairwise_map]
    refine (hvalues.sublist (params_sublist hb)).imp_of_mem fun {u v} hu hv huv => ?_
    obtain ⟨i, hi⟩ := hc.param_kept b hb u hu
    obtain ⟨j, hj⟩ := hc.param_kept b hb v hv
    rw [renamed_eq hi, renamed_eq hj]
    exact huv i j hi hj

end Numbering

theorem ordered_canonicalizedModule {m : Module} (hwf : m.WF) (hver : m.Verified) (h : m.Ordered) :
    (canonicalizedModule m).Ordered := by
  rw [canonicalizedModule_eq, eliminateDeadValues, compactLiveValues_eq]
  split
  · exact ordered_foldedModule h
  · exact ordered_renumberedModule (wf_foldedModule hwf)
      (closed_liveValues (wf_foldedModule hwf)
        (termUsesValid_of_verified (verified_foldedModule hwf hver)))

theorem ordered_call {m : Module} (hwf : m.WF) (h : m.Ordered) (c : Call) :
    (c.run m).1.Ordered := by
  by_cases hc : c = .canonicalize
  · subst hc
    show (canonicalizeModule m).1.Ordered
    rcases canonicalizeModule_cases hwf with he | ⟨-, hver, he⟩
    · rw [he]
      exact h
    · rw [he]
      exact ordered_canonicalizedModule hwf hver h
  · exact ordered_buildStep hwf h (c.buildStep m hc)

/-- **The ids of a module that the API builds are in order.** -/
theorem ordered_of_reachable {m : Module} (h : m.Reachable) : m.Ordered := by
  refine (reachable_induct (P := fun m => m.WF ∧ m.Ordered) ⟨wf_create, ?_, ?_⟩
    (fun _ c hm => ⟨wf_call hm.1 c, ordered_call hm.1 hm.2 c⟩) h).2
  · exact fun o p _ hp => absurd hp (Nat.not_lt_zero p)
  · exact fun b hb => absurd hb (Nat.not_lt_zero b)

/-! ### Where a value is numbered -/

/-- The numbering meets `u` before `v`: in an earlier block, or in the same one as a parameter
before a result, or as one of two parameters or of two results. -/
def Module.Before (m : Module) (u v : Nat) : Prop :=
  (m.valueRec u).block < (m.valueRec v).block ∨
    (m.valueRec u).block = (m.valueRec v).block ∧
      ((m.valueRec u).op.isNone = true ∧ (m.valueRec v).op.isNone = false ∨
        (m.valueRec u).op.isNone = (m.valueRec v).op.isNone ∧ u < v)

section Before

variable {m : Module} {live : ValueSet}

theorem Module.Before.asymm {u v : Nat} (h : m.Before u v) : ¬ m.Before v u := by
  rintro h'
  rcases h with h | ⟨h1, h2⟩ <;> rcases h' with h' | ⟨h1', h2'⟩
  · omega
  · omega
  · omega
  · rcases h2 with ⟨hu, hv⟩ | ⟨hn, hlt⟩ <;> rcases h2' with ⟨hv', hu'⟩ | ⟨hn', hlt'⟩
    · rw [hu] at hu'
      cases hu'
    · rw [hu, hv] at hn'
      cases hn'
    · rw [hu', hv'] at hn
      cases hn
    · omega

/-- The values are numbered in the order `Before`. -/
theorem valueOrder_before (hwf : m.WF) (h : m.Ordered) : (m.valueOrder live).Pairwise m.Before := by
  have hparam : ∀ b < m.blocks.length, ∀ v ∈ (m.blockRec b).params,
      (m.valueRec v).block = b ∧ (m.valueRec v).op.isNone = true := by
    intro b hb v hv
    obtain ⟨-, hop, hblock⟩ := (hwf.block_params b hb v).mp hv
    exact ⟨hblock, by rw [hop]; rfl⟩
  have hdst : ∀ b < m.blocks.length, ∀ v ∈ m.dsts (m.liveOps live (m.blockRec b).ops),
      (m.valueRec v).block = b ∧ (m.valueRec v).op.isNone = false := by
    intro b hb v hv
    obtain ⟨o, ho, rfl⟩ := List.mem_map.mp hv
    obtain ⟨hlt, hblock⟩ := (hwf.block_ops b hb o).mp (mem_liveOps.mp ho).1
    exact ⟨hblock, by rw [(hwf.op_dst o hlt).2]; rfl⟩
  refine List.pairwise_flatMap.mpr ⟨fun bb hbb => ?_, ?_⟩
  · obtain ⟨b, hb, rfl⟩ := mem_blocks_iff.mp hbb
    refine List.pairwise_append.mpr ⟨?_, ?_, fun u hu v hv => ?_⟩
    · refine (h.params b hb).imp_of_mem fun {u v} hu hv hlt => ?_
      obtain ⟨hub, hu⟩ := hparam b hb u hu
      obtain ⟨hvb, hv⟩ := hparam b hb v hv
      exact .inr ⟨hub.trans hvb.symm, .inr ⟨hu.trans hv.symm, hlt⟩⟩
    · rw [Module.dsts, List.pairwise_map]
      refine ((hwf.ops_sorted b hb).sublist (List.filter_sublist (l := (m.blockRec b).ops)
        (p := fun o => live (m.opRec o).dst))).imp_of_mem fun {o p} ho hp hlt => ?_
      obtain ⟨hub, hu⟩ := hdst b hb _ (List.mem_map_of_mem ho)
      obtain ⟨hvb, hv⟩ := hdst b hb _ (List.mem_map_of_mem hp)
      have hplt := ((hwf.block_ops b hb p).mp (mem_liveOps.mp hp).1).1
      exact .inr ⟨hub.trans hvb.symm, .inr ⟨hu.trans hv.symm, h.dst o p hlt hplt⟩⟩
    · obtain ⟨hub, hu⟩ := hparam b hb u hu
      obtain ⟨hvb, hv⟩ := hdst b hb v hv
      exact .inr ⟨hub.trans hvb.symm, .inl ⟨hu, hv⟩⟩
  · rw [List.pairwise_iff_getElem]
    intro i j hi hj hij u hu v hv
    have hblock : ∀ (b : Nat) (hb : b < m.blocks.length) (w : Nat),
        w ∈ m.blocks[b].params ++ m.dsts (m.liveOps live m.blocks[b].ops) →
        (m.valueRec w).block = b := by
      intro b hb w hw
      rw [blockRec_getElem hb] at hw
      rcases List.mem_append.mp hw with hw | hw
      · exact (hparam b hb w hw).1
      · exact (hdst b hb w hw).1
    rw [Module.Before, hblock i hi u hu, hblock j hj v hv]
    exact .inl hij

/-- **The new ids are ordered as the numbering meets the values.** -/
theorem Closed.value_lt_iff (hl : Closed m live) (hwf : m.WF) (h : m.Ordered) {u v i j : Nat}
    (hu : (compactMaps m live).valueMap u = some i) (hv : (compactMaps m live).valueMap v = some j) :
    i < j ↔ m.Before u v := by
  have hn := (hl.numbers hwf).value
  have hbefore : (m.valueOrder live).Pairwise m.Before := valueOrder_before hwf h
  have hpair := List.pairwise_iff_getElem.mp hbefore
  obtain ⟨hi, rfl⟩ := List.getElem?_eq_some_iff.mp ((hn u i).mp hu)
  obtain ⟨hj, rfl⟩ := List.getElem?_eq_some_iff.mp ((hn v j).mp hv)
  constructor
  · exact fun hlt => hpair i j hi hj hlt
  · intro hb
    rcases Nat.lt_trichotomy i j with hlt | rfl | hlt
    · exact hlt
    · exact absurd hb hb.asymm
    · exact absurd hb (hpair j i hj hi hlt).asymm

end Before

end Xair
