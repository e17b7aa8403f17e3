import Xair.Canonicalize
import Xair.Compact

/-!
# The local pass, one rewrite at a time

`canonicalize_local_ops` rewrites operation records in place: it folds some and
swaps the operands of others.  `LocalStep` is one such rewrite, and
`localSteps_canonicalizeLocalOps` splits the pass into them.  Whatever a single
rewrite preserves, the pass preserves (`localSteps_induct`); here that is the
representation invariant and verification.
-/

namespace Xair

/-! ### The shape of a rewrite -/

theorem foldConstantOp_eq {m : Module} {op op' : OpRec} (h : foldConstantOp m op = some op') :
    ∃ w, op' = foldToConst op w (m.valueType op.dst) := by
  unfold foldConstantOp at h
  cases hc : op.opcode <;> simp only [hc] at h <;> (repeat' split at h) <;>
    first
      | exact ⟨_, (Option.some.inj h).symm⟩
      | cases h

theorem foldConstantOp_opcode {m : Module} {op op' : OpRec} (h : foldConstantOp m op = some op') :
    op.opcode ≠ .constU64 ∧ ¬ op.opcode.isMemoryOp := by
  constructor
  · intro hc
    simp [foldConstantOp, hc] at h
  · rintro (hc | hc) <;> simp [foldConstantOp, hc] at h

/-- A folded operation has a scalar result of at most 64 bits. -/
theorem foldConstantOp_type {m : Module} {op op' : OpRec} (h : foldConstantOp m op = some op')
    (ht : typeRule op.opcode (m.valueType op.dst) (op.src.map m.valueType) = true) :
    ((m.valueType op.dst).isInt || (m.valueType op.dst).isAddr) = true ∧
      (m.valueType op.dst).bits ≤ 64 := by
  have hI1 : (m.valueType op.dst).isI1 = true →
      ((m.valueType op.dst).isInt || (m.valueType op.dst).isAddr) = true ∧
      (m.valueType op.dst).bits ≤ 64 := by
    intro hi
    simp only [Ty.isI1, Bool.and_eq_true, beq_iff_eq] at hi
    simp [Ty.isInt, hi]
  have hguard : foldConstantOp m op = some op' →
      ((m.valueType op.dst).isInt || (m.valueType op.dst).isAddr) = true ∧
        (m.valueType op.dst).bits ≤ 64 ∨ (m.valueType op.dst).isI1 = true := by
    intro h
    unfold foldConstantOp at h
    cases hc : op.opcode <;> simp only [hc] at h ht <;> try cases h
    all_goals first
      | (split at h
         · cases h
         · next hg =>
           simp only [Bool.or_eq_true, Bool.not_eq_true', decide_eq_true_eq, not_or,
             Bool.not_eq_false, not_lt] at hg
           exact .inl ⟨by simp [hg.1], hg.2⟩)
      | (rcases hs : op.src with _ | ⟨a, _ | ⟨b, _ | ⟨c, rest⟩⟩⟩
         · simp [hs, typeRule] at ht
         · simp [hs, typeRule] at ht <;> exact .inr ht.2
         · simp [hs, typeRule] at ht <;> exact .inr ht.2
         · simp [hs, typeRule] at ht)
  exact (hguard h).elim id hI1

/-- A reordered operation is a commutative one with its two sources exchanged. -/
theorem reorderOperands_eq {m : Module} {op op' : OpRec} (h : reorderOperands m op = some op') :
    ∃ a b, op.src = [a, b] ∧ opIsCommutative op.opcode = true ∧ op' = { op with src := [b, a] } := by
  unfold reorderOperands at h
  split at h
  · next hc =>
    obtain ⟨a, b, hab⟩ := List.length_eq_two.mp hc.1
    cases h
    exact ⟨a, b, hab, hc.2.1, by simp [OpRec.srcAt, hab]⟩
  · cases h

/-- One rewrite of the local pass. -/
inductive OpRewrite (m : Module) (op : OpRec) : OpRec → Prop
  | fold {op'} : foldConstantOp m op = some op' → OpRewrite m op op'
  | swap {op'} : reorderOperands m op = some op' → OpRewrite m op op'

/-- One step of the local pass. -/
inductive LocalStep (m : Module) : Module → Prop
  | step {o : Nat} {op' : OpRec} : o < m.ops.length → OpRewrite m (m.opRec o) op' →
      LocalStep m (m.setOp o op')

theorem localSteps_canonicalizeLocalOp {m : Module} {o : Nat} (ho : o < m.ops.length)
    (stats : LocalStats) :
    Relation.ReflTransGen LocalStep m (canonicalizeLocalOp m o stats).1 ∧
      (canonicalizeLocalOp m o stats).1.ops.length = m.ops.length := by
  have hfold : Relation.ReflTransGen LocalStep m (foldLocalOp m o stats).1 ∧
      (foldLocalOp m o stats).1.ops.length = m.ops.length := by
    unfold foldLocalOp
    split
    · next op' h => exact ⟨.single (.step ho (.fold h)), by simp [Module.setOp]⟩
    · exact ⟨.refl, rfl⟩
  unfold canonicalizeLocalOp reorderLocalOp
  split
  · next op' h =>
    exact ⟨hfold.1.tail (.step (by omega) (.swap h)), by simpa [Module.setOp] using hfold.2⟩
  · exact hfold

/-- **The pass is a sequence of rewrites.** -/
theorem localSteps_canonicalizeLocalOps (m : Module) :
    Relation.ReflTransGen LocalStep m (canonicalizeLocalOps m).1 := by
  have key : ∀ (n o : Nat) (m : Module) (stats : LocalStats), o + n = m.ops.length →
      Relation.ReflTransGen LocalStep m (canonicalizeLocalOpsFrom n o m stats).1 := by
    intro n
    induction n with
    | zero => intro o m stats _; exact .refl
    | succ n ih =>
      intro o m stats h
      obtain ⟨h1, h2⟩ := localSteps_canonicalizeLocalOp (m := m) (o := o) (by omega) stats
      exact h1.trans (ih (o + 1) _ _ (by omega))
  exact key _ 0 m _ (by omega)

/-- What every rewrite preserves, the pass preserves. -/
theorem localSteps_induct {P : Module → Prop} (hstep : ∀ m m', P m → LocalStep m m' → P m')
    {m m' : Module} (h : Relation.ReflTransGen LocalStep m m') (hm : P m) : P m' := by
  induction h with
  | refl => exact hm
  | tail _ hs ih => exact hstep _ _ ih hs

/-! ### What a rewrite preserves -/

section Preservation

variable {m : Module} {o : Nat} {op' : OpRec}

theorem opRec_setOp (m : Module) (o : Nat) (op' : OpRec) (p : Nat) :
    (m.setOp o op').opRec p = if o = p ∧ p < m.ops.length then op' else m.opRec p := by
  rw [Module.opRec, Module.setOp, getD_set]; rfl

theorem OpRewrite.dst {op : OpRec} (h : OpRewrite m op op') : op'.dst = op.dst := by
  cases h with
  | fold h => obtain ⟨w, rfl⟩ := foldConstantOp_eq h; rfl
  | swap h => obtain ⟨a, b, -, -, rfl⟩ := reorderOperands_eq h; rfl

theorem OpRewrite.src {op : OpRec} (h : OpRewrite m op op') :
    (∀ s ∈ op'.src, s ∈ op.src) ∧ op'.src.length ≤ op.src.length := by
  cases h with
  | fold h => obtain ⟨w, rfl⟩ := foldConstantOp_eq h; simp [foldToConst]
  | swap h =>
    obtain ⟨a, b, hab, -, rfl⟩ := reorderOperands_eq h
    simp [hab, or_comm]

theorem OpRewrite.not_const {op : OpRec} (h : OpRewrite m op op') : op.opcode ≠ .constU64 := by
  cases h with
  | fold h => exact (foldConstantOp_opcode h).1
  | swap h =>
    obtain ⟨a, b, -, hc, -⟩ := reorderOperands_eq h
    intro hop
    simp [hop, opIsCommutative] at hc

/-- The type rule holds of the rewritten operation. -/
theorem OpRewrite.typed {op : OpRec} (h : OpRewrite m op op')
    (ht : typeRule op.opcode (m.valueType op.dst) (op.src.map m.valueType) = true) :
    typeRule op'.opcode (m.valueType op'.dst) (op'.src.map m.valueType) = true := by
  cases h with
  | fold h =>
    have htype := foldConstantOp_type h ht
    obtain ⟨w, rfl⟩ := foldConstantOp_eq h
    simp [foldToConst, typeRule, htype]
  | swap h =>
    obtain ⟨a, b, hab, hc, rfl⟩ := reorderOperands_eq h
    -- a commutative operation has operands of one type
    rw [hab] at ht
    cases hop : op.opcode <;> simp [hop, opIsCommutative] at hc <;>
      simp only [hop, typeRule, List.map_cons, List.map_nil, Bool.and_eq_true, beq_iff_eq] at ht ⊢ <;>
      obtain ⟨⟨hlr, h1⟩, h2⟩ := ht <;>
      simp_all

theorem Module.WF.setOp (h : m.WF) (hd : op'.dst = (m.opRec o).dst)
    (hs : ∀ s ∈ op'.src, s < m.values.length) (hl : op'.src.length ≤ 3) : (m.setOp o op').WF := by
  have hlen : (m.setOp o op').ops.length = m.ops.length := by simp [Module.setOp]
  have hdst : ∀ p, ((m.setOp o op').opRec p).dst = (m.opRec p).dst := by
    intro p
    rw [opRec_setOp]
    split
    · next hp => rw [hd, hp.1]
    · rfl
  refine ⟨h.values_le, hlen ▸ h.ops_le, h.blocks_le, h.value_type, h.value_block, ?_, ?_, ?_, ?_, ?_,
    h.ops_sorted, h.block_params, h.params_nodup,
    fun b hb => ⟨(h.term b hb).jump, (h.term b hb).cbranch, (h.term b hb).true_le,
      (h.term b hb).false_le⟩, h.slices⟩
  · intro p hp
    rw [hdst]
    exact h.op_dst p (hlen ▸ hp)
  · intro v hv p hp
    rw [hdst, hlen]
    exact h.value_op v hv p hp
  · intro p hp s hss
    rw [opRec_setOp] at hss
    split at hss
    · exact hs s hss
    · exact h.op_src p (hlen ▸ hp) s hss
  · intro p hp
    rw [opRec_setOp]
    split
    · exact hl
    · exact h.src_le p (hlen ▸ hp)
  · intro b hb p
    rw [hdst, hlen]
    exact h.block_ops b hb p

theorem wf_localStep {m' : Module} (h : m.WF) (hs : LocalStep m m') : m'.WF := by
  obtain ⟨ho, hr⟩ := hs
  refine h.setOp hr.dst (fun s hs => h.op_src _ ho s (hr.src.1 s hs)) ?_
  exact le_trans hr.src.2 (h.src_le _ ho)

/-- The operation that defines a value, before and after a rewrite. -/
theorem valueOp_setOp (hwf : m.WF) (ho : o < m.ops.length) (op' : OpRec) {v : Nat}
    (hv : v < m.values.length) :
    (m.setOp o op').valueOp v =
      if v = (m.opRec o).dst then some op' else m.valueOp v := by
  have hrec : (m.setOp o op').valueRec v = m.valueRec v := rfl
  rw [Module.valueOp, hrec, Module.valueOp]
  cases hop : (m.valueRec v).op with
  | none =>
    have hne : v ≠ (m.opRec o).dst := by
      rintro rfl
      rw [(hwf.op_dst o ho).2] at hop
      cases hop
    rw [if_neg hne]
  | some p =>
    obtain ⟨hp, hpd⟩ := hwf.value_op v hv p hop
    by_cases hop' : o = p
    · subst hop'
      rw [if_pos hpd.symm]
      simp [Module.setOp, hp]
    · have hne : v ≠ (m.opRec o).dst := fun hd => hop' (hwf.dst_inj ho hp (hd ▸ hpd.symm))
      rw [if_neg hne]
      simp [Module.setOp, List.getElem?_set_ne hop']

theorem const_setOp (hwf : m.WF) (ho : o < m.ops.length)
    (hnc : (m.opRec o).opcode ≠ .constU64) {v : Nat} (hc : m.valueIsGlobalConst v = true) :
    (m.setOp o op').valueIsGlobalConst v = true ∧ (m.setOp o op').constValue v = m.constValue v := by
  have hlt := valueIsGlobalConst_lt hc
  have hne : v ≠ (m.opRec o).dst := by
    rintro rfl
    simp only [Module.valueIsGlobalConst, hwf.valueOp_dst ho, Bool.and_eq_true, beq_iff_eq] at hc
    exact hnc hc.2
  have hop := valueOp_setOp hwf ho op' hlt
  rw [if_neg hne] at hop
  have htype : (m.setOp o op').valueType v = m.valueType v := rfl
  constructor
  · rw [Module.valueIsGlobalConst, hop]
    exact hc
  · rw [Module.constValue, hop, htype]
    rfl

/-- The identity renames a module to its rewriting. -/
theorem moduleMap_setOp (hwf : m.WF) (ho : o < m.ops.length)
    (hnc : (m.opRec o).opcode ≠ .constU64) : ModuleMap m (m.setOp o op') some where
  blocks := rfl
  type v v' h hv := by cases h; exact ⟨hv, rfl⟩
  const v v' h hc := by cases h; exact const_setOp hwf ho hnc hc
  params b _ := List.forall₂_same.mpr fun _ _ => rfl
  param_lt b hb p hp := ((hwf.block_params b hb p).mp hp).1
  term b _ := ⟨rfl, rfl, rfl, rfl, rfl, fun _ => rfl, fun _ => List.forall₂_same.mpr fun _ _ => rfl,
    fun _ => List.forall₂_same.mpr fun _ _ => rfl⟩

/-- **A rewrite keeps verification.** -/
theorem verified_localStep {m' : Module} (hwf : m.WF) (hver : m.Verified) (hs : LocalStep m m') :
    m'.Verified := by
  have hwf' := wf_localStep hwf hs
  obtain ⟨ho, hr⟩ := hs
  rename_i o op'
  have hm : ModuleMap m (m.setOp o op') some := moduleMap_setOp hwf ho hr.not_const
  refine verified_rename (ω := some) hm hwf' hver (fun b _ => by rw [List.filterMap_some]; rfl) ?_
    fun b _ pre p post d' _ hp => by cases hp
  intro b hb p hp p' hpp av av' hav hok
  cases hpp
  have hdst : ((m.setOp o op').opRec p).dst = (m.opRec p).dst := by
    rw [opRec_setOp]
    split
    · next h => rw [hr.dst, h.1]
    · rfl
  refine ⟨⟨by simpa [Module.setOp] using hok.lt, hdst ▸ hok.dst_lt, hdst ▸ hok.dst_block,
    hdst ▸ hok.dst_op, ?_, hdst ▸ hok.out_type, ?_⟩, by rw [hdst]⟩
  · intro s hs
    refine hav s s rfl (hok.sources s ?_)
    rw [opRec_setOp] at hs
    split at hs
    · next h => rw [← h.1]; exact hr.src.1 s hs
    · exact hs
  · rw [opRec_setOp]
    split
    · next h =>
      obtain ⟨rfl, -⟩ := h
      exact hr.typed hok.typed
    · exact hok.typed

end Preservation

/-- The local pass keeps the invariant and verification. -/
theorem wf_canonicalizeLocalOps {m : Module} (hwf : m.WF) : (canonicalizeLocalOps m).1.WF :=
  localSteps_induct (fun _ _ h hs => wf_localStep h hs) (localSteps_canonicalizeLocalOps m) hwf

theorem verified_canonicalizeLocalOps {m : Module} (hwf : m.WF) (hver : m.Verified) :
    (canonicalizeLocalOps m).1.Verified :=
  (localSteps_induct (P := fun m => m.WF ∧ m.Verified)
    (fun _ _ h hs => ⟨wf_localStep h.1 hs, verified_localStep h.1 h.2 hs⟩)
    (localSteps_canonicalizeLocalOps m) ⟨hwf, hver⟩).2

end Xair
