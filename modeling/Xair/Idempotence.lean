import Xair.IdOrder
import Xair.LocalFixpoint

/-!
# Canonicalizing twice

After one run of `xair_canonicalize_module` nothing folds and nothing is dead, so a second run can
only swap operands.  The removal of dead values keeps the constants, types and names by which
operands are ordered, but it renumbers the ids that break ties (`Compaction.normal_iff`).  So the
second run does nothing unless the numbering turns two operands around that tie
(`fixed_iff_stable`), and it may (`staysCanonical_fails`).
-/

namespace Xair

/-! ### What the folder sees of a compacted module -/

section Compaction

variable {m m' : Module} {σ ω : Nat → Option Nat} (h : Compaction m m' σ ω) (hwf : m.WF)

include h hwf

theorem Compaction.valueOp_rename {v v' : Nat} (hv : σ v = some v') :
    m'.valueOp v' = (m.valueOp v).map (OpRec.rename σ) := by
  cases ho : (m.valueRec v).op with
  | none =>
    have ho' : (m'.valueRec v').op = none := by rw [h.valueRec v v' hv, ho]; rfl
    rw [Module.valueOp, Module.valueOp, ho, ho']
    rfl
  | some o =>
    obtain ⟨o', hoo, ho'⟩ := h.op_bind hwf hv ho
    rw [m.valueOp_eq hwf (h.value_lt v v' hv) ho,
      m'.valueOp_eq (h.wf hwf) ((h.value_range v').mpr ⟨v, hv⟩) ho', h.opRec o o' hoo]
    rfl

theorem Compaction.constU64Value_eq {v v' : Nat} (hv : σ v = some v') :
    constU64Value m' v' = constU64Value m v := by
  have hvalid : m.validValue v = true := decide_eq_true (h.value_lt v v' hv)
  have hvalid' : m'.validValue v' = true := decide_eq_true ((h.value_range v').mpr ⟨v, hv⟩)
  have htype : m'.valueType v' = m.valueType v := by
    rw [Module.valueType, h.valueRec v v' hv]
    rfl
  rw [constU64Value, constU64Value, hvalid, hvalid', htype, h.valueOp_rename hwf hv]
  cases m.valueOp v <;> rfl

/-- The folder sees a kept value as before. -/
theorem Compaction.foldsAlike (hver : m.Verified) {v v' : Nat} (hv : σ v = some v') :
    FoldsAlike m m' v v' := by
  have htype : ∀ {u u'}, σ u = some u' → m'.valueType u' = m.valueType u := by
    intro u u' hu
    rw [Module.valueType, h.valueRec u u' hu]
    rfl
  refine ⟨h.constU64Value_eq hwf hv, htype hv, fun extract => ?_⟩
  have hvalid : m.validValue v = true := decide_eq_true (h.value_lt v v' hv)
  have hvalid' : m'.validValue v' = true := decide_eq_true ((h.value_range v').mpr ⟨v, hv⟩)
  rw [computeFlagExtract, computeFlagExtract, hvalid, hvalid', h.valueOp_rename hwf hv]
  cases hop : m.valueOp v with
  | none => rfl
  | some op =>
    obtain ⟨o, ho, rfl, rfl⟩ := hwf.valueOp_some hop
    obtain ⟨o', hoo⟩ := (h.op_dst o ho).mpr ⟨v', hv⟩
    have hlen := typeRule_length (typed_of_verified hwf hver o ho)
    rw [List.length_map] at hlen
    -- the operands of a flags operation are kept with it
    have hat : ∀ i < (m.opRec o).src.length,
        constU64Value m' (((m.opRec o).rename σ).srcAt i) = constU64Value m ((m.opRec o).srcAt i) ∧
        m'.valueType (((m.opRec o).rename σ).srcAt i) = m.valueType ((m.opRec o).srcAt i) := by
      intro i hi
      obtain ⟨s', hs'⟩ := h.src_kept o o' hoo _ (OpRec.srcAt_mem hi)
      rw [(OpRec.renames_rename σ _).srcAt hi, renamed_eq hs']
      exact ⟨h.constU64Value_eq hwf hs', htype hs'⟩
    have hcode : ((m.opRec o).rename σ).opcode = (m.opRec o).opcode := rfl
    simp only [Option.map_some, hcode]
    by_cases hsum : (m.opRec o).opcode ≠ .flagsAdd ∧ (m.opRec o).opcode ≠ .flagsSub ∧
        (m.opRec o).opcode ≠ .flagsLogic ∧ (m.opRec o).opcode ≠ .flagsShl
    · simp only [if_pos hsum]
    · by_cases hlogic : (m.opRec o).opcode = .flagsLogic
      · have h0 := hat 0 (by rw [hlen, hlogic]; decide)
        simp only [hlogic, h0.1, h0.2, ne_eq, not_true_eq_false, if_false]
      · have h2 : (m.opRec o).src.length = 2 := by
          rw [hlen]
          cases hop' : (m.opRec o).opcode <;> simp_all [Opcode.arity]
        have h0 := hat 0 (by omega)
        have h1 := hat 1 (by omega)
        simp only [h0.1, h0.2, h1.1]

theorem Compaction.foldConstantOp_none (hver : m.Verified) {o o' : Nat} (ho : ω o = some o') :
    foldConstantOp m' (m'.opRec o') = none ↔ foldConstantOp m (m.opRec o) = none := by
  have hmap := h.opMap ho
  have hlt := h.op_lt o o' ho
  refine foldConstantOp_congr hmap.renames ?_ (typed_of_verified hwf hver o hlt) fun s hs => ?_
  · rw [Module.valueType, h.valueRec _ _ (h.dst ho)]
    rfl
  · obtain ⟨s', hs'⟩ := h.src_kept o o' ho s hs
    rw [renamed_eq hs']
    exact h.foldsAlike hwf hver hs'

theorem Compaction.ties_iff {a b a' b' : Nat} (ha : σ a = some a') (hb : σ b = some b') :
    m'.Ties a' b' ↔ m.Ties a b := by
  rw [Module.Ties, Module.Ties, h.constU64Value_eq hwf ha, h.constU64Value_eq hwf hb,
    Module.valueType, Module.valueType, h.valueRec a a' ha, h.valueRec b b' hb]
  rfl

/-- **Only ties can be turned around.**  An operation that the local pass would leave alone is left
alone after the compaction unless its operands tie and the new ids are in the other order. -/
theorem Compaction.normal_iff (hver : m.Verified) {o o' : Nat} (ho : ω o = some o')
    (hn : m.Normal o) : m'.Normal o' ↔
      ∀ a b a' b', opIsCommutative (m.opRec o).opcode = true → (m.opRec o).src = [a, b] →
        m.Ties a b → σ a = some a' → σ b = some b' → a' ≤ b' := by
  have hfold := (h.foldConstantOp_none hwf hver ho).mpr hn.1
  have hrec := h.opRec o o' ho
  have hopcode : (m'.opRec o').opcode = (m.opRec o).opcode := by rw [hrec]; rfl
  rw [Module.Normal, and_iff_right hfold]
  by_cases hc : (m.opRec o).src.length = 2 ∧ opIsCommutative (m.opRec o).opcode = true
  · obtain ⟨a, b, hs⟩ := List.length_eq_two.mp hc.1
    obtain ⟨a', ha⟩ := h.src_kept o o' ho a (by simp [hs])
    obtain ⟨b', hb⟩ := h.src_kept o o' ho b (by simp [hs])
    have hs' : (m'.opRec o').src = [a', b'] := by
      rw [hrec, OpRec.rename, hs]
      simp [renamed_eq ha, renamed_eq hb]
    rw [reorderOperands_none hs' (by rw [hopcode]; exact hc.2)]
    by_cases ht : m.Ties a b
    · rw [compareValueOrder_ties ((h.ties_iff hwf ha hb).mpr ht), Nat.compare_ne_gt]
      constructor
      · rintro hle c d c' d' - hs₂ - hc' hd'
        rw [hs] at hs₂
        obtain ⟨rfl, rfl⟩ : a = c ∧ b = d := by simpa using hs₂
        rw [ha] at hc'
        rw [hb] at hd'
        cases hc'
        cases hd'
        exact hle
      · exact fun hall => hall a b a' b' hc.2 hs ht ha hb
    · have hkeys := compareValueOrder_keys ht (h.constU64Value_eq hwf ha)
        (h.constU64Value_eq hwf hb) (h.foldsAlike hwf hver ha).type (h.foldsAlike hwf hver hb).type
        (by rw [h.valueRec a a' ha]) (by rw [h.valueRec b b' hb])
      rw [hkeys]
      refine iff_of_true ((reorderOperands_none hs hc.2).mp hn.2) ?_
      intro c d c' d' _ hs₂ ht₂
      rw [hs] at hs₂
      obtain ⟨rfl, rfl⟩ : a = c ∧ b = d := by simpa using hs₂
      exact absurd ht₂ ht
  · refine iff_of_true (reorderOperands_other ?_) fun a b a' b' hcomm hs => ?_
    · rw [hopcode, hrec, OpRec.rename, List.length_map]
      exact hc
    · exact absurd ⟨by simp [hs], hcomm⟩ hc

end Compaction

/-! ### Nothing is dead after the removal -/

section Live

variable {m m' : Module} {σ ω : Nat → Option Nat}

theorem Compaction.termUses (h : Compaction m m' σ ω) {b : Nat} (hb : b < m.blocks.length) :
    m'.termUses (m'.blockRec b).term = (m.termUses (m.blockRec b).term).map (renamed σ) := by
  have hargs : ∀ f, (m.blockRec b).term.Uses f →
      m'.termArgsConst (m'.blockRec b).term f =
        (m.termArgsConst (m.blockRec b).term f).map (renamed σ) := by
    intro f hf
    rw [h.term b hb, TermRec.rename_args, h.args b hb f hf]
  have hkind : (m'.blockRec b).term.kind = (m.blockRec b).term.kind := by
    rw [h.term b hb, TermRec.rename_kind]
  unfold Module.termUses
  rw [hkind]
  cases hk : (m.blockRec b).term.kind with
  | none => rfl
  | jump => exact hargs false (.inl hk)
  | cbranch =>
    have hcond : (m'.blockRec b).term.condition = renamed σ (m.blockRec b).term.condition := by
      rw [h.term b hb, TermRec.rename, if_pos hk]
    simp only [hcond, hargs false (.inr (.inl hk)), hargs true hk, List.map_cons, List.map_append]
  | ret => exact hargs false (.inr (.inr hk))
  | trap => rfl
  | fault => rfl

/-- What a compaction keeps is live afterwards when it was live before. -/
theorem Compaction.live (h : Compaction m m' σ ω) (hwf : m.WF) {v : Nat}
    (hv : liveValues m v = true) : ∀ v', σ v = some v' → liveValues m' v' = true := by
  have hwf' := h.wf hwf
  obtain ⟨r, hr, -, hreach⟩ := (liveValues_iff hwf).mp hv
  obtain ⟨bb, hbb, hr⟩ := List.mem_flatMap.mp hr
  obtain ⟨b, hb, rfl⟩ := mem_blocks_iff.mp hbb
  have hb' : b < m'.blocks.length := by rw [h.blocks]; exact hb
  -- the root is kept and live; liveness follows the edges
  have key : ∃ v', σ v = some v' ∧ liveValues m' v' = true := by
    induction hreach with
    | refl =>
      rcases List.mem_append.mp hr with hp | hu
      · obtain ⟨r', hr'⟩ := h.param_kept b hb r hp
        refine ⟨r', hr', live_param hwf' hb' ?_⟩
        rw [h.params b hb]
        exact List.mem_map.mpr ⟨r, hp, renamed_eq hr'⟩
      · obtain ⟨r', hr'⟩ := h.use_kept b hb r hu
        refine ⟨r', hr', live_termUse hb' ?_ ((h.value_range r').mpr ⟨r, hr'⟩)⟩
        rw [h.termUses hb]
        exact List.mem_map.mpr ⟨r, hu, renamed_eq hr'⟩
    | @tail u w hru huw ih =>
      have hu : liveValues m u = true := (liveValues_iff hwf).mpr
        ⟨r, List.mem_flatMap.mpr ⟨_, hbb, hr⟩, by
          rcases List.mem_append.mp hr with hp | hu
          · exact ((hwf.block_params b hb r).mp hp).1
          · obtain ⟨r', hr'⟩ := h.use_kept b hb r hu
            exact h.value_lt r r' hr', hru⟩
      obtain ⟨u', hu', hlive⟩ := ih hu
      have hw : w ∈ m.sources u := huw
      unfold Module.sources at hw
      split at hw
      · next op hop =>
        obtain ⟨o, ho, rfl, rfl⟩ := hwf.valueOp_some hop
        obtain ⟨o', hoo⟩ := (h.op_dst o ho).mpr ⟨u', hu'⟩
        obtain ⟨w', hw'⟩ := h.src_kept o o' hoo w hw
        obtain rfl : (m'.opRec o').dst = u' := Option.some.inj ((h.dst hoo).symm.trans hu')
        refine ⟨w', hw', live_src hwf' ((h.op_range o').mpr ⟨o, hoo⟩) hlive ?_⟩
        rw [h.opRec o o' hoo]
        exact List.mem_map.mpr ⟨w, hw, renamed_eq hw'⟩
      · cases hw
  intro v' hv'
  obtain ⟨v₂, hv₂, hlive⟩ := key
  rw [hv'] at hv₂
  cases hv₂
  exact hlive

/-- A module without dead values is left alone by the removal. -/
theorem compactMaps_all (hwf : m.WF) (h : ∀ v < m.values.length, liveValues m v = true) :
    (compactMaps m (liveValues m)).newValueCount = m.values.length ∧
      (compactMaps m (liveValues m)).newOpCount = m.ops.length := by
  have hall : liveValues m = fun v => decide (v < m.values.length) := by
    funext v
    by_cases hv : v < m.values.length
    · rw [h v hv, decide_eq_true hv]
    · rw [decide_eq_false hv]
      exact Bool.eq_false_of_not_eq_true fun hl => hv (live_lt hl)
  have hn : Numbers (compactMaps m (liveValues m)) (m.valueOrder (liveValues m))
      (m.opOrder (liveValues m)) :=
    compactMaps_numbers (valueOrder_nodup hwf) (opOrder_nodup hwf)
  rw [hn.valueCount, hn.opCount, hall]
  exact ⟨length_valueOrder hwf, length_opOrder hwf⟩

theorem eliminateDeadValues_all (hwf : m.WF) (h : ∀ v < m.values.length, liveValues m v = true) :
    eliminateDeadValues m = (m, 0, 0) := by
  rw [eliminateDeadValues, compactLiveValues_eq, if_pos (compactMaps_all hwf h)]

end Live

/-! ### The second run -/

section Second

variable {m : Module}

/-- The local pass leaves a module alone in which it has nothing to do. -/
theorem canonicalizeLocalOps_normal (h : ∀ o < m.ops.length, m.Normal o) :
    canonicalizeLocalOps m = (m, ⟨0, 0⟩) := by
  have key : ∀ (n o : Nat) (stats : LocalStats), o + n = m.ops.length →
      canonicalizeLocalOpsFrom n o m stats = (m, stats) := by
    intro n
    induction n with
    | zero => exact fun _ _ _ => rfl
    | succ n ih =>
      intro o stats hlen
      obtain ⟨hfold, hswap⟩ := h o (by omega)
      have hround : canonicalizeLocalOp m o stats = (m, stats) := by
        rw [canonicalizeLocalOp, foldLocalOp, hfold]
        dsimp only
        rw [reorderLocalOp, hswap]
      rw [canonicalizeLocalOpsFrom, hround]
      exact ih (o + 1) stats (by omega)
  exact key m.ops.length 0 _ (Nat.zero_add _)

theorem normal_foldedModule (hwf : m.WF) (hver : m.Verified) :
    ∀ o < (foldedModule m).ops.length, (foldedModule m).Normal o := by
  intro o ho
  rw [(foldedModule_core m).2.1] at ho
  exact normal_canonicalizeLocalOps (hwf.congr (sameCore_valueNumberClear m))
    (verified_congr hwf (sameCore_valueNumberClear m) hver) o ho

theorem valueNumberClear_canonicalizedModule (m : Module) :
    valueNumberClear (canonicalizedModule m) = canonicalizedModule m := by
  obtain ⟨hn, hc⟩ := table_canonicalizedModule m
  rw [valueNumberClear, ← hn, ← hc]

theorem live_canonicalizedModule (hwf : m.WF) (hver : m.Verified) :
    ∀ v < (canonicalizedModule m).values.length, liveValues (canonicalizedModule m) v = true := by
  obtain ⟨σ, ω, h, hlive⟩ := compaction_canonicalizedModule hwf hver
  intro v' hv'
  obtain ⟨v, hv⟩ := (h.value_range v').mp hv'
  exact h.live (wf_foldedModule hwf) ((hlive v).mp ⟨v', hv⟩) v' hv

/-- The canonical form of `m` is its own canonical form. -/
theorem canonicalizedModule_fixed_iff (hwf : m.WF) (hver : m.Verified) :
    canonicalizedModule (canonicalizedModule m) = canonicalizedModule m ↔
      ∀ o < (canonicalizedModule m).ops.length, (canonicalizedModule m).Normal o := by
  have hwf₁ := wf_canonicalizedModule hwf hver
  have hver₁ := verified_canonicalizedModule hwf hver
  have hclear := valueNumberClear_canonicalizedModule m
  constructor
  · intro hfix
    have hcore := foldedModule_core (canonicalizedModule m)
    have hnormal := normal_foldedModule hwf₁ hver₁
    -- nothing was removed, so the module is the one that the local pass left
    have hfold : foldedModule (canonicalizedModule m) = canonicalizedModule m := by
      have hsecond := canonicalizedModule_eq (canonicalizedModule m)
      rw [eliminateDeadValues, compactLiveValues_eq] at hsecond
      split at hsecond
      · exact hsecond.symm.trans hfix
      · next hcount =>
        have hvalues := congrArg (fun n => n.values.length) (hsecond.symm.trans hfix)
        have hops := congrArg (fun n => n.ops.length) (hsecond.symm.trans hfix)
        simp only [renumberedModule, List.length_map, List.length_range] at hvalues hops
        exact absurd ⟨by rw [hvalues, hcore.1], by rw [hops, hcore.2.1]⟩ hcount
    rw [hfold] at hnormal
    exact hnormal
  · intro hnormal
    have hfold : foldedModule (canonicalizedModule m) = canonicalizedModule m := by
      rw [foldedModule, hclear, canonicalizeLocalOps_normal hnormal]
    rw [canonicalizedModule_eq (canonicalizedModule m), hfold,
      eliminateDeadValues_all hwf₁ (live_canonicalizedModule hwf hver)]

end Second

/-! ### Ties -/

/-- Something is dead, and a live commutative operation has operands that tie of which the second
is numbered before the first. -/
def Module.Unstable (m : Module) : Prop :=
  (∃ v < m.values.length, liveValues m v = false) ∧
    ∃ o < m.ops.length, liveValues m (m.opRec o).dst = true ∧
      opIsCommutative (m.opRec o).opcode = true ∧
      m.Ties ((m.opRec o).srcAt 0) ((m.opRec o).srcAt 1) ∧
      m.Before ((m.opRec o).srcAt 1) ((m.opRec o).srcAt 0)

/-- A second run of `xair_canonicalize_module` leaves the module of the first as it is and counts
nothing. -/
def Module.StaysCanonical (m : Module) : Prop :=
  ∃ m₁ stats stats₁, canonicalizeModule m = (m₁, .ok stats) ∧
    canonicalizeModule m₁ = (m₁, .ok stats₁) ∧ stats₁.operandsReordered = 0 ∧
    stats₁.constantsFolded = 0 ∧ stats₁.deadValuesRemoved = 0 ∧ stats₁.deadOperationsRemoved = 0

section Ties

variable {m : Module}

theorem src_pair (hwf : m.WF) (hver : m.Verified) {o : Nat} (ho : o < m.ops.length)
    (hc : opIsCommutative (m.opRec o).opcode = true) :
    (m.opRec o).src = [(m.opRec o).srcAt 0, (m.opRec o).srcAt 1] := by
  have hlen := typeRule_length (typed_of_verified hwf hver o ho)
  rw [List.length_map, Opcode.arity_commutative hc] at hlen
  obtain ⟨a, b, hs⟩ := List.length_eq_two.mp hlen
  simp [OpRec.srcAt, hs]

/-- **The removal leaves every pair of operands in order unless it turns a tie around.** -/
theorem normal_eliminateDeadValues_iff (hwf : m.WF) (hver : m.Verified) (hord : m.Ordered)
    (hnormal : ∀ o < m.ops.length, m.Normal o) :
    (∀ o < (eliminateDeadValues m).1.ops.length, (eliminateDeadValues m).1.Normal o) ↔
      ¬ m.Unstable := by
  have hclosed := closed_liveValues hwf (termUsesValid_of_verified hver)
  rw [eliminateDeadValues, compactLiveValues_eq]
  by_cases hcount : (compactMaps m (liveValues m)).newValueCount = m.values.length ∧
      (compactMaps m (liveValues m)).newOpCount = m.ops.length
  · rw [if_pos hcount]
    refine iff_of_true hnormal ?_
    rintro ⟨⟨v, hv, hdead⟩, -⟩
    rw [hclosed.all_live hwf hcount.1 hv] at hdead
    cases hdead
  · rw [if_neg hcount]
    have hc := compaction_renumberedModule hwf hclosed
    have hdead : ∃ v < m.values.length, liveValues m v = false := by
      by_contra hnone
      refine hcount (compactMaps_all hwf fun v hv => ?_)
      exact Bool.eq_true_of_not_eq_false fun hl => hnone ⟨v, hv, hl⟩
    constructor
    · rintro hn ⟨-, o, ho, hlive, hcomm, hties, hbefore⟩
      have hs := src_pair hwf hver ho hcomm
      obtain ⟨o', hoo⟩ := (hclosed.op_some hwf).mpr ⟨ho, hlive⟩
      obtain ⟨a', ha⟩ := hc.src_kept o o' hoo ((m.opRec o).srcAt 0) (by rw [hs]; simp)
      obtain ⟨b', hb⟩ := hc.src_kept o o' hoo ((m.opRec o).srcAt 1) (by rw [hs]; simp)
      have hle := (hc.normal_iff hwf hver hoo (hnormal o ho)).mp
        (hn o' ((hc.op_range o').mpr ⟨o, hoo⟩)) _ _ a' b' hcomm hs hties ha hb
      have hlt := (hclosed.value_lt_iff hwf hord hb ha).mpr hbefore
      omega
    · intro hstable o' ho'
      obtain ⟨o, hoo⟩ := (hc.op_range o').mp ho'
      have ho := hc.op_lt o o' hoo
      refine (hc.normal_iff hwf hver hoo (hnormal o ho)).mpr fun a b a' b' hcomm hs hties ha hb => ?_
      by_contra hgt
      have hbefore := (hclosed.value_lt_iff hwf hord hb ha).mp (Nat.lt_of_not_le hgt)
      have ha₀ : (m.opRec o).srcAt 0 = a := by rw [OpRec.srcAt, hs]; rfl
      have hb₀ : (m.opRec o).srcAt 1 = b := by rw [OpRec.srcAt, hs]; rfl
      refine hstable ⟨hdead, o, ho, ((hclosed.op_some hwf).mp ⟨o', hoo⟩).2, hcomm, ?_, ?_⟩
      · rw [ha₀, hb₀]
        exact hties
      · rw [ha₀, hb₀]
        exact hbefore

/-- A second run does nothing exactly when the canonical form is its own canonical form. -/
theorem staysCanonical_fixed_iff (hwf : m.WF) (hf : m.frozen = false) (hver : m.Verified) :
    m.StaysCanonical ↔ canonicalizedModule (canonicalizedModule m) = canonicalizedModule m := by
  have hwf₁ := wf_canonicalizedModule hwf hver
  have hver₁ := verified_canonicalizedModule hwf hver
  have hfirst := canonicalizeModule_ok hwf hf hver
  have hsecond := canonicalizeModule_ok hwf₁ ((frozen_canonicalizedModule hwf hver).trans hf) hver₁
  constructor
  · rintro ⟨m₁, stats, stats₁, h1, h2, -⟩
    rw [hfirst] at h1
    cases h1
    rw [hsecond] at h2
    exact (Prod.ext_iff.mp h2).1
  · intro hfix
    have hnormal := (canonicalizedModule_fixed_iff hwf hver).mp hfix
    have hlocal := canonicalizeLocalOps_normal hnormal
    have hclear := valueNumberClear_canonicalizedModule m
    have hfold : foldedModule (canonicalizedModule m) = canonicalizedModule m := by
      rw [foldedModule, hclear, hlocal]
    rw [hfix] at hsecond
    refine ⟨_, _, _, hfirst, hsecond, ?_, ?_, ?_, ?_⟩
    · rw [canonicalizeStats, hclear, hlocal]
    · rw [canonicalizeStats, hclear, hlocal]
    · rw [canonicalizeStats, hfold, eliminateDeadValues_all hwf₁ (live_canonicalizedModule hwf hver)]
    · rw [canonicalizeStats, hfold, eliminateDeadValues_all hwf₁ (live_canonicalizedModule hwf hver)]

theorem fixed_iff_stable (hwf : m.WF) (hver : m.Verified) (hord : m.Ordered) :
    canonicalizedModule (canonicalizedModule m) = canonicalizedModule m ↔
      ¬ (foldedModule m).Unstable := by
  rw [canonicalizedModule_fixed_iff hwf hver]
  exact normal_eliminateDeadValues_iff (wf_foldedModule hwf) (verified_foldedModule hwf hver)
    (ordered_foldedModule hord) (normal_foldedModule hwf hver)

end Ties

/-- A block that adds a result and a parameter of one name, the parameter being younger; a second
result is dead. -/
def tieSample : List Call :=
  [.blockCreate none, .blockAddParam 0 (typeI 8) none,
    .buildBinary 0 .add (typeI 8) 0 0 (some [120]), .blockAddParam 0 (typeI 8) (some [120]),
    .buildBinary 0 .add (typeI 8) 1 2 none, .buildBinary 0 .xor (typeI 8) 0 0 none,
    .setReturn 0 (.array [3])]

/-- The second run swaps the operands that the first one left. -/
theorem staysCanonical_fails : ¬ ∀ m : Module, m.Reachable → m.frozen = false → m.Verified →
    m.StaysCanonical := by
  intro h
  obtain ⟨m₁, stats, stats₁, h1, h2, hswapped, -⟩ :=
    h (runCalls Module.create tieSample) ⟨tieSample, rfl⟩ (by decide) (by decide)
  have hrun : (canonicalizeModule (canonicalizeModule (runCalls Module.create tieSample)).1).2.map
      CanonicalizeStats.operandsReordered = .ok 1 := by decide +kernel
  rw [h1] at hrun
  dsimp only at hrun
  rw [h2] at hrun
  have hone : stats₁.operandsReordered = 1 := Except.ok.inj hrun
  omega

end Xair
