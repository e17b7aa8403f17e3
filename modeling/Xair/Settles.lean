import Xair.Idempotence

/-!
# Canonicalization settles

After the first run nothing folds and nothing is dead, and that stays so while the second run
swaps operands: a swap changes neither what the folder sees of a value (`foldsAlike_swap`) nor what
is live (`liveValues_swap`).  So the second run removes nothing, the numbering does not change any
more, and a third run has nothing to do (`canonicalizeModule_settles`).
-/

namespace Xair

open MarkSearch (Edge)

/-! ### A swap -/

/-- The flags of a sum do not depend on the order of the operands. -/
theorem flagExtractValue_comm (extract : Opcode) {bits : Nat} (hb : bits ≤ 64) (l r : Word) :
    flagExtractValue .flagsAdd extract bits l r = flagExtractValue .flagsAdd extract bits r l := by
  have hmask : ∀ w : Word, w &&& maskForBits bits &&& maskForBits bits = w &&& maskForBits bits :=
    fun w => by rw [BitVec.and_assoc, BitVec.and_self]
  have hcarry := and_mask_lt_comm hb (hmask l) (hmask r)
  unfold flagExtractValue
  rw [if_neg (fun h => by cases h.1), if_neg (fun h => by cases h.1)]
  simp only [BitVec.add_comm (r &&& maskForBits bits), BitVec.xor_comm (r &&& maskForBits bits)]
  cases extract <;> try rfl
  · simp only [decide_eq_decide.mpr hcarry]
  · dsimp only
    cases l &&& maskForBits bits &&& signBitForBits bits != 0#64 <;>
      cases r &&& maskForBits bits &&& signBitForBits bits != 0#64 <;> rfl

section Swap

variable {m : Module} {o : Nat} {op' : OpRec}

theorem constU64Value_swap (hwf : m.WF) (ho : o < m.ops.length)
    (h : reorderOperands m (m.opRec o) = some op') {s : Nat} (hs : s < m.values.length) :
    constU64Value (m.setOp o op') s = constU64Value m s := by
  by_cases hne : s = (m.opRec o).dst
  · obtain ⟨a, b, -, -, rfl⟩ := reorderOperands_eq h
    have hvalid : (m.setOp o { m.opRec o with src := [b, a] }).validValue s = m.validValue s := rfl
    have htype : (m.setOp o { m.opRec o with src := [b, a] }).valueType s = m.valueType s := rfl
    rw [constU64Value, constU64Value, hvalid, htype, valueOp_setOp hwf ho _ hs, if_pos hne, hne,
      hwf.valueOp_dst ho]
  · exact constU64Value_setOp hwf ho op' hs hne

theorem computeFlagExtract_swap_self (hwf : m.WF) (hver : m.Verified) (ho : o < m.ops.length)
    (h : reorderOperands m (m.opRec o) = some op') (extract : Opcode) :
    computeFlagExtract (m.setOp o op') extract (m.opRec o).dst =
      computeFlagExtract m extract (m.opRec o).dst := by
  have hs := (hwf.op_dst o ho).1
  have hvalid : (m.setOp o op').validValue (m.opRec o).dst = m.validValue (m.opRec o).dst := rfl
  have htype : ∀ v, (m.setOp o op').valueType v = m.valueType v := fun _ => rfl
  have hconst : ∀ s ∈ (m.opRec o).src,
      constU64Value (m.setOp o op') s = constU64Value m s := fun s hmem =>
    constU64Value_swap hwf ho h (hwf.op_src o ho s hmem)
  rw [computeFlagExtract, computeFlagExtract, hvalid, valueOp_setOp hwf ho op' hs, if_pos rfl,
    hwf.valueOp_dst ho]
  obtain ⟨a, b, hsrc, hc, hop⟩ := reorderOperands_eq h
  rw [hsrc] at hconst
  have hcode : op'.opcode = (m.opRec o).opcode := by rw [hop]
  have ha : op'.srcAt 1 = a := by rw [hop]; rfl
  have hb : op'.srcAt 0 = b := by rw [hop]; rfl
  have ha₀ : (m.opRec o).srcAt 0 = a := by rw [OpRec.srcAt, hsrc]; rfl
  have hb₀ : (m.opRec o).srcAt 1 = b := by rw [OpRec.srcAt, hsrc]; rfl
  by_cases hadd : (m.opRec o).opcode = .flagsAdd
  · have hab : m.valueType a = m.valueType b := by
      have ht := typed_of_verified hwf hver o ho
      rw [hsrc] at ht
      exact typeRule_commutative hc ht
    simp only [ha, hb, ha₀, hb₀, hconst a (by simp), hconst b (by simp), htype, hab, hcode,
      hadd]
    cases constU64Value m a with
    | none => cases constU64Value m b <;> simp
    | some l =>
      cases constU64Value m b with
      | none => simp
      | some r =>
        by_cases hbits : (m.valueType b).bits ≤ 64
        · simp [flagExtractValue_comm extract hbits l r]
        · simp [Nat.lt_of_not_le hbits]
  · -- no other summary is commutative
    have hsum : (m.opRec o).opcode ≠ .flagsAdd ∧ (m.opRec o).opcode ≠ .flagsSub ∧
        (m.opRec o).opcode ≠ .flagsLogic ∧ (m.opRec o).opcode ≠ .flagsShl := by
      cases hcomm : (m.opRec o).opcode <;> rw [hcomm] at hc hadd <;> cases hc <;> simp_all
    simp only [hcode, if_pos hsum]

theorem computeFlagExtract_swap_ne (hwf : m.WF) (hver : m.Verified) (ho : o < m.ops.length)
    (h : reorderOperands m (m.opRec o) = some op') (extract : Opcode) {s : Nat}
    (hs : s < m.values.length) (hne : s ≠ (m.opRec o).dst) :
    computeFlagExtract (m.setOp o op') extract s = computeFlagExtract m extract s := by
  have hvalid : (m.setOp o op').validValue s = m.validValue s := rfl
  have htype : ∀ v, (m.setOp o op').valueType v = m.valueType v := fun _ => rfl
  rw [computeFlagExtract, computeFlagExtract, hvalid, valueOp_setOp hwf ho op' hs, if_neg hne]
  cases hop : m.valueOp s with
  | none => rfl
  | some op =>
    obtain ⟨q, hq, rfl, rfl⟩ := hwf.valueOp_some hop
    have hlen := typeRule_length (typed_of_verified hwf hver q hq)
    rw [List.length_map] at hlen
    have hconst : ∀ i < (m.opRec q).src.length, constU64Value (m.setOp o op') ((m.opRec q).srcAt i) =
        constU64Value m ((m.opRec q).srcAt i) := fun i hi =>
      constU64Value_swap hwf ho h (hwf.op_src q hq _ (OpRec.srcAt_mem hi))
    by_cases hsum : (m.opRec q).opcode ≠ .flagsAdd ∧ (m.opRec q).opcode ≠ .flagsSub ∧
        (m.opRec q).opcode ≠ .flagsLogic ∧ (m.opRec q).opcode ≠ .flagsShl
    · simp only [if_pos hsum]
    · by_cases hlogic : (m.opRec q).opcode = .flagsLogic
      · have h0 := hconst 0 (by rw [hlen, hlogic]; decide)
        simp only [h0, hlogic, htype, ne_eq, not_true_eq_false, if_false]
      · have h2 : (m.opRec q).src.length = 2 := by
          rw [hlen]
          cases hop' : (m.opRec q).opcode <;> simp_all [Opcode.arity]
        simp only [htype, hconst 0 (by omega), hconst 1 (by omega)]

/-- **A swap leaves every value as the folder sees it.** -/
theorem foldsAlike_swap (hwf : m.WF) (hver : m.Verified) (ho : o < m.ops.length)
    (h : reorderOperands m (m.opRec o) = some op') {s : Nat} (hs : s < m.values.length) :
    FoldsAlike m (m.setOp o op') s s := by
  refine ⟨constU64Value_swap hwf ho h hs, rfl, fun extract => ?_⟩
  by_cases hd : s = (m.opRec o).dst
  · subst hd
    exact computeFlagExtract_swap_self hwf hver ho h extract
  · exact computeFlagExtract_swap_ne hwf hver ho h extract hs hd

theorem mem_sources_swap (hwf : m.WF) (ho : o < m.ops.length)
    (h : reorderOperands m (m.opRec o) = some op') (v w : Nat) :
    w ∈ (m.setOp o op').sources v ↔ w ∈ m.sources v := by
  by_cases hv : v < m.values.length
  · rw [Module.sources, Module.sources, valueOp_setOp hwf ho op' hv]
    by_cases hd : v = (m.opRec o).dst
    · obtain ⟨a, b, hs, -, rfl⟩ := reorderOperands_eq h
      rw [if_pos hd, hd, hwf.valueOp_dst ho]
      simp [hs, or_comm]
    · rw [if_neg hd]
  · have hrec : (m.setOp o op').valueRec v = m.valueRec v := rfl
    have hnone : (m.valueRec v).op = none := by
      rw [Module.valueRec, List.getD_eq_default _ _ (Nat.le_of_not_lt hv)]
      rfl
    simp [Module.sources, Module.valueOp, hrec, hnone]

theorem liveValues_swap (hwf : m.WF) (hwf' : (m.setOp o op').WF) (ho : o < m.ops.length)
    (h : reorderOperands m (m.opRec o) = some op') (v : Nat) :
    liveValues (m.setOp o op') v = true ↔ liveValues m v = true := by
  have hedge : Edge (m.setOp o op').sources = Edge m.sources := by
    funext v w
    exact propext (mem_sources_swap hwf ho h v w)
  rw [liveValues_iff hwf', liveValues_iff hwf, hedge]
  rfl

end Swap

/-! ### The second run -/

/-- No operation folds. -/
def Module.Foldless (m : Module) : Prop := ∀ o < m.ops.length, foldConstantOp m (m.opRec o) = none

section Second

variable {m : Module}

theorem Module.Foldless.swap (hwf : m.WF) (hver : m.Verified) {o : Nat} (ho : o < m.ops.length)
    {op' : OpRec} (h : reorderOperands m (m.opRec o) = some op') (hf : m.Foldless) :
    (m.setOp o op').Foldless := by
  intro p hp
  have hp' : p < m.ops.length := by simpa [Module.setOp] using hp
  by_cases hpo : p = o
  · subst hpo
    exact (normal_swap hwf hver hp' (hf p hp') h).1
  · have hrec : (m.setOp o op').opRec p = m.opRec p := by
      rw [opRec_setOp, if_neg fun hh => hpo hh.1.symm]
    rw [hrec]
    have hfold : foldConstantOp (m.setOp o op') (m.opRec p) = none ↔
        foldConstantOp m (m.opRec p) = none :=
      foldConstantOp_congr (.refl _) rfl (typed_of_verified hwf hver p hp') fun s hs =>
        foldsAlike_swap hwf hver ho h (hwf.op_src p hp' s hs)
    exact hfold.mpr (hf p hp')

/-- What the pass keeps of a module in which nothing folds and nothing is dead. -/
structure Module.Settling (m : Module) : Prop where
  wf : m.WF
  verified : m.Verified
  foldless : m.Foldless
  live : ∀ v < m.values.length, liveValues m v = true

theorem Module.Settling.swap {o : Nat} (h : m.Settling) (ho : o < m.ops.length) {op' : OpRec}
    (hswap : reorderOperands m (m.opRec o) = some op') : (m.setOp o op').Settling := by
  have hstep : LocalStep m (m.setOp o op') := .step ho (.swap hswap)
  have hwf' := wf_localStep h.wf hstep
  exact ⟨hwf', verified_localStep h.wf h.verified hstep, h.foldless.swap h.wf h.verified ho hswap,
    fun v hv => (liveValues_swap h.wf hwf' ho hswap v).mpr (h.live v hv)⟩

theorem Module.Settling.round {o : Nat} (h : m.Settling) (ho : o < m.ops.length)
    (stats : LocalStats) : (canonicalizeLocalOp m o stats).1.Settling ∧
      (canonicalizeLocalOp m o stats).1.ops.length = m.ops.length ∧
      (canonicalizeLocalOp m o stats).2.constantsFolded = stats.constantsFolded := by
  have hround : canonicalizeLocalOp m o stats = reorderLocalOp m o stats := by
    rw [canonicalizeLocalOp, foldLocalOp, h.foldless o ho]
  rw [hround, reorderLocalOp]
  cases hswap : reorderOperands m (m.opRec o) with
  | none => exact ⟨h, rfl, rfl⟩
  | some op' => exact ⟨h.swap ho hswap, by simp [Module.setOp], rfl⟩

/-- **The pass folds nothing and kills nothing** when nothing folds and nothing is dead. -/
theorem Module.Settling.canonicalizeLocalOps (h : m.Settling) :
    (canonicalizeLocalOps m).1.Settling ∧ (canonicalizeLocalOps m).2.constantsFolded = 0 := by
  have key : ∀ (n o : Nat) (m : Module) (stats : LocalStats), m.Settling →
      o + n = m.ops.length → (canonicalizeLocalOpsFrom n o m stats).1.Settling ∧
        (canonicalizeLocalOpsFrom n o m stats).2.constantsFolded = stats.constantsFolded := by
    intro n
    induction n with
    | zero => exact fun o m stats h _ => ⟨h, rfl⟩
    | succ n ih =>
      intro o m stats h hlen
      obtain ⟨h₁, hops, hfolded⟩ := h.round (show o < m.ops.length by omega) stats
      obtain ⟨h₂, hrest⟩ := ih (o + 1) _ (canonicalizeLocalOp m o stats).2 h₁ (by omega)
      exact ⟨h₂, hrest.trans hfolded⟩
  exact key m.ops.length 0 m _ h (Nat.zero_add _)

theorem foldless_canonicalizedModule (hwf : m.WF) (hver : m.Verified) :
    (canonicalizedModule m).Foldless := by
  obtain ⟨σ, ω, h, -⟩ := compaction_canonicalizedModule hwf hver
  intro o' ho'
  obtain ⟨o, ho⟩ := (h.op_range o').mp ho'
  exact (h.foldConstantOp_none (wf_foldedModule hwf) (verified_foldedModule hwf hver) ho).mpr
    (normal_foldedModule hwf hver o (h.op_lt o o' ho)).1

theorem settling_canonicalizedModule (hwf : m.WF) (hver : m.Verified) :
    (canonicalizedModule m).Settling :=
  ⟨wf_canonicalizedModule hwf hver, verified_canonicalizedModule hwf hver,
    foldless_canonicalizedModule hwf hver, live_canonicalizedModule hwf hver⟩

theorem canonicalizedModule_twice (hwf : m.WF) (hver : m.Verified) :
    eliminateDeadValues (foldedModule (canonicalizedModule m)) =
      (foldedModule (canonicalizedModule m), 0, 0) := by
  have hsettling := settling_canonicalizedModule hwf hver
  have hfolded : (foldedModule (canonicalizedModule m)).Settling := by
    rw [foldedModule, valueNumberClear_canonicalizedModule]
    exact hsettling.canonicalizeLocalOps.1
  exact eliminateDeadValues_all hfolded.wf hfolded.live

end Second

/-- **Canonicalization settles.**  The second run of `xair_canonicalize_module` can only swap
operands, and the third does nothing. -/
theorem canonicalizeModule_settles {m : Module} (h : m.Reachable) (hf : m.frozen = false)
    (hver : m.Verified) :
    ∃ m₁ m₂ stats₁ stats₂ stats₃, canonicalizeModule m = (m₁, .ok stats₁) ∧
      canonicalizeModule m₁ = (m₂, .ok stats₂) ∧ canonicalizeModule m₂ = (m₂, .ok stats₃) ∧
      (stats₂.constantsFolded = 0 ∧ stats₂.deadValuesRemoved = 0 ∧
        stats₂.deadOperationsRemoved = 0) ∧
      stats₃.operandsReordered = 0 ∧ stats₃.constantsFolded = 0 ∧ stats₃.deadValuesRemoved = 0 ∧
      stats₃.deadOperationsRemoved = 0 := by
  have hwf := wf_reachable h
  have hsettling := settling_canonicalizedModule hwf hver
  have htwice := canonicalizedModule_twice hwf hver
  have hf₁ := (frozen_canonicalizedModule hwf hver).trans hf
  -- the second run has put every pair of operands in order and has not renumbered
  have hnormal : (canonicalizedModule m).StaysCanonical := by
    refine (staysCanonical_fixed_iff hsettling.wf hf₁ hsettling.verified).mpr ?_
    refine (canonicalizedModule_fixed_iff hsettling.wf hsettling.verified).mpr ?_
    rw [canonicalizedModule_eq (canonicalizedModule m), htwice]
    exact normal_foldedModule hsettling.wf hsettling.verified
  obtain ⟨m₂, stats₂, stats₃, hsecond, hthird, hzero⟩ := hnormal
  refine ⟨_, m₂, _, stats₂, stats₃, canonicalizeModule_ok hwf hf hver, hsecond, hthird, ?_, hzero⟩
  rw [canonicalizeModule_ok hsettling.wf hf₁ hsettling.verified] at hsecond
  cases hsecond
  refine ⟨?_, ?_, ?_⟩
  · rw [canonicalizeStats, valueNumberClear_canonicalizedModule]
    exact hsettling.canonicalizeLocalOps.2
  · rw [canonicalizeStats, htwice]
  · rw [canonicalizeStats, htwice]

/-- The module whose operands the second run swaps. -/
theorem canonicalizeModule_settles_tie : ∃ m₁ m₂ stats₁ stats₂ stats₃,
    canonicalizeModule (runCalls Module.create tieSample) = (m₁, .ok stats₁) ∧
      canonicalizeModule m₁ = (m₂, .ok stats₂) ∧ canonicalizeModule m₂ = (m₂, .ok stats₃) ∧
      (stats₂.constantsFolded = 0 ∧ stats₂.deadValuesRemoved = 0 ∧
        stats₂.deadOperationsRemoved = 0) ∧
      stats₃.operandsReordered = 0 ∧ stats₃.constantsFolded = 0 ∧ stats₃.deadValuesRemoved = 0 ∧
      stats₃.deadOperationsRemoved = 0 :=
  canonicalizeModule_settles ⟨tieSample, rfl⟩ (by decide) (by decide)

end Xair
