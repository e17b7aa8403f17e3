import Xair.OperandOrder
import Xair.Positions

/-!
# The local pass leaves nothing to rewrite

One run of `canonicalize_local_ops` folds every operation that folds and puts every
pair of operands in order: afterwards no operation is foldable and none has operands to
swap (`normal_canonicalizeLocalOps`).  One pass is enough because the pass meets the
operations in the order of their ids, and what an operation takes is a constant already or
comes earlier (`source_ne`).
-/

namespace Xair

/-! ### What folding looks at -/

/-- The folder sees the value `s` of `m` and the value `s'` of `m'` alike. -/
structure FoldsAlike (m m' : Module) (s s' : Nat) : Prop where
  const : constU64Value m' s' = constU64Value m s
  type : m'.valueType s' = m.valueType s
  summary : ∀ extract, computeFlagExtract m' extract s' = computeFlagExtract m extract s

section Congr

variable {m m' : Module}

theorem foldConstantOp_congr {op op' : OpRec} {f : Nat → Nat} (hr : op.Renames f op')
    (hout : m'.valueType op'.dst = m.valueType op.dst)
    (ht : typeRule op.opcode (m.valueType op.dst) (op.src.map m.valueType) = true)
    (h : ∀ s ∈ op.src, FoldsAlike m m' s (f s)) :
    foldConstantOp m' op' = none ↔ foldConstantOp m op = none := by
  have hlen := typeRule_length ht
  rw [List.length_map] at hlen
  have hat : ∀ i < op.src.length, FoldsAlike m m' (op.srcAt i) (op'.srcAt i) := fun i hi => by
    rw [hr.srcAt hi]
    exact h _ (OpRec.srcAt_mem hi)
  by_cases h1 : op.src.length = 1
  · have h0 := hat 0 (by omega)
    unfold foldConstantOp
    rw [hr.opcode, hout, h0.const, h0.type, h0.summary]
    cases hop : op.opcode <;> rw [hop] at hlen <;> simp only [Opcode.arity] at hlen <;>
      first
        | omega
        | (simp only []; repeat' split) <;> first | rfl | simp_all
  · by_cases h2 : op.src.length = 2
    · have h0 := hat 0 (by omega)
      have h1 := hat 1 (by omega)
      have hpair : constPair m' op' = constPair m op := by
        rw [constPair, constPair, h0.const, h1.const]
      unfold foldConstantOp
      rw [hr.opcode, hout, hpair, h0.type, h1.type]
      cases hop : op.opcode <;> rw [hop] at hlen <;> simp only [Opcode.arity] at hlen <;>
        first
          | omega
          | rfl
          | (simp only []; repeat' split) <;> first | rfl | simp_all
    · -- constants and stores do not fold
      unfold foldConstantOp
      rw [hr.opcode]
      cases hop : op.opcode <;> rw [hop] at hlen <;> simp only [Opcode.arity] at hlen <;> omega

end Congr

/-! ### Swapped operands -/

section Swap

variable {m : Module}

/-- The operands of a commutative operation do not fold in the other order either. -/
theorem foldConstantOp_swap {m' : Module} {op : OpRec} {a b : Nat} (hs : op.src = [a, b])
    (hc : opIsCommutative op.opcode = true) (hpair : constPair m' { op with src := [b, a] } =
      (constPair m op).map Prod.swap) (ht : ∀ v, m'.valueType v = m.valueType v)
    (hab : m.valueType a = m.valueType b) (h : foldConstantOp m op = none) :
    foldConstantOp m' { op with src := [b, a] } = none := by
  rcases op with ⟨opcode, dst, src, endian, imm⟩
  dsimp only at hs hc hpair
  subst hs
  have ha : OpRec.srcAt ⟨opcode, dst, [a, b], endian, imm⟩ 0 = a := rfl
  have hb : OpRec.srcAt ⟨opcode, dst, [b, a], endian, imm⟩ 0 = b := rfl
  cases opcode <;> cases hc
  case flagsAdd.refl => rfl
  all_goals
    simp only [foldConstantOp, ht, hpair, ha, hb, hab] at h ⊢
    cases hcp : constPair m _ with
    | none => simp
    | some pr => simpa [hcp] using h

theorem typeRule_commutative {opcode : Opcode} {t a b : Ty} (hc : opIsCommutative opcode = true)
    (h : typeRule opcode t [a, b] = true) : a = b := by
  cases opcode <;> cases hc <;>
    simp only [typeRule, Bool.and_eq_true, beq_iff_eq] at h <;> exact h.1.1

end Swap

/-! ### The pass -/

/-- The pass has nothing to do at operation `o`. -/
def Module.Normal (m : Module) (o : Nat) : Prop :=
  foldConstantOp m (m.opRec o) = none ∧ reorderOperands m (m.opRec o) = none

section Pass

variable {m : Module} {o p : Nat} {op' : OpRec}

/-- A source of an operation of a verified module is a constant, a parameter, or the
result of an earlier operation. -/
theorem source_cases (hwf : m.WF) (hver : m.Verified) {p s : Nat} (hp : p < m.ops.length)
    (hs : s ∈ (m.opRec p).src) : m.valueIsGlobalConst s = true ∨ (m.valueRec s).op = none ∨
      ∃ q < p, (m.opRec q).dst = s := by
  have hb := hwf.value_block _ (hwf.op_dst p hp).1
  obtain ⟨pre, post, hsplit⟩ := List.append_of_mem ((hwf.block_ops _ hb p).mpr ⟨hp, rfl⟩)
  rcases available_cases ((opOk_at hver hb hsplit).sources s hs) with hc | hpar | ⟨q, hq, hd⟩
  · exact .inl hc
  · exact .inr (.inl ((hwf.block_params _ hb s).mp hpar).2.1)
  · exact .inr (.inr ⟨q, lt_of_mem_pre hwf hb hsplit hq, hd⟩)

theorem source_ne (hwf : m.WF) (hver : m.Verified) {o p s : Nat} (ho : o < m.ops.length)
    (hnc : (m.opRec o).opcode ≠ .constU64) (hp : p ≤ o) (hs : s ∈ (m.opRec p).src) :
    s ≠ (m.opRec o).dst := by
  rintro rfl
  have hplt : p < m.ops.length := by omega
  rcases source_cases hwf hver hplt hs with hc | hpar | ⟨q, hq, hd⟩
  · simp [Module.valueIsGlobalConst, hwf.valueOp_dst ho, hnc] at hc
  · rw [(hwf.op_dst o ho).2] at hpar
    cases hpar
  · have := hwf.dst_inj (by omega) ho hd
    omega

theorem constU64Value_setOp (hwf : m.WF) {o : Nat} (ho : o < m.ops.length) (op' : OpRec) {s : Nat}
    (hs : s < m.values.length) (hne : s ≠ (m.opRec o).dst) :
    constU64Value (m.setOp o op') s = constU64Value m s := by
  unfold constU64Value
  rw [valueOp_setOp hwf ho op' hs, if_neg hne]
  rfl

theorem foldsAlike_setOp (hwf : m.WF) (hver : m.Verified) {o p s : Nat} (ho : o < m.ops.length)
    (hnc : (m.opRec o).opcode ≠ .constU64) (op' : OpRec) (hp : p ≤ o) (hs : s ∈ (m.opRec p).src) :
    FoldsAlike m (m.setOp o op') s s := by
  have hne := source_ne hwf hver ho hnc hp hs
  have hslt := hwf.op_src p (by omega) s hs
  refine ⟨constU64Value_setOp hwf ho op' hslt hne, rfl, fun extract => ?_⟩
  unfold computeFlagExtract
  rw [valueOp_setOp hwf ho op' hslt, if_neg hne]
  cases hop : m.valueOp s with
  | none => rfl
  | some q =>
    obtain ⟨q, hq, rfl, rfl⟩ := hwf.valueOp_some hop
    -- the summary comes earlier too, and so do its sources
    have hqp : (m.opRec q).opcode = .constU64 ∨ q ≤ o := by
      rcases source_cases hwf hver (by omega) hs with hc | hpar | ⟨r, hr, hd⟩
      · left
        simpa [Module.valueIsGlobalConst, hop, Module.validValue, hslt] using hc
      · rw [(hwf.op_dst q hq).2] at hpar
        cases hpar
      · have := hwf.dst_inj (by omega) hq hd
        exact .inr (by omega)
    have hlen := typeRule_length (typed_of_verified hwf hver q hq)
    rw [List.length_map] at hlen
    by_cases hsum : (m.opRec q).opcode ≠ .flagsAdd ∧ (m.opRec q).opcode ≠ .flagsSub ∧
        (m.opRec q).opcode ≠ .flagsLogic ∧ (m.opRec q).opcode ≠ .flagsShl
    · simp only [if_pos hsum]
      rfl
    · have hqo : q ≤ o := hqp.resolve_left fun hc => hsum (by simp [hc])
      have hval : ∀ i < (m.opRec q).src.length, constU64Value (m.setOp o op') ((m.opRec q).srcAt i) =
          constU64Value m ((m.opRec q).srcAt i) := fun i hi => by
        have hmem := OpRec.srcAt_mem hi
        exact constU64Value_setOp hwf ho op' (hwf.op_src q hq _ hmem)
          (source_ne hwf hver ho hnc hqo hmem)
      by_cases hlogic : (m.opRec q).opcode = .flagsLogic
      · rw [hlogic] at hlen
        simp only [hval 0 (by rw [hlen]; decide), hlogic, ne_eq, not_true_eq_false, if_false]
        rfl
      · have h2 : (m.opRec q).src.length = 2 := by
          rw [hlen]
          cases hop' : (m.opRec q).opcode <;> simp_all [Opcode.arity]
        simp only [if_neg hsum, hval 0 (by omega), hval 1 (by omega)]
        rfl

/-- A rewrite leaves the earlier operations as they were for the pass. -/
theorem Module.Normal.rewrite (hwf : m.WF) (hver : m.Verified) (ho : o < m.ops.length)
    (hr : OpRewrite m (m.opRec o) op') (hp : p < o) (h : m.Normal p) :
    (m.setOp o op').Normal p := by
  have hrec : (m.setOp o op').opRec p = m.opRec p := by
    rw [opRec_setOp, if_neg fun hh => by omega]
  have halike : ∀ s ∈ (m.opRec p).src, FoldsAlike m (m.setOp o op') s s := fun s hs =>
    foldsAlike_setOp hwf hver ho hr.not_const op' (Nat.le_of_lt hp) hs
  constructor
  · have hfold : foldConstantOp (m.setOp o op') (m.opRec p) = none ↔
        foldConstantOp m (m.opRec p) = none :=
      foldConstantOp_congr (.refl _) rfl (typed_of_verified hwf hver p (by omega)) halike
    rw [hrec, hfold]
    exact h.1
  · rw [hrec, reorderOperands_congr (fun s hs => (halike s hs).const) fun _ => rfl]
    exact h.2

theorem normal_fold (ho : o < m.ops.length) (h : foldConstantOp m (m.opRec o) = some op') :
    (m.setOp o op').Normal o := by
  obtain ⟨w, rfl⟩ := foldConstantOp_eq h
  have hrec : (m.setOp o (foldToConst (m.opRec o) w (m.valueType (m.opRec o).dst))).opRec o =
      foldToConst (m.opRec o) w (m.valueType (m.opRec o).dst) := by
    rw [opRec_setOp, if_pos ⟨rfl, ho⟩]
  constructor
  · rw [hrec]
    rfl
  · rw [hrec]
    exact reorderOperands_other fun hh => by simp [foldToConst] at hh

theorem normal_swap (hwf : m.WF) (hver : m.Verified) (ho : o < m.ops.length)
    (hfold : foldConstantOp m (m.opRec o) = none)
    (h : reorderOperands m (m.opRec o) = some op') : (m.setOp o op').Normal o := by
  obtain ⟨a, b, hs, hc, rfl⟩ := reorderOperands_eq h
  have hswap : OpRewrite m (m.opRec o) { m.opRec o with src := [b, a] } := .swap h
  have hrec : (m.setOp o { m.opRec o with src := [b, a] }).opRec o =
      { m.opRec o with src := [b, a] } := by
    rw [opRec_setOp, if_pos ⟨rfl, ho⟩]
  have hconst : ∀ s ∈ [a, b], constU64Value (m.setOp o { m.opRec o with src := [b, a] }) s =
      constU64Value m s := fun s hmem =>
    (foldsAlike_setOp hwf hver ho hswap.not_const _ (Nat.le_refl o) (hs ▸ hmem)).const
  have ha := hconst a (by simp)
  have hb := hconst b (by simp)
  have hord : compareValueOrder m a b = .gt := by
    have hnone : ¬ reorderOperands m (m.opRec o) = none := by
      rw [h]
      exact Option.some_ne_none _
    exact not_not.mp fun hne => hnone ((reorderOperands_none hs hc).mpr hne)
  have htype : m.valueType a = m.valueType b := by
    have ht := typed_of_verified hwf hver o ho
    rw [hs] at ht
    exact typeRule_commutative hc ht
  have ha₀ : (m.opRec o).srcAt 0 = a := by rw [OpRec.srcAt, hs]; rfl
  have hb₀ : (m.opRec o).srcAt 1 = b := by rw [OpRec.srcAt, hs]; rfl
  have hpair : constPair (m.setOp o { m.opRec o with src := [b, a] })
      { m.opRec o with src := [b, a] } = (constPair m (m.opRec o)).map Prod.swap := by
    have hb₁ : OpRec.srcAt { m.opRec o with src := [b, a] } 0 = b := rfl
    have ha₁ : OpRec.srcAt { m.opRec o with src := [b, a] } 1 = a := rfl
    rw [constPair, constPair, ha₀, hb₀, hb₁, ha₁, ha, hb]
    cases constU64Value m a <;> cases constU64Value m b <;> rfl
  constructor
  · rw [hrec]
    exact foldConstantOp_swap hs hc hpair (fun _ => rfl) htype hfold
  · rw [hrec]
    refine (@reorderOperands_none _ { m.opRec o with src := [b, a] } b a rfl hc).mpr ?_
    rw [compareValueOrder_congr hb ha fun _ => rfl, compareValueOrder_swap, hord]
    decide

/-- One round of the pass leaves nothing to rewrite at its operation or before. -/
theorem normal_canonicalizeLocalOp (hwf : m.WF) (hver : m.Verified) (ho : o < m.ops.length)
    (stats : LocalStats) (h : ∀ p < o, m.Normal p) :
    ∀ p ≤ o, (canonicalizeLocalOp m o stats).1.Normal p := by
  cases hfold : foldConstantOp m (m.opRec o) with
  | some op' =>
    have hnormal := normal_fold ho hfold
    have hround : (canonicalizeLocalOp m o stats).1 = m.setOp o op' := by
      rw [canonicalizeLocalOp, foldLocalOp, hfold]
      dsimp only
      rw [reorderLocalOp, hnormal.2]
    rw [hround]
    intro p hp
    rcases Nat.lt_or_eq_of_le hp with hlt | rfl
    · exact (h p hlt).rewrite hwf hver ho (.fold hfold) hlt
    · exact hnormal
  | none =>
    have hround : canonicalizeLocalOp m o stats = reorderLocalOp m o stats := by
      rw [canonicalizeLocalOp, foldLocalOp, hfold]
    rw [hround, reorderLocalOp]
    intro p hp
    cases hswap : reorderOperands m (m.opRec o) with
    | some op' =>
      rcases Nat.lt_or_eq_of_le hp with hlt | rfl
      · exact (h p hlt).rewrite hwf hver ho (.swap hswap) hlt
      · exact normal_swap hwf hver ho hfold hswap
    | none =>
      rcases Nat.lt_or_eq_of_le hp with hlt | rfl
      · exact h p hlt
      · exact ⟨hfold, hswap⟩

/-- **One pass leaves nothing to rewrite.** -/
theorem normal_canonicalizeLocalOps (hwf : m.WF) (hver : m.Verified) :
    ∀ p < m.ops.length, (canonicalizeLocalOps m).1.Normal p := by
  have key : ∀ (n o : Nat) (m : Module) (stats : LocalStats), m.WF → m.Verified →
      o + n = m.ops.length → (∀ p < o, m.Normal p) →
      ∀ p < o + n, (canonicalizeLocalOpsFrom n o m stats).1.Normal p := by
    intro n
    induction n with
    | zero => exact fun o m stats _ _ _ h p hp => h p hp
    | succ n ih =>
      intro o m stats hwf hver hlen h p hp
      have ho : o < m.ops.length := by omega
      obtain ⟨hsteps, hops⟩ := localSteps_canonicalizeLocalOp ho stats
      obtain ⟨hwf', hver'⟩ := localSteps_induct (P := fun m => m.WF ∧ m.Verified)
        (fun _ _ h hs => ⟨wf_localStep h.1 hs, verified_localStep h.1 h.2 hs⟩) hsteps ⟨hwf, hver⟩
      have hnormal := normal_canonicalizeLocalOp hwf hver ho stats h
      exact ih (o + 1) _ _ hwf' hver' (by omega) (fun q hq => hnormal q (by omega)) p (by omega)
  intro p hp
  exact key m.ops.length 0 m _ hwf hver (Nat.zero_add _) (fun q hq => absurd hq (Nat.not_lt_zero q))
    p (by omega)

end Pass

end Xair
