import Xair.Settles

/-!
# What evaluates to a constant

The local pass folds an operation once its operands are constants.  In the module as it is before
the pass, a value evaluates to a constant when it is one, or when `fold_constant_op` finds one for
its operation where the operands that evaluate are replaced by their constants
(`Module.Evaluates`).  Those are the constants after the pass (`constU64Value_foldedModule`), and
every other operation keeps its operands up to their order.  So it shows in the module before
the pass which values stay live and whether the removal turns a tie around (`unstable_iff`).
-/

namespace Xair

open MarkSearch (Edge)

/-- `op` with the constant that `c` has for its result. -/
def OpRec.assume (op : OpRec) (c : Nat → Option Word) (type : Ty) : OpRec :=
  match c op.dst with
  | some w => foldToConst op w type
  | none => op

/-- `m` with the results that `c` knows made constants. -/
def Module.assume (m : Module) (c : Nat → Option Word) : Module :=
  { m with ops := m.ops.map fun op => op.assume c (m.valueType op.dst) }

/-- The value evaluates to the constant: it is that constant, or its operation folds to it where
some values that evaluate are replaced by their constants. -/
inductive Module.Evaluates (m : Module) : Nat → Word → Prop
  | const {v w} : constU64Value m v = some w → m.Evaluates v w
  | fold {o op'} (c : Nat → Option Word) : o < m.ops.length →
      (∀ s w, c s = some w → m.Evaluates s w) →
      foldConstantOp (m.assume c) (m.opRec o) = some op' → m.Evaluates (m.opRec o).dst op'.imm

/-! ### Folding with more constants -/

/-- `op'` is `op` up to the order of the operands of a commutative operation. -/
inductive Module.Reordered (m : Module) (op : OpRec) : OpRec → Prop
  | same : m.Reordered op op
  | swapped {a b} : op.src = [a, b] → opIsCommutative op.opcode = true →
      m.valueType a = m.valueType b → m.Reordered op { op with src := [b, a] }

/-- What folds in `m` folds in `m'` to the same constant. -/
structure KnowsMore (m m' : Module) : Prop where
  values : m'.values = m.values
  const : ∀ s w, constU64Value m s = some w → constU64Value m' s = some w
  summary : ∀ extract s w, computeFlagExtract m extract s = some w →
    computeFlagExtract m' extract s = some w

section Constants

variable {m m' : Module}

theorem constU64Value_iff {v : Nat} {w : Word} : constU64Value m v = some w ↔
    v < m.values.length ∧ execScalarU64Type (m.valueType v) = true ∧
      ∃ op, m.valueOp v = some op ∧ op.opcode = .constU64 ∧
        truncateToType op.imm (m.valueType v) = w := by
  rw [execScalarU64Type_iff]
  unfold constU64Value Module.validValue
  by_cases hv : v < m.values.length
  · by_cases hs : ((m.valueType v).kind = .int ∨ (m.valueType v).kind = .addr) ∧
        (m.valueType v).bits ≤ 64
    · have hg : ¬ (((m.valueType v).kind ≠ .int ∧ (m.valueType v).kind ≠ .addr) ∨
          64 < (m.valueType v).bits) := by
        rintro (hn | hn)
        · exact hs.1.elim hn.1 hn.2
        · omega
      simp only [hv, hs, decide_true, Bool.not_true, Bool.false_eq_true, if_false, if_neg hg]
      cases m.valueOp v with
      | none => simp
      | some op => simp
    · have hg : ((m.valueType v).kind ≠ .int ∧ (m.valueType v).kind ≠ .addr) ∨
          64 < (m.valueType v).bits := by
        by_contra hn
        rw [not_or, not_and_or, not_not, not_not, not_lt] at hn
        exact hs hn
      simp only [hv, decide_true, Bool.not_true, Bool.false_eq_true, if_false, if_pos hg, hs]
      simp
  · simp [hv]

theorem truncateToType_idem (w : Word) (t : Ty) :
    truncateToType (truncateToType w t) t = truncateToType w t := by
  unfold truncateToType
  split
  · rfl
  · rw [BitVec.and_assoc, BitVec.and_self]

theorem Module.Reordered.dst {op op' : OpRec} (h : m.Reordered op op') : op'.dst = op.dst := by
  cases h <;> rfl

theorem Module.Reordered.opcode {op op' : OpRec} (h : m.Reordered op op') :
    op'.opcode = op.opcode := by
  cases h <;> rfl

theorem Module.Reordered.mem_src {op op' : OpRec} (h : m.Reordered op op') (s : Nat) :
    s ∈ op'.src ↔ s ∈ op.src := by
  cases h with
  | same => exact Iff.rfl
  | swapped hs _ _ => simp [hs, or_comm]

theorem Module.Reordered.eq {op op' : OpRec} (h : m.Reordered op op')
    (hc : opIsCommutative op.opcode = false) : op' = op := by
  cases h with
  | same => rfl
  | swapped _ hcomm _ =>
    rw [hcomm] at hc
    cases hc

theorem Module.Reordered.swap {op op' : OpRec} {a b : Nat} (h : m.Reordered op op')
    (hs : op'.src = [a, b]) (hc : opIsCommutative op'.opcode = true)
    (hab : m.valueType a = m.valueType b) : m.Reordered op { op' with src := [b, a] } := by
  cases h with
  | same => exact .swapped hs hc hab
  | swapped hs₀ hc₀ hab₀ =>
    -- exchanged twice
    rename_i c d
    obtain ⟨rfl, rfl⟩ : d = a ∧ c = b := by simpa using hs
    have heq : { ({ op with src := [d, c] } : OpRec) with src := [c, d] } = op := by
      rw [← hs₀]
    rw [heq]
    exact .same

theorem Module.Reordered.symm {op op' : OpRec} (h : m.Reordered op op') : m.Reordered op' op := by
  cases h with
  | same => exact .same
  | @swapped a b hs hc hab =>
    have h' : m.Reordered { op with src := [b, a] } { op with src := [a, b] } :=
      .swapped rfl hc hab.symm
    rw [← hs] at h'
    exact h'

/-- The order of the operands does not matter to the folder. -/
theorem Module.Reordered.fold {op op' : OpRec} (h : m.Reordered op op') :
    foldConstantOp m op' = foldConstantOp m op := by
  cases h with
  | same => rfl
  | @swapped a b hs hc hab =>
    rcases op with ⟨opcode, dst, src, endian, imm⟩
    dsimp only at hs hc
    subst hs
    have ha : OpRec.srcAt ⟨opcode, dst, [a, b], endian, imm⟩ 0 = a := rfl
    have hb : OpRec.srcAt ⟨opcode, dst, [a, b], endian, imm⟩ 1 = b := rfl
    have ha' : OpRec.srcAt ⟨opcode, dst, [b, a], endian, imm⟩ 1 = a := rfl
    have hb' : OpRec.srcAt ⟨opcode, dst, [b, a], endian, imm⟩ 0 = b := rfl
    have hconst : ∀ w t, foldToConst ⟨opcode, dst, [b, a], endian, imm⟩ w t =
        foldToConst ⟨opcode, dst, [a, b], endian, imm⟩ w t := fun _ _ => rfl
    cases opcode <;> cases hc
    case flagsAdd.refl => rfl
    all_goals
      simp only [foldConstantOp, constPair, ha, hb, ha', hb', hab, hconst]
      cases constU64Value m a <;> cases constU64Value m b <;> try rfl
      next l r =>
        simp only [BitVec.add_comm l r, BitVec.mul_comm l r, BitVec.and_comm l r,
          BitVec.or_comm l r, BitVec.xor_comm l r, bne, Bool.beq_comm]

theorem KnowsMore.type (h : KnowsMore m m') (v : Nat) : m'.valueType v = m.valueType v := by
  rw [Module.valueType, Module.valueRec, h.values]
  rfl

theorem KnowsMore.constPair (h : KnowsMore m m') {op : OpRec} {l r : Word}
    (hp : constPair m op = some (l, r)) : Xair.constPair m' op = some (l, r) := by
  unfold Xair.constPair at hp ⊢
  split at hp
  · next hl hr =>
    rw [h.const _ _ hl, h.const _ _ hr]
    exact hp
  · cases hp

/-- **Folding is monotone** in what the folder knows. -/
theorem KnowsMore.fold (h : KnowsMore m m') {op op' : OpRec}
    (hf : foldConstantOp m op = some op') : foldConstantOp m' op = some op' := by
  have hne := foldConstantOp_opcode hf
  have harity : op.opcode.arity = 1 ∨ op.opcode.arity = 2 := by
    cases hop : op.opcode <;> simp [hop, Opcode.isMemoryOp, Opcode.arity] at hne ⊢
  rcases harity with har | har
  · cases hflag : op.opcode.flagBit with
    | none =>
      obtain ⟨w, hw⟩ := constU64Value_of_fold hf har hflag
      have hw' := h.const _ _ hw
      unfold foldConstantOp at hf ⊢
      cases hop : op.opcode <;> rw [hop] at har hflag <;> (try cases har) <;> (try cases hflag) <;>
        simpa only [hop, hw, hw', h.type] using hf
    | some flag =>
      obtain ⟨w, hw, -⟩ := computeFlagExtract_of_fold hf hflag
      have hw' := h.summary _ _ _ hw
      unfold foldConstantOp at hf ⊢
      cases hop : op.opcode <;> rw [hop] at hflag hw hw' <;> (try cases hflag) <;>
        simpa only [hop, hw, hw', h.type] using hf
  · obtain ⟨l, r, hp⟩ := constPair_of_fold hf har
    have hp' := h.constPair hp
    unfold foldConstantOp at hf ⊢
    cases hop : op.opcode <;> rw [hop] at har <;> (try cases har) <;>
      simpa only [hop, hp, hp', h.type] using hf

/-- The flag summaries of `m`. -/
def Opcode.Summary (opcode : Opcode) : Prop :=
  opcode = .flagsAdd ∨ opcode = .flagsSub ∨ opcode = .flagsLogic ∨ opcode = .flagsShl

theorem Opcode.Summary.not_fold {op op' : OpRec} (h : op.opcode.Summary) :
    foldConstantOp m op ≠ some op' := by
  unfold foldConstantOp
  rcases h with h | h | h | h <;> simp [h]

theorem computeFlagExtract_reordered (hvalues : m'.values = m.values)
    (hconst : ∀ s w, constU64Value m s = some w → constU64Value m' s = some w)
    {extract : Opcode} {s : Nat} {w : Word} {op op' : OpRec} (hop : m.valueOp s = some op)
    (hop' : m'.valueOp s = some op') (hr : m.Reordered op op')
    (h : computeFlagExtract m extract s = some w) : computeFlagExtract m' extract s = some w := by
  have htype : ∀ v, m'.valueType v = m.valueType v := fun v => by
    rw [Module.valueType, Module.valueRec, hvalues]
    rfl
  have hvalid : m'.validValue s = m.validValue s := by rw [Module.validValue, hvalues]; rfl
  unfold computeFlagExtract at h ⊢
  simp only [hvalid, hop, hop', htype, hr.opcode] at h ⊢
  split at h
  · cases h
  split at h
  · cases h
  next hv hsum =>
    rw [if_neg hv, if_neg hsum]
    cases hl : constU64Value m (op.srcAt 0) with
    | none => simp [hl] at h
    | some l =>
      cases hr with
      | same =>
        rw [hconst _ _ hl]
        by_cases hlogic : op.opcode = .flagsLogic
        · simpa [hl, hlogic] using h
        · cases hr : constU64Value m (op.srcAt 1) with
          | none => simp [hl, hr, hlogic] at h
          | some r => simpa [hl, hr, hlogic, hconst _ _ hr] using h
      | @swapped a b hs hc hab =>
        have hadd : op.opcode = .flagsAdd := by
          cases hcode : op.opcode <;> rw [hcode] at hc hsum <;> try cases hc
          all_goals exact absurd (by decide) hsum
        have ha : op.srcAt 0 = a := by rw [OpRec.srcAt, hs]; rfl
        have hb : op.srcAt 1 = b := by rw [OpRec.srcAt, hs]; rfl
        have ha' : OpRec.srcAt { op with src := [b, a] } 1 = a := rfl
        have hb' : OpRec.srcAt { op with src := [b, a] } 0 = b := rfl
        rw [ha] at hl
        rw [ha', hb']
        cases hr : constU64Value m b with
        | none => simp [hl, hr, hadd, ha, hb] at h
        | some r =>
          by_cases hbits : (m.valueType b).bits ≤ 64
          · simpa [ha, hb, hl, hr, hadd, hab, hconst _ _ hl, hconst _ _ hr,
              flagExtractValue_comm extract hbits l r] using h
          · simp [ha, hb, hl, hr, hadd, hab, Nat.lt_of_not_le hbits] at h

/-- A module knows more that has the constants and, up to their order, the operands of the flag
summaries. -/
theorem KnowsMore.of_valueOp (hvalues : m'.values = m.values)
    (hconst : ∀ s w, constU64Value m s = some w → constU64Value m' s = some w)
    (hop : ∀ s op, m.valueOp s = some op → op.opcode.Summary →
      ∃ op', m'.valueOp s = some op' ∧ m.Reordered op op') : KnowsMore m m' := by
  refine ⟨hvalues, hconst, fun extract s w h => ?_⟩
  obtain ⟨op, l, r, ho, -, hcases, -⟩ := computeFlagExtract_some h
  obtain ⟨op', ho', hr⟩ := hop s op ho (by unfold Opcode.Summary; tauto)
  exact computeFlagExtract_reordered hvalues hconst ho ho' hr h

end Constants

/-! ### The pass -/

/-- What the pass has made of `m` so far. -/
structure Folding (m n : Module) : Prop where
  wf : n.WF
  verified : n.Verified
  values : n.values = m.values
  length : n.ops.length = m.ops.length
  op : ∀ o < m.ops.length,
    m.Reordered (m.opRec o) (n.opRec o) ∨ foldConstantOp n (m.opRec o) = some (n.opRec o)
  evaluated : ∀ v w, constU64Value n v = some w → m.Evaluates v w

section Pass

variable {m n : Module} {c : Nat → Option Word} {o : Nat} {op' : OpRec}

theorem valueOp_assume (v : Nat) : (m.assume c).valueOp v =
    (m.valueOp v).map fun op => op.assume c (m.valueType op.dst) := by
  have hrec : (m.assume c).valueRec v = m.valueRec v := rfl
  unfold Module.valueOp
  rw [hrec]
  cases (m.valueRec v).op with
  | none => rfl
  | some o => exact List.getElem?_map

theorem valueOp_assume_dst (hwf : m.WF) (ho : o < m.ops.length) :
    (m.assume c).valueOp (m.opRec o).dst =
      some ((m.opRec o).assume c (m.valueType (m.opRec o).dst)) := by
  rw [valueOp_assume, hwf.valueOp_dst ho]
  rfl

theorem assume_none (m : Module) : m.assume (fun _ => none) = m := by
  unfold Module.assume OpRec.assume
  simp

theorem OpRec.assume_some {op : OpRec} {type : Ty} {w : Word} (h : c op.dst = some w) :
    op.assume c type = foldToConst op w type := by
  rw [OpRec.assume, h]

theorem OpRec.assume_not {op : OpRec} {type : Ty} (h : c op.dst = none) :
    op.assume c type = op := by
  rw [OpRec.assume, h]

theorem Module.Reordered.of_values {m' : Module} (hv : m'.values = m.values) {op : OpRec}
    (h : m.Reordered op op') : m'.Reordered op op' := by
  cases h with
  | same => exact .same
  | swapped hs hc hab =>
    refine .swapped hs hc ?_
    rw [Module.valueType, Module.valueType, Module.valueRec, Module.valueRec, hv]
    exact hab

theorem constU64Value_dst (hwf : m.WF) (ho : o < m.ops.length) {w : Word} :
    constU64Value m (m.opRec o).dst = some w ↔
      execScalarU64Type (m.valueType (m.opRec o).dst) = true ∧ (m.opRec o).opcode = .constU64 ∧
        truncateToType (m.opRec o).imm (m.valueType (m.opRec o).dst) = w := by
  rw [constU64Value_iff, and_iff_right (hwf.op_dst o ho).1, hwf.valueOp_dst ho]
  simp

theorem constU64Value_truncated {v : Nat} {w : Word} (h : constU64Value m v = some w) :
    truncateToType w (m.valueType v) = w := by
  obtain ⟨-, -, op, -, -, rfl⟩ := constU64Value_iff.mp h
  exact truncateToType_idem _ _

/-- A constant is the result of an operation. -/
theorem constU64Value_op (hwf : m.WF) {v : Nat} {w : Word} (h : constU64Value m v = some w) :
    ∃ o < m.ops.length, (m.opRec o).dst = v := by
  obtain ⟨-, -, op, hop, -⟩ := constU64Value_iff.mp h
  obtain ⟨o, ho, hd, -⟩ := hwf.valueOp_some hop
  exact ⟨o, ho, hd⟩

theorem knowsMore_setOp (hwf : m.WF) (ho : o < m.ops.length) (hver : m.Verified)
    (hr : OpRewrite m (m.opRec o) op') : KnowsMore m (m.setOp o op') := by
  refine .of_valueOp rfl (fun s w hs => ?_) fun s op hop hsum => ?_
  · have hne : s ≠ (m.opRec o).dst := by
      rintro rfl
      exact hr.not_const ((constU64Value_dst hwf ho).mp hs).2.1
    rw [constU64Value_setOp hwf ho op' (constU64Value_iff.mp hs).1 hne]
    exact hs
  · obtain ⟨p, hp, rfl, rfl⟩ := hwf.valueOp_some hop
    rw [valueOp_setOp hwf ho op' (hwf.op_dst p hp).1]
    by_cases hd : (m.opRec p).dst = (m.opRec o).dst
    · obtain rfl := hwf.dst_inj hp ho hd
      rw [if_pos rfl]
      refine ⟨op', rfl, ?_⟩
      cases hr with
      | fold hf => exact absurd hf hsum.not_fold
      | swap hs =>
        obtain ⟨a, b, hab, hc, rfl⟩ := reorderOperands_eq hs
        have ht := typed_of_verified hwf hver p hp
        rw [hab] at ht
        exact .swapped hab hc (typeRule_commutative hc ht)
    · rw [if_neg hd, hop]
      exact ⟨_, rfl, .same⟩

theorem Folding.dst (h : Folding m n) (ho : o < m.ops.length) :
    (n.opRec o).dst = (m.opRec o).dst := by
  rcases h.op o ho with hr | hf
  · exact hr.dst
  · obtain ⟨w, hw⟩ := foldConstantOp_eq hf
    rw [hw]
    rfl

theorem Folding.valueOp (h : Folding m n) (ho : o < m.ops.length) :
    n.valueOp (m.opRec o).dst = some (n.opRec o) := by
  rw [← h.dst ho]
  exact h.wf.valueOp_dst (h.length ▸ ho)

theorem Folding.type (h : Folding m n) (v : Nat) : n.valueType v = m.valueType v := by
  rw [Module.valueType, Module.valueRec, h.values]
  rfl

/-- The pass keeps the constants and the operands of the flag summaries. -/
theorem Folding.knows (h : Folding m n) (hwf : m.WF)
    (hc : ∀ s w, c s = some w → constU64Value n s = some w) : KnowsMore (m.assume c) n := by
  refine .of_valueOp h.values (fun s w hs => ?_) fun s op hop hsum => ?_
  · obtain ⟨hlt, hscalar, op, hop, hcode, rfl⟩ := constU64Value_iff.mp hs
    have htype : (m.assume c).valueType s = m.valueType s := rfl
    rw [valueOp_assume, Option.map_eq_some_iff] at hop
    obtain ⟨op₀, hop₀, rfl⟩ := hop
    obtain ⟨o, ho, rfl, rfl⟩ := hwf.valueOp_some hop₀
    rw [htype] at hscalar ⊢
    cases hcs : c (m.opRec o).dst with
    | some w =>
      have hw := hc _ _ hcs
      have htrunc := constU64Value_truncated hw
      rw [h.type] at htrunc
      rw [OpRec.assume_some hcs, foldToConst, truncateToType_idem, htrunc]
      exact hw
    | none =>
      rw [OpRec.assume_not hcs] at hcode ⊢
      have hn : n.opRec o = m.opRec o := by
        rcases h.op o ho with hr | hf
        · exact hr.eq (by rw [hcode]; rfl)
        · exact absurd hcode (foldConstantOp_opcode hf).1
      have hconst := (constU64Value_dst h.wf (h.length ▸ ho)
        (w := truncateToType (m.opRec o).imm (m.valueType (m.opRec o).dst))).mpr
      rw [h.type, hn] at hconst
      exact hconst ⟨hscalar, hcode, rfl⟩
  · rw [valueOp_assume, Option.map_eq_some_iff] at hop
    obtain ⟨op₀, hop₀, rfl⟩ := hop
    obtain ⟨o, ho, rfl, rfl⟩ := hwf.valueOp_some hop₀
    refine ⟨n.opRec o, h.valueOp ho, ?_⟩
    cases hcs : c (m.opRec o).dst with
    | some w =>
      rw [OpRec.assume_some hcs] at hsum
      rcases hsum with hsum | hsum | hsum | hsum <;> cases hsum
    | none =>
      rw [OpRec.assume_not hcs] at hsum ⊢
      rcases h.op o ho with hr | hf
      · have hvalues : (m.assume c).values = m.values := rfl
        exact hr.of_values hvalues
      · exact absurd hf hsum.not_fold

/-- The constants of the pass can be put into the module before it. -/
theorem Folding.assumed (h : Folding m n) (hwf : m.WF) :
    KnowsMore n (m.assume (constU64Value n)) := by
  refine .of_valueOp h.values.symm (fun s w hs => ?_) fun s op hop hsum => ?_
  · obtain ⟨o, ho, rfl⟩ := constU64Value_op h.wf hs
    have ho' : o < m.ops.length := h.length ▸ ho
    have htrunc := constU64Value_truncated hs
    obtain ⟨hlt, hscalar, -⟩ := constU64Value_iff.mp hs
    rw [h.dst ho', h.type] at *
    rw [constU64Value_iff]
    refine ⟨h.values ▸ hlt, hscalar, _, valueOp_assume_dst hwf ho', ?_, ?_⟩
    · rw [OpRec.assume_some hs]
      rfl
    · rw [OpRec.assume_some hs, foldToConst]
      change truncateToType (truncateToType w (m.valueType (m.opRec o).dst))
        (m.valueType (m.opRec o).dst) = w
      rw [htrunc, htrunc]
  · obtain ⟨o, ho, rfl, rfl⟩ := h.wf.valueOp_some hop
    have ho' : o < m.ops.length := h.length ▸ ho
    have hnone : constU64Value n (m.opRec o).dst = none := by
      rw [Option.eq_none_iff_forall_ne_some]
      intro w hw
      rw [← h.dst ho'] at hw
      have hcode := ((constU64Value_dst h.wf ho).mp hw).2.1
      rcases hsum with hsum | hsum | hsum | hsum <;> rw [hcode] at hsum <;> cases hsum
    refine ⟨m.opRec o, ?_, ?_⟩
    · rw [h.dst ho', valueOp_assume_dst hwf ho', OpRec.assume_not hnone]
    · rcases h.op o ho' with hr | hf
      · exact hr.symm.of_values h.values
      · obtain ⟨w, hw⟩ := foldConstantOp_eq hf
        rw [hw] at hsum
        rcases hsum with hsum | hsum | hsum | hsum <;> cases hsum

/-- An operation that can still be rewritten has the operands it had. -/
theorem Folding.reordered (h : Folding m n) (ho : o < m.ops.length)
    (hr : OpRewrite n (n.opRec o) op') : m.Reordered (m.opRec o) (n.opRec o) := by
  refine (h.op o ho).resolve_right fun hf => hr.not_const ?_
  obtain ⟨w, hw⟩ := foldConstantOp_eq hf
  rw [hw]
  rfl

/-- What an operation folds to now, it folds to before it was rewritten. -/
theorem Folding.fold_eq (h : Folding m n) (hr : m.Reordered (m.opRec o) (n.opRec o)) :
    foldConstantOp n (m.opRec o) = foldConstantOp n (n.opRec o) :=
  (hr.of_values h.values).fold.symm

theorem Folding.step_op (h : Folding m n) (ho : o < m.ops.length)
    (hr : OpRewrite n (n.opRec o) op') : m.Reordered (m.opRec o) op' ∨
      foldConstantOp (n.setOp o op') (m.opRec o) = some op' := by
  have hon : o < n.ops.length := h.length ▸ ho
  have hreordered := h.reordered ho hr
  have hmore := knowsMore_setOp h.wf hon h.verified hr
  cases hr with
  | fold hf => exact .inr (hmore.fold ((h.fold_eq hreordered).trans hf))
  | swap hswap =>
    obtain ⟨a, b, hab, hc, rfl⟩ := reorderOperands_eq hswap
    refine .inl (hreordered.swap hab hc ?_)
    have ht := typed_of_verified h.wf h.verified o hon
    rw [hab] at ht
    rw [← h.type, ← h.type]
    exact typeRule_commutative hc ht

/-- A constant that a rewrite makes evaluates. -/
theorem Folding.step_evaluated (h : Folding m n) (hwf : m.WF) (ho : o < m.ops.length)
    (hr : OpRewrite n (n.opRec o) op') {w : Word}
    (hv : constU64Value (n.setOp o op') (n.opRec o).dst = some w) :
    m.Evaluates (n.opRec o).dst w := by
  have hon : o < n.ops.length := h.length ▸ ho
  have hreordered := h.reordered ho hr
  cases hr with
  | swap hswap =>
    rw [constU64Value_swap h.wf hon hswap (h.wf.op_dst o hon).1] at hv
    exact h.evaluated _ _ hv
  | fold hf =>
    have heval := Module.Evaluates.fold (constU64Value n) ho h.evaluated
      ((h.assumed hwf).fold ((h.fold_eq hreordered).trans hf))
    obtain ⟨w', rfl⟩ := foldConstantOp_eq hf
    obtain ⟨-, -, op, hop, -, rfl⟩ := constU64Value_iff.mp hv
    rw [valueOp_setOp h.wf hon _ (h.wf.op_dst o hon).1, if_pos rfl] at hop
    cases hop
    have hidem : truncateToType (foldToConst (n.opRec o) w' (n.valueType (n.opRec o).dst)).imm
        (n.valueType (n.opRec o).dst) =
          (foldToConst (n.opRec o) w' (n.valueType (n.opRec o).dst)).imm :=
      truncateToType_idem _ _
    rw [← h.dst ho] at heval
    exact hidem.symm ▸ heval

/-- **One rewrite of the pass.** -/
theorem Folding.step (h : Folding m n) (hwf : m.WF) {n' : Module} (hs : LocalStep n n') :
    Folding m n' := by
  have hwf' := wf_localStep h.wf hs
  have hver' := verified_localStep h.wf h.verified hs
  obtain ⟨ho, hr⟩ := hs
  rename_i o op'
  have hom : o < m.ops.length := h.length ▸ ho
  refine ⟨hwf', hver', h.values, by simpa [Module.setOp] using h.length, fun p hp => ?_,
    fun v w hv => ?_⟩
  · rw [opRec_setOp]
    by_cases hop : o = p ∧ p < n.ops.length
    · obtain ⟨rfl, -⟩ := hop
      rw [if_pos ⟨rfl, ho⟩]
      exact h.step_op hp hr
    · rw [if_neg hop]
      exact (h.op p hp).imp id fun hf => (knowsMore_setOp h.wf ho h.verified hr).fold hf
  · by_cases hd : v = (n.opRec o).dst
    · subst hd
      exact h.step_evaluated hwf hom hr hv
    · rw [constU64Value_setOp h.wf ho op' ?_ hd] at hv
      · exact h.evaluated _ _ hv
      · exact (constU64Value_iff.mp hv).1

theorem folding_foldedModule (hwf : m.WF) (hver : m.Verified) : Folding m (foldedModule m) := by
  have hcore := sameCore_valueNumberClear m
  refine localSteps_induct (fun _ _ h hs => h.step hwf hs) (localSteps_foldedModule m) ?_
  exact ⟨hwf.congr hcore, verified_congr hwf hcore hver, rfl, rfl, fun _ _ => .inl .same,
    fun v w hv => .const hv⟩

/-- When nothing folds any more, the constants are the values that evaluate. -/
theorem Folding.evaluates_iff (h : Folding m n) (hwf : m.WF) (hver : m.Verified)
    (hfoldless : n.Foldless) {v : Nat} {w : Word} :
    constU64Value n v = some w ↔ m.Evaluates v w := by
  refine ⟨h.evaluated v w, fun heval => ?_⟩
  induction heval with
  | const hv =>
    have hknows := h.knows (c := fun _ => none) hwf fun s w hs => by cases hs
    rw [assume_none] at hknows
    exact hknows.const _ _ hv
  | @fold o op' c ho _ hf ih =>
    have hn := (h.knows hwf ih).fold hf
    rcases h.op o ho with hr | hfolded
    · rw [← (hr.of_values h.values).fold, hfoldless o (h.length ▸ ho)] at hn
      cases hn
    · rw [hfolded] at hn
      obtain rfl := Option.some.inj hn
      have htype : (m.assume c).valueType = m.valueType := rfl
      obtain ⟨hkind, hbits⟩ := foldConstantOp_type hf (typed_of_verified hwf hver o ho)
      rw [htype] at hkind hbits
      obtain ⟨w, hw⟩ := foldConstantOp_eq hfolded
      rw [← h.dst ho, constU64Value_dst h.wf (h.length ▸ ho), h.dst ho, h.type]
      refine ⟨?_, by rw [hw]; rfl, ?_⟩
      · simpa [execScalarU64Type, hbits] using hkind
      · rw [hw, foldToConst, h.type]
        exact truncateToType_idem _ _

/-- **The constants of the pass are the values that evaluate.** -/
theorem constU64Value_foldedModule (hwf : m.WF) (hver : m.Verified) {v : Nat} {w : Word} :
    constU64Value (foldedModule m) v = some w ↔ m.Evaluates v w :=
  (folding_foldedModule hwf hver).evaluates_iff hwf hver fun o ho =>
    (normal_foldedModule hwf hver o ho).1

end Pass

/-! ### What stays live -/

/-- The value is live once what evaluates is constant: a parameter, what a terminator uses, or an
operand of a live operation that does not evaluate. -/
inductive Module.StaysLive (m : Module) : Nat → Prop
  | root {v} : v ∈ m.liveRoots → m.StaysLive v
  | source {u v} : m.StaysLive u → (∀ w, ¬ m.Evaluates u w) → v ∈ m.sources u → m.StaysLive v

/-- Two values that only their ids tell apart once what evaluates is constant. -/
def Module.EvalTies (m : Module) (a b : Nat) : Prop :=
  (∀ w, m.Evaluates a w ↔ m.Evaluates b w) ∧ m.valueType a = m.valueType b ∧
    (m.valueRec a).name = (m.valueRec b).name

/-- Something does not stay live, and an operation that does, and is commutative and does not
evaluate, has two operands that tie of which the one with the larger id is numbered first. -/
def Module.TurnsTie (m : Module) : Prop :=
  (∃ v < m.values.length, ¬ m.StaysLive v) ∧
    ∃ o < m.ops.length, m.StaysLive (m.opRec o).dst ∧ (∀ w, ¬ m.Evaluates (m.opRec o).dst w) ∧
      opIsCommutative (m.opRec o).opcode = true ∧
      ∃ a ∈ (m.opRec o).src, ∃ b ∈ (m.opRec o).src, a < b ∧ m.EvalTies a b ∧ m.Before b a

section Live

variable {m : Module}

theorem src_const (hwf : m.WF) (hver : m.Verified) {o : Nat} (ho : o < m.ops.length)
    (hc : (m.opRec o).opcode = .constU64) : (m.opRec o).src = [] := by
  have hlen := typeRule_length (typed_of_verified hwf hver o ho)
  rw [List.length_map, hc] at hlen
  exact List.length_eq_zero_iff.mp hlen

/-- An operation of the folded module is a constant or has the operands it had. -/
theorem foldedModule_op (hwf : m.WF) (hver : m.Verified) {o : Nat} (ho : o < m.ops.length) :
    (∃ w, m.Evaluates (m.opRec o).dst w) ∧ ((foldedModule m).opRec o).opcode = .constU64 ∨
      (∀ w, ¬ m.Evaluates (m.opRec o).dst w) ∧
        m.Reordered (m.opRec o) ((foldedModule m).opRec o) := by
  have h := folding_foldedModule hwf hver
  have ho' : o < (foldedModule m).ops.length := h.length ▸ ho
  by_cases heval : ∃ w, m.Evaluates (m.opRec o).dst w
  · obtain ⟨w, hw⟩ := heval
    have hconst := (constU64Value_foldedModule hwf hver).mpr hw
    rw [← h.dst ho] at hconst
    exact .inl ⟨⟨w, hw⟩, ((constU64Value_dst h.wf ho').mp hconst).2.1⟩
  · refine .inr ⟨fun w hw => heval ⟨w, hw⟩, (h.op o ho).resolve_right fun hf => heval ?_⟩
    obtain ⟨w, hw⟩ := foldConstantOp_eq hf
    have hcode : ((foldedModule m).opRec o).opcode = .constU64 := by rw [hw]; rfl
    have ht := typed_of_verified h.wf h.verified o ho'
    rw [src_const h.wf h.verified ho' hcode, hcode] at ht
    have hconst := (constU64Value_dst h.wf ho').mpr ⟨?_, hcode, rfl⟩
    · rw [h.dst ho, constU64Value_foldedModule hwf hver] at hconst
      exact ⟨_, hconst⟩
    · simpa only [List.map_nil, typeRule, execScalarU64Type] using ht

theorem mem_sources_foldedModule (hwf : m.WF) (hver : m.Verified) {u s : Nat} :
    s ∈ (foldedModule m).sources u ↔ (∀ w, ¬ m.Evaluates u w) ∧ s ∈ m.sources u := by
  have h := folding_foldedModule hwf hver
  by_cases hu : ∃ o < m.ops.length, (m.opRec o).dst = u
  · obtain ⟨o, ho, rfl⟩ := hu
    have ho' : o < (foldedModule m).ops.length := h.length ▸ ho
    rw [hwf.sources_dst ho, ← h.dst ho, h.wf.sources_dst ho', h.dst ho]
    rcases foldedModule_op hwf hver ho with ⟨⟨w, hw⟩, hcode⟩ | ⟨hnot, hr⟩
    · rw [src_const h.wf h.verified ho' hcode]
      exact iff_of_false (List.not_mem_nil) fun hn => hn.1 w hw
    · rw [hr.mem_src, and_iff_right hnot]
  · have hnone : ∀ n : Module, n.WF → (∀ o < n.ops.length, (n.opRec o).dst ≠ u) →
        s ∉ n.sources u := by
      intro n hn hne hs
      unfold Module.sources at hs
      split at hs
      · next op hop =>
        obtain ⟨o, ho, hd, -⟩ := hn.valueOp_some hop
        exact hne o ho hd
      · cases hs
    refine iff_of_false (hnone _ h.wf fun o ho hd => hu ?_)
      fun hs => hnone m hwf (fun o ho hd => hu ⟨o, ho, hd⟩) hs.2
    exact ⟨o, h.length ▸ ho, by rw [← h.dst (h.length ▸ ho), hd]⟩

theorem liveRoots_foldedModule (m : Module) : (foldedModule m).liveRoots = m.liveRoots := by
  unfold Module.liveRoots Module.termUses
  simp only [foldedModule_termArgsConst, (foldedModule_core m).2.2.1]

theorem Module.StaysLive.lt (hwf : m.WF) (hver : m.Verified) {v : Nat} (h : m.StaysLive v) :
    v < m.values.length := by
  induction h with
  | root hr =>
    obtain ⟨bb, hbb, hr⟩ := List.mem_flatMap.mp hr
    obtain ⟨b, hb, rfl⟩ := mem_blocks_iff.mp hbb
    rcases List.mem_append.mp hr with hp | hu
    · exact ((hwf.block_params b hb _).mp hp).1
    · exact termUsesValid_of_verified hver b hb _ hu
  | source _ _ hs ih => exact hwf.sources_lt ih _ hs

/-- **What the removal keeps**, told from the module before the pass. -/
theorem liveValues_foldedModule (hwf : m.WF) (hver : m.Verified) {v : Nat} :
    liveValues (foldedModule m) v = true ↔ m.StaysLive v := by
  rw [liveValues_iff (wf_foldedModule hwf), liveRoots_foldedModule, (foldedModule_core m).1]
  constructor
  · rintro ⟨r, hr, -, hreach⟩
    induction hreach with
    | refl => exact .root hr
    | tail _ hs ih =>
      obtain ⟨hnot, hs⟩ := (mem_sources_foldedModule hwf hver).mp hs
      exact .source ih hnot hs
  · intro h
    induction h with
    | root hr => exact ⟨_, hr, (Module.StaysLive.root hr).lt hwf hver, .refl⟩
    | source _ hnot hs ih =>
      obtain ⟨r, hr, hlt, hreach⟩ := ih
      exact ⟨r, hr, hlt, hreach.tail ((mem_sources_foldedModule hwf hver).mpr ⟨hnot, hs⟩)⟩

theorem ties_foldedModule (hwf : m.WF) (hver : m.Verified) {a b : Nat} :
    (foldedModule m).Ties a b ↔ m.EvalTies a b := by
  rw [Module.Ties, Module.EvalTies, Module.valueType, Module.valueType, foldedModule_valueRec,
    foldedModule_valueRec]
  refine and_congr_left fun _ => ?_
  constructor
  · intro h w
    rw [← constU64Value_foldedModule hwf hver, ← constU64Value_foldedModule hwf hver, h]
  · intro h
    refine Option.ext fun w => ?_
    rw [constU64Value_foldedModule hwf hver, constU64Value_foldedModule hwf hver]
    exact h w

theorem before_foldedModule (a b : Nat) : (foldedModule m).Before a b ↔ m.Before a b := by
  rw [Module.Before, Module.Before, foldedModule_valueRec, foldedModule_valueRec]

/-- The pass puts operands that tie in the order of their ids. -/
theorem srcAt_le_of_ties (hwf : m.WF) (hver : m.Verified) {o : Nat} (ho : o < m.ops.length)
    (hn : m.Normal o) (hc : opIsCommutative (m.opRec o).opcode = true)
    (ht : m.Ties ((m.opRec o).srcAt 0) ((m.opRec o).srcAt 1)) :
    (m.opRec o).srcAt 0 ≤ (m.opRec o).srcAt 1 := by
  have hle := (reorderOperands_none (src_pair hwf hver ho hc) hc).mp hn.2
  rwa [compareValueOrder_ties ht, Nat.compare_ne_gt] at hle

/-- The operands that tie, told from the module before the pass. -/
theorem tiedSources_iff (hwf : m.WF) (hver : m.Verified) {o : Nat} (ho : o < m.ops.length)
    (hr : m.Reordered (m.opRec o) ((foldedModule m).opRec o))
    (hc : opIsCommutative (m.opRec o).opcode = true) :
    ((foldedModule m).Ties (((foldedModule m).opRec o).srcAt 0)
        (((foldedModule m).opRec o).srcAt 1) ∧
      m.Before (((foldedModule m).opRec o).srcAt 1) (((foldedModule m).opRec o).srcAt 0)) ↔
    ∃ a ∈ (m.opRec o).src, ∃ b ∈ (m.opRec o).src, a < b ∧ m.EvalTies a b ∧ m.Before b a := by
  have h := folding_foldedModule hwf hver
  have ho' : o < (foldedModule m).ops.length := h.length ▸ ho
  have hc' : opIsCommutative ((foldedModule m).opRec o).opcode = true := by rwa [hr.opcode]
  have hle := srcAt_le_of_ties h.wf h.verified ho' (normal_foldedModule hwf hver o ho') hc'
  have hsrc := src_pair h.wf h.verified ho' hc'
  generalize ((foldedModule m).opRec o).srcAt 0 = x at hle hsrc ⊢
  generalize ((foldedModule m).opRec o).srcAt 1 = y at hle hsrc ⊢
  have hmem : ∀ s, s ∈ (m.opRec o).src ↔ s = x ∨ s = y := fun s => by
    rw [← hr.mem_src, hsrc]
    simp
  constructor
  · rintro ⟨ht, hb⟩
    have hne : x ≠ y := by
      rintro rfl
      exact hb.asymm hb
    exact ⟨x, (hmem x).mpr (.inl rfl), y, (hmem y).mpr (.inr rfl),
      Nat.lt_of_le_of_ne (hle ht) hne, (ties_foldedModule hwf hver).mp ht, hb⟩
  · rintro ⟨a, ha, b, hb, hlt, ht, hbefore⟩
    have ht' := (ties_foldedModule hwf hver).mpr ht
    rcases (hmem a).mp ha with rfl | rfl <;> rcases (hmem b).mp hb with rfl | rfl
    · omega
    · exact ⟨ht', hbefore⟩
    · -- the pass has put the smaller id first
      have := hle ⟨ht'.1.symm, ht'.2.1.symm, ht'.2.2.symm⟩
      omega
    · omega

/-- **When the removal turns a tie around**, told from the module before the pass. -/
theorem unstable_iff (hwf : m.WF) (hver : m.Verified) :
    (foldedModule m).Unstable ↔ m.TurnsTie := by
  have h := folding_foldedModule hwf hver
  have hlen : (foldedModule m).values.length = m.values.length := congrArg List.length h.values
  refine and_congr ?_ ?_
  · rw [hlen]
    refine exists_congr fun v => and_congr_right fun _ => ?_
    rw [← Bool.not_eq_true, liveValues_foldedModule hwf hver]
  · rw [h.length]
    refine exists_congr fun o => and_congr_right fun ho => ?_
    rw [h.dst ho, liveValues_foldedModule hwf hver, before_foldedModule]
    refine and_congr_right fun _ => ?_
    rcases foldedModule_op hwf hver ho with ⟨⟨w, hw⟩, hcode⟩ | ⟨hnot, hr⟩
    · -- a constant has no operands to turn around
      rw [hcode]
      exact iff_of_false (fun hc => by cases hc.1) fun hc => hc.1 w hw
    · rw [and_iff_right hnot, hr.opcode]
      exact and_congr_right fun hc => tiedSources_iff hwf hver ho hr hc

/-- Canonicalization is idempotent when no two values of a type share a name. -/
theorem staysCanonical_of_names (h : m.Reachable) (hf : m.frozen = false) (hver : m.Verified)
    (hnames : ∀ u < m.values.length, ∀ v < m.values.length, m.valueType u = m.valueType v →
      (m.valueRec u).name = (m.valueRec v).name → u = v) : m.StaysCanonical := by
  have hwf := wf_reachable h
  rw [staysCanonical_fixed_iff hwf hf hver, fixed_iff_stable hwf hver (ordered_of_reachable h)]
  rintro ⟨-, o, ho, -, hcomm, ⟨-, htype, hname⟩, hbefore⟩
  have hs := src_pair (wf_foldedModule hwf) (verified_foldedModule hwf hver) ho hcomm
  have hsrc : ∀ s ∈ ((foldedModule m).opRec o).src, s < m.values.length := by
    rw [← (foldedModule_core m).1]
    exact (wf_foldedModule hwf).op_src o ho
  rw [Module.valueType, Module.valueType, foldedModule_valueRec, foldedModule_valueRec] at htype
  rw [foldedModule_valueRec, foldedModule_valueRec] at hname
  rw [hnames _ (hsrc _ (by rw [hs]; simp)) _ (hsrc _ (by rw [hs]; simp)) htype hname] at hbefore
  exact hbefore.asymm hbefore

end Live

/-- **When canonicalization is idempotent.**  A second run leaves the module of the first as it is
and counts nothing, unless the first one removes dead values and its numbering turns two tied
operands of a live commutative operation around. -/
theorem staysCanonical_iff {m : Module} (h : m.Reachable) (hf : m.frozen = false)
    (hver : m.Verified) : m.StaysCanonical ↔ ¬ m.TurnsTie := by
  have hwf := wf_reachable h
  rw [staysCanonical_fixed_iff hwf hf hver, fixed_iff_stable hwf hver (ordered_of_reachable h),
    unstable_iff hwf hver]

/-- A block that adds a result and a younger parameter of the same name, and to their sum a sum of
constants, which are dead once it is folded. -/
def foldTieSample : List Call :=
  [.blockCreate none, .blockAddParam 0 (typeI 8) none,
    .buildBinary 0 .add (typeI 8) 0 0 (some [120]), .blockAddParam 0 (typeI 8) (some [120]),
    .buildConstU64 0 (typeI 8) 3#64 none, .buildConstU64 0 (typeI 8) 4#64 none,
    .buildBinary 0 .add (typeI 8) 3 4 none, .buildBinary 0 .add (typeI 8) 1 2 none,
    .buildBinary 0 .add (typeI 8) 5 6 none, .setReturn 0 (.array [7])]

theorem turnsTie_foldTieSample : (runCalls Module.create foldTieSample).TurnsTie := by
  refine (unstable_iff (wf_reachable ⟨foldTieSample, rfl⟩) (by decide +kernel)).mp
    ⟨⟨3, by decide +kernel, by decide +kernel⟩, 4, by decide +kernel, by decide +kernel,
      by decide +kernel, by decide +kernel, ?_⟩
  unfold Module.Before
  decide +kernel

theorem staysCanonical_iff_tie : ¬ (runCalls Module.create foldTieSample).StaysCanonical := by
  intro h
  exact (staysCanonical_iff ⟨foldTieSample, rfl⟩ (by decide +kernel) (by decide +kernel)).mp h
    turnsTie_foldTieSample

end Xair
