import Xair.Numbering
import Xair.Renaming

/-!
# Compaction

What `compact_live_values` does to a well-formed module.  `Compaction m m' σ ω`
says that `m'` is `m` restricted to the values and operations that the maps `σ`
and `ω` keep, renamed by them everywhere; `compaction_eliminateDeadValues` says
that dead-value removal is a compaction that keeps exactly the live values.

The argument array is rewritten in place, slice by slice.  `foldl_remapArgs`
is why this is right: the slices of a well-formed module do not overlap, so no
argument is renamed twice.
-/

namespace Xair

/-- The record of an operation after renaming. -/
def OpRec.rename (σ : Nat → Option Nat) (op : OpRec) : OpRec :=
  { op with dst := renamed σ op.dst, src := op.src.map (renamed σ) }

theorem OpRec.renames_rename (σ : Nat → Option Nat) (op : OpRec) :
    op.Renames (renamed σ) (op.rename σ) := ⟨rfl, rfl, rfl, rfl⟩

/-- The terminator of a block after renaming. -/
def TermRec.rename (σ : Nat → Option Nat) (t : TermRec) : TermRec :=
  if t.kind = .cbranch then { t with condition := renamed σ t.condition } else t

/-- The positions of `term_args` that liveness and renaming visit. -/
def TermRec.usedSlices (t : TermRec) : List (Nat × Nat) :=
  match t.kind with
  | .jump | .ret => [(t.trueArgOffset, t.trueArgCount)]
  | .cbranch => [(t.trueArgOffset, t.trueArgCount), (t.falseArgOffset, t.falseArgCount)]
  | _ => []

/-- The edges whose arguments count. -/
def TermRec.Uses (t : TermRec) (falseArgs : Bool) : Prop :=
  if falseArgs then t.kind = .cbranch else t.kind = .jump ∨ t.kind = .cbranch ∨ t.kind = .ret

/-- `m'` is `m` without the values and operations that `σ` and `ω` drop. -/
structure Compaction (m m' : Module) (σ ω : Nat → Option Nat) : Prop where
  values_le : m'.values.length ≤ m.values.length
  ops_le : m'.ops.length ≤ m.ops.length
  value_lt : ∀ v v', σ v = some v' → v < m.values.length
  value_inj : ∀ u v v', σ u = some v' → σ v = some v' → u = v
  value_range : ∀ v', v' < m'.values.length ↔ ∃ v, σ v = some v'
  op_lt : ∀ o o', ω o = some o' → o < m.ops.length
  op_inj : ∀ o p o', ω o = some o' → ω p = some o' → o = p
  op_range : ∀ o', o' < m'.ops.length ↔ ∃ o, ω o = some o'
  op_dst : ∀ o < m.ops.length, (∃ o', ω o = some o') ↔ ∃ v', σ (m.opRec o).dst = some v'
  param_kept : ∀ b < m.blocks.length, ∀ v ∈ (m.blockRec b).params, ∃ v', σ v = some v'
  src_kept : ∀ o o', ω o = some o' → ∀ s ∈ (m.opRec o).src, ∃ s', σ s = some s'
  use_kept : ∀ b < m.blocks.length, ∀ u ∈ m.termUses (m.blockRec b).term, ∃ u', σ u = some u'
  valueRec : ∀ v v', σ v = some v' →
    m'.valueRec v' = { m.valueRec v with op := (m.valueRec v).op.bind ω }
  opRec : ∀ o o', ω o = some o' → m'.opRec o' = (m.opRec o).rename σ
  blocks : m'.blocks.length = m.blocks.length
  name : ∀ b < m.blocks.length, (m'.blockRec b).name = (m.blockRec b).name
  params : ∀ b < m.blocks.length,
    (m'.blockRec b).params = (m.blockRec b).params.map (renamed σ)
  ops : ∀ b < m.blocks.length, (m'.blockRec b).ops = (m.blockRec b).ops.filterMap ω
  ops_sorted : ∀ b < m.blocks.length, (m'.blockRec b).ops.Pairwise (· < ·)
  term : ∀ b < m.blocks.length, (m'.blockRec b).term = (m.blockRec b).term.rename σ
  termArgs : m'.termArgs.length = m.termArgs.length
  args : ∀ b < m.blocks.length, ∀ f, (m.blockRec b).term.Uses f →
    m'.termArgsConst (m.blockRec b).term f =
      (m.termArgsConst (m.blockRec b).term f).map (renamed σ)
  frozen : m'.frozen = m.frozen

/-! ### The argument array -/

/-- A position lies in a slice. -/
def InRange (s : Nat × Nat) (k : Nat) : Prop := s.1 ≤ k ∧ k < s.1 + s.2

instance (s : Nat × Nat) (k : Nat) : Decidable (InRange s k) :=
  inferInstanceAs (Decidable (_ ∧ _))

theorem remapArgs_getElem? (maps : CompactMaps) (args : List Nat) (off n k : Nat) :
    (remapArgs maps args off n)[k]? =
      args[k]?.map fun v => if InRange (off, n) k then maps.value v else v := by
  rw [remapArgs, List.getElem?_mapIdx]
  rfl

/-- Separate slices rewrite each position at most once. -/
theorem foldl_remapArgs (maps : CompactMaps) (ss : List (Nat × Nat))
    (hdis : ss.Pairwise fun s t => ∀ k, InRange s k → ¬ InRange t k) (args : List Nat) (k : Nat) :
    (ss.foldl (fun a s => remapArgs maps a s.1 s.2) args)[k]? =
      args[k]?.map fun v => if ∃ s ∈ ss, InRange s k then maps.value v else v := by
  induction ss generalizing args with
  | nil => simp
  | cons s ss ih =>
    obtain ⟨hs, hss⟩ := List.pairwise_cons.mp hdis
    rw [List.foldl_cons, ih hss, remapArgs_getElem?, Option.map_map]
    congr 1
    funext v
    by_cases h1 : InRange s k
    · have h2 : ¬ ∃ t ∈ ss, InRange t k := fun ⟨t, ht, hk⟩ => hs t ht k h1 hk
      rw [if_pos (⟨s, by simp, h1⟩ : ∃ t ∈ s :: ss, InRange t k)]
      simp only [Function.comp_apply, if_pos h1, if_neg h2]
    · have h2 : (∃ t ∈ s :: ss, InRange t k) ↔ ∃ t ∈ ss, InRange t k := by simp [h1]
      simp only [Function.comp_apply, if_neg h1, h2]

theorem remapTermArgs_eq (maps : CompactMaps) (args : List Nat) (t : TermRec) :
    remapTermArgs maps args t =
      t.usedSlices.foldl (fun a s => remapArgs maps a s.1 s.2) args := by
  unfold remapTermArgs TermRec.usedSlices
  cases t.kind <;> rfl

theorem foldl_remapTermArgs (maps : CompactMaps) (bs : List BlockRec) (args : List Nat) :
    bs.foldl (fun args bb => remapTermArgs maps args bb.term) args =
      (bs.flatMap fun bb => bb.term.usedSlices).foldl (fun a s => remapArgs maps a s.1 s.2) args := by
  rw [List.foldl_flatMap]
  simp only [remapTermArgs_eq]

theorem mem_usedSlices {t : TermRec} {s : Nat × Nat} (hs : s ∈ t.usedSlices) {k : Nat}
    (hk : InRange s k) : ∃ f, t.Uses f ∧ t.InSlice f k := by
  unfold TermRec.usedSlices at hs
  unfold InRange at hk
  split at hs
  · next h =>
    rw [List.mem_singleton] at hs; subst hs
    exact ⟨false, .inl h, hk⟩
  · next h =>
    rw [List.mem_singleton] at hs; subst hs
    exact ⟨false, .inr (.inr h), hk⟩
  · next h =>
    simp only [List.mem_cons, List.not_mem_nil, or_false] at hs
    rcases hs with rfl | rfl
    · exact ⟨false, .inr (.inl h), hk⟩
    · exact ⟨true, h, hk⟩
  · cases hs

theorem usedSlices_of_uses {t : TermRec} {f : Bool} (hf : t.Uses f) {k : Nat}
    (hk : t.InSlice f k) : ∃ s ∈ t.usedSlices, InRange s k := by
  cases f with
  | false =>
    refine ⟨(t.trueArgOffset, t.trueArgCount), ?_, hk⟩
    rcases hf with h | h | h <;> simp [TermRec.usedSlices, h]
  | true =>
    have h : t.kind = .cbranch := hf
    exact ⟨(t.falseArgOffset, t.falseArgCount), by simp [TermRec.usedSlices, h], hk⟩

theorem usedSlices_disjoint {m : Module} (hwf : m.WF) :
    (m.blocks.flatMap fun bb => bb.term.usedSlices).Pairwise
      fun s t => ∀ k, InRange s k → ¬ InRange t k := by
  rw [List.pairwise_flatMap]
  constructor
  · intro bb hbb
    obtain ⟨b, hb, rfl⟩ := mem_blocks_iff.mp hbb
    have hslices := hwf.slices b hb b hb
    unfold TermRec.usedSlices
    split
    · exact List.pairwise_singleton _ _
    · exact List.pairwise_singleton _ _
    · refine List.pairwise_cons.mpr ⟨fun s hs k h1 h2 => ?_, List.pairwise_singleton _ _⟩
      rw [List.mem_singleton] at hs
      subst hs
      exact absurd (hslices false true k h1 h2).2 (by decide)
    · exact List.Pairwise.nil
  · rw [List.pairwise_iff_getElem]
    intro i j hi hj hij s hs t ht k h1 h2
    rw [blockRec_getElem hi] at hs
    rw [blockRec_getElem hj] at ht
    obtain ⟨f, -, hf⟩ := mem_usedSlices hs h1
    obtain ⟨f', -, hf'⟩ := mem_usedSlices ht h2
    have := (hwf.slices i hi j hj f f' k hf hf').1
    omega

/-- The offset of one edge's arguments. -/
def TermRec.argOffset (t : TermRec) (f : Bool) : Nat := if f then t.falseArgOffset else t.trueArgOffset

/-- The number of one edge's arguments. -/
def TermRec.argCount (t : TermRec) (f : Bool) : Nat := if f then t.falseArgCount else t.trueArgCount

theorem TermRec.inSlice_iff {t : TermRec} {f : Bool} {k : Nat} :
    t.InSlice f k ↔ t.argOffset f ≤ k ∧ k < t.argOffset f + t.argCount f := by
  cases f <;> exact Iff.rfl

/-- The slice of one edge, by position. -/
theorem termArgsConst_getElem? (m : Module) (t : TermRec) (f : Bool) (i : Nat) :
    (m.termArgsConst t f)[i]? =
      if i < t.argCount f then m.termArgs[t.argOffset f + i]? else none := by
  have h : m.termArgsConst t f = (m.termArgs.drop (t.argOffset f)).take (t.argCount f) := by
    cases f <;> rfl
  rw [h, List.getElem?_take]
  simp only [List.getElem?_drop]

theorem termArgsConst_remap {m m' : Module} (hwf : m.WF) (maps : CompactMaps)
    (hargs : m'.termArgs =
      m.blocks.foldl (fun args bb => remapTermArgs maps args bb.term) m.termArgs)
    {b : Nat} (hb : b < m.blocks.length) {f : Bool} (hf : (m.blockRec b).term.Uses f) :
    m'.termArgsConst (m.blockRec b).term f =
      (m.termArgsConst (m.blockRec b).term f).map maps.value := by
  apply List.ext_getElem?
  intro i
  rw [List.getElem?_map, termArgsConst_getElem?, termArgsConst_getElem?]
  by_cases hi : i < (m.blockRec b).term.argCount f
  · have hin : (m.blockRec b).term.InSlice f ((m.blockRec b).term.argOffset f + i) :=
      TermRec.inSlice_iff.mpr ⟨by omega, by omega⟩
    obtain ⟨s, hs, hk⟩ := usedSlices_of_uses hf hin
    have hex : ∃ s ∈ m.blocks.flatMap fun bb => bb.term.usedSlices,
        InRange s ((m.blockRec b).term.argOffset f + i) :=
      ⟨s, List.mem_flatMap.mpr ⟨_, blockRec_mem hb, hs⟩, hk⟩
    rw [if_pos hi, if_pos hi, hargs, foldl_remapTermArgs,
      foldl_remapArgs _ _ (usedSlices_disjoint hwf)]
    simp only [if_pos hex]
  · rw [if_neg hi, if_neg hi]
    rfl

/-! ### The new arrays -/

section Arrays

variable {m : Module} {maps : CompactMaps}

/-- The copy loop over the ids `vs`, from any arrays. -/
theorem foldl_copyValues (hinj : ∀ u v j, maps.valueMap u = some j → maps.valueMap v = some j → u = v)
    (vs : List Nat) (arrays : CompactArrays) {v j : Nat} (hv : maps.valueMap v = some j) :
    (vs.foldl (fun arrays i =>
      match maps.valueMap i with
      | none => arrays
      | some j =>
        { arrays with newValues := fun u =>
            if u = j then { m.valueRec i with op := none } else arrays.newValues u }) arrays).newValues j =
      if v ∈ vs then { m.valueRec v with op := none } else arrays.newValues j := by
  induction vs generalizing arrays with
  | nil => simp
  | cons i vs ih =>
    rw [List.foldl_cons, ih]
    by_cases hvs : v ∈ vs
    · simp [hvs]
    · rw [if_neg hvs]
      by_cases hiv : v = i
      · subst hiv
        simp [hv]
      · rw [if_neg (by simp [hiv, hvs])]
        cases hi : maps.valueMap i with
        | none => rfl
        | some k =>
          have hjk : j ≠ k := fun hjk => hiv (hinj v i j hv (hjk ▸ hi))
          simp [hjk]

theorem copyValues_newValues
    (hinj : ∀ u v j, maps.valueMap u = some j → maps.valueMap v = some j → u = v)
    {v j : Nat} (hv : maps.valueMap v = some j) (hlt : v < m.values.length) :
    (copyValues m maps).newValues j = { m.valueRec v with op := none } := by
  refine (foldl_copyValues hinj (List.range m.values.length) _ hv).trans ?_
  rw [if_pos (List.mem_range.mpr hlt)]

/-- The operation loop over the ids `os`, from any arrays. -/
theorem foldl_compactOp (hwf : m.WF)
    (hinj : ∀ u v j, maps.valueMap u = some j → maps.valueMap v = some j → u = v)
    (hoinj : ∀ o p k, maps.opMap o = some k → maps.opMap p = some k → o = p)
    (hdst : ∀ o k, maps.opMap o = some k →
      o < m.ops.length ∧ ∃ j, maps.valueMap (m.opRec o).dst = some j)
    (os : List Nat) (arrays : CompactArrays) :
    (∀ o k, maps.opMap o = some k → (os.foldl (compactOp m maps) arrays).newOps k =
      if o ∈ os then remapOp maps (m.opRec o) else arrays.newOps k) ∧
    (∀ v j, v < m.values.length → maps.valueMap v = some j →
      (os.foldl (compactOp m maps) arrays).newValues j =
      { arrays.newValues j with
        op := if ∃ o ∈ os, (m.valueRec v).op = some o ∧ (maps.opMap o).isSome
          then (m.valueRec v).op.bind maps.opMap else (arrays.newValues j).op }) := by
  induction os generalizing arrays with
  | nil => simp
  | cons p os ih =>
    obtain ⟨ih1, ih2⟩ := ih (compactOp m maps arrays p)
    rw [List.foldl_cons]
    constructor
    · intro o k ho
      rw [ih1 o k ho]
      by_cases hos : o ∈ os
      · simp [hos]
      · rw [if_neg hos]
        by_cases hop : o = p
        · subst hop
          simp [compactOp, ho]
        · rw [if_neg (by simp [hop, hos])]
          cases hp : maps.opMap p with
          | none => simp [compactOp, hp]
          | some k' =>
            have hkk : k ≠ k' := fun hkk => hop (hoinj o p k ho (hkk ▸ hp))
            simp [compactOp, hp, hkk]
    · intro v j hv hj
      rw [ih2 v j hv hj]
      cases hp : maps.opMap p with
      | none =>
        have hex : (∃ o ∈ p :: os, (m.valueRec v).op = some o ∧ (maps.opMap o).isSome) ↔
            ∃ o ∈ os, (m.valueRec v).op = some o ∧ (maps.opMap o).isSome := by
          constructor
          · rintro ⟨o, ho, h1, h2⟩
            rcases List.mem_cons.mp ho with rfl | ho
            · rw [hp] at h2; cases h2
            · exact ⟨o, ho, h1, h2⟩
          · rintro ⟨o, ho, h⟩
            exact ⟨o, List.mem_cons_of_mem _ ho, h⟩
        simp only [compactOp, hp, hex]
      | some k =>
        obtain ⟨hplt, jp, hjp⟩ := hdst p k hp
        have hval : maps.value (m.opRec p).dst = jp := renamed_eq hjp
        simp only [compactOp, hp, remapOp, hval]
        by_cases hvp : v = (m.opRec p).dst
        · -- the result of `p`: its link is written here
          have hop := (hwf.op_dst p hplt).2
          rw [← hvp] at hop hjp
          obtain rfl : j = jp := Option.some.inj (hj ▸ hjp)
          rw [if_pos rfl, if_pos (⟨p, by simp, hop, by simp [hp]⟩ :
            ∃ o ∈ p :: os, (m.valueRec v).op = some o ∧ (maps.opMap o).isSome)]
          simp only [hop, Option.bind_some, hp, ite_self]
        · have hjne : j ≠ jp := fun h => hvp (hinj v _ j hj (h ▸ hjp))
          have hex : (∃ o ∈ p :: os, (m.valueRec v).op = some o ∧ (maps.opMap o).isSome) ↔
              ∃ o ∈ os, (m.valueRec v).op = some o ∧ (maps.opMap o).isSome := by
            constructor
            · rintro ⟨o, ho, h1, h2⟩
              rcases List.mem_cons.mp ho with rfl | ho
              · exact absurd (hwf.value_op v hv o h1).2.symm hvp
              · exact ⟨o, ho, h1, h2⟩
            · rintro ⟨o, ho, h⟩
              exact ⟨o, List.mem_cons_of_mem _ ho, h⟩
          simp only [if_neg hjne, hex]

end Arrays

/-! ### Removal is a compaction -/

/-- The map that keeps the first `n` ids as they are. -/
def keepBelow (n v : Nat) : Option Nat := if v < n then some v else none

theorem keepBelow_eq {n v v' : Nat} : keepBelow n v = some v' ↔ v < n ∧ v = v' := by
  unfold keepBelow
  split <;> simp_all

theorem renamed_keepBelow {n v : Nat} (h : v < n) : renamed (keepBelow n) v = v :=
  renamed_eq (keepBelow_eq.mpr ⟨h, rfl⟩)

theorem map_renamed_keepBelow {n : Nat} {vs : List Nat} (h : ∀ v ∈ vs, v < n) :
    vs.map (renamed (keepBelow n)) = vs := by
  conv_rhs => rw [← List.map_id vs]
  exact List.map_congr_left fun v hv => renamed_keepBelow (h v hv)

/-- The values that terminators use are valid. -/
def Module.TermUsesValid (m : Module) : Prop :=
  ∀ b < m.blocks.length, ∀ u ∈ m.termUses (m.blockRec b).term, u < m.values.length

theorem mem_termUses_of_uses {m : Module} {t : TermRec} {f : Bool} (hf : t.Uses f) {u : Nat}
    (hu : u ∈ m.termArgsConst t f) : u ∈ m.termUses t := by
  unfold Module.termUses
  cases f with
  | false => rcases hf with h | h | h <;> simp [h, hu]
  | true =>
    have h : t.kind = .cbranch := hf
    simp [h, hu]

theorem condition_mem_termUses {m : Module} {t : TermRec} (h : t.kind = .cbranch) :
    t.condition ∈ m.termUses t := by
  simp [Module.termUses, h]

/-- A module is a compaction of itself. -/
theorem compaction_refl {m : Module} (hwf : m.WF) (huses : m.TermUsesValid) :
    Compaction m m (keepBelow m.values.length) (keepBelow m.ops.length) where
  values_le := Nat.le_refl _
  ops_le := Nat.le_refl _
  value_lt v v' h := (keepBelow_eq.mp h).1
  value_inj u v v' hu hv := (keepBelow_eq.mp hu).2.trans (keepBelow_eq.mp hv).2.symm
  value_range v' := ⟨fun h => ⟨v', keepBelow_eq.mpr ⟨h, rfl⟩⟩, fun ⟨v, h⟩ =>
    (keepBelow_eq.mp h).2 ▸ (keepBelow_eq.mp h).1⟩
  op_lt o o' h := (keepBelow_eq.mp h).1
  op_inj o p o' ho hp := (keepBelow_eq.mp ho).2.trans (keepBelow_eq.mp hp).2.symm
  op_range o' := ⟨fun h => ⟨o', keepBelow_eq.mpr ⟨h, rfl⟩⟩, fun ⟨o, h⟩ =>
    (keepBelow_eq.mp h).2 ▸ (keepBelow_eq.mp h).1⟩
  op_dst o ho := iff_of_true ⟨o, keepBelow_eq.mpr ⟨ho, rfl⟩⟩
    ⟨_, keepBelow_eq.mpr ⟨(hwf.op_dst o ho).1, rfl⟩⟩
  param_kept b hb v hv := ⟨v, keepBelow_eq.mpr ⟨((hwf.block_params b hb v).mp hv).1, rfl⟩⟩
  src_kept o o' ho s hs := ⟨s, keepBelow_eq.mpr ⟨hwf.op_src o (keepBelow_eq.mp ho).1 s hs, rfl⟩⟩
  use_kept b hb u hu := ⟨u, keepBelow_eq.mpr ⟨huses b hb u hu, rfl⟩⟩
  valueRec v v' h := by
    obtain ⟨hv, rfl⟩ := keepBelow_eq.mp h
    have hop : (m.valueRec v).op.bind (keepBelow m.ops.length) = (m.valueRec v).op := by
      cases ho : (m.valueRec v).op with
      | none => rfl
      | some o => exact keepBelow_eq.mpr ⟨(hwf.value_op v hv o ho).1, rfl⟩
    rw [hop]
  opRec o o' h := by
    obtain ⟨ho, rfl⟩ := keepBelow_eq.mp h
    rw [OpRec.rename, renamed_keepBelow (hwf.op_dst o ho).1,
      map_renamed_keepBelow (hwf.op_src o ho)]
  blocks := rfl
  name _ _ := rfl
  params b hb := (map_renamed_keepBelow fun v hv => ((hwf.block_params b hb v).mp hv).1).symm
  ops b hb := by
    have h : (m.blockRec b).ops.filterMap (keepBelow m.ops.length) =
        (m.blockRec b).ops.filterMap some := by
      refine List.filterMap_congr fun o ho => ?_
      exact keepBelow_eq.mpr ⟨((hwf.block_ops b hb o).mp ho).1, rfl⟩
    rw [h, List.filterMap_some]
  ops_sorted := hwf.ops_sorted
  term b hb := by
    unfold TermRec.rename
    split
    · next h => rw [renamed_keepBelow (huses b hb _ (condition_mem_termUses h))]
    · rfl
  termArgs := rfl
  args b hb f hf :=
    (map_renamed_keepBelow fun u hu => huses b hb u (mem_termUses_of_uses hf hu)).symm
  frozen := rfl

/-- A set of values that can be kept: it has the parameters, what terminators
use, and the sources of its own operations. -/
structure Closed (m : Module) (live : ValueSet) : Prop where
  value_lt : ∀ v, live v = true → v < m.values.length
  param : ∀ b < m.blocks.length, ∀ v ∈ (m.blockRec b).params, live v = true
  src : ∀ o < m.ops.length, live (m.opRec o).dst = true → ∀ s ∈ (m.opRec o).src, live s = true
  use : ∀ b < m.blocks.length, ∀ u ∈ m.termUses (m.blockRec b).term, live u = true

section Maps

variable {m : Module} {live : ValueSet}

theorem Closed.numbers (_ : Closed m live) (hwf : m.WF) :
    Numbers (compactMaps m live) (m.valueOrder live) (m.opOrder live) :=
  compactMaps_numbers (valueOrder_nodup hwf) (opOrder_nodup hwf)

/-- The value map is defined on the live values. -/
theorem Closed.value_some (h : Closed m live) (hwf : m.WF) {v : Nat} :
    (∃ v', (compactMaps m live).valueMap v = some v') ↔ live v = true := by
  rw [← mem_valueOrder hwf h.value_lt h.param]
  exact ⟨fun ⟨v', hv⟩ => (h.numbers hwf).value.mem hv, (h.numbers hwf).value.some_of_mem⟩

/-- The operation map is defined on the operations with live results. -/
theorem Closed.op_some (h : Closed m live) (hwf : m.WF) {o : Nat} :
    (∃ o', (compactMaps m live).opMap o = some o') ↔
      o < m.ops.length ∧ live (m.opRec o).dst = true := by
  rw [← mem_opOrder hwf]
  exact ⟨fun ⟨o', ho⟩ => (h.numbers hwf).op.mem ho, (h.numbers hwf).op.some_of_mem⟩

/-- The positions of a stretch of a list increase. -/
theorem pairwise_filterMap_indexes {f : Nat → Option Nat} {pre mid post : List Nat}
    (hf : Indexes f (pre ++ mid ++ post)) : (mid.filterMap f).Pairwise (· < ·) := by
  induction mid generalizing pre with
  | nil => exact List.Pairwise.nil
  | cons o mid ih =>
    have ho : f o = some pre.length := by
      rw [hf, List.append_assoc, List.getElem?_append_right (Nat.le_refl _)]
      simp
    have hf' : Indexes f (pre ++ [o] ++ mid ++ post) := by simpa using hf
    rw [List.filterMap_cons_some ho]
    refine List.pairwise_cons.mpr ⟨fun j hj => ?_, ih hf'⟩
    obtain ⟨p, hp, hpj⟩ := List.mem_filterMap.mp hj
    obtain ⟨i, hi, rfl⟩ := List.mem_iff_getElem.mp hp
    have hpos : f mid[i] = some ((pre ++ [o]).length + i) := by
      rw [hf', List.append_assoc, List.getElem?_append_right (by omega),
        List.getElem?_append_left (by omega), Nat.add_sub_cancel_left]
      exact List.getElem?_eq_getElem hi
    obtain rfl : (pre ++ [o]).length + i = j := Option.some.inj (hpos.symm.trans hpj)
    simp only [List.length_append, List.length_singleton]
    omega

theorem Closed.ops_sorted (h : Closed m live) (hwf : m.WF) {b : Nat}
    (hb : b < m.blocks.length) :
    ((m.blockRec b).ops.filterMap (compactMaps m live).opMap).Pairwise (· < ·) := by
  have hlive : (m.blockRec b).ops.filterMap (compactMaps m live).opMap =
      (m.liveOps live (m.blockRec b).ops).filterMap (compactMaps m live).opMap := by
    rw [Module.liveOps, List.filterMap_filter]
    refine List.filterMap_congr fun o ho => ?_
    split
    · rfl
    · next hl =>
      cases ho' : (compactMaps m live).opMap o with
      | none => rfl
      | some k => exact absurd ((h.op_some hwf).mp ⟨k, ho'⟩).2 hl
  have hsplit : m.opOrder live = ((m.blocks.take b).flatMap fun bb => m.liveOps live bb.ops) ++
      m.liveOps live (m.blockRec b).ops ++
      ((m.blocks.drop (b + 1)).flatMap fun bb => m.liveOps live bb.ops) := by
    have hblocks : m.blocks = m.blocks.take b ++ m.blockRec b :: m.blocks.drop (b + 1) := by
      rw [← blockRec_getElem hb, ← List.drop_eq_getElem_cons hb, List.take_append_drop]
    rw [Module.opOrder]
    conv_lhs => rw [hblocks]
    simp
  have hidx := (h.numbers hwf).op
  rw [hsplit] at hidx
  rw [hlive]
  exact pairwise_filterMap_indexes hidx

end Maps

/-- All the operations that blocks list. -/
theorem mem_flatMap_ops {m : Module} (hwf : m.WF) {o : Nat} :
    o ∈ m.blocks.flatMap BlockRec.ops ↔ o < m.ops.length := by
  constructor
  · intro ho
    obtain ⟨bb, hbb, ho⟩ := List.mem_flatMap.mp ho
    obtain ⟨b, hb, rfl⟩ := mem_blocks_iff.mp hbb
    exact ((hwf.block_ops b hb o).mp ho).1
  · intro ho
    have hb := hwf.value_block _ (hwf.op_dst o ho).1
    exact List.mem_flatMap.mpr ⟨_, blockRec_mem hb, (hwf.block_ops _ hb o).mpr ⟨ho, rfl⟩⟩

theorem getD_map_range {α : Type} (f : Nat → α) (d : α) {n i : Nat} (h : i < n) :
    ((List.range n).map f).getD i d = f i := by
  rw [List.getD_eq_getElem _ _ (by simpa using h)]
  simp

section Main

variable {m : Module} {live : ValueSet}

/-- The renumbered module. -/
def renumberedModule (m : Module) (maps : CompactMaps) : Module :=
  let arrays := m.blocks.foldl (fun a bb => bb.ops.foldl (compactOp m maps) a) (copyValues m maps)
  { m with
    values := (List.range maps.newValueCount).map arrays.newValues
    ops := (List.range maps.newOpCount).map arrays.newOps
    blocks := m.blocks.map (remapBlock maps)
    termArgs := m.blocks.foldl (fun args bb => remapTermArgs maps args bb.term) m.termArgs }

theorem blockRec_renumberedModule (m : Module) (maps : CompactMaps) {b : Nat}
    (hb : b < m.blocks.length) :
    (renumberedModule m maps).blockRec b = remapBlock maps (m.blockRec b) := by
  rw [Module.blockRec, renumberedModule, List.getD_eq_getElem _ _ (by simpa using hb),
    List.getElem_map, blockRec_getElem hb]

theorem length_foldl_remapTermArgs (maps : CompactMaps) (bs : List BlockRec) (args : List Nat) :
    (bs.foldl (fun args bb => remapTermArgs maps args bb.term) args).length = args.length := by
  induction bs generalizing args with
  | nil => rfl
  | cons bb bs ih =>
    rw [List.foldl_cons, ih]
    unfold remapTermArgs
    split <;> simp [remapArgs]

/-- **Renumbering.**  The renumbered module is a compaction along the numbering maps. -/
theorem compaction_renumberedModule (hwf : m.WF) (h : Closed m live) :
    Compaction m (renumberedModule m (compactMaps m live)) (compactMaps m live).valueMap
      (compactMaps m live).opMap := by
  have hn := h.numbers hwf
  have hinj : ∀ u v j, (compactMaps m live).valueMap u = some j →
      (compactMaps m live).valueMap v = some j → u = v := fun _ _ _ => hn.value.inj
  have hoinj : ∀ o p j, (compactMaps m live).opMap o = some j →
      (compactMaps m live).opMap p = some j → o = p := fun _ _ _ => hn.op.inj
  have hdst : ∀ o k, (compactMaps m live).opMap o = some k →
      o < m.ops.length ∧ ∃ j, (compactMaps m live).valueMap (m.opRec o).dst = some j := by
    intro o k ho
    obtain ⟨h1, h2⟩ := (h.op_some hwf).mp ⟨k, ho⟩
    exact ⟨h1, (h.value_some hwf).mpr h2⟩
  obtain ⟨hops, hvals⟩ := foldl_compactOp hwf hinj hoinj hdst (m.blocks.flatMap BlockRec.ops)
    (copyValues m (compactMaps m live))
  rw [List.foldl_flatMap] at hops hvals
  have hvlen : (renumberedModule m (compactMaps m live)).values.length =
      (m.valueOrder live).length := by
    simp [renumberedModule, hn.valueCount]
  have holen : (renumberedModule m (compactMaps m live)).ops.length =
      (m.opOrder live).length := by
    simp [renumberedModule, hn.opCount]
  have hvsub : m.valueOrder live ⊆ List.range m.values.length := fun u hu =>
    List.mem_range.mpr (h.value_lt u ((mem_valueOrder hwf h.value_lt h.param).mp hu))
  have hosub : m.opOrder live ⊆ List.range m.ops.length := fun o ho =>
    List.mem_range.mpr ((mem_opOrder hwf).mp ho).1
  have hvle := (List.subperm_of_subset (valueOrder_nodup hwf) hvsub).length_le
  have hole := (List.subperm_of_subset (opOrder_nodup hwf) hosub).length_le
  rw [List.length_range] at hvle hole
  refine ⟨hvlen ▸ hvle, holen ▸ hole,
    fun v v' hv => h.value_lt v ((h.value_some hwf).mp ⟨v', hv⟩), hinj, ?_,
    fun o o' ho => (hdst o o' ho).1, hoinj, ?_, ?_,
    fun b hb v hv => (h.value_some hwf).mpr (h.param b hb v hv), ?_,
    fun b hb u hu => (h.value_some hwf).mpr (h.use b hb u hu), ?_, ?_, ?_, ?_, ?_, ?_, ?_, ?_, ?_,
    ?_, rfl⟩
  · intro v'
    rw [hvlen]
    exact ⟨hn.value.surj, fun ⟨v, hv⟩ => hn.value.lt hv⟩
  · intro o'
    rw [holen]
    exact ⟨hn.op.surj, fun ⟨o, ho⟩ => hn.op.lt ho⟩
  · intro o ho
    rw [h.op_some hwf, h.value_some hwf]
    exact and_iff_right ho
  · intro o o' ho s hs
    obtain ⟨h1, h2⟩ := (h.op_some hwf).mp ⟨o', ho⟩
    exact (h.value_some hwf).mpr (h.src o h1 h2 s hs)
  · intro v v' hv
    have hlt := h.value_lt v ((h.value_some hwf).mp ⟨v', hv⟩)
    have hv' : v' < (compactMaps m live).newValueCount := by
      rw [hn.valueCount]; exact hn.value.lt hv
    rw [Module.valueRec, renumberedModule, getD_map_range _ _ hv', hvals v v' hlt hv,
      copyValues_newValues hinj hv hlt]
    -- the operation of a kept value is listed somewhere, so its link was written
    cases hop : (m.valueRec v).op with
    | none => simp
    | some o =>
      have hmem := (mem_flatMap_ops hwf).mpr (hwf.value_op v hlt o hop).1
      cases hmap : (compactMaps m live).opMap o with
      | none => simp [hmap]
      | some o' =>
        have hex : ∃ p ∈ m.blocks.flatMap BlockRec.ops, some o = some p ∧
            ((compactMaps m live).opMap p).isSome = true := ⟨o, hmem, rfl, by simp [hmap]⟩
        simp only [if_pos hex]
  · intro o o' ho
    have ho' : o' < (compactMaps m live).newOpCount := by
      rw [hn.opCount]; exact hn.op.lt ho
    rw [Module.opRec, renumberedModule, getD_map_range _ _ ho', hops o o' ho,
      if_pos ((mem_flatMap_ops hwf).mpr (hdst o o' ho).1)]
    rfl
  · simp [renumberedModule]
  · intro b hb
    rw [blockRec_renumberedModule m _ hb]
    rfl
  · intro b hb
    rw [blockRec_renumberedModule m _ hb]
    rfl
  · intro b hb
    rw [blockRec_renumberedModule m _ hb]
    rfl
  · intro b hb
    rw [blockRec_renumberedModule m _ hb]
    exact h.ops_sorted hwf hb
  · intro b hb
    rw [blockRec_renumberedModule m _ hb]
    simp only [remapBlock, remapTerm, TermRec.rename]
    cases hk : (m.blockRec b).term.kind <;> simp [CompactMaps.value, renamed]
  · exact length_foldl_remapTermArgs _ _ _
  · intro b hb f hf
    exact termArgsConst_remap hwf _ rfl hb hf

/-- When every value and operation is kept, every value is live. -/
theorem Closed.all_live (h : Closed m live) (hwf : m.WF)
    (hcount : (compactMaps m live).newValueCount = m.values.length) {v : Nat}
    (hv : v < m.values.length) : live v = true := by
  have hlen : (m.valueOrder live).length = m.values.length := by
    rw [← (h.numbers hwf).valueCount, hcount]
  have hsub : m.valueOrder live ⊆ List.range m.values.length := fun u hu =>
    List.mem_range.mpr (h.value_lt u ((mem_valueOrder hwf h.value_lt h.param).mp hu))
  have hperm : (m.valueOrder live).Perm (List.range m.values.length) :=
    (List.subperm_of_subset (valueOrder_nodup hwf) hsub).perm_of_length_le (by simp [hlen])
  rw [← mem_valueOrder hwf h.value_lt h.param]
  exact hperm.mem_iff.mpr (List.mem_range.mpr hv)

theorem compactLiveValues_eq (m : Module) (live : ValueSet) :
    compactLiveValues m live =
      if (compactMaps m live).newValueCount = m.values.length ∧
        (compactMaps m live).newOpCount = m.ops.length then (m, 0, 0)
      else (renumberedModule m (compactMaps m live),
        m.values.length - (compactMaps m live).newValueCount,
        m.ops.length - (compactMaps m live).newOpCount) := rfl

theorem closed_liveValues (hwf : m.WF) (huses : m.TermUsesValid) : Closed m (liveValues m) :=
  ⟨fun _ hv => live_lt hv, fun _ hb _ hv => live_param hwf hb hv,
    fun _ ho hd _ hs => live_src hwf ho hd hs, fun b hb u hu => live_termUse hb hu (huses b hb u hu)⟩

/-- **Dead-value removal is a compaction** that keeps exactly the live values. -/
theorem compaction_eliminateDeadValues (hwf : m.WF) (huses : m.TermUsesValid) :
    ∃ σ ω, Compaction m (eliminateDeadValues m).1 σ ω ∧
      ∀ v, (∃ v', σ v = some v') ↔ liveValues m v = true := by
  have h := closed_liveValues hwf huses
  rw [eliminateDeadValues, compactLiveValues_eq]
  split
  · next hcount =>
    refine ⟨_, _, compaction_refl hwf huses, fun v => ?_⟩
    constructor
    · rintro ⟨v', hv⟩
      exact h.all_live hwf hcount.1 (keepBelow_eq.mp hv).1
    · intro hv
      exact ⟨v, keepBelow_eq.mpr ⟨live_lt hv, rfl⟩⟩
  · exact ⟨_, _, compaction_renumberedModule hwf h, fun v => h.value_some hwf⟩

end Main

/-! ### What a compaction preserves -/

section Preservation

variable {m m' : Module} {σ ω : Nat → Option Nat}

theorem TermRec.rename_kind (t : TermRec) : (t.rename σ).kind = t.kind := by
  unfold TermRec.rename; split <;> rfl

theorem TermRec.rename_inSlice (t : TermRec) (f : Bool) (k : Nat) :
    (t.rename σ).InSlice f k ↔ t.InSlice f k := by
  unfold TermRec.rename; split <;> rfl

theorem TermRec.rename_args (m' : Module) (t : TermRec) (f : Bool) :
    m'.termArgsConst (t.rename σ) f = m'.termArgsConst t f := by
  unfold TermRec.rename; split <;> rfl

/-- A kept value whose operation survives gets the surviving operation. -/
theorem Compaction.op_bind (h : Compaction m m' σ ω) (hwf : m.WF) {v v' : Nat}
    (hv : σ v = some v') {o : Nat} (ho : (m.valueRec v).op = some o) :
    ∃ o', ω o = some o' ∧ (m'.valueRec v').op = some o' := by
  obtain ⟨h1, h2⟩ := hwf.value_op v (h.value_lt v v' hv) o ho
  obtain ⟨o', ho'⟩ := (h.op_dst o h1).mpr ⟨v', h2 ▸ hv⟩
  exact ⟨o', ho', by rw [h.valueRec v v' hv]; simp [ho, ho']⟩

theorem Compaction.dst (h : Compaction m m' σ ω) {o o' : Nat} (ho : ω o = some o') :
    σ (m.opRec o).dst = some (m'.opRec o').dst := by
  obtain ⟨v', hv'⟩ := (h.op_dst o (h.op_lt o o' ho)).mp ⟨o', ho⟩
  rw [hv', h.opRec o o' ho, OpRec.rename, renamed_eq hv']

theorem Compaction.opMap (h : Compaction m m' σ ω) {o o' : Nat} (ho : ω o = some o') :
    OpMap m m' σ o o' :=
  ⟨h.dst ho, h.opRec o o' ho ▸ OpRec.renames_rename σ _, h.src_kept o o' ho⟩

/-- The relation of renamed lists, for lists of kept values. -/
theorem forall₂_renamed {vs : List Nat} (h : ∀ v ∈ vs, ∃ v', σ v = some v') :
    List.Forall₂ (fun v v' => σ v = some v') vs (vs.map (renamed σ)) := by
  rw [List.forall₂_map_right_iff]
  exact List.forall₂_same.mpr fun v hv => by
    obtain ⟨v', hv'⟩ := h v hv
    rw [renamed_eq hv', hv']

/-- Every value of the compacted module is a kept one. -/
theorem Compaction.value_from (h : Compaction m m' σ ω) {v' : Nat} (hv' : v' < m'.values.length) :
    ∃ v, σ v = some v' ∧ v < m.values.length := by
  obtain ⟨v, hv⟩ := (h.value_range v').mp hv'
  exact ⟨v, hv, h.value_lt v v' hv⟩

theorem Compaction.op_from (h : Compaction m m' σ ω) {o' : Nat} (ho' : o' < m'.ops.length) :
    ∃ o, ω o = some o' ∧ o < m.ops.length := by
  obtain ⟨o, ho⟩ := (h.op_range o').mp ho'
  exact ⟨o, ho, h.op_lt o o' ho⟩

theorem Compaction.inSlice (h : Compaction m m' σ ω) {b : Nat} (hb : b < m.blocks.length)
    (f : Bool) (k : Nat) :
    (m'.blockRec b).term.InSlice f k ↔ (m.blockRec b).term.InSlice f k := by
  rw [h.term b hb, TermRec.rename_inSlice]

/-- Kept operations and their results still point at each other. -/
theorem Compaction.link (h : Compaction m m' σ ω) (hwf : m.WF) {o' : Nat}
    (ho' : o' < m'.ops.length) : (m'.opRec o').dst < m'.values.length ∧
      (m'.valueRec (m'.opRec o').dst).op = some o' := by
  obtain ⟨o, ho, hlt⟩ := h.op_from ho'
  obtain ⟨p', hp', hlink⟩ := h.op_bind hwf (h.dst ho) (hwf.op_dst o hlt).2
  obtain rfl : o' = p' := Option.some.inj (ho ▸ hp')
  exact ⟨(h.value_range _).mpr ⟨_, h.dst ho⟩, hlink⟩

theorem Compaction.backlink (h : Compaction m m' σ ω) (hwf : m.WF) {v' : Nat}
    (hv' : v' < m'.values.length) {o' : Nat} (ho' : (m'.valueRec v').op = some o') :
    o' < m'.ops.length ∧ (m'.opRec o').dst = v' := by
  obtain ⟨v, hv, hlt⟩ := h.value_from hv'
  rw [h.valueRec v v' hv] at ho'
  obtain ⟨o, ho, hoo⟩ := Option.bind_eq_some_iff.mp ho'
  obtain ⟨h1, h2⟩ := hwf.value_op v hlt o ho
  refine ⟨(h.op_range o').mpr ⟨o, hoo⟩, ?_⟩
  have := h.dst hoo
  rw [h2, hv] at this
  exact (Option.some.inj this).symm

theorem Compaction.src_lt (h : Compaction m m' σ ω) {o' : Nat} (ho' : o' < m'.ops.length) {s' : Nat}
    (hs' : s' ∈ (m'.opRec o').src) : s' < m'.values.length := by
  obtain ⟨o, ho, hlt⟩ := h.op_from ho'
  rw [h.opRec o o' ho] at hs'
  obtain ⟨s, hs, rfl⟩ := List.mem_map.mp hs'
  obtain ⟨s', hσ⟩ := h.src_kept o o' ho s hs
  exact (h.value_range _).mpr ⟨s, by rw [renamed_eq hσ, hσ]⟩

theorem Compaction.mem_ops (h : Compaction m m' σ ω) (hwf : m.WF) {b : Nat}
    (hb : b < m.blocks.length) (o' : Nat) : o' ∈ (m'.blockRec b).ops ↔
      o' < m'.ops.length ∧ (m'.valueRec (m'.opRec o').dst).block = b := by
  rw [h.ops b hb, List.mem_filterMap]
  constructor
  · rintro ⟨o, ho, hoo⟩
    obtain ⟨h1, h2⟩ := (hwf.block_ops b hb o).mp ho
    refine ⟨(h.op_range o').mpr ⟨o, hoo⟩, ?_⟩
    rw [h.valueRec _ _ (h.dst hoo)]
    exact h2
  · rintro ⟨ho', hblk⟩
    obtain ⟨o, ho, hlt⟩ := h.op_from ho'
    rw [h.valueRec _ _ (h.dst ho)] at hblk
    exact ⟨o, (hwf.block_ops b hb o).mpr ⟨hlt, hblk⟩, ho⟩

theorem Compaction.mem_params (h : Compaction m m' σ ω) (hwf : m.WF) {b : Nat}
    (hb : b < m.blocks.length) (v' : Nat) : v' ∈ (m'.blockRec b).params ↔
      v' < m'.values.length ∧ (m'.valueRec v').op = none ∧ (m'.valueRec v').block = b := by
  rw [h.params b hb, List.mem_map]
  constructor
  · rintro ⟨v, hv, rfl⟩
    obtain ⟨v', hσ⟩ := h.param_kept b hb v hv
    obtain ⟨h1, h2, h3⟩ := (hwf.block_params b hb v).mp hv
    rw [renamed_eq hσ, h.valueRec v v' hσ]
    exact ⟨(h.value_range v').mpr ⟨v, hσ⟩, by simp [h2], h3⟩
  · rintro ⟨hv', hop', hblk⟩
    obtain ⟨v, hv, hlt⟩ := h.value_from hv'
    refine ⟨v, (hwf.block_params b hb v).mpr ⟨hlt, ?_, ?_⟩, renamed_eq hv⟩
    · -- an operation of a kept value survives, so a value without one had none
      cases ho : (m.valueRec v).op with
      | none => rfl
      | some o =>
        obtain ⟨o', -, hlink⟩ := h.op_bind hwf hv ho
        rw [hop'] at hlink
        cases hlink
    · rw [h.valueRec v v' hv] at hblk
      exact hblk

theorem Compaction.params_nodup (h : Compaction m m' σ ω) (hwf : m.WF) {b : Nat}
    (hb : b < m.blocks.length) : (m'.blockRec b).params.Nodup := by
  rw [h.params b hb]
  refine List.Nodup.map_on ?_ (hwf.params_nodup b hb)
  intro u hu v hv huv
  obtain ⟨u', hu'⟩ := h.param_kept b hb u hu
  obtain ⟨v', hv'⟩ := h.param_kept b hb v hv
  rw [renamed_eq hu', renamed_eq hv'] at huv
  exact h.value_inj u v v' (huv ▸ hu') hv'

theorem Compaction.termWF (h : Compaction m m' σ ω) (hwf : m.WF) {b : Nat}
    (hb : b < m.blocks.length) : TermWF m' (m'.blockRec b).term := by
  have ht := hwf.term b hb
  rw [h.term b hb]
  unfold TermRec.rename
  split
  · next hk =>
    obtain ⟨u', hu'⟩ := h.use_kept b hb _ (condition_mem_termUses hk)
    refine ⟨fun hj => ?_, fun _ => ⟨h.blocks ▸ (ht.cbranch hk).1, h.blocks ▸ (ht.cbranch hk).2.1,
      ?_⟩, h.termArgs ▸ ht.true_le, h.termArgs ▸ ht.false_le⟩
    · rw [hk] at hj; cases hj
    · show renamed σ _ < _
      rw [renamed_eq hu']
      exact (h.value_range u').mpr ⟨_, hu'⟩
  · next hk =>
    exact ⟨fun hj => h.blocks ▸ ht.jump hj, fun hc => absurd hc hk, h.termArgs ▸ ht.true_le,
      h.termArgs ▸ ht.false_le⟩

/-- **A compaction keeps the representation invariant.** -/
theorem Compaction.wf (h : Compaction m m' σ ω) (hwf : m.WF) : m'.WF := by
  refine ⟨le_trans h.values_le hwf.values_le, le_trans h.ops_le hwf.ops_le,
    h.blocks ▸ hwf.blocks_le, ?_, ?_, fun o' ho' => h.link hwf ho',
    fun v' hv' o' ho' => h.backlink hwf hv' ho', fun o' ho' s' hs' => h.src_lt ho' hs', ?_,
    fun b hb => h.mem_ops hwf (h.blocks ▸ hb), fun b hb => h.ops_sorted b (h.blocks ▸ hb),
    fun b hb => h.mem_params hwf (h.blocks ▸ hb), fun b hb => h.params_nodup hwf (h.blocks ▸ hb),
    fun b hb => h.termWF hwf (h.blocks ▸ hb), ?_⟩
  · intro v' hv'
    obtain ⟨v, hv, hlt⟩ := h.value_from hv'
    rw [Module.valueType, h.valueRec v v' hv]
    exact hwf.value_type v hlt
  · intro v' hv'
    obtain ⟨v, hv, hlt⟩ := h.value_from hv'
    rw [h.valueRec v v' hv, h.blocks]
    exact hwf.value_block v hlt
  · intro o' ho'
    obtain ⟨o, ho, hlt⟩ := h.op_from ho'
    rw [h.opRec o o' ho]
    simpa [OpRec.rename] using hwf.src_le o hlt
  · intro b hb c hc f f' k h1 h2
    have hb := h.blocks ▸ hb
    have hc := h.blocks ▸ hc
    exact hwf.slices b hb c hc f f' k ((h.inSlice hb f k).mp h1) ((h.inSlice hc f' k).mp h2)

/-- A constant keeps its operation, so it stays the same constant. -/
theorem Compaction.const (h : Compaction m m' σ ω) (hwf : m.WF) {v v' : Nat} (hv : σ v = some v')
    (hc : m.valueIsGlobalConst v = true) :
    m'.valueIsGlobalConst v' = true ∧ m'.constValue v' = m.constValue v := by
  have hwf' := h.wf hwf
  have hlt := h.value_lt v v' hv
  have hlt' : v' < m'.values.length := (h.value_range v').mpr ⟨v, hv⟩
  have htype : m'.valueType v' = m.valueType v := by
    rw [Module.valueType, h.valueRec v v' hv]; rfl
  cases ho : (m.valueRec v).op with
  | none => simp [Module.valueIsGlobalConst, Module.valueOp, ho] at hc
  | some o =>
    have hop := m.valueOp_eq hwf hlt ho
    obtain ⟨o', hoo, ho'⟩ := h.op_bind hwf hv ho
    have hop' := m'.valueOp_eq hwf' hlt' ho'
    rw [h.opRec o o' hoo] at hop'
    refine ⟨?_, ?_⟩
    · simp only [Module.valueIsGlobalConst, hop, Bool.and_eq_true, beq_iff_eq] at hc
      simp [Module.valueIsGlobalConst, Module.validValue, hop', hlt', OpRec.rename, hc.2]
    · simp [Module.constValue, hop, hop', htype, OpRec.rename]

theorem Compaction.termMap (h : Compaction m m' σ ω) {b : Nat} (hb : b < m.blocks.length) :
    TermMap m m' σ (m.blockRec b).term (m'.blockRec b).term := by
  have hargs : ∀ f, (m.blockRec b).term.Uses f → List.Forall₂ (fun a a' => σ a = some a')
      (m.termArgsConst (m.blockRec b).term f) (m'.termArgsConst (m'.blockRec b).term f) := by
    intro f hf
    rw [h.term b hb, TermRec.rename_args, h.args b hb f hf]
    exact forall₂_renamed fun a ha => h.use_kept b hb a (mem_termUses_of_uses hf ha)
  have hcond : (m.blockRec b).term.kind = .cbranch →
      σ (m.blockRec b).term.condition = some (m'.blockRec b).term.condition := by
    intro hk
    obtain ⟨u', hu'⟩ := h.use_kept b hb _ (condition_mem_termUses hk)
    rw [h.term b hb, TermRec.rename, if_pos hk]
    show _ = some (renamed σ _)
    rw [renamed_eq hu', hu']
  refine ⟨by rw [h.term b hb, TermRec.rename_kind], ?_, ?_, ?_, ?_, hcond, fun hk => hargs false hk,
    fun hk => hargs true hk⟩ <;>
  · rw [h.term b hb]
    unfold TermRec.rename
    split <;> rfl

/-- A compaction renames the module by its value map. -/
theorem Compaction.moduleMap (h : Compaction m m' σ ω) (hwf : m.WF) : ModuleMap m m' σ where
  blocks := h.blocks
  type v v' hv _ := ⟨(h.value_range v').mpr ⟨v, hv⟩, by
    rw [Module.valueType, h.valueRec v v' hv]; rfl⟩
  const v v' hv hc := h.const hwf hv hc
  params b hb := by
    rw [h.params b hb]
    exact forall₂_renamed (h.param_kept b hb)
  param_lt b hb p hp := ((hwf.block_params b hb p).mp hp).1
  term b hb := h.termMap hb

/-- **A compaction of a verified module is verified.** -/
theorem Compaction.verified (h : Compaction m m' σ ω) (hwf : m.WF) (hver : m.Verified) :
    m'.Verified := by
  have hm := h.moduleMap hwf
  have hwf' := h.wf hwf
  refine verified_rename hm hwf' hver h.ops ?_ ?_
  · intro b hb o ho o' hoo av av' hav hok
    have hmem : o' ∈ (m'.blockRec b).ops := by
      rw [h.ops b hb]
      exact List.mem_filterMap.mpr ⟨o, ho, hoo⟩
    exact ⟨(h.opMap hoo).opOk hm hwf' (h.blocks ▸ hb) hmem hav hok, h.dst hoo⟩
  · intro b hb pre o post d' hsplit hoo hd'
    have hlt : o < m.ops.length :=
      ((hwf.block_ops b hb o).mp (by rw [hsplit]; simp)).1
    obtain ⟨o', ho'⟩ := (h.op_dst o hlt).mpr ⟨d', hd'⟩
    rw [hoo] at ho'
    cases ho'

end Preservation

end Xair
