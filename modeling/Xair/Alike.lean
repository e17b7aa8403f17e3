import Xair.Draft

/-!
# Modules that look alike

Two modules are alike (`Alike`) if they have the same values, operations and blocks, the same
arguments at every terminator, and a table for the same operations.  They may differ in where
the arguments are stored, in arguments that no terminator owns, and in the layout of the table.

Every call has the same outcome on modules that are alike and leaves modules that are alike
(`alike_call`, with the passes in `AlikePasses.lean`).
-/

namespace Xair

/-- Terminators that differ at most in where their arguments are stored.  Edges that the kind
does not have carry no arguments. -/
structure TermAlike (m m' : Module) (t t' : TermRec) : Prop where
  kind : t'.kind = t.kind
  condition : t'.condition = t.condition
  trueTarget : t'.trueTarget = t.trueTarget
  falseTarget : t'.falseTarget = t.falseTarget
  code : t'.code = t.code
  count : ∀ f, t'.argCount f = t.argCount f
  args : ∀ f, m'.termArgsConst t' f = m.termArgsConst t f
  unused : ∀ f, ¬ t.Uses f → t.argCount f = 0

/-- Blocks that differ at most in where arguments are stored. -/
structure BlockAlike (m m' : Module) (bb bb' : BlockRec) : Prop where
  name : bb'.name = bb.name
  params : bb'.params = bb.params
  ops : bb'.ops = bb.ops
  term : TermAlike m m' bb.term bb'.term

/-- The arrays are the same up to where arguments are stored. -/
structure ArraysAlike (m m' : Module) : Prop where
  values : m'.values = m.values
  ops : m'.ops = m.ops
  blocks : m'.blocks.length = m.blocks.length
  block : ∀ b < m.blocks.length, BlockAlike m m' (m.blockRec b) (m'.blockRec b)

/-- The modules look alike. -/
structure Alike (m m' : Module) : Prop where
  wf : m.WF
  wf' : m'.WF
  arrays : ArraysAlike m m'
  frozen : m'.frozen = m.frozen
  table : ∃ os, Tabled m os ∧ Tabled m' os

/-! ### The parts of modules that are alike -/

/-- An edge without arguments. -/
theorem termArgsConst_nil (m : Module) {t : TermRec} {f : Bool} (h : t.argCount f = 0) :
    m.termArgsConst t f = [] := by
  apply List.ext_getElem?
  intro j
  rw [termArgsConst_getElem?, h, if_neg (Nat.not_lt_zero j)]
  rfl

theorem termAlike_empty (m m' : Module) :
    TermAlike m m' (TermRec.empty .none) (TermRec.empty .none) := by
  have hcount : ∀ f, (TermRec.empty .none).argCount f = 0 := by
    intro f
    cases f <;> rfl
  exact ⟨rfl, rfl, rfl, rfl, rfl, fun _ => rfl,
    fun f => by rw [termArgsConst_nil m (hcount f), termArgsConst_nil m' (hcount f)],
    fun f _ => hcount f⟩

namespace ArraysAlike

variable {m m' n n' : Module} (h : ArraysAlike m m')

include h

theorem valueRec : m'.valueRec = m.valueRec := by
  funext v
  rw [Module.valueRec, h.values]
  rfl

theorem opRec : m'.opRec = m.opRec := by
  funext o
  rw [Module.opRec, h.ops]
  rfl

theorem valueType : m'.valueType = m.valueType := by
  funext v
  rw [Module.valueType, h.valueRec]
  rfl

theorem validValue : m'.validValue = m.validValue := by
  funext v
  rw [Module.validValue, h.values]
  rfl

theorem validBlock : m'.validBlock = m.validBlock := by
  funext b
  rw [Module.validBlock, h.blocks]
  rfl

theorem valueOp : m'.valueOp = m.valueOp := by
  funext v
  rw [Module.valueOp, h.valueRec, h.ops]
  rfl

theorem valueIsGlobalConst : m'.valueIsGlobalConst = m.valueIsGlobalConst := by
  funext v
  rw [Module.valueIsGlobalConst, h.validValue, h.valueOp]
  rfl

theorem opKey : m'.opKey = m.opKey := by
  funext op
  rw [Module.opKey, h.valueRec, h.valueType]
  rfl

theorem blockRec (b : Nat) : BlockAlike m m' (m.blockRec b) (m'.blockRec b) := by
  by_cases hb : b < m.blocks.length
  · exact h.block b hb
  · have hdefault : m.blockRec b = Module.defaultBlock := List.getD_eq_default _ _ (not_lt.mp hb)
    have hdefault' : m'.blockRec b = Module.defaultBlock :=
      List.getD_eq_default _ _ (by rw [h.blocks]; exact not_lt.mp hb)
    rw [hdefault, hdefault']
    exact ⟨rfl, rfl, rfl, termAlike_empty m m'⟩

theorem termKind (b : Nat) : (m'.blockRec b).term.kind = (m.blockRec b).term.kind :=
  (h.blockRec b).term.kind

omit h in
/-- The relation only speaks of the arrays. -/
theorem congr (h : ArraysAlike m m') (hc : SameCore m n) (hc' : SameCore m' n') :
    ArraysAlike n n' := by
  obtain ⟨vs, os, bs, ta, vn, vc, st, fr⟩ := m
  obtain ⟨vs', os', bs', ta', vn', vc', st', fr'⟩ := m'
  obtain ⟨ws, ps, cs, ua, wn, wc, su, gr⟩ := n
  obtain ⟨ws', ps', cs', ua', wn', wc', su', gr'⟩ := n'
  obtain ⟨rfl, rfl, rfl, rfl⟩ := hc
  obtain ⟨rfl, rfl, rfl, rfl⟩ := hc'
  refine ⟨h.values, h.ops, h.blocks, fun b hb => ?_⟩
  obtain ⟨hname, hparams, hops, hterm⟩ := h.block b hb
  exact ⟨hname, hparams, hops, hterm.kind, hterm.condition, hterm.trueTarget, hterm.falseTarget,
    hterm.code, hterm.count, hterm.args, hterm.unused⟩

end ArraysAlike

/-! ### Changes -/

section Changes

variable {m m' n n' : Module} {bb bb' : BlockRec}

theorem TermAlike.grows {t t' : TermRec} (h : TermAlike m m' t t') (hwf : TermWF m t)
    (hwf' : TermWF m' t') (hg : Grows m n) (hg' : Grows m' n') : TermAlike n n' t t' :=
  ⟨h.kind, h.condition, h.trueTarget, h.falseTarget, h.code, h.count,
    fun f => by rw [hg'.termArgsConst hwf', hg.termArgsConst hwf, h.args f], h.unused⟩

/-- A block that is not touched. -/
theorem Alike.kept (h : Alike m m') (hg : Grows m n) (hg' : Grows m' n') {b : Nat}
    (hb : b < m.blocks.length) : BlockAlike n n' (m.blockRec b) (m'.blockRec b) := by
  obtain ⟨hname, hparams, hops, hterm⟩ := h.arrays.block b hb
  exact ⟨hname, hparams, hops, hterm.grows (h.wf.term b hb)
    (h.wf'.term b (h.arrays.blocks ▸ hb)) hg hg'⟩

theorem Alike.withBlock (h : Alike m m') (name : Name) :
    ArraysAlike (m.withBlock name) (m'.withBlock name) := by
  have hlen := h.arrays.blocks
  refine ⟨h.arrays.values, h.arrays.ops, by simp [Module.withBlock, hlen], fun b hb => ?_⟩
  rw [m.blockRec_withBlock, m'.blockRec_withBlock, hlen]
  split
  · next hlt => exact h.kept (grows_withBlock m name) (grows_withBlock m' name) hlt
  · split
    · exact ⟨rfl, rfl, rfl, termAlike_empty _ _⟩
    · simp only [Module.withBlock, List.length_append, List.length_singleton] at hb
      omega

theorem Alike.withParam (h : Alike m m') (b : Nat) (t : Ty) (name : Name) :
    ArraysAlike (m.withParam b t name) (m'.withParam b t name) := by
  have hlen := h.arrays.blocks
  refine ⟨by simp only [Module.withParam, h.arrays.values], h.arrays.ops,
    by simp [Module.withParam, hlen], fun c hc => ?_⟩
  have hc : c < m.blocks.length := by simpa [Module.withParam] using hc
  have hkept := h.kept (grows_withParam m b t name) (grows_withParam m' b t name) hc
  rw [m.blockRec_withParam, m'.blockRec_withParam, hlen]
  split
  · next hbc =>
    rw [← hbc.1] at hkept
    rw [h.arrays.values]
    exact ⟨hkept.name, congrArg (· ++ [m.values.length]) hkept.params, hkept.ops, hkept.term⟩
  · exact hkept

theorem Alike.withOp (h : Alike m m') (k : OpKey) (name : Name) :
    ArraysAlike (m.withOp k name) (m'.withOp k name) := by
  have hlen := h.arrays.blocks
  refine ⟨by simp only [Module.withOp, h.arrays.values, h.arrays.ops],
    by simp only [Module.withOp, h.arrays.values, h.arrays.ops],
    by simp [Module.withOp, hlen], fun c hc => ?_⟩
  have hc : c < m.blocks.length := by simpa [Module.withOp] using hc
  have hkept := h.kept (grows_withOp m k name) (grows_withOp m' k name) hc
  rw [m.blockRec_withOp, m'.blockRec_withOp, hlen]
  split
  · next hbc =>
    rw [← hbc.1] at hkept
    rw [h.arrays.ops]
    exact ⟨hkept.name, hkept.params, congrArg (· ++ [m.ops.length]) hkept.ops, hkept.term⟩
  · exact hkept

theorem grows_withArgs (m : Module) (ids : List Nat) : Grows m (m.withArgs ids) :=
  ⟨Nat.le_refl _, Nat.le_refl _, fun _ _ => rfl, fun _ _ => rfl, ids, rfl⟩

/-- Arguments that no terminator owns. -/
theorem Alike.withArgs (h : Alike m m') (ids ids' : List Nat) :
    ArraysAlike (m.withArgs ids) (m'.withArgs ids') :=
  ⟨h.arrays.values, h.arrays.ops, h.arrays.blocks,
    fun _ hb => h.kept (grows_withArgs m ids) (grows_withArgs m' ids') hb⟩

theorem Alike.withTerm (h : Alike m m') (b : Nat) {t t' : TermRec} {ids : List Nat}
    (ht : TermAlike (m.withTerm b t ids) (m'.withTerm b t' ids) t t') :
    ArraysAlike (m.withTerm b t ids) (m'.withTerm b t' ids) := by
  have hlen := h.arrays.blocks
  refine ⟨h.arrays.values, h.arrays.ops, by simp [Module.withTerm, hlen], fun c hc => ?_⟩
  have hc : c < m.blocks.length := by simpa [Module.withTerm] using hc
  have hkept := h.kept (grows_withTerm m b t ids) (grows_withTerm m' b t' ids) hc
  rw [m.blockRec_withTerm, m'.blockRec_withTerm, hlen]
  split
  · next hbc =>
    rw [← hbc.1] at hkept
    exact ⟨hkept.name, hkept.params, hkept.ops, ht⟩
  · exact hkept

end Changes

/-! ### Operations -/

section Ops

variable {m m' : Module} {k : OpKey} {name : Option Name} {os : List Nat}

/-- A lookup does not depend on the layout of the table. -/
theorem Alike.lookup (h : Alike m m') (k : OpKey) :
    (valueNumberLookup m' (valueNumberHash k) k).2 =
      (valueNumberLookup m (valueNumberHash k) k).2 := by
  obtain ⟨os, ht, ht'⟩ := h.table
  have hkey : ∀ o, m'.opKey (m'.opRec o) = m.opKey (m.opRec o) := fun o => by
    rw [h.arrays.opKey, h.arrays.opRec]
  cases hl : (valueNumberLookup m (valueNumberHash k) k).2 with
  | some v =>
    obtain ⟨o, ho, hd, hs⟩ := ht.lookup_some h.wf hl
    have hs' : SameOp (m'.opKey (m'.opRec o)) k := by
      rw [hkey]
      exact hs
    obtain ⟨v', hv'⟩ := (ht'.lookup_iff h.wf' k).mpr ⟨o, ho, hs'⟩
    rw [hv', ht'.lookup_eq h.wf' ho hs' hv', h.arrays.opRec, hd]
  | none =>
    cases hl' : (valueNumberLookup m' (valueNumberHash k) k).2 with
    | none => rfl
    | some v =>
      obtain ⟨o, ho, -, hs⟩ := ht'.lookup_some h.wf' hl'
      rw [hkey] at hs
      obtain ⟨v', hv'⟩ := (ht.lookup_iff h.wf k).mpr ⟨o, ho, hs⟩
      rw [hl] at hv'
      cases hv'

/-- The status of `add_op`. -/
theorem addOp_status (m : Module) (k : OpKey) (name : Option Name) : (addOp m k name).2 =
    if m.frozen || !m.validBlock k.block || decide (3 < k.srcs.length) then .error .errBadArg
    else if (m.blockRec k.block).term.kind ≠ .none then .error .errBadArg
    else if uint32Max ≤ m.ops.length then .error .errRange
    else (valueNumberLookup m (valueNumberHash k) k).2.elim
      (if !k.type.isValueType then .error .errBadArg
        else if uint32Max ≤ m.values.length then .error .errRange else .ok m.values.length)
      .ok := by
  unfold addOp
  split
  · rfl
  · next hguard =>
    split
    · rfl
    · split
      · rfl
      · have hcore := sameCore_valueNumberLookup m (valueNumberHash k) k
        rcases hl : valueNumberLookup m (valueNumberHash k) k with ⟨m₁, found⟩
        rw [hl] at hcore
        cases found with
        | some v => rfl
        | none =>
          have hcore₂ := hcore.trans (sameCore_valueNumberPrepareInsert m₁)
          have hfrozen := frozen_valueNumberLookup m (valueNumberHash k) k
          rw [hl] at hfrozen
          have hfrozen₂ := (frozen_valueNumberPrepareInsert m₁).trans hfrozen
          simp only [Bool.or_eq_true, not_or, Bool.not_eq_true] at hguard
          have hrefuse : ((valueNumberPrepareInsert m₁).frozen ||
              !(valueNumberPrepareInsert m₁).validBlock k.block || !k.type.isValueType) =
              !k.type.isValueType := by
            have hvalid : (valueNumberPrepareInsert m₁).validBlock k.block = m.validBlock k.block := by
              rw [Module.validBlock, hcore₂.blocks]
              rfl
            rw [hfrozen₂, hvalid, hguard.1.1, hguard.1.2, Bool.false_or, Bool.false_or]
          simp only [Option.elim_none, addValue, hrefuse, hcore₂.values]
          by_cases htype : (!k.type.isValueType) = true
          · simp only [if_pos htype]
          · by_cases hfull : uint32Max ≤ m.values.length
            · simp only [if_neg htype, if_pos hfull]
            · simp only [if_neg htype, if_neg hfull]

/-- An operation that was not appended leaves the table to the same operations. -/
theorem Tabled.kept (hwf : m.WF) (h : Tabled m os) (hc : SameCore m (addOp m k name).1) :
    Tabled (addOp m k name).1 os := by
  rcases tabled_addOp hwf h k name with ⟨h', -⟩ | ⟨-, ⟨n, hc'⟩, -⟩
  · exact h'
  · have hlen := congrArg List.length (hc'.ops.symm.trans hc.ops)
    simp [Module.withOp] at hlen

/-- An operation that was appended is in the table. -/
theorem Tabled.added (hwf : m.WF) (h : Tabled m os) {n : Name}
    (hc : SameCore (m.withOp k n) (addOp m k name).1) :
    Tabled (addOp m k name).1 (os ++ [m.ops.length]) := by
  rcases tabled_addOp hwf h k name with ⟨-, hc', -⟩ | ⟨h', -⟩
  · have hlen := congrArg List.length (hc.ops.symm.trans hc'.ops)
    simp [Module.withOp] at hlen
  · exact h'

/-- Calls that have the same outcome and leave modules that are alike. -/
def RunsAlike {α : Type} (r r' : Module × Except Status α) : Prop := r'.2 = r.2 ∧ Alike r.1 r'.1

theorem alike_addOp (h : Alike m m') (hs : ∀ s ∈ k.srcs, s < m.values.length) :
    RunsAlike (addOp m k name) (addOp m' k name) := by
  have hstatus : (addOp m' k name).2 = (addOp m k name).2 := by
    rw [addOp_status, addOp_status, h.lookup, h.frozen, h.arrays.validBlock, h.arrays.termKind,
      h.arrays.ops, h.arrays.values]
  have hs' : ∀ s ∈ k.srcs, s < m'.values.length := by
    rw [h.arrays.values]
    exact hs
  have hwf := wf_buildStep h.wf (buildStep_addOp hs name)
  have hwf' := wf_buildStep h.wf' (buildStep_addOp hs' name)
  have hfrozen : (addOp m' k name).1.frozen = (addOp m k name).1.frozen := by
    rw [frozen_addOp, frozen_addOp, h.frozen]
  obtain ⟨os, ht, ht'⟩ := h.table
  have hsame : SameCore m (addOp m k name).1 → SameCore m' (addOp m' k name).1 →
      RunsAlike (addOp m k name) (addOp m' k name) := fun hc hc' =>
    ⟨hstatus, hwf, hwf', h.arrays.congr hc hc', hfrozen, os, ht.kept h.wf hc, ht'.kept h.wf' hc'⟩
  rcases addOp_cases m k name with
    ⟨hc, e, he⟩ | ⟨-, -, hc, v, hv, -, hfound⟩ | ⟨-, -, -, -, -, -, hnone, hc, hv⟩
  · rcases addOp_cases m' k name with ⟨hc', -⟩ | ⟨-, -, hc', -⟩ | ⟨-, -, -, -, -, -, -, -, hv'⟩
    · exact hsame hc hc'
    · exact hsame hc hc'
    · rw [hstatus, he] at hv'
      cases hv'
  · rcases addOp_cases m' k name with ⟨hc', -⟩ | ⟨-, -, hc', -⟩ | ⟨-, -, -, -, -, -, hnone', -⟩
    · exact hsame hc hc'
    · exact hsame hc hc'
    · rw [h.lookup, hfound] at hnone'
      cases hnone'
  · rcases addOp_cases m' k name with
      ⟨-, e', he'⟩ | ⟨-, -, -, v', -, -, hfound'⟩ | ⟨-, -, -, -, -, -, -, hc', -⟩
    · rw [hstatus, hv] at he'
      cases he'
    · rw [h.lookup, hnone] at hfound'
      cases hfound'
    · have harrays := h.withOp k (copyName name [118] m.values.length)
      have hadded' := ht'.added h.wf' hc'
      rw [h.arrays.values] at hc'
      rw [h.arrays.ops] at hadded'
      exact ⟨hstatus, hwf, hwf', harrays.congr hc hc', hfrozen, _, ht.added h.wf hc, hadded'⟩

end Ops

/-! ### Blocks and parameters -/

section Builds

variable {m m' n n' : Module} {b : Nat}

/-- A change that keeps the table. -/
theorem Alike.framed (h : Alike m m') (hwf : n.WF) (hwf' : n'.WF) (ha : ArraysAlike n n')
    (hf : n.frozen = m.frozen) (hf' : n'.frozen = m'.frozen) (ht : TableFrame m n)
    (ht' : TableFrame m' n') : Alike n n' := by
  obtain ⟨os, hos, hos'⟩ := h.table
  exact ⟨hwf, hwf', ha, hf'.trans (h.frozen.trans hf.symm), os, hos.frame h.wf ht,
    hos'.frame h.wf' ht'⟩

/-- A call that is refused alike. -/
theorem Alike.refused {α : Type} (h : Alike m m') (e : Status) :
    RunsAlike (m, (.error e : Except Status α)) (m', .error e) := ⟨rfl, h⟩

/-- `xair_block_create` in one equation. -/
theorem blockCreate_eq (m : Module) (name : Option Name) : blockCreate m name =
    if m.frozen then (m, .error .errBadArg)
    else if uint32Max ≤ m.blocks.length then (m, .error .errRange)
    else (m.withBlock (copyName name [98, 98] m.blocks.length), .ok m.blocks.length) := rfl

theorem alike_blockCreate (h : Alike m m') (name : Option Name) :
    RunsAlike (blockCreate m name) (blockCreate m' name) := by
  have hwf := wf_call h.wf (.blockCreate name)
  have hwf' := wf_call h.wf' (.blockCreate name)
  have ht := tableFrame_blockCreate m name
  have ht' := tableFrame_blockCreate m' name
  change (blockCreate m name).1.WF at hwf
  change (blockCreate m' name).1.WF at hwf'
  rw [blockCreate_eq] at hwf ht ⊢
  rw [blockCreate_eq, h.frozen, h.arrays.blocks] at hwf' ht' ⊢
  by_cases hf : m.frozen = true
  · rw [if_pos hf, if_pos hf]
    exact h.refused _
  · by_cases hfull : uint32Max ≤ m.blocks.length
    · rw [if_neg hf, if_neg hf, if_pos hfull, if_pos hfull]
      exact h.refused _
    · rw [if_neg hf, if_neg hfull] at hwf ht hwf' ht' ⊢
      rw [if_neg hf, if_neg hfull]
      exact ⟨rfl, h.framed hwf hwf' (h.withBlock _) rfl rfl ht ht'⟩

theorem Alike.isOpen (h : Alike m m') : m'.isOpen b = m.isOpen b := by
  rw [Module.isOpen, Module.isOpen, h.frozen, h.arrays.validBlock, h.arrays.termKind]

theorem alike_blockAddParam (h : Alike m m') (b : Nat) (t : Ty) (name : Option Name) :
    RunsAlike (blockAddParam m b t name) (blockAddParam m' b t name) := by
  have hwf := wf_call h.wf (.blockAddParam b t name)
  have hwf' := wf_call h.wf' (.blockAddParam b t name)
  have ht := tableFrame_blockAddParam m b t name
  have ht' := tableFrame_blockAddParam m' b t name
  change (blockAddParam m b t name).1.WF at hwf
  change (blockAddParam m' b t name).1.WF at hwf'
  rw [blockAddParam_eq] at hwf ht ⊢
  rw [blockAddParam_eq, h.isOpen, h.arrays.values] at hwf' ht' ⊢
  by_cases hopen : m.isOpen b = true ∧ t.isValueType = true
  · by_cases hfull : uint32Max ≤ m.values.length
    · rw [if_pos hopen, if_pos hopen, if_pos hfull, if_pos hfull]
      exact h.refused _
    · rw [if_pos hopen, if_neg hfull] at hwf ht hwf' ht' ⊢
      rw [if_pos hopen, if_neg hfull]
      exact ⟨rfl, h.framed hwf hwf' (h.withParam b t _) rfl rfl ht ht'⟩
  · rw [if_neg hopen, if_neg hopen]
    exact h.refused _

end Builds

/-! ### Terminators -/

section Terms

variable {m m' : Module} {b : Nat}

/-- The arguments of a terminator that was written with them. -/
theorem termArgsConst_withTerm (m : Module) (b : Nat) {t : TermRec} (ids : List Nat) {f : Bool}
    {i : Nat} (h : t.argOffset f = m.termArgs.length + i) :
    (m.withTerm b t ids).termArgsConst t f = (ids.drop i).take (t.argCount f) := by
  rw [← take_drop_append m.termArgs, ← h]
  cases f <;> rfl

/-- Terminators that were written with the same arguments. -/
theorem termAlike_withTerm (m m' : Module) (b : Nat) {t t' : TermRec} (ids : List Nat)
    (hkind : t'.kind = t.kind) (hcond : t'.condition = t.condition)
    (htrue : t'.trueTarget = t.trueTarget) (hfalse : t'.falseTarget = t.falseTarget)
    (hcode : t'.code = t.code) (hcount : ∀ f, t'.argCount f = t.argCount f)
    (hunused : ∀ f, ¬ t.Uses f → t.argCount f = 0)
    (hslot : ∀ f, t.argCount f = 0 ∨ ∃ i, t.argOffset f = m.termArgs.length + i ∧
      t'.argOffset f = m'.termArgs.length + i) :
    TermAlike (m.withTerm b t ids) (m'.withTerm b t' ids) t t' := by
  refine ⟨hkind, hcond, htrue, hfalse, hcode, hcount, fun f => ?_, hunused⟩
  rcases hslot f with hzero | ⟨i, hi, hi'⟩
  · rw [termArgsConst_nil _ hzero, termArgsConst_nil _ ((hcount f).trans hzero)]
  · rw [termArgsConst_withTerm m b ids hi, termArgsConst_withTerm m' b ids hi', hcount]

/-- A terminator written in both modules. -/
theorem Alike.setTerm (h : Alike m m') {t t' : TermRec} {ids : List Nat}
    (hwf : (m.withTerm b t ids).WF) (hwf' : (m'.withTerm b t' ids).WF)
    (ht : TermAlike (m.withTerm b t ids) (m'.withTerm b t' ids) t t') :
    RunsAlike (m.withTerm b t ids, (.ok () : Except Status Unit))
      (m'.withTerm b t' ids, .ok ()) :=
  ⟨rfl, h.framed hwf hwf' (h.withTerm b ht) rfl rfl (tableFrame_of_eq rfl rfl rfl rfl rfl)
    (tableFrame_of_eq rfl rfl rfl rfl rfl)⟩

theorem alike_setJump (h : Alike m m') (b target : Nat) (args : ArgArray) :
    RunsAlike (setJump m b target args) (setJump m' b target args) := by
  have hwf := wf_buildStep h.wf (buildStep_setJump m b target args)
  have hwf' := wf_buildStep h.wf' (buildStep_setJump m' b target args)
  rw [setJump_eq] at hwf ⊢
  rw [setJump_eq, h.isOpen, h.arrays.validBlock] at hwf' ⊢
  by_cases hc : m.isOpen b = true ∧ m.validBlock target = true ∧ args.ids.length = args.count
  · rw [if_pos hc] at hwf hwf' ⊢
    rw [if_pos hc]
    refine h.setTerm hwf hwf' (termAlike_withTerm m m' b args.ids rfl rfl rfl rfl rfl ?_ ?_ ?_)
    · intro f
      cases f <;> rfl
    · intro f hf
      cases f
      · exact absurd (.inl rfl) hf
      · rfl
    · intro f
      cases f
      · exact .inr ⟨0, rfl, rfl⟩
      · exact .inl rfl
  · rw [if_neg hc, if_neg hc]
    exact h.refused _

theorem alike_setReturn (h : Alike m m') (b : Nat) (values : ArgArray) :
    RunsAlike (setReturn m b values) (setReturn m' b values) := by
  have hwf := wf_buildStep h.wf (buildStep_setReturn m b values)
  have hwf' := wf_buildStep h.wf' (buildStep_setReturn m' b values)
  rw [setReturn_eq] at hwf ⊢
  rw [setReturn_eq, h.isOpen] at hwf' ⊢
  by_cases hc : m.isOpen b = true ∧ values.ids.length = values.count
  · rw [if_pos hc] at hwf hwf' ⊢
    rw [if_pos hc]
    refine h.setTerm hwf hwf' (termAlike_withTerm m m' b values.ids rfl rfl rfl rfl rfl ?_ ?_ ?_)
    · intro f
      cases f <;> rfl
    · intro f hf
      cases f
      · exact absurd (.inr (.inr rfl)) hf
      · rfl
    · intro f
      cases f
      · exact .inr ⟨0, rfl, rfl⟩
      · exact .inl rfl
  · rw [if_neg hc, if_neg hc]
    exact h.refused _

/-- Branches stay alike also when the false arguments are refused and the true ones stay
behind. -/
theorem alike_setCbranch (h : Alike m m') (b c target : Nat) (targs : ArgArray) (ftarget : Nat)
    (fargs : ArgArray) : RunsAlike (setCbranch m b c target targs ftarget fargs)
      (setCbranch m' b c target targs ftarget fargs) := by
  have hwf := wf_buildStep h.wf (buildStep_setCbranch m b c target targs ftarget fargs)
  have hwf' := wf_buildStep h.wf' (buildStep_setCbranch m' b c target targs ftarget fargs)
  rw [setCbranch_eq] at hwf ⊢
  rw [setCbranch_eq, h.isOpen, h.arrays.validBlock, h.arrays.validValue] at hwf' ⊢
  by_cases hc : (m.isOpen b = true ∧ m.validValue c = true ∧ m.validBlock target = true ∧
      m.validBlock ftarget = true) ∧ targs.ids.length = targs.count
  · rw [if_pos hc] at hwf hwf' ⊢
    rw [if_pos hc]
    by_cases hf : fargs.ids.length = fargs.count
    · rw [if_pos hf] at hwf hwf' ⊢
      rw [if_pos hf]
      refine h.setTerm hwf hwf'
        (termAlike_withTerm m m' b (targs.ids ++ fargs.ids) rfl rfl rfl rfl rfl ?_ ?_ ?_)
      · intro f
        cases f <;> rfl
      · intro f hu
        cases f
        · exact absurd (.inr (.inl rfl)) hu
        · exact absurd rfl hu
      · intro f
        cases f
        · exact .inr ⟨0, rfl, rfl⟩
        · exact .inr ⟨targs.count, rfl, rfl⟩
    · rw [if_neg hf] at hwf hwf' ⊢
      rw [if_neg hf]
      exact ⟨rfl, h.framed hwf hwf' (h.withArgs _ _) rfl rfl
        (tableFrame_of_eq rfl rfl rfl rfl rfl) (tableFrame_of_eq rfl rfl rfl rfl rfl)⟩
  · rw [if_neg hc, if_neg hc]
    exact h.refused _

/-- A terminator without arguments. -/
theorem alike_setPlain (h : Alike m m') (b : Nat) {kind : TermKind}
    (hk : kind ≠ .jump ∧ kind ≠ .cbranch) (code : Nat) :
    RunsAlike
      (if m.isOpen b = true then
        (m.withTerm b { TermRec.empty kind with code := code } [], (.ok () : Except Status Unit))
      else (m, .error .errBadArg))
      (if m'.isOpen b = true then
        (m'.withTerm b { TermRec.empty kind with code := code } [], .ok ())
      else (m', .error .errBadArg)) := by
  rw [h.isOpen]
  split
  · refine h.setTerm (h.wf.withTerm b (freshTerm_plain m hk code))
      (h.wf'.withTerm b (freshTerm_plain m' hk code))
      (termAlike_withTerm m m' b [] rfl rfl rfl rfl rfl (fun _ => rfl) ?_ ?_)
    · intro f _
      cases f <;> rfl
    · intro f
      cases f <;> exact .inl rfl
  · exact h.refused _

theorem alike_setTrap (h : Alike m m') (b code : Nat) :
    RunsAlike (setTrap m b code) (setTrap m' b code) := by
  rw [setTrap_eq, setTrap_eq]
  exact alike_setPlain h b (by decide) code

theorem alike_setFault (h : Alike m m') (b code : Nat) :
    RunsAlike (setFault m b code) (setFault m' b code) := by
  rw [setFault_eq, setFault_eq]
  exact alike_setPlain h b (by decide) code

end Terms

/-! ### Guarded operations and the freeze -/

section Guarded

variable {m m' : Module}

/-- The sources of a key are valid when the guard that checks them lets it through. -/
theorem alike_guarded (h : Alike m m') (g : Bool) (k : OpKey) (name : Option Name)
    (hs : g = false → ∀ s ∈ k.srcs, s < m.values.length) :
    RunsAlike (if g then (m, .error .errBadArg) else addOp m k name)
      (if g then (m', .error .errBadArg) else addOp m' k name) := by
  cases g with
  | true => exact h.refused _
  | false => exact alike_addOp h (hs rfl)

theorem alike_buildConstU64 (h : Alike m m') (b : Nat) (t : Ty) (w : Word) (name : Option Name) :
    RunsAlike (buildConstU64 m b t w name) (buildConstU64 m' b t w name) :=
  alike_guarded h _ _ name fun _ _ hs => absurd hs List.not_mem_nil

theorem alike_buildUnary (h : Alike m m') (b : Nat) (op : Opcode) (t : Ty) (src : Nat)
    (name : Option Name) : RunsAlike (buildUnary m b op t src name)
      (buildUnary m' b op t src name) := by
  rw [buildUnary, buildUnary, h.arrays.validValue]
  refine alike_guarded h _ _ name fun hg => ?_
  simpa [Module.validValue] using hg

theorem alike_buildBinary (h : Alike m m') (b : Nat) (op : Opcode) (t : Ty) (l r : Nat)
    (name : Option Name) : RunsAlike (buildBinary m b op t l r name)
      (buildBinary m' b op t l r name) := by
  rw [buildBinary, buildBinary, h.arrays.validValue]
  refine alike_guarded h _ _ name fun hg => ?_
  simpa [Module.validValue] using hg

theorem alike_buildLoad (h : Alike m m') (b : Nat) (t : Ty) (mem addr : Nat) (e : Endian)
    (name : Option Name) : RunsAlike (buildLoad m b t mem addr e name)
      (buildLoad m' b t mem addr e name) := by
  rw [buildLoad, buildLoad, h.arrays.validValue]
  refine alike_guarded h _ _ name fun hg => ?_
  simpa [Module.validValue] using hg

theorem alike_buildStore (h : Alike m m') (b mem addr data : Nat) (e : Endian)
    (name : Option Name) : RunsAlike (buildStore m b mem addr data e name)
      (buildStore m' b mem addr data e name) := by
  rw [buildStore, buildStore, h.arrays.validValue, h.arrays.valueType]
  refine alike_guarded h _ _ name fun hg => ?_
  simpa [Module.validValue, and_assoc] using hg

/-- A freeze drops both tables. -/
theorem alike_moduleFreeze (h : Alike m m') : RunsAlike (moduleFreeze m) (moduleFreeze m') := by
  unfold moduleFreeze
  rw [h.frozen]
  split
  · exact h.refused _
  · have hc : SameCore m { valueNumberClear m with frozen := true } := ⟨rfl, rfl, rfl, rfl⟩
    have hc' : SameCore m' { valueNumberClear m' with frozen := true } := ⟨rfl, rfl, rfl, rfl⟩
    exact ⟨rfl, h.wf.congr hc, h.wf'.congr hc', h.arrays.congr hc hc', rfl, [], tabled_nil rfl rfl,
      tabled_nil rfl rfl⟩

end Guarded

end Xair
