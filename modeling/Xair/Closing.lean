import Xair.Draft

/-!
# Closing a block with a branch

A terminator of a draft whose arguments can be used and have the types of the target's
parameters closes the block so that it passes (`setJump_closes`, `setCbranch_closes`,
`setReturn_closes`).  The blocks that were in order stay so, because the parameters of the
blocks stay as they are (`WritesIn`).
-/

namespace Xair

/-- `m'` is `m` with more operations in block `b`, or its terminator, and with more blocks. -/
structure WritesIn (b : Nat) (m m' : Module) : Prop where
  grows : Grows m m'
  blocks_le : m.blocks.length ≤ m'.blocks.length
  other : ∀ c < m.blocks.length, c ≠ b → m'.blockRec c = m.blockRec c
  params : ∀ c < m.blocks.length, (m'.blockRec c).params = (m.blockRec c).params

/-- The types of the arguments are those of the target's parameters. -/
def Module.Accepts (m : Module) (target : Nat) (args : List Nat) : Prop :=
  args.map m.valueType = (m.blockRec target).params.map m.valueType

instance (m : Module) (target : Nat) (args : List Nat) : Decidable (m.Accepts target args) :=
  inferInstanceAs (Decidable (_ = _))

section Writes

variable {m m' m'' : Module} {b c n : Nat} {name : Name}

theorem WritesIn.trans (h : WritesIn b m m') (h' : WritesIn b m' m'') : WritesIn b m m'' := by
  refine ⟨h.grows.trans h'.grows, Nat.le_trans h.blocks_le h'.blocks_le, fun c hc hne => ?_,
    fun c hc => ?_⟩
  · rw [h'.other c (Nat.lt_of_lt_of_le hc h.blocks_le) hne, h.other c hc hne]
  · rw [h'.params c (Nat.lt_of_lt_of_le hc h.blocks_le), h.params c hc]

theorem writesIn_newBlock (h : GrowsIn m.blocks.length (m.withBlock name) m') :
    WritesIn b m m' := by
  have hlen : m'.blocks.length = m.blocks.length + 1 := by
    rw [h.blocks]
    simp [Module.withBlock]
  have hrec : ∀ c < m.blocks.length, m'.blockRec c = m.blockRec c := fun c hc => by
    rw [h.other c (Nat.ne_of_lt hc), m.blockRec_withBlock, if_pos hc]
  exact ⟨(grows_withBlock m name).trans h.grows, by omega, fun c hc _ => hrec c hc,
    fun c hc => by rw [hrec c hc]⟩

theorem OpAdded.writesIn {k : OpKey} {v : Nat} (h : OpAdded k m v m') : WritesIn k.block m m' := by
  have hext := h.extends_
  refine ⟨hext.grows, Nat.le_of_eq hext.blocks.symm, fun c _ hne => hext.other c hne,
    fun c hc => ?_⟩
  by_cases hcb : c = k.block
  · subst hcb
    rcases h.blockRec hc with hrec | ⟨hrec, -⟩
    · rw [hrec]
    · rw [hrec]
      rfl
  · rw [hext.other c hcb]

theorem writesIn_withTerm (m : Module) (b : Nat) (t : TermRec) (ids : List Nat) :
    WritesIn b m (m.withTerm b t ids) := by
  refine ⟨grows_withTerm m b t ids, by simp [Module.withTerm], fun c _ hne => ?_, fun c _ => ?_⟩
  · rw [m.blockRec_withTerm, if_neg fun hbc => hne hbc.1.symm]
  · rw [m.blockRec_withTerm]
    split
    · next hbc => rw [hbc.1]
    · rfl

/-- Blocks that were in order stay in order. -/
theorem BlockOk.writes (hwf : m.WF) (h : WritesIn b m m') (hc : c < m.blocks.length) (hne : c ≠ b)
    (hok : BlockOk m c) : BlockOk m' c :=
  hok.grows hwf h.grows h.blocks_le hc (h.other c hc hne) fun t ht _ => h.params t ht

theorem Module.Usable.grows {v : Nat} (hu : m.Usable b v) (hwf : m.WF) (hwf' : m'.WF)
    (hb : b < m.blocks.length) (hlen : m.blocks.length ≤ m'.blocks.length) (h : Grows m m') :
    m'.Usable b v := by
  obtain ⟨hv, hu⟩ := (usable_iff hwf hb).mp hu
  refine (usable_iff hwf' (Nat.lt_of_lt_of_le hb hlen)).mpr
    ⟨Nat.lt_of_lt_of_le hv h.values_le, ?_⟩
  rw [h.valueRec v hv, h.valueIsGlobalConst hwf hv]
  exact hu

/-- A parameter can be used in its block. -/
theorem usable_param (hwf : m.WF) (hb : b < m.blocks.length) {v : Nat}
    (hv : v ∈ (m.blockRec b).params) : m.Usable b v := by
  obtain ⟨hlt, -, hblock⟩ := (hwf.block_params b hb v).mp hv
  exact (usable_iff hwf hb).mpr ⟨hlt, .inl hblock⟩

/-- A draft stays one when the module grows elsewhere. -/
theorem Draft.elsewhere (h : Draft m b) (hwf' : m'.WF) (hg : Grows m m')
    (hlen : m.blocks.length ≤ m'.blocks.length) (hrec : m'.blockRec b = m.blockRec b)
    (hf : m'.frozen = false) : Draft m' b := by
  refine ⟨hwf', hf, ⟨Nat.lt_of_lt_of_le h.isOpen.1 hlen, by rw [hrec]; exact h.isOpen.2⟩, ?_⟩
  rw [Module.availableAtStart, hrec]
  exact opsOk_grows h.wf hg _ (fun _ hv => hv) h.ops

end Writes

/-! ### Terminators -/

section Close

variable {m m' : Module} {b target : Nat} {args : ArgArray} {u : Unit}

/-- **Closing a draft.**  The block passes when its terminator does. -/
theorem Draft.close (h : Draft m b) {t : TermRec} {ids : List Nat}
    (hterm : TermOk (m.withTerm b t ids) t ((m.withTerm b t ids).availableAtEnd b)) :
    BlockOk (m.withTerm b t ids) b := by
  have hrec : (m.withTerm b t ids).blockRec b = { m.blockRec b with term := t } := by
    rw [m.blockRec_withTerm, if_pos ⟨rfl, h.isOpen.1⟩]
  refine ⟨fun v hv => ?_, ?_, by rw [hrec]; exact hterm⟩
  · rw [hrec] at hv
    obtain ⟨h1, -, h3⟩ := (h.wf.block_params b h.isOpen.1 v).mp hv
    exact ⟨h1, h3, h.wf.value_type v h1⟩
  · rw [Module.availableAtStart, hrec]
    exact opsOk_grows h.wf (grows_withTerm m b t ids) _ (fun _ hv => hv) h.ops

/-- An edge passes when its arguments can be used and have the right types. -/
theorem edgeOk_of_accepts (ht : target < m.blocks.length) {ids : List Nat}
    (hu : ∀ v ∈ ids, m.Usable b v) (hm : m.Accepts target ids) :
    EdgeOk m (m.availableAtEnd b) target ids := by
  refine ⟨ht, (List.forall₂_and_left _ _).mpr ⟨hu, ?_⟩⟩
  have heq : List.Forall₂ (· = ·) (ids.map m.valueType)
      ((m.blockRec target).params.map m.valueType) := List.forall₂_eq_eq_eq ▸ hm
  rw [List.forall₂_map_left_iff, List.forall₂_map_right_iff] at heq
  exact heq

/-- The types at an edge that passes. -/
theorem EdgeOk.accepts {av : ValueSet} {ids : List Nat} (h : EdgeOk m av target ids) :
    m.Accepts target ids := by
  have heq : List.Forall₂ (· = ·) (ids.map m.valueType)
      ((m.blockRec target).params.map m.valueType) := by
    rw [List.forall₂_map_left_iff, List.forall₂_map_right_iff]
    exact ((List.forall₂_and_left _ _).mp h.args_ok).2
  rwa [List.forall₂_eq_eq_eq] at heq

theorem Module.Accepts.writes (hwf : m.WF) (h : WritesIn b m m') {ids : List Nat}
    (ht : target < m.blocks.length) (hids : ∀ v ∈ ids, v < m.values.length)
    (hm : m.Accepts target ids) : m'.Accepts target ids := by
  have htypes : ids.map m'.valueType = ids.map m.valueType :=
    List.map_congr_left fun v hv => h.grows.valueType (hids v hv)
  rw [Module.Accepts, htypes, h.params target ht, show ids.map m.valueType = _ from hm]
  exact List.map_congr_left fun v hv =>
    (h.grows.valueType ((hwf.block_params target ht v).mp hv).1).symm

/-- An edge of the terminator of a draft. -/
theorem Draft.edge (h : Draft m b) {t : TermRec} {ids vs : List Nat}
    (hwf' : (m.withTerm b t ids).WF) (ht : target < m.blocks.length)
    (hu : ∀ v ∈ vs, m.Usable b v) (hm : m.Accepts target vs) :
    EdgeOk (m.withTerm b t ids) ((m.withTerm b t ids).availableAtEnd b) target vs := by
  have hw := writesIn_withTerm m b t ids
  refine edgeOk_of_accepts (Nat.lt_of_lt_of_le ht hw.blocks_le) (fun v hv => ?_)
    (hm.writes h.wf hw ht fun v hv => (hu v hv).lt)
  exact (hu v hv).grows h.wf hwf' h.isOpen.1 hw.blocks_le hw.grows

theorem setJump_closes (h : Draft m b) (hset : setJump m b target args = (m', .ok u))
    (hu : ∀ v ∈ args.ids, m.Usable b v) (hm : m.Accepts target args.ids) : BlockOk m' b := by
  have hwf' : m'.WF := by
    have hstep := wf_buildStep h.wf (buildStep_setJump m b target args)
    rwa [hset] at hstep
  have hguard : m.validBlock target = true ∧ args.ids.length = args.count := by
    rw [setJump_eq] at hset
    split at hset
    · next hg => exact hg.2
    · cases hset
  obtain ⟨ht, hlen⟩ := hguard
  obtain rfl := setJump_ok hset
  have hargs : ((m.termArgs ++ args.ids).drop m.termArgs.length).take args.count = args.ids := by
    rw [List.drop_left, ← hlen, List.take_length]
  refine h.close ?_
  show EdgeOk _ _ target (((m.termArgs ++ args.ids).drop m.termArgs.length).take args.count)
  rw [hargs]
  exact h.edge hwf' (by simpa [Module.validBlock] using ht) hu hm

theorem setCbranch_closes (h : Draft m b) {c ftarget : Nat} {fargs : List Nat}
    (hset : setCbranch m b c target args ftarget (.array fargs) = (m', .ok u))
    (hc : m.Usable b c) (hi1 : (m.valueType c).isI1 = true)
    (hu : ∀ v ∈ args.ids, m.Usable b v) (hm : m.Accepts target args.ids)
    (hfu : ∀ v ∈ fargs, m.Usable b v) (hfm : m.Accepts ftarget fargs) : BlockOk m' b := by
  have hwf' : m'.WF := by
    have hstep := wf_buildStep h.wf
      (buildStep_setCbranch m b c target args ftarget (.array fargs))
    rwa [hset] at hstep
  obtain ⟨-, -, ht, hf⟩ := setCbranch_checks hset
  obtain ⟨rfl, hlen⟩ := setCbranch_ok hset
  have hargs : ((m.termArgs ++ (args.ids ++ fargs)).drop m.termArgs.length).take args.count =
      args.ids := by
    rw [List.drop_left, ← hlen, List.take_left]
  have hfargs : ((m.termArgs ++ (args.ids ++ fargs)).drop (m.termArgs.length + args.count)).take
      fargs.length = fargs := by
    rw [← List.append_assoc, List.drop_left' (by rw [List.length_append, hlen]), List.take_length]
  have hw := writesIn_withTerm m b ⟨.cbranch, c, target, ftarget, m.termArgs.length, args.count,
    m.termArgs.length + args.count, fargs.length, 0⟩ (args.ids ++ fargs)
  refine h.close ⟨hc.grows h.wf hwf' h.isOpen.1 hw.blocks_le hw.grows, hi1, ?_, ?_⟩
  · show EdgeOk _ _ target
      (((m.termArgs ++ (args.ids ++ fargs)).drop m.termArgs.length).take args.count)
    rw [hargs]
    exact h.edge hwf' (by simpa [Module.validBlock] using ht) hu hm
  · show EdgeOk _ _ ftarget
      (((m.termArgs ++ (args.ids ++ fargs)).drop (m.termArgs.length + args.count)).take fargs.length)
    rw [hfargs]
    exact h.edge hwf' (by simpa [Module.validBlock] using hf) hfu hfm

theorem setReturn_closes (h : Draft m b) (hset : setReturn m b args = (m', .ok u))
    (hu : ∀ v ∈ args.ids, m.Usable b v) : BlockOk m' b := by
  have hwf' : m'.WF := by
    have hstep := wf_buildStep h.wf (buildStep_setReturn m b args)
    rwa [hset] at hstep
  have hlen : args.ids.length = args.count := by
    rw [setReturn_eq] at hset
    split at hset
    · next hg => exact hg.2
    · cases hset
  obtain rfl := setReturn_ok hset
  have hw := writesIn_withTerm m b { TermRec.empty .ret with
    trueArgOffset := m.termArgs.length, trueArgCount := args.count } args.ids
  have hargs : ((m.termArgs ++ args.ids).drop m.termArgs.length).take args.count = args.ids := by
    rw [List.drop_left, ← hlen, List.take_length]
  refine h.close ?_
  show ∀ v ∈ ((m.termArgs ++ args.ids).drop m.termArgs.length).take args.count, _
  rw [hargs]
  exact fun v hv => (hu v hv).grows h.wf hwf' h.isOpen.1 hw.blocks_le hw.grows

end Close

end Xair
