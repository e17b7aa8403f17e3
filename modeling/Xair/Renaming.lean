import Xair.ExecRef

/-!
# Renaming values

A pass that renames values relates a module to its successor through a partial
map `σ` on value ids; a value without an image has been dropped.  `ModuleMap`
says what such a map preserves of the structure of a module, and `ReadsAgree`
that two reference runs agree on the values available so far, up to a relation
`V` on values that never forgets more than memory tokens.

The rules here are the parts that passes share: operations define agreeing
values (`ReadsAgree.define`), and terminators stay in step (`readsAgree_term`).
-/

namespace Xair

/-- The terminator `t'` is `t` with its values renamed. -/
structure TermMap (m m' : Module) (σ : Nat → Option Nat) (t t' : TermRec) : Prop where
  kind : t'.kind = t.kind
  trueTarget : t'.trueTarget = t.trueTarget
  falseTarget : t'.falseTarget = t.falseTarget
  code : t'.code = t.code
  trueArgCount : t'.trueArgCount = t.trueArgCount
  condition : t.kind = .cbranch → σ t.condition = some t'.condition
  trueArgs : t.kind = .jump ∨ t.kind = .cbranch ∨ t.kind = .ret →
    List.Forall₂ (fun a a' => σ a = some a') (m.termArgsConst t false) (m'.termArgsConst t' false)
  falseArgs : t.kind = .cbranch →
    List.Forall₂ (fun a a' => σ a = some a') (m.termArgsConst t true) (m'.termArgsConst t' true)

/-- The module `m'` is `m` with its values renamed by `σ`, as far as types,
constants, parameters and terminators go. -/
structure ModuleMap (m m' : Module) (σ : Nat → Option Nat) : Prop where
  blocks : m'.blocks.length = m.blocks.length
  type : ∀ v v', σ v = some v' → v < m.values.length →
    v' < m'.values.length ∧ m'.valueType v' = m.valueType v
  const : ∀ v v', σ v = some v' → m.valueIsGlobalConst v = true →
    m'.valueIsGlobalConst v' = true ∧ m'.constValue v' = m.constValue v
  params : ∀ b < m.blocks.length, List.Forall₂ (fun p p' => σ p = some p')
    (m.blockRec b).params (m'.blockRec b).params
  param_lt : ∀ b < m.blocks.length, ∀ p ∈ (m.blockRec b).params, p < m.values.length
  term : ∀ b < m.blocks.length, TermMap m m' σ (m.blockRec b).term (m'.blockRec b).term

/-- The new id of `v`, `XAIR_INVALID_ID` for a value without one. -/
def renamed (σ : Nat → Option Nat) (v : Nat) : Nat := (σ v).getD invalidId

theorem renamed_eq {σ : Nat → Option Nat} {v v' : Nat} (h : σ v = some v') : renamed σ v = v' := by
  simp [renamed, h]

/-- Operation `o'` of `m'` is operation `o` of `m` with its values renamed. -/
structure OpMap (m m' : Module) (σ : Nat → Option Nat) (o o' : Nat) : Prop where
  dst : σ (m.opRec o).dst = some (m'.opRec o').dst
  renames : (m.opRec o).Renames (renamed σ) (m'.opRec o')
  src : ∀ s ∈ (m.opRec o).src, ∃ s', σ s = some s'

/-- Available values read alike under `σ`, up to `V`. -/
def ReadsAgree (m : Module) (σ : Nat → Option Nat) (V : ExecValue → ExecValue → Prop)
    (av : ValueSet) (read read' : Nat → Except Status ExecValue) : Prop :=
  ∀ v v', m.valueIsAvailable av v = true → σ v = some v' →
    ∃ x x', read v = .ok x ∧ read' v' = .ok x' ∧ x.type = m.valueType v ∧ V x x'

section Rules

variable {m m' : Module} {σ : Nat → Option Nat} {V : ExecValue → ExecValue → Prop}
  {av : ValueSet} {r r' : RefState}

theorem valueIsAvailable_iff {v : Nat} : m.valueIsAvailable av v = true ↔
    v < m.values.length ∧ (av v = true ∨ m.valueIsGlobalConst v = true) := by
  simp [Module.valueIsAvailable, Module.validValue]

theorem valueIsAvailable_mark {d v : Nat} (h : m.valueIsAvailable (av.mark d) v = true)
    (hne : v ≠ d) : m.valueIsAvailable av v = true := by
  rw [valueIsAvailable_iff] at h ⊢
  simpa [hne] using h

theorem valueIsGlobalConst_lt {v : Nat} (h : m.valueIsGlobalConst v = true) :
    v < m.values.length := by
  simp only [Module.valueIsGlobalConst, Module.validValue, Bool.and_eq_true, decide_eq_true_eq] at h
  exact h.1

/-- A destination gets agreeing values on both sides. -/
theorem ReadsAgree.define (h : ReadsAgree m σ V av (refRead m r) (refRead m' r')) {d d' : Nat}
    (hd : σ d = some d') {x x' : ExecValue} (hx : x.type = m.valueType d) (hV : V x x')
    (hc : m.valueIsGlobalConst d = true → x = m.constValue d)
    (hc' : m'.valueIsGlobalConst d' = true → x' = m'.constValue d')
    (hne : ∀ u, m.valueIsAvailable av u = true → u ≠ d → σ u = some d' →
      m'.valueIsGlobalConst d' = true) (mem mem' : ExecMemory) :
    ReadsAgree m σ V (av.mark d) (refRead m (r.define d x mem)) (refRead m' (r'.define d' x' mem')) := by
  intro u u' hu hσ
  by_cases hud : u = d
  · subst hud
    obtain rfl : d' = u' := Option.some.inj (hd ▸ hσ)
    refine ⟨x, x', ?_, ?_, hx, hV⟩
    · cases hcu : m.valueIsGlobalConst u with
      | true => rw [refRead_const hcu, hc hcu]
      | false => exact refRead_env hcu (by simp [RefState.define])
    · cases hcu : m'.valueIsGlobalConst d' with
      | true => rw [refRead_const hcu, hc' hcu]
      | false => exact refRead_env hcu (by simp [RefState.define])
  · have hav := valueIsAvailable_mark hu hud
    obtain ⟨y, y', hy, hy', ht, hv⟩ := h u u' hav hσ
    refine ⟨y, y', by rwa [refRead_define hud], ?_, ht, hv⟩
    by_cases hu' : u' = d'
    · subst hu'
      have hcu := hne u hav hud hσ
      rw [refRead_const hcu] at hy' ⊢
      exact hy'
    · rwa [refRead_define hu']

/-- A destination that is dropped, or whose image is bound already, is defined on
the first side only. -/
theorem ReadsAgree.defineLeft (h : ReadsAgree m σ V av (refRead m r) (refRead m' r')) {d : Nat}
    {x : ExecValue} (hx : x.type = m.valueType d)
    (hc : m.valueIsGlobalConst d = true → x = m.constValue d)
    (hd : ∀ d', σ d = some d' → ∃ x', refRead m' r' d' = .ok x' ∧ V x x') (mem : ExecMemory) :
    ReadsAgree m σ V (av.mark d) (refRead m (r.define d x mem)) (refRead m' r') := by
  intro u u' hu hσ
  by_cases hud : u = d
  · subst hud
    obtain ⟨x', hx', hv⟩ := hd u' hσ
    refine ⟨x, x', ?_, hx', hx, hv⟩
    cases hcu : m.valueIsGlobalConst u with
    | true => rw [refRead_const hcu, hc hcu]
    | false => exact refRead_env hcu (by simp [RefState.define])
  · obtain ⟨y, y', hy, hy', ht, hv⟩ := h u u' (valueIsAvailable_mark hu hud) hσ
    exact ⟨y, y', by rwa [refRead_define hud], hy', ht, hv⟩

/-- Parameters bound to agreeing values agree. -/
theorem bindParams_rel {ps ps' : List Nat} {xs xs' : List ExecValue}
    (hp : List.Forall₂ (fun p p' => σ p = some p') ps ps') (hnd : ps'.Nodup)
    (hxs : List.Forall₂ V xs xs') (hlen : ps.length = xs.length) {v v' : Nat} (hv : v ∈ ps)
    (hσ : σ v = some v') :
    ∃ x x', bindParams ps xs v = some x ∧ bindParams ps' xs' v' = some x' ∧ V x x' := by
  induction hp generalizing xs xs' with
  | nil => simp at hv
  | @cons p p' ps ps' hpp hps ih =>
    obtain ⟨hnp, hnd⟩ := List.nodup_cons.mp hnd
    cases hxs with
    | nil => simp at hlen
    | @cons x x' xs xs' hx hxs =>
      by_cases hvp : v = p
      · subst hvp
        obtain rfl : p' = v' := Option.some.inj (hpp ▸ hσ)
        exact ⟨x, x', by simp [bindParams], by simp [bindParams], hx⟩
      · have hv : v ∈ ps := by simpa [hvp] using hv
        have hvp' : v' ≠ p' := by
          -- the image of a later parameter is a later parameter
          rintro rfl
          obtain ⟨i, hi, rfl⟩ := List.mem_iff_getElem.mp hv
          have hall := List.forall₂_iff_get.mp hps
          have hi' : i < ps'.length := by rw [← hall.1]; exact hi
          have := hall.2 i hi hi'
          rw [List.get_eq_getElem, List.get_eq_getElem, hσ] at this
          exact hnp (Option.some.inj this ▸ List.getElem_mem hi')
        obtain ⟨y, y', hy, hy', hyV⟩ := ih hnd hxs (by simpa using hlen) hv
        exact ⟨y, y', by simp [bindParams, hvp, hy], by simp [bindParams, hvp', hy'], hyV⟩

theorem readAll_rel {args args' : List Nat} {read read' : Nat → Except Status ExecValue}
    (h : ReadsAgree m σ V av read read')
    (ha : List.Forall₂ (fun a a' => σ a = some a') args args')
    (hav : ∀ a ∈ args, m.valueIsAvailable av a = true) :
    ∃ xs xs', readAll read args = .ok xs ∧ readAll read' args' = .ok xs' ∧
      List.Forall₂ (fun a x => x.type = m.valueType a) args xs ∧ List.Forall₂ V xs xs' := by
  induction ha with
  | nil => exact ⟨[], [], rfl, rfl, .nil, .nil⟩
  | @cons a a' args args' haa _ ih =>
    obtain ⟨x, x', hx, hx', ht, hv⟩ := h a a' (hav a (by simp)) haa
    obtain ⟨xs, xs', hxs, hxs', hts, hvs⟩ := ih fun b hb => hav b (by simp [hb])
    exact ⟨x :: xs, x' :: xs', by simp [readAll, hx, hxs, Except.map],
      by simp [readAll, hx', hxs', Except.map], .cons ht hts, .cons hv hvs⟩

/-- Environments that bind the parameters of a block to agreeing values agree. -/
theorem readsAgree_bindParams (hm : ModuleMap m m' σ) (hV : ∀ x, V x x) (hwf' : m'.WF) {b : Nat}
    (hb : b < m.blocks.length) {xs xs' : List ExecValue}
    (hty : List.Forall₂ (fun p x => x.type = m.valueType p) (m.blockRec b).params xs)
    (hxs : List.Forall₂ V xs xs') (mem mem' : ExecMemory) :
    ReadsAgree m σ V (m.availableAtStart b)
      (refRead m ⟨bindParams (m.blockRec b).params xs, mem⟩)
      (refRead m' ⟨bindParams (m'.blockRec b).params xs', mem'⟩) := by
  have hb' : b < m'.blocks.length := by rw [hm.blocks]; exact hb
  intro v v' hv hσ
  cases hc : m.valueIsGlobalConst v with
  | true =>
    obtain ⟨h1, h2⟩ := hm.const v v' hσ hc
    exact ⟨_, _, refRead_const hc _, refRead_const h1 _, m.constValue_type v, h2 ▸ hV _⟩
  | false =>
    simp only [valueIsAvailable_iff, hc, Bool.false_eq_true, or_false, availableAtStart_iff] at hv
    obtain ⟨x, x', hx, hx', hxV⟩ :=
      bindParams_rel (hm.params b hb) (hwf'.params_nodup b hb') hxs hty.length_eq hv.2 hσ
    have hmem' : v' ∈ (m'.blockRec b).params := by
      by_contra hn
      rw [bindParams_none hn] at hx'
      cases hx'
    obtain ⟨y, hy, ht⟩ := bindParams_some hty hv.2
    obtain rfl : y = x := Option.some.inj (hy.symm.trans hx)
    exact ⟨y, x', refRead_env hc hx, refRead_env (hwf'.param_not_const hb' hmem') hx', ht, hxV⟩

/-- An accepted edge is taken on both sides, with agreeing arguments. -/
theorem readsAgree_transfer (hm : ModuleMap m m' σ) (hV : ∀ x, V x x) (hwf' : m'.WF)
    (h : ReadsAgree m σ V av (refRead m r) (refRead m' r')) {target : Nat} {args args' : List Nat}
    (hok : EdgeOk m av target args) (ha : List.Forall₂ (fun a a' => σ a = some a') args args') :
    ∃ xs xs', refTransfer m r target args =
        (.ok, ⟨bindParams (m.blockRec target).params xs, r.mem⟩) ∧
      refTransfer m' r' target args' =
        (.ok, ⟨bindParams (m'.blockRec target).params xs', r'.mem⟩) ∧
      List.Forall₂ (fun p x => x.type = m.valueType p) (m.blockRec target).params xs ∧
      List.Forall₂ V xs xs' ∧
      ReadsAgree m σ V (m.availableAtStart target)
        (refRead m ⟨bindParams (m.blockRec target).params xs, r.mem⟩)
        (refRead m' ⟨bindParams (m'.blockRec target).params xs', r'.mem⟩) := by
  have hall := List.forall₂_iff_get.mp hok.args_ok
  obtain ⟨xs, xs', hxs, hxs', hts, hvs⟩ := readAll_rel h ha fun a haa => by
    obtain ⟨i, hi, rfl⟩ := List.mem_iff_getElem.mp haa
    exact (hall.2 i hi (by rw [← hall.1]; exact hi)).1
  have hty : List.Forall₂ (fun p x => x.type = m.valueType p) (m.blockRec target).params xs := by
    have hts' := List.forall₂_iff_get.mp hts
    refine List.forall₂_iff_get.mpr ⟨by rw [← hall.1, hts'.1], fun i h1 h2 => ?_⟩
    have hi : i < args.length := by rw [hall.1]; exact h1
    rw [hts'.2 i hi h2, (hall.2 i hi h1).2]
  refine ⟨xs, xs', ?_, ?_, hty, hvs,
    readsAgree_bindParams hm hV hwf' hok.target_lt hty hvs r.mem r'.mem⟩
  · simp [refTransfer, Module.validBlock, hok.target_lt, hok.args_ok.length_eq, hxs]
  · have hlen : (m'.blockRec target).params.length = args'.length := by
      rw [← (hm.params target hok.target_lt).length_eq, ← ha.length_eq, hok.args_ok.length_eq]
    simp [refTransfer, Module.validBlock, hm.blocks, hok.target_lt, hlen, hxs']

/-- **Terminators stay in step.**  `Start` is established for every accepted edge
by the caller; conditions and returned values agree. -/
theorem readsAgree_term (hm : ModuleMap m m' σ) (hV : ∀ x, V x x) (hVE : ∀ x y, V x y → ValEq x y)
    (hwf' : m'.WF) {b : Nat} (hb : b < m.blocks.length)
    (hterm : TermOk m (m.blockRec b).term av)
    (h : ReadsAgree m σ V av (refRead m r) (refRead m' r'))
    {Start : Nat → RefState → RefState → Prop} {Final : RefState → RefState → Prop}
    (hstart : ∀ target args xs xs', EdgeOk m av target args →
      args = m.termArgsConst (m.blockRec b).term false ∨
        args = m.termArgsConst (m.blockRec b).term true ∧ (m.blockRec b).term.kind = .cbranch →
      (m.blockRec b).term.kind = .jump ∨ (m.blockRec b).term.kind = .cbranch →
      List.Forall₂ (fun p x => x.type = m.valueType p) (m.blockRec target).params xs →
      ReadsAgree m σ V (m.availableAtStart target)
        (refRead m ⟨bindParams (m.blockRec target).params xs, r.mem⟩)
        (refRead m' ⟨bindParams (m'.blockRec target).params xs', r'.mem⟩) →
      Start target ⟨bindParams (m.blockRec target).params xs, r.mem⟩
        ⟨bindParams (m'.blockRec target).params xs', r'.mem⟩)
    (hfinal : Final r r') :
    TermRel (refInterp m) (refInterp m') m m' Start V Final r r' (m.blockRec b).term
      (m'.blockRec b).term := by
  have ht := hm.term b hb
  have hedge : ∀ {target args args'}, EdgeOk m av target args →
      List.Forall₂ (fun a a' => σ a = some a') args args' →
      args = m.termArgsConst (m.blockRec b).term false ∨
        args = m.termArgsConst (m.blockRec b).term true ∧ (m.blockRec b).term.kind = .cbranch →
      (m.blockRec b).term.kind = .jump ∨ (m.blockRec b).term.kind = .cbranch →
      EdgeRel (refInterp m) (refInterp m') Start r r' target args args' := by
    intro target args args' hok ha hargs hkind
    obtain ⟨xs, xs', h1, h2, hty, -, h5⟩ := readsAgree_transfer hm hV hwf' h hok ha
    exact ⟨_, _, h1, h2, hstart target args xs xs' hok hargs hkind hty h5⟩
  unfold TermOk at hterm
  cases hk : (m.blockRec b).term.kind with
  | none => rw [hk] at hterm; exact hterm.elim
  | jump =>
    rw [hk] at hterm
    exact .jump hk (ht.kind.trans hk) ht.trueTarget
      (hedge hterm (ht.trueArgs (.inl hk)) (.inl rfl) (.inl hk))
  | cbranch =>
    rw [hk] at hterm
    obtain ⟨hc, hi, het, hef⟩ := hterm
    obtain ⟨c, c', hc1, hc2, hct, hcV⟩ := h _ _ hc (ht.condition hk)
    have hce : c = c' := by
      refine (hVE _ _ hcV).eq ?_
      intro hkm
      rw [← hct] at hi
      simp [Ty.isI1, hkm] at hi
    subst hce
    exact .cbranch hk (ht.kind.trans hk) ht.trueTarget ht.falseTarget hc1 hc2
      (by rw [hct]; exact hi) (by rw [hct]; exact hi) rfl
      (hedge het (ht.trueArgs (.inr (.inl hk))) (.inl rfl) (.inr hk))
      (hedge hef (ht.falseArgs hk) (.inr ⟨rfl, hk⟩) (.inr hk))
  | ret =>
    rw [hk] at hterm
    obtain ⟨xs, xs', hxs, hxs', -, hvs⟩ :=
      readAll_rel h (ht.trueArgs (.inr (.inr hk))) hterm
    exact .ret hk (ht.kind.trans hk) ht.trueArgCount hxs hxs' hvs hfinal
  | trap => exact .stop (.inl hk) ht.kind ht.code hfinal
  | fault => exact .stop (.inr hk) ht.kind ht.code hfinal

theorem ModuleMap.refl (hwf : m.WF) : ModuleMap m m some where
  blocks := rfl
  type v v' h hv := by cases h; exact ⟨hv, rfl⟩
  const v v' h hc := by cases h; exact ⟨hc, rfl⟩
  params b _ := List.forall₂_same.mpr fun _ _ => rfl
  param_lt b hb p hp := ((hwf.block_params b hb p).mp hp).1
  term b _ := ⟨rfl, rfl, rfl, rfl, rfl, fun _ => rfl, fun _ => List.forall₂_same.mpr fun _ _ => rfl,
    fun _ => List.forall₂_same.mpr fun _ _ => rfl⟩

end Rules

/-! ### Renaming keeps verification -/

/-- Whatever is available on the first side is available on the second. -/
def AvailRel (m m' : Module) (σ : Nat → Option Nat) (av av' : ValueSet) : Prop :=
  ∀ v v', σ v = some v' → m.valueIsAvailable av v = true → m'.valueIsAvailable av' v' = true

section Verified

variable {m m' : Module} {σ ω : Nat → Option Nat}

theorem AvailRel.mark (hm : ModuleMap m m' σ) {av av' : ValueSet} (h : AvailRel m m' σ av av')
    {d d' : Nat} (hd : σ d = some d') : AvailRel m m' σ (av.mark d) (av'.mark d') := by
  intro v v' hv hav
  have hlt := (valueIsAvailable_iff.mp hav).1
  by_cases hvd : v = d
  · subst hvd
    obtain rfl : d' = v' := Option.some.inj (hd ▸ hv)
    exact valueIsAvailable_iff.mpr ⟨(hm.type v d' hd hlt).1, .inl (by simp)⟩
  · have := valueIsAvailable_iff.mp (h v v' hv (valueIsAvailable_mark hav hvd))
    refine valueIsAvailable_iff.mpr ⟨this.1, ?_⟩
    rcases this.2 with h1 | h1
    · exact .inl (by simp [h1])
    · exact .inr h1

theorem AvailRel.markLeft {av av' : ValueSet} (h : AvailRel m m' σ av av') {d : Nat}
    (hd : ∀ d', σ d = some d' → m'.valueIsAvailable av' d' = true) :
    AvailRel m m' σ (av.mark d) av' := by
  intro v v' hv hav
  by_cases hvd : v = d
  · exact hd v' (hvd ▸ hv)
  · exact h v v' hv (valueIsAvailable_mark hav hvd)

theorem markAll_dsts_cons {av : ValueSet} {o : Nat} {os : List Nat} :
    av.markAll (m.dsts (o :: os)) = (av.mark (m.opRec o).dst).markAll (m.dsts os) := rfl

/-- The operations that `ω` keeps of an accepted list are accepted, when a kept
operation is and a skipped one leaves its value available. -/
theorem opsOk_rename (hm : ModuleMap m m' σ) {b : Nat}
    (hkeep : ∀ o o' av av', ω o = some o' → AvailRel m m' σ av av' → OpOk m b av o →
      OpOk m' b av' o' ∧ σ (m.opRec o).dst = some (m'.opRec o').dst)
    (os : List Nat) {av av' : ValueSet} (hav : AvailRel m m' σ av av') (hok : OpsOk m b os av)
    (hskip : ∀ pre o post d', os = pre ++ o :: post → ω o = none → σ (m.opRec o).dst = some d' →
      m'.valueIsAvailable (av'.markAll (m'.dsts (pre.filterMap ω))) d' = true) :
    OpsOk m' b (os.filterMap ω) av' ∧
      AvailRel m m' σ (av.markAll (m.dsts os)) (av'.markAll (m'.dsts (os.filterMap ω))) := by
  induction os generalizing av av' with
  | nil => exact ⟨trivial, hav⟩
  | cons o os ih =>
    obtain ⟨ho, hos⟩ := hok
    cases hω : ω o with
    | none =>
      rw [List.filterMap_cons_none hω, markAll_dsts_cons]
      refine ih (hav.markLeft fun d' hd' => hskip [] o os d' rfl hω hd') hos ?_
      intro pre p post d' hsplit hp hd'
      have := hskip (o :: pre) p post d' (by rw [hsplit]; rfl) hp hd'
      rwa [List.filterMap_cons_none hω] at this
    | some o' =>
      obtain ⟨ho', hdst⟩ := hkeep o o' av av' hω hav ho
      rw [List.filterMap_cons_some hω, markAll_dsts_cons, markAll_dsts_cons]
      obtain ⟨h1, h2⟩ := ih (hav.mark hm hdst) hos (by
        intro pre p post d' hsplit hp hd'
        have := hskip (o :: pre) p post d' (by rw [hsplit]; rfl) hp hd'
        rwa [List.filterMap_cons_some hω, markAll_dsts_cons] at this)
      exact ⟨⟨ho', h1⟩, h2⟩

theorem map_valueType_renamed (hm : ModuleMap m m' σ) {vs : List Nat}
    (h : ∀ v ∈ vs, v < m.values.length ∧ ∃ v', σ v = some v') :
    (vs.map (renamed σ)).map m'.valueType = vs.map m.valueType := by
  rw [List.map_map]
  refine List.map_congr_left fun v hv => ?_
  obtain ⟨hlt, v', hv'⟩ := h v hv
  rw [Function.comp_apply, renamed_eq hv']
  exact (hm.type v v' hv' hlt).2

/-- A renamed operation is accepted where its sources are available. -/
theorem OpMap.opOk (hm : ModuleMap m m' σ) (hwf' : m'.WF) {b o o' : Nat} (ho : OpMap m m' σ o o')
    (hb : b < m'.blocks.length) (hmem : o' ∈ (m'.blockRec b).ops) {av av' : ValueSet}
    (hav : AvailRel m m' σ av av') (hok : OpOk m b av o) : OpOk m' b av' o' := by
  obtain ⟨hlt, hblk⟩ := (hwf'.block_ops b hb o').mp hmem
  have hdst := hwf'.op_dst o' hlt
  have htype := (hm.type _ _ ho.dst hok.dst_lt).2
  have hsrc : ∀ s ∈ (m.opRec o).src, s < m.values.length ∧ ∃ s', σ s = some s' := fun s hs =>
    ⟨(valueIsAvailable_iff.mp (hok.sources s hs)).1, ho.src s hs⟩
  refine ⟨hlt, hdst.1, hblk, hdst.2, ?_, htype ▸ hok.out_type, ?_⟩
  · intro s' hs'
    rw [ho.renames.src] at hs'
    obtain ⟨s, hs, rfl⟩ := List.mem_map.mp hs'
    obtain ⟨s', hσ⟩ := ho.src s hs
    rw [renamed_eq hσ]
    exact hav s s' hσ (hok.sources s hs)
  · rw [ho.renames.opcode, ho.renames.src, map_valueType_renamed hm hsrc, htype]
    exact hok.typed

theorem edgeOk_rename (hm : ModuleMap m m' σ) {av av' : ValueSet} (hav : AvailRel m m' σ av av')
    {target : Nat} {args args' : List Nat} (hok : EdgeOk m av target args)
    (ha : List.Forall₂ (fun a a' => σ a = some a') args args') : EdgeOk m' av' target args' := by
  have hargs := List.forall₂_iff_get.mp ha
  have hok' := List.forall₂_iff_get.mp hok.args_ok
  have hps := List.forall₂_iff_get.mp (hm.params target hok.target_lt)
  refine ⟨hm.blocks ▸ hok.target_lt, List.forall₂_iff_get.mpr ⟨by omega, fun i h1 h2 => ?_⟩⟩
  have ha1 : i < args.length := by omega
  have hp1 : i < (m.blockRec target).params.length := by omega
  obtain ⟨havail, htype⟩ := hok'.2 i ha1 hp1
  have hσ := hargs.2 i ha1 h1
  have hσp := hps.2 i hp1 h2
  have hlt := (valueIsAvailable_iff.mp havail).1
  refine ⟨hav _ _ hσ havail, ?_⟩
  rw [(hm.type _ _ hσ hlt).2, htype]
  by_cases hplt : (m.blockRec target).params.get ⟨i, hp1⟩ < m.values.length
  · exact (hm.type _ _ hσp hplt).2.symm
  · -- a parameter of an accepted edge has the type of an available value, so it is valid
    exact absurd (hm.param_lt target hok.target_lt _ (List.get_mem _ _)) hplt

theorem termOk_rename (hm : ModuleMap m m' σ) {av av' : ValueSet} (hav : AvailRel m m' σ av av')
    {t t' : TermRec} (ht : TermMap m m' σ t t') (hok : TermOk m t av) : TermOk m' t' av' := by
  unfold TermOk at hok ⊢
  rw [ht.kind]
  cases hk : t.kind with
  | none => rw [hk] at hok; exact hok
  | jump =>
    rw [hk] at hok
    show EdgeOk m' av' t'.trueTarget _
    rw [ht.trueTarget]
    exact edgeOk_rename hm hav hok (ht.trueArgs (.inl hk))
  | cbranch =>
    rw [hk] at hok
    obtain ⟨hc, hi, het, hef⟩ := hok
    have hcσ := ht.condition hk
    refine ⟨hav _ _ hcσ hc, ?_, ?_, ?_⟩
    · rw [(hm.type _ _ hcσ (valueIsAvailable_iff.mp hc).1).2]; exact hi
    · rw [ht.trueTarget]; exact edgeOk_rename hm hav het (ht.trueArgs (.inr (.inl hk)))
    · rw [ht.falseTarget]; exact edgeOk_rename hm hav hef (ht.falseArgs hk)
  | ret =>
    rw [hk] at hok
    intro a' ha'
    have hargs := List.forall₂_iff_get.mp (ht.trueArgs (.inr (.inr hk)))
    obtain ⟨i, hi, rfl⟩ := List.mem_iff_getElem.mp ha'
    have hi' : i < (m.termArgsConst t false).length := by omega
    exact hav _ _ (hargs.2 i hi' hi) (hok _ (List.get_mem _ ⟨i, hi'⟩))
  | trap => trivial
  | fault => trivial

/-- **Renaming keeps verification.** -/
theorem verified_rename (hm : ModuleMap m m' σ) (hwf' : m'.WF) (hver : m.Verified)
    (hops : ∀ b < m.blocks.length, (m'.blockRec b).ops = (m.blockRec b).ops.filterMap ω)
    (hkeep : ∀ b < m.blocks.length, ∀ o ∈ (m.blockRec b).ops, ∀ o', ω o = some o' →
      ∀ av av', AvailRel m m' σ av av' → OpOk m b av o →
      OpOk m' b av' o' ∧ σ (m.opRec o).dst = some (m'.opRec o').dst)
    (hskip : ∀ b < m.blocks.length, ∀ pre o post d', (m.blockRec b).ops = pre ++ o :: post →
      ω o = none → σ (m.opRec o).dst = some d' →
      m'.valueIsAvailable ((m'.availableAtStart b).markAll (m'.dsts (pre.filterMap ω))) d' = true) :
    m'.Verified := by
  rw [verifyModule_ok_iff]
  intro b hb'
  have hb : b < m.blocks.length := hm.blocks ▸ hb'
  have hblk := verifyModule_ok_iff.mp hver b hb
  have hstart : AvailRel m m' σ (m.availableAtStart b) (m'.availableAtStart b) := by
    intro v v' hv hav
    obtain ⟨hlt, hav⟩ := valueIsAvailable_iff.mp hav
    refine valueIsAvailable_iff.mpr ⟨(hm.type v v' hv hlt).1, ?_⟩
    rcases hav with hp | hc
    · refine .inl (availableAtStart_iff.mpr ?_)
      obtain ⟨i, hi, rfl⟩ := List.mem_iff_getElem.mp (availableAtStart_iff.mp hp)
      have hps := List.forall₂_iff_get.mp (hm.params b hb)
      have hi' : i < (m'.blockRec b).params.length := by omega
      have hσ := hps.2 i hi hi'
      rw [List.get_eq_getElem, hv] at hσ
      exact Option.some.inj hσ ▸ List.get_mem _ ⟨i, hi'⟩
    · exact .inr (hm.const v v' hv hc).1
  -- only operations of the block matter to the list rule
  obtain ⟨h1, h2⟩ := opsOk_rename (ω := fun o => if o ∈ (m.blockRec b).ops then ω o else none) hm
    (fun o o' av av' ho hav hok => by
      by_cases hmem : o ∈ (m.blockRec b).ops
      · rw [if_pos hmem] at ho
        exact hkeep b hb o hmem o' ho av av' hav hok
      · rw [if_neg hmem] at ho; cases ho)
    (m.blockRec b).ops hstart hblk.ops
    (fun pre o post d' hsplit ho hd' => by
      have hmem : o ∈ (m.blockRec b).ops := by rw [hsplit]; simp
      rw [if_pos hmem] at ho
      have hpre : pre.filterMap (fun o => if o ∈ (m.blockRec b).ops then ω o else none) =
          pre.filterMap ω :=
        List.filterMap_congr fun p hp => if_pos (by rw [hsplit]; exact List.mem_append_left _ hp)
      rw [hpre]
      exact hskip b hb pre o post d' hsplit ho hd')
  have hall : (m.blockRec b).ops.filterMap
      (fun o => if o ∈ (m.blockRec b).ops then ω o else none) = (m'.blockRec b).ops := by
    rw [hops b hb]
    exact List.filterMap_congr fun o ho => if_pos ho
  rw [hall] at h1 h2
  refine ⟨fun v' hv' => ?_, h1, termOk_rename hm h2 (hm.term b hb) hblk.term⟩
  obtain ⟨h3, -, h5⟩ := (hwf'.block_params b hb' v').mp hv'
  exact ⟨h3, h5, hwf'.value_type v' h3⟩

end Verified

/-! ### Tokens do not matter -/

/-- Two states of one module that agree up to memory tokens, on equal pages. -/
def TokenEq (m : Module) (av : ValueSet) (r r' : RefState) : Prop :=
  Ready m (refRead m r) av ∧ ReadsAgree m some ValEq av (refRead m r) (refRead m r') ∧
    r.mem.pages = r'.mem.pages

/-- The same before the operations `os` of block `b`. -/
def TokenEqAt (m : Module) (b : Nat) (os : List Nat) (r r' : RefState) : Prop :=
  b < m.blocks.length ∧ ∃ av, OpsOk m b os av ∧ av.markAll (m.dsts os) = m.availableAtEnd b ∧
    TokenEq m av r r'

/-- An operation of a verified module computes a constant for a constant. -/
theorem OpOk.const {m : Module} {b o : Nat} {av : ValueSet} (hok : OpOk m b av o)
    {read : Nat → Except Status ExecValue} {mem mem' : ExecMemory} {x : ExecValue}
    (hx : execOpValue (m.valueType (m.opRec o).dst) read mem (m.opRec o) = .ok (x, mem'))
    (hc : m.valueIsGlobalConst (m.opRec o).dst = true) : x = m.constValue (m.opRec o).dst := by
  rw [execOpValue_const hok.lt hok.dst_op hc] at hx
  cases hx
  rfl

theorem tokenEq_op {m : Module} {b o : Nat} {av : ValueSet} (hok : OpOk m b av o) {r r' : RefState}
    (h : TokenEq m av r r') (R : RefState → RefState → Prop)
    (hR : ∀ s s', TokenEq m (av.mark (m.opRec o).dst) s s' → R s s') :
    OpRel R (fun s s' => s.mem.pages = s'.mem.pages) (m.opRec o).opcode (m.opRec o).opcode
      (refOp m r (m.opRec o)) (refOp m r' (m.opRec o)) := by
  obtain ⟨hr, hreads, hpg⟩ := h
  have hagree : OpAgree (r.mem.pages = r'.mem.pages)
      (execOpValue (m.valueType (m.opRec o).dst) (refRead m r) r.mem (m.opRec o))
      (execOpValue (m.valueType (m.opRec o).dst) (refRead m r') r'.mem (m.opRec o)) :=
    execOpValue_valEq (.refl _) hok.typed (fun s hs => hreads s s (hok.sources s hs) rfl)
      fun _ => hpg
  have hout := hok.outcome hr r.mem
  unfold refOp
  generalize he : execOpValue (m.valueType (m.opRec o).dst) (refRead m r) r.mem (m.opRec o) = p
    at hagree hout
  generalize he' : execOpValue (m.valueType (m.opRec o).dst) (refRead m r') r'.mem (m.opRec o) = p'
    at hagree
  match p, p', hagree with
  | .error e, .error e', hee =>
    cases hee
    refine .fail ?_ rfl hpg
    cases hout <;> exact fun hh => by cases hh
  | .ok (x, mem), .ok (x', mem'), ⟨hV, hpg'⟩ =>
    have ht := (hok.value_type hr he).1
    refine .ok (hR _ _ ⟨hr.define ht mem, ?_, hpg' hpg⟩)
    exact hreads.define rfl ht hV (hok.const he) (hok.const he')
      (fun u _ hu hu' => absurd (Option.some.inj hu') hu) mem mem'

/-- Runs that start from values equal up to tokens and from the same pages end in
results equal up to tokens and in the same pages. -/
theorem tokenEq_run {m : Module} (hwf : m.WF) (hver : m.Verified) {entry : Nat}
    (hb : entry < m.blocks.length) {r r' : RefState}
    (h : TokenEq m (m.availableAtStart entry) r r') (limit : Nat) :
    ResultRel ValEq (interpRun (refInterp m) m limit entry r).1
        (interpRun (refInterp m) m limit entry r').1 ∧
      (interpRun (refInterp m) m limit entry r).2.mem.pages =
        (interpRun (refInterp m) m limit entry r').2.mem.pages := by
  have hsim : BlockSim (refInterp m) (refInterp m) m m
      (fun b r r' => b < m.blocks.length ∧ TokenEq m (m.availableAtStart b) r r') (TokenEqAt m)
      some ValEq (fun s s' => s.mem.pages = s'.mem.pages) (fun _ => False) := by
    refine ⟨fun b s t hst => ?_, fun b o o' os s t ho hat => ?_, fun b o os s t ho => (by cases ho),
      fun b s t hat => ?_, fun b s t hst => hst.2.2.2⟩
    · exact ⟨by simp, hst.1, _, (verifyModule_ok_iff.mp hver b hst.1).ops, rfl, hst.2⟩
    · cases ho
      obtain ⟨hb, av, ⟨hok, hos⟩, hav, ht⟩ := hat
      exact tokenEq_op hok ht _ fun s' t' ht' => ⟨hb, _, hos, hav, ht'⟩
    · obtain ⟨hb, av, -, hav, hr, hreads, hpg⟩ := hat
      change av = m.availableAtEnd b at hav
      subst hav
      refine readsAgree_term (.refl hwf) ValEq.refl (fun _ _ h => h) hwf hb
        (verifyModule_ok_iff.mp hver b hb).term hreads ?_ hpg
      intro target args xs xs' hok _ _ hty hreads'
      exact ⟨hok.target_lt, ready_bindParams hty _, hreads', hpg⟩
  rcases hsim.run limit ⟨hb, h⟩ with hf | h
  · exact hf.elim
  · exact h

end Xair
