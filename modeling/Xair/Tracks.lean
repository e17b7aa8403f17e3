import Xair.PlainBuilder
import Xair.Positions

/-!
# Two builders in step

`Tracks mp mn res ω` relates the module of the plain builder to that of the real one
after the same calls.  The plain builder numbers its values in the order of the calls,
so the list of results `res` of the real builder is itself the renaming; `ω` says
which operation of the plain module became which operation of the real one.  An
operation without an image was reused (`Reused`): its match is a constant, or an
earlier operation of the same block.

Every call keeps the relation (`tracks_runProgram`).
-/

namespace Xair

/-- The renaming that a list of results stands for. -/
def resultMap (res : List Nat) (v : Nat) : Option Nat := res[v]?

/-- Why operation `o` of the plain module was not appended to the real one, which has
`o'` in its place. -/
def Reused (mp : Module) (ω : Nat → Option Nat) (o o' : Nat) : Prop :=
  (mp.opRec o).opcode = .constU64 ∨ ∃ p < o,
    (mp.valueRec (mp.opRec p).dst).block = (mp.valueRec (mp.opRec o).dst).block ∧ ω p = some o'

/-- Operation `o` of the plain module has its counterpart. -/
def Matched (mp mn : Module) (res : List Nat) (ω : Nat → Option Nat) (o : Nat) : Prop :=
  ∃ o' < mn.ops.length, OpMap mp mn (resultMap res) o o' ∧
    (ω o = some o' ∨ ω o = none ∧ Reused mp ω o o')

/-- The two modules after the same calls. -/
structure Tracks (mp mn : Module) (res : List Nat) (ω : Nat → Option Nat) : Prop where
  wf : mp.WF
  wf' : mn.WF
  blocks : mn.blocks.length = mp.blocks.length
  values : res.length = mp.values.length
  type : ∀ v v', resultMap res v = some v' →
    v' < mn.values.length ∧ mn.valueType v' = mp.valueType v
  params : ∀ b < mp.blocks.length, List.Forall₂ (fun p p' => resultMap res p = some p')
    (mp.blockRec b).params (mn.blockRec b).params
  term : ∀ b < mp.blocks.length,
    TermMap mp mn (resultMap res) (mp.blockRec b).term (mn.blockRec b).term
  ops : ∀ b < mp.blocks.length, (mn.blockRec b).ops = (mp.blockRec b).ops.filterMap ω
  matched : ∀ o < mp.ops.length, Matched mp mn res ω o
  omega_lt : ∀ o o', ω o = some o' → o < mp.ops.length ∧ o' < mn.ops.length ∧
    OpMap mp mn (resultMap res) o o'
  fresh : ∀ o o', ω o = some o' → ∀ p < o, resultMap res (mp.opRec p).dst ≠ some (mn.opRec o').dst
  srcs_lt : ∀ o' < mn.ops.length, ∀ s ∈ (mn.opRec o').src, s < (mn.opRec o').dst

theorem tracks_create : Tracks Module.create Module.create [] (fun _ => none) := by
  refine ⟨wf_create, wf_create, rfl, rfl, ?_, ?_, ?_, ?_, ?_, ?_, ?_, ?_⟩ <;>
    simp [Module.create, resultMap]

/-! ### What growth keeps -/

/-- One renaming extends another. -/
def MapLe (σ σ' : Nat → Option Nat) : Prop := ∀ v v', σ v = some v' → σ' v = some v'

theorem mapLe_append (res xs : List Nat) : MapLe (resultMap res) (resultMap (res ++ xs)) := by
  intro v v' h
  obtain ⟨hlt, -⟩ := List.getElem?_eq_some_iff.mp h
  rw [resultMap, List.getElem?_append_left hlt]
  exact h

theorem resultMap_concat {res : List Nat} {x v v' : Nat}
    (h : resultMap (res ++ [x]) v = some v') :
    resultMap res v = some v' ∨ v = res.length ∧ v' = x := by
  unfold resultMap at *
  by_cases hv : v < res.length
  · rw [List.getElem?_append_left hv] at h
    exact .inl h
  · obtain ⟨hlt, hx⟩ := List.getElem?_eq_some_iff.mp h
    rw [List.length_append, List.length_singleton] at hlt
    obtain rfl : v = res.length := by omega
    rw [List.getElem_append_right (Nat.le_refl _)] at hx
    exact .inr ⟨rfl, by simpa using hx.symm⟩

theorem resultMap_length (res : List Nat) (x : Nat) :
    resultMap (res ++ [x]) res.length = some x := by
  simp [resultMap]

section Growth

variable {mp mn mp' mn' : Module} {σ σ' : Nat → Option Nat}

theorem OpMap.grows (hp : Grows mp mp') (hn : Grows mn mn') (hσ : MapLe σ σ') {o o' : Nat}
    (ho : o < mp.ops.length) (ho' : o' < mn.ops.length) (h : OpMap mp mn σ o o') :
    OpMap mp' mn' σ' o o' := by
  have hsrc : (mp.opRec o).src.map (renamed σ) = (mp.opRec o).src.map (renamed σ') :=
    List.map_congr_left fun s hs => by
      obtain ⟨s', hs'⟩ := h.src s hs
      rw [renamed_eq hs', renamed_eq (hσ _ _ hs')]
  refine ⟨?_, ?_, ?_⟩
  · rw [hp.opRec o ho, hn.opRec o' ho']
    exact hσ _ _ h.dst
  · rw [hp.opRec o ho, hn.opRec o' ho']
    exact ⟨h.renames.opcode, h.renames.src.trans hsrc, h.renames.endian, h.renames.imm⟩
  · rw [hp.opRec o ho]
    intro s hs
    obtain ⟨s', hs'⟩ := h.src s hs
    exact ⟨s', hσ _ _ hs'⟩

theorem TermMap.grows (hp : Grows mp mp') (hn : Grows mn mn') (hσ : MapLe σ σ') {t t' : TermRec}
    (ht : TermWF mp t) (ht' : TermWF mn t') (h : TermMap mp mn σ t t') :
    TermMap mp' mn' σ' t t' where
  kind := h.kind
  trueTarget := h.trueTarget
  falseTarget := h.falseTarget
  code := h.code
  trueArgCount := h.trueArgCount
  condition hk := hσ _ _ (h.condition hk)
  trueArgs hk := by
    rw [hp.termArgsConst ht, hn.termArgsConst ht']
    exact (h.trueArgs hk).imp fun a a' => hσ a a'
  falseArgs hk := by
    rw [hp.termArgsConst ht, hn.termArgsConst ht']
    exact (h.falseArgs hk).imp fun a a' => hσ a a'

variable {res : List Nat} {ω ω' : Nat → Option Nat}

/-- The operations of the plain module keep their counterparts. -/
theorem Tracks.matched_grows (h : Tracks mp mn res ω) (hp : Grows mp mp') (hn : Grows mn mn')
    (xs : List Nat) (hω : ∀ o < mp.ops.length, ω' o = ω o) {o : Nat} (ho : o < mp.ops.length) :
    Matched mp' mn' (res ++ xs) ω' o := by
  obtain ⟨o', ho', hmap, hor⟩ := h.matched o ho
  refine ⟨o', Nat.lt_of_lt_of_le ho' hn.ops_le, hmap.grows hp hn (mapLe_append res xs) ho ho', ?_⟩
  rw [hω o ho]
  refine hor.imp id fun ⟨hnone, hr⟩ => ⟨hnone, ?_⟩
  unfold Reused
  rw [hp.opRec o ho, hp.valueRec _ (h.wf.op_dst o ho).1]
  refine hr.imp id fun ⟨p, hpo, hb, hωp⟩ => ?_
  have hplt : p < mp.ops.length := Nat.lt_trans hpo ho
  exact ⟨p, hpo, by rw [hp.opRec p hplt, hp.valueRec _ (h.wf.op_dst p hplt).1]; exact hb,
    (hω p hplt).trans hωp⟩

/-- Appended operations stay apart from the results before them. -/
theorem Tracks.fresh_grows (h : Tracks mp mn res ω) (hp : Grows mp mp') (hn : Grows mn mn')
    (xs : List Nat) {o o' : Nat} (hω : ω o = some o') {p : Nat} (hpo : p < o) :
    resultMap (res ++ xs) (mp'.opRec p).dst ≠ some (mn'.opRec o').dst := by
  obtain ⟨ho, ho', -⟩ := h.omega_lt o o' hω
  have hplt : p < mp.ops.length := Nat.lt_trans hpo ho
  have hd : (mp.opRec p).dst < res.length := h.values ▸ (h.wf.op_dst p hplt).1
  rw [hp.opRec p hplt, hn.opRec o' ho', resultMap, List.getElem?_append_left hd]
  exact h.fresh o o' hω p hpo

theorem Tracks.omega_grows (h : Tracks mp mn res ω) (hp : Grows mp mp') (hn : Grows mn mn')
    (xs : List Nat) {o o' : Nat} (hω : ω o = some o') :
    o < mp'.ops.length ∧ o' < mn'.ops.length ∧ OpMap mp' mn' (resultMap (res ++ xs)) o o' := by
  obtain ⟨ho, ho', hmap⟩ := h.omega_lt o o' hω
  exact ⟨Nat.lt_of_lt_of_le ho hp.ops_le, Nat.lt_of_lt_of_le ho' hn.ops_le,
    hmap.grows hp hn (mapLe_append res xs) ho ho'⟩

theorem Tracks.type_grows (h : Tracks mp mn res ω) (hp : Grows mp mp') (hn : Grows mn mn')
    {v v' : Nat} (hv : resultMap res v = some v') :
    v' < mn'.values.length ∧ mn'.valueType v' = mp'.valueType v := by
  obtain ⟨hlt, -⟩ := List.getElem?_eq_some_iff.mp hv
  obtain ⟨h1, h2⟩ := h.type v v' hv
  exact ⟨Nat.lt_of_lt_of_le h1 hn.values_le,
    by rw [hn.valueType h1, h2, hp.valueType (h.values ▸ hlt)]⟩

theorem Tracks.type_concat (h : Tracks mp mn res ω) (hp : Grows mp mp') (hn : Grows mn mn')
    {x : Nat} (hx : x < mn'.values.length)
    (ht : mn'.valueType x = mp'.valueType mp.values.length) {v v' : Nat}
    (hv : resultMap (res ++ [x]) v = some v') :
    v' < mn'.values.length ∧ mn'.valueType v' = mp'.valueType v := by
  rcases resultMap_concat hv with hv | ⟨rfl, rfl⟩
  · exact h.type_grows hp hn hv
  · exact ⟨hx, by rw [ht, h.values]⟩

theorem Tracks.srcs_grows (h : Tracks mp mn res ω) (hn : Grows mn mn') {o' : Nat}
    (ho' : o' < mn.ops.length) : ∀ s ∈ (mn'.opRec o').src, s < (mn'.opRec o').dst := by
  rw [hn.opRec o' ho']
  exact h.srcs_lt o' ho'

theorem Tracks.params_grows (h : Tracks mp mn res ω) (xs : List Nat) {b : Nat}
    (hb : b < mp.blocks.length) : List.Forall₂ (fun p p' => resultMap (res ++ xs) p = some p')
      (mp.blockRec b).params (mn.blockRec b).params :=
  (h.params b hb).imp fun p p' => mapLe_append res xs p p'

theorem Tracks.term_grows (h : Tracks mp mn res ω) (hp : Grows mp mp') (hn : Grows mn mn')
    (xs : List Nat) {b : Nat} (hb : b < mp.blocks.length) :
    TermMap mp' mn' (resultMap (res ++ xs)) (mp.blockRec b).term (mn.blockRec b).term :=
  (h.term b hb).grows hp hn (mapLe_append res xs) (h.wf.term b hb)
    (h.wf'.term b (h.blocks.symm ▸ hb))

theorem Tracks.congr (h : Tracks mp mn res ω) (hp : SameCore mp mp') (hn : SameCore mn mn') :
    Tracks mp' mn' res ω := by
  have hwf := h.wf.congr hp
  have hwf' := h.wf'.congr hn
  obtain ⟨vs, os, bs, ta, vn, vc, st, fr⟩ := mp
  obtain ⟨vs', os', bs', ta', vn', vc', st', fr'⟩ := mp'
  obtain ⟨ws, ps, cs, ua, wn, wc, su, gr⟩ := mn
  obtain ⟨ws', ps', cs', ua', wn', wc', su', gr'⟩ := mn'
  obtain ⟨rfl, rfl, rfl, rfl⟩ := hp
  obtain ⟨rfl, rfl, rfl, rfl⟩ := hn
  refine ⟨hwf, hwf', h.blocks, h.values, h.type, h.params, fun b hb => ?_, h.ops, fun o ho => ?_,
    fun o o' hω => ?_, h.fresh, h.srcs_lt⟩
  · obtain ⟨h1, h2, h3, h4, h5, h6, h7, h8⟩ := h.term b hb
    exact ⟨h1, h2, h3, h4, h5, h6, h7, h8⟩
  · obtain ⟨o', ho', ⟨h1, h2, h3⟩, hor⟩ := h.matched o ho
    exact ⟨o', ho', ⟨h1, h2, h3⟩, hor⟩
  · obtain ⟨ho, ho', h1, h2, h3⟩ := h.omega_lt o o' hω
    exact ⟨ho, ho', h1, h2, h3⟩

end Growth

/-! ### One change on both sides -/

section Steps

variable {mp mn : Module} {res : List Nat} {ω : Nat → Option Nat}

theorem Tracks.withBlock (h : Tracks mp mn res ω) (n n' : Name)
    (hwf : (mp.withBlock n).WF) (hwf' : (mn.withBlock n').WF) :
    Tracks (mp.withBlock n) (mn.withBlock n') res ω := by
  have hp := grows_withBlock mp n
  have hn := grows_withBlock mn n'
  have hres : res ++ [] = res := List.append_nil res
  have hsplit : ∀ b < (mp.withBlock n).blocks.length, b < mp.blocks.length ∨ b = mp.blocks.length := by
    intro b hb
    simp only [Module.withBlock, List.length_append, List.length_singleton] at hb
    omega
  -- an old block has its old record, the new one is empty on both sides
  have hold : ∀ b < mp.blocks.length, (mp.withBlock n).blockRec b = mp.blockRec b ∧
      (mn.withBlock n').blockRec b = mn.blockRec b := fun b hb => by
    rw [mp.blockRec_withBlock, mn.blockRec_withBlock, h.blocks, if_pos hb, if_pos hb]
    exact ⟨rfl, rfl⟩
  have hnew : (mp.withBlock n).blockRec mp.blocks.length = ⟨n, [], [], TermRec.empty .none⟩ ∧
      (mn.withBlock n').blockRec mp.blocks.length = ⟨n', [], [], TermRec.empty .none⟩ := by
    rw [mp.blockRec_withBlock, mn.blockRec_withBlock, h.blocks, if_neg (Nat.lt_irrefl _), if_pos rfl,
      if_neg (Nat.lt_irrefl _), if_pos rfl]
    exact ⟨rfl, rfl⟩
  refine ⟨hwf, hwf', by simp [Module.withBlock, h.blocks], h.values,
    fun v v' hv => h.type_grows hp hn hv, fun b hb => ?_, fun b hb => ?_, fun b hb => ?_,
    fun o ho => hres ▸ h.matched_grows hp hn [] (fun _ _ => rfl) ho,
    fun o o' hω => hres ▸ h.omega_grows hp hn [] hω,
    fun o o' hω p hpo => hres ▸ h.fresh_grows hp hn [] hω hpo, fun o' ho' => h.srcs_grows hn ho'⟩
  · rcases hsplit b hb with hb | rfl
    · rw [(hold b hb).1, (hold b hb).2]; exact h.params b hb
    · rw [hnew.1, hnew.2]; exact .nil
  · rcases hsplit b hb with hb | rfl
    · rw [(hold b hb).1, (hold b hb).2]; exact hres ▸ h.term_grows hp hn [] hb
    · rw [hnew.1, hnew.2]
      refine ⟨rfl, rfl, rfl, rfl, rfl, ?_, ?_, ?_⟩
      · intro hk; cases hk
      · rintro (hk | hk | hk) <;> cases hk
      · intro hk; cases hk
  · rcases hsplit b hb with hb | rfl
    · rw [(hold b hb).1, (hold b hb).2]; exact h.ops b hb
    · rw [hnew.1, hnew.2]; rfl

theorem Tracks.withParam (h : Tracks mp mn res ω) (b : Nat) (t : Ty) (n n' : Name)
    (hwf : (mp.withParam b t n).WF) (hwf' : (mn.withParam b t n').WF) :
    Tracks (mp.withParam b t n) (mn.withParam b t n') (res ++ [mn.values.length]) ω := by
  have hp := grows_withParam mp b t n
  have hn := grows_withParam mn b t n'
  have hlen : (mp.withParam b t n).blocks.length = mp.blocks.length := by simp [Module.withParam]
  have hblk : ∀ c < mp.blocks.length,
      (b = c ∧ (mp.withParam b t n).blockRec c = (mp.blockRec c).appendParam mp.values.length ∧
        (mn.withParam b t n').blockRec c = (mn.blockRec c).appendParam mn.values.length) ∨
      ((mp.withParam b t n).blockRec c = mp.blockRec c ∧
        (mn.withParam b t n').blockRec c = mn.blockRec c) := fun c hc => by
    rw [mp.blockRec_withParam, mn.blockRec_withParam, h.blocks]
    by_cases hbc : b = c
    · subst hbc
      exact .inl ⟨rfl, if_pos ⟨rfl, hc⟩, if_pos ⟨rfl, hc⟩⟩
    · exact .inr ⟨if_neg fun hh => hbc hh.1, if_neg fun hh => hbc hh.1⟩
  refine ⟨hwf, hwf', by simp [Module.withParam, h.blocks],
    by simp [Module.withParam, h.values], fun v v' hv => h.type_concat hp hn ?_ ?_ hv,
    fun c hc => ?_, fun c hc => ?_, fun c hc => ?_,
    fun o ho => h.matched_grows hp hn _ (fun _ _ => rfl) ho,
    fun o o' hω => h.omega_grows hp hn _ hω,
    fun o o' hω p hpo => h.fresh_grows hp hn _ hω hpo, fun o' ho' => h.srcs_grows hn ho'⟩
  · simp [Module.withParam]
  · simp only [Module.valueType, Module.valueRec_withParam, Nat.lt_irrefl, if_false, if_true]
  · have hc := hlen ▸ hc
    have hold := h.params_grows [mn.values.length] hc
    rcases hblk c hc with ⟨-, h1, h2⟩ | ⟨h1, h2⟩ <;> rw [h1, h2]
    · refine List.rel_append hold (.cons ?_ .nil)
      rw [← h.values]
      exact resultMap_length _ _
    · exact hold
  · have hc := hlen ▸ hc
    have hold := h.term_grows hp hn [mn.values.length] hc
    rcases hblk c hc with ⟨-, h1, h2⟩ | ⟨h1, h2⟩ <;> rw [h1, h2] <;> exact hold
  · have hc := hlen ▸ hc
    rcases hblk c hc with ⟨-, h1, h2⟩ | ⟨h1, h2⟩ <;> rw [h1, h2] <;> exact h.ops c hc

/-- The key `k'` is `k` with its sources renamed. -/
structure KeyMap (res : List Nat) (k k' : OpKey) : Prop where
  block : k'.block = k.block
  opcode : k'.opcode = k.opcode
  type : k'.type = k.type
  imm : k'.imm = k.imm
  endian : k'.endian = k.endian
  srcs : List.Forall₂ (fun s s' => resultMap res s = some s') k.srcs k'.srcs

/-- Renamed sources, as a list. -/
theorem map_renamed {σ : Nat → Option Nat} {ss ss' : List Nat}
    (h : List.Forall₂ (fun s s' => σ s = some s') ss ss') : ss' = ss.map (renamed σ) := by
  induction h with
  | nil => rfl
  | cons hs _ ih => rw [List.map_cons, ← ih, renamed_eq hs]

/-- An operation built from a renamed key is the renamed operation. -/
theorem opMap_key (mp : Module) {k k' : OpKey} (n : Name) {m' : Module} {o' : Nat} (hk : KeyMap res k k')
    (hvals : res.length = mp.values.length) (x : Nat) (hop : m'.opRec o' = ⟨k'.opcode, x, k'.srcs, k'.endian, k'.imm⟩) :
    OpMap (mp.withOp k n) m' (resultMap (res ++ [x])) mp.ops.length o' := by
  have hnew : (mp.withOp k n).opRec mp.ops.length =
      ⟨k.opcode, mp.values.length, k.srcs, k.endian, k.imm⟩ := by
    rw [Module.withOp_newOp]
  have hsrcs := hk.srcs.imp fun s s' => mapLe_append res [x] s s'
  refine ⟨?_, ?_, ?_⟩
  · rw [hnew, hop, ← hvals]
    exact resultMap_length res x
  · rw [hnew, hop]
    exact ⟨hk.opcode, map_renamed hsrcs, hk.endian, hk.imm⟩
  · rw [hnew]
    intro s hs
    obtain ⟨i, hi, rfl⟩ := List.mem_iff_getElem.mp hs
    have hall := List.forall₂_iff_get.mp hsrcs
    exact ⟨_, hall.2 i hi (by rw [← hall.1]; exact hi)⟩

/-- The blocks after an operation is appended to the plain module. -/
theorem blockRec_withOp_cases (m : Module) (k : OpKey) (n : Name) {c : Nat} (hc : c < m.blocks.length) :
    ((m.withOp k n).blockRec c).params = (m.blockRec c).params ∧
      ((m.withOp k n).blockRec c).term = (m.blockRec c).term ∧
      ((m.withOp k n).blockRec c).ops =
        (m.blockRec c).ops ++ if k.block = c then [m.ops.length] else [] := by
  rw [m.blockRec_withOp]
  by_cases hkc : k.block = c
  · subst hkc
    rw [if_pos ⟨rfl, hc⟩, if_pos rfl]
    exact ⟨rfl, rfl, rfl⟩
  · rw [if_neg fun hh => hkc hh.1, if_neg hkc, List.append_nil]
    exact ⟨rfl, rfl, rfl⟩

theorem Tracks.withOp (h : Tracks mp mn res ω) {k k' : OpKey} (hk : KeyMap res k k') (n n' : Name)
    (hwf : (mp.withOp k n).WF) (hwf' : (mn.withOp k' n').WF) :
    Tracks (mp.withOp k n) (mn.withOp k' n') (res ++ [mn.values.length])
      (fun o => if o = mp.ops.length then some mn.ops.length else ω o) := by
  have hp := grows_withOp mp k n
  have hn := grows_withOp mn k' n'
  have hlen : (mp.withOp k n).blocks.length = mp.blocks.length := by simp [Module.withOp]
  have hω : ∀ o < mp.ops.length,
      (if o = mp.ops.length then some mn.ops.length else ω o) = ω o :=
    fun o ho => if_neg (Nat.ne_of_lt ho)
  have hopn : (mn.withOp k' n').opRec mn.ops.length =
      ⟨k'.opcode, mn.values.length, k'.srcs, k'.endian, k'.imm⟩ := by
    rw [Module.withOp_newOp]
  have hmap := opMap_key mp n hk h.values mn.values.length hopn
  have holt : mn.ops.length < (mn.withOp k' n').ops.length := by simp [Module.withOp]
  have hplt : mp.ops.length < (mp.withOp k n).ops.length := by simp [Module.withOp]
  -- an operation is old or the new one
  have hsplit : ∀ {m : Module} {k : OpKey} {n : Name} {o : Nat}, o < (m.withOp k n).ops.length →
      o < m.ops.length ∨ o = m.ops.length := by
    intro m k n o ho
    simp only [Module.withOp, List.length_append, List.length_singleton] at ho
    omega
  refine ⟨hwf, hwf', by simp [Module.withOp, h.blocks], by simp [Module.withOp, h.values],
    fun v v' hv => h.type_concat hp hn (by simp [Module.withOp]) ?_ hv, fun c hc => ?_,
    fun c hc => ?_, fun c hc => ?_, fun o ho => ?_, fun o o' ho => ?_, fun o o' ho p hpo => ?_,
    fun o' ho' => ?_⟩
  · simp only [Module.valueType, Module.valueRec_withOp, Nat.lt_irrefl, if_false, if_true]
    exact hk.type
  · have hc := hlen ▸ hc
    rw [(blockRec_withOp_cases mp k n hc).1, (blockRec_withOp_cases mn k' n' (h.blocks ▸ hc)).1]
    exact h.params_grows _ hc
  · have hc := hlen ▸ hc
    rw [(blockRec_withOp_cases mp k n hc).2.1, (blockRec_withOp_cases mn k' n' (h.blocks ▸ hc)).2.1]
    exact h.term_grows hp hn _ hc
  · have hc := hlen ▸ hc
    rw [(blockRec_withOp_cases mp k n hc).2.2, (blockRec_withOp_cases mn k' n' (h.blocks ▸ hc)).2.2,
      List.filterMap_append, h.ops c hc, hk.block]
    congr 1
    · exact List.filterMap_congr fun o ho => (hω o (h.wf.mem_ops_lt hc ho)).symm
    · split <;> simp
  · rcases hsplit ho with ho | rfl
    · exact h.matched_grows hp hn _ hω ho
    · exact ⟨mn.ops.length, holt, hmap, .inl (if_pos rfl)⟩
  · by_cases hol : o = mp.ops.length
    · subst hol
      rw [if_pos rfl, Option.some.injEq] at ho
      subst ho
      exact ⟨hplt, holt, hmap⟩
    · rw [if_neg hol] at ho
      exact h.omega_grows hp hn _ ho
  · by_cases hol : o = mp.ops.length
    · subst hol
      rw [if_pos rfl, Option.some.injEq] at ho
      subst ho
      -- every earlier result is smaller than the new value
      rw [hopn, hp.opRec p hpo]
      intro heq
      have hd := (h.wf.op_dst p hpo).1
      rw [resultMap, List.getElem?_append_left (h.values ▸ hd)] at heq
      exact Nat.lt_irrefl _ (h.type _ _ heq).1
    · rw [if_neg hol] at ho
      exact h.fresh_grows hp hn _ ho hpo
  · rcases hsplit ho' with ho' | rfl
    · exact h.srcs_grows hn ho'
    · rw [hopn]
      intro s' hs'
      -- a renamed source is a value of the module
      have hall := List.forall₂_iff_get.mp hk.srcs
      obtain ⟨i, hi, rfl⟩ := List.mem_iff_getElem.mp hs'
      exact (h.type _ _ (hall.2 i (by rw [hall.1]; exact hi) hi)).1

/-- The plain builder appends and the real one reuses `v`. -/
theorem Tracks.reuse (h : Tracks mp mn res ω) {k k' : OpKey} (hk : KeyMap res k k') (n : Name)
    (hwf : (mp.withOp k n).WF) (hb : k.block < mp.blocks.length) {v : Nat}
    (hv : valueNumberMatches mn v k' = true) : Tracks (mp.withOp k n) mn (res ++ [v]) ω := by
  have hp := grows_withOp mp k n
  have hn := Grows.refl mn
  have hlen : (mp.withOp k n).blocks.length = mp.blocks.length := by simp [Module.withOp]
  obtain ⟨o', ho', rfl, hs⟩ := (valueNumberMatches_iff h.wf').mp hv
  have hnone : ω mp.ops.length = none := by
    cases hω : ω mp.ops.length with
    | none => rfl
    | some o' => exact absurd (h.omega_lt _ _ hω).1 (Nat.lt_irrefl _)
  have hopn : mn.opRec o' = ⟨k'.opcode, (mn.opRec o').dst, k'.srcs, k'.endian, k'.imm⟩ := by
    have h1 := hs.opcode
    have h2 := hs.srcs
    have h3 := hs.endian
    have h4 := hs.imm
    simp only [Module.opKey] at h1 h2 h3 h4
    rw [← h1, ← h2, ← h3, ← h4]
  have hnew : (mp.withOp k n).opRec mp.ops.length =
      ⟨k.opcode, mp.values.length, k.srcs, k.endian, k.imm⟩ := by
    rw [Module.withOp_newOp]
  have hnewv : (mp.withOp k n).valueRec mp.values.length = ⟨k.type, k.block, some mp.ops.length, n⟩ := by
    rw [Module.withOp_new]
  refine ⟨hwf, h.wf', hlen ▸ h.blocks, by simp [Module.withOp, h.values],
    fun v v' hv => h.type_concat hp hn (h.wf'.op_dst o' ho').1 ?_ hv, fun c hc => ?_,
    fun c hc => ?_, fun c hc => ?_, fun o ho => ?_, fun o o' ho => h.omega_grows hp hn _ ho,
    fun o o' ho p hpo => h.fresh_grows hp hn _ ho hpo, h.srcs_lt⟩
  · have htype := hs.type
    simp only [Module.opKey] at htype
    rw [htype, hk.type, Module.valueType, hnewv]
  · have hc := hlen ▸ hc
    rw [(blockRec_withOp_cases mp k n hc).1]
    exact h.params_grows _ hc
  · have hc := hlen ▸ hc
    rw [(blockRec_withOp_cases mp k n hc).2.1]
    exact h.term_grows hp hn _ hc
  · have hc := hlen ▸ hc
    rw [(blockRec_withOp_cases mp k n hc).2.2, List.filterMap_append, ← h.ops c hc]
    split <;> simp [hnone]
  · by_cases hol : o < mp.ops.length
    · exact h.matched_grows hp hn _ (fun _ _ => rfl) hol
    · obtain rfl : o = mp.ops.length := by
        simp only [Module.withOp, List.length_append, List.length_singleton] at ho
        omega
      refine ⟨o', ho', opMap_key _ _ hk h.values _ hopn, .inr ⟨hnone, ?_⟩⟩
      rw [Reused, hnew, hnewv]
      rcases hs.block with hc | hblk
      · exact .inl (by rw [← hk.opcode, ← hs.opcode]; exact hc)
      · right
        -- the match is listed in the same block, so some earlier operation became it
        have hmem : o' ∈ (mn.blockRec k.block).ops :=
          (h.wf'.block_ops _ (h.blocks.symm ▸ hb) o').mpr ⟨ho', hblk.trans hk.block⟩
        rw [h.ops _ hb] at hmem
        obtain ⟨p, hpmem, hωp⟩ := List.mem_filterMap.mp hmem
        obtain ⟨hplt, hpb⟩ := (h.wf.block_ops _ hb p).mp hpmem
        refine ⟨p, hplt, ?_, hωp⟩
        rw [hp.opRec p hplt, hp.valueRec _ (h.wf.op_dst p hplt).1]
        exact hpb

/-- The two builders set matching terminators. -/
theorem Tracks.withTerm (h : Tracks mp mn res ω) (b : Nat) {t t' : TermRec} {ids ids' : List Nat}
    (hwf : (mp.withTerm b t ids).WF) (hwf' : (mn.withTerm b t' ids').WF)
    (ht : TermMap (mp.withTerm b t ids) (mn.withTerm b t' ids') (resultMap res) t t') :
    Tracks (mp.withTerm b t ids) (mn.withTerm b t' ids') res ω := by
  have hp := grows_withTerm mp b t ids
  have hn := grows_withTerm mn b t' ids'
  have hlen : (mp.withTerm b t ids).blocks.length = mp.blocks.length := by simp [Module.withTerm]
  have hres : res ++ [] = res := List.append_nil res
  have hblk : ∀ c < mp.blocks.length,
      (b = c ∧ (mp.withTerm b t ids).blockRec c = { mp.blockRec c with term := t } ∧
        (mn.withTerm b t' ids').blockRec c = { mn.blockRec c with term := t' }) ∨
      ((mp.withTerm b t ids).blockRec c = mp.blockRec c ∧
        (mn.withTerm b t' ids').blockRec c = mn.blockRec c) := fun c hc => by
    rw [mp.blockRec_withTerm, mn.blockRec_withTerm, h.blocks]
    by_cases hbc : b = c
    · subst hbc
      exact .inl ⟨rfl, if_pos ⟨rfl, hc⟩, if_pos ⟨rfl, hc⟩⟩
    · exact .inr ⟨if_neg fun hh => hbc hh.1, if_neg fun hh => hbc hh.1⟩
  refine ⟨hwf, hwf', by simp [Module.withTerm, h.blocks], h.values,
    fun v v' hv => h.type_grows hp hn hv, fun c hc => ?_, fun c hc => ?_, fun c hc => ?_,
    fun o ho => hres ▸ h.matched_grows hp hn [] (fun _ _ => rfl) ho,
    fun o o' hω => hres ▸ h.omega_grows hp hn [] hω,
    fun o o' hω p hpo => hres ▸ h.fresh_grows hp hn [] hω hpo, fun o' ho' => h.srcs_grows hn ho'⟩
  · have hc := hlen ▸ hc
    rcases hblk c hc with ⟨-, h1, h2⟩ | ⟨h1, h2⟩ <;> rw [h1, h2] <;> exact h.params c hc
  · have hc := hlen ▸ hc
    rcases hblk c hc with ⟨-, h1, h2⟩ | ⟨h1, h2⟩ <;> rw [h1, h2]
    · exact ht
    · exact hres ▸ h.term_grows hp hn [] hc
  · have hc := hlen ▸ hc
    rcases hblk c hc with ⟨-, h1, h2⟩ | ⟨h1, h2⟩ <;> rw [h1, h2] <;> exact h.ops c hc

end Steps

/-! ### One call on both sides -/

/-- Argument arrays that read alike. -/
structure ArgsMap (res : List Nat) (args args' : ArgArray) : Prop where
  count : args'.count = args.count
  ids : List.Forall₂ (fun a a' => resultMap res a = some a') args.ids args'.ids

theorem mapM_eq_some {α β : Type} {f : α → Option β} {xs : List α} {ys : List β}
    (h : xs.mapM f = some ys) : List.Forall₂ (fun x y => f x = some y) xs ys := by
  induction xs generalizing ys with
  | nil =>
    cases h
    exact .nil
  | cons x xs ih =>
    rw [List.mapM_cons] at h
    cases hx : f x with
    | none => rw [hx] at h; cases h
    | some y =>
      cases hxs : xs.mapM f with
      | none => rw [hx, hxs] at h; cases h
      | some zs =>
        rw [hx, hxs] at h
        cases h
        exact .cons hx (ih hxs)

/-- A position in the plain builder's results is the value itself. -/
theorem range_getElem? {n i x : Nat} (h : (List.range n)[i]? = some x) : x = i ∧ i < n := by
  obtain ⟨hlt, hx⟩ := List.getElem?_eq_some_iff.mp h
  rw [List.getElem_range] at hx
  exact ⟨hx.symm, by simpa using hlt⟩

theorem resolve_args {res : List Nat} {n : Nat} {args ap an : ArgArray}
    (hp : args.resolve (List.range n) = some ap) (hn : args.resolve res = some an) :
    ArgsMap res ap an := by
  cases args with
  | null count =>
    cases hp
    cases hn
    exact ⟨rfl, .nil⟩
  | array ids =>
    simp only [ArgArray.resolve, Option.map_eq_some_iff] at hp hn
    obtain ⟨xs, hxs, rfl⟩ := hp
    obtain ⟨ys, hys, rfl⟩ := hn
    obtain rfl : xs = ids := by
      have heq : List.Forall₂ Eq ids xs := (mapM_eq_some hxs).imp fun i x hx => (range_getElem? hx).1.symm
      rw [List.forall₂_eq_eq_eq] at heq
      exact heq.symm
    have hall := mapM_eq_some hys
    exact ⟨hall.length_eq.symm, hall⟩

section Calls

variable {mp mn : Module} {res : List Nat} {ω : Nat → Option Nat}

theorem forall₂_slice {ids ids' : List Nat}
    (h : List.Forall₂ (fun a a' => resultMap res a = some a') ids ids') (as as' : List Nat)
    (i : Nat) {n n' : Nat} (hn : n' = n) :
    List.Forall₂ (fun a a' => resultMap res a = some a')
      (((as ++ ids).drop (as.length + i)).take n)
      (((as' ++ ids').drop (as'.length + i)).take n') := by
  rw [take_drop_append, take_drop_append, hn]
  exact List.forall₂_take _ (List.forall₂_drop _ h)

/-- Terminators that stop a run have nothing to rename. -/
theorem termMap_stop {mp mn : Module} {σ : Nat → Option Nat} {kind : TermKind} {code : Nat}
    {t t' : TermRec} (hk : kind = .trap ∨ kind = .fault)
    (ht : t = { TermRec.empty kind with code := code })
    (ht' : t' = { TermRec.empty kind with code := code }) : TermMap mp mn σ t t' := by
  subst ht ht'
  refine ⟨rfl, rfl, rfl, rfl, rfl, ?_, ?_, ?_⟩ <;> rcases hk with rfl | rfl <;>
    simp [TermRec.empty]

theorem tracks_addOp (h : Tracks mp mn res ω) {k k' : OpKey} (hk : KeyMap res k k')
    {name name' : Option Name} {v v' : Nat} (hwf : (addOp (valueNumberClear mp) k name).1.WF)
    (hwf' : (addOp mn k' name').1.WF) (hv : (addOp (valueNumberClear mp) k name).2 = .ok v)
    (hv' : (addOp mn k' name').2 = .ok v') :
    v = mp.values.length ∧ ∃ ω', Tracks (addOp (valueNumberClear mp) k name).1
      (addOp mn k' name').1 (res ++ [v']) ω' := by
  obtain ⟨ho, rfl, n, hc⟩ := addOp_plain hv
  have hwf := hwf.congr hc.symm
  refine ⟨rfl, ?_⟩
  rcases addOp_numbered hv' with ⟨hc', hm⟩ | ⟨rfl, n', hc'⟩
  · exact ⟨ω, (h.reuse hk n hwf ho.1 hm).congr hc hc'⟩
  · exact ⟨_, (h.withOp hk n n' hwf (hwf'.congr hc'.symm)).congr hc hc'⟩

/-- The keys of a building call on the two sides. -/
theorem resolve_key (h : Tracks mp mn res ω) {c cp cn : Call} {k : OpKey}
    (hp : c.resolve (List.range mp.values.length) = some cp) (hn : c.resolve res = some cn)
    (hk : cp.key mp = some k) : ∃ k', cn.key mn = some k' ∧ KeyMap res k k' := by
  cases c <;>
    simp only [Call.resolve, Option.bind_eq_bind, Option.bind_eq_some_iff, Option.pure_def,
      Option.some.injEq, reduceCtorEq] at hp hn
  case buildConstU64 b t w name =>
    subst hp hn
    simp only [Call.key, Option.some.injEq] at hk
    subst hk
    exact ⟨_, rfl, rfl, rfl, rfl, rfl, rfl, .nil⟩
  case buildUnary b op t s name =>
    obtain ⟨x, hx, rfl⟩ := hp
    obtain ⟨y, hy, rfl⟩ := hn
    obtain ⟨rfl, -⟩ := range_getElem? hx
    simp only [Call.key, Option.some.injEq] at hk
    subst hk
    exact ⟨_, rfl, rfl, rfl, rfl, rfl, rfl, .cons hy .nil⟩
  case buildBinary b op t l r name =>
    obtain ⟨x, hx, x₂, hx₂, rfl⟩ := hp
    obtain ⟨y, hy, y₂, hy₂, rfl⟩ := hn
    obtain ⟨rfl, -⟩ := range_getElem? hx
    obtain ⟨rfl, -⟩ := range_getElem? hx₂
    simp only [Call.key, Option.some.injEq] at hk
    subst hk
    exact ⟨_, rfl, rfl, rfl, rfl, rfl, rfl, .cons hy (.cons hy₂ .nil)⟩
  case buildLoad b t mem a e name =>
    obtain ⟨x, hx, x₂, hx₂, rfl⟩ := hp
    obtain ⟨y, hy, y₂, hy₂, rfl⟩ := hn
    obtain ⟨rfl, -⟩ := range_getElem? hx
    obtain ⟨rfl, -⟩ := range_getElem? hx₂
    simp only [Call.key, Option.some.injEq] at hk
    subst hk
    exact ⟨_, rfl, rfl, rfl, rfl, rfl, rfl, .cons hy (.cons hy₂ .nil)⟩
  case buildStore b mem a d e name =>
    obtain ⟨x, hx, x₂, hx₂, x₃, hx₃, rfl⟩ := hp
    obtain ⟨y, hy, y₂, hy₂, y₃, hy₃, rfl⟩ := hn
    obtain ⟨rfl, -⟩ := range_getElem? hx
    obtain ⟨rfl, -⟩ := range_getElem? hx₂
    obtain ⟨rfl, -⟩ := range_getElem? hx₃
    simp only [Call.key, Option.some.injEq] at hk
    subst hk
    exact ⟨_, rfl, rfl, rfl, (h.type _ _ hy).2, rfl, rfl, .cons hy (.cons hy₂ (.cons hy₃ .nil))⟩
  case blockCreate => subst hp; cases hk
  case blockAddParam => subst hp; cases hk
  case setJump => obtain ⟨x, -, rfl⟩ := hp; cases hk
  case setCbranch => obtain ⟨x, -, y, -, z, -, rfl⟩ := hp; cases hk
  case setReturn => obtain ⟨x, -, rfl⟩ := hp; cases hk
  case setTrap => subst hp; cases hk
  case setFault => subst hp; cases hk

/-- A call whose status is reported without an id. -/
theorem noId_ok {r : Module × Except Status Unit} {m' : Module} {id : Option Nat}
    (h : (r.1, r.2.map fun _ => (none : Option Nat)) = (m', .ok id)) :
    r = (m', .ok ()) ∧ id = none := by
  obtain ⟨m₁, e | u⟩ := r
  · cases h
  · cases h
    exact ⟨rfl, rfl⟩

/-- A call that hands out an id. -/
theorem withId_ok {r : Module × Except Status Nat} {m' : Module} {id : Option Nat}
    (h : (r.1, r.2.map some) = (m', .ok id)) : ∃ v, r = (m', .ok v) ∧ id = some v := by
  obtain ⟨m₁, e | v⟩ := r
  · cases h
  · cases h
    exact ⟨v, rfl, rfl⟩

theorem withTerm_clear (m : Module) (b : Nat) (t : TermRec) (ids : List Nat) :
    SameCore (m.withTerm b t ids) ((valueNumberClear m).withTerm b t ids) := ⟨rfl, rfl, rfl, rfl⟩

/-- Both builders set matching terminators. -/
theorem tracks_term (h : Tracks mp mn res ω) {mp' mn' : Module} {b : Nat} {t t' : TermRec}
    {ids ids' : List Nat} (hp : mp' = (valueNumberClear mp).withTerm b t ids)
    (hn : mn' = mn.withTerm b t' ids') (hwf : mp'.WF) (hwf' : mn'.WF)
    (ht : TermMap (mp.withTerm b t ids) (mn.withTerm b t' ids') (resultMap res) t t') :
    ∃ ω', Tracks mp' mn' (res ++ []) ω' ∧
      List.range mp.values.length ++ [] = List.range mp'.values.length := by
  subst hp hn
  have hc := withTerm_clear mp b t ids
  rw [List.append_nil, List.append_nil]
  exact ⟨ω, (h.withTerm b (hwf.congr hc.symm) hwf' ht).congr hc (.refl _), rfl⟩

theorem tracks_blockCreate (h : Tracks mp mn res ω) {mp' mn' : Module} {name : Option Name}
    {b b' : Nat} (hp : blockCreate (valueNumberClear mp) name = (mp', .ok b))
    (hn : blockCreate mn name = (mn', .ok b')) (hwf : mp'.WF) (hwf' : mn'.WF) :
    Tracks mp' mn' res ω ∧ mp'.values.length = mp.values.length := by
  rcases blockCreate_cases (valueNumberClear mp) name with ⟨e, he⟩ | ⟨-, -, he⟩
  · rw [he] at hp; cases hp
  rcases blockCreate_cases mn name with ⟨e, he'⟩ | ⟨-, -, he'⟩
  · rw [he'] at hn; cases hn
  rw [he] at hp
  rw [he'] at hn
  cases hp
  cases hn
  have hc : SameCore (mp.withBlock (copyName name [98, 98] mp.blocks.length))
    ((valueNumberClear mp).withBlock (copyName name [98, 98] mp.blocks.length)) :=
    ⟨rfl, rfl, rfl, rfl⟩
  exact ⟨(h.withBlock _ _ (hwf.congr hc.symm) hwf').congr hc (.refl _), rfl⟩

/-- A parameter on both sides. -/
theorem tracks_blockAddParam (h : Tracks mp mn res ω) {mp' mn' : Module} {b : Nat} {t : Ty}
    {name : Option Name} {v v' : Nat}
    (hp : blockAddParam (valueNumberClear mp) b t name = (mp', .ok v))
    (hn : blockAddParam mn b t name = (mn', .ok v')) (hwf : mp'.WF) (hwf' : mn'.WF) :
    v = mp.values.length ∧ mp'.values.length = mp.values.length + 1 ∧
      Tracks mp' mn' (res ++ [v']) ω := by
  rcases blockAddParam_cases (valueNumberClear mp) b t name with ⟨e, he⟩ | ⟨-, -, -, -, he⟩
  · rw [he] at hp; cases hp
  rcases blockAddParam_cases mn b t name with ⟨e, he'⟩ | ⟨-, -, -, -, he'⟩
  · rw [he'] at hn; cases hn
  rw [he] at hp
  rw [he'] at hn
  cases hp
  cases hn
  have hc : SameCore (mp.withParam b t (copyName name [118] mp.values.length))
    ((valueNumberClear mp).withParam b t (copyName name [118] mp.values.length)) :=
    ⟨rfl, rfl, rfl, rfl⟩
  exact ⟨rfl, by simp [Module.withParam, valueNumberClear],
    (h.withParam b t _ _ (hwf.congr hc.symm) hwf').congr hc (.refl _)⟩

/-- A call that builds an operation, on both sides. -/
theorem tracks_keyed (h : Tracks mp mn res ω) {cp cn : Call} {mp' mn' : Module} {k k' : OpKey}
    (hk : cp.key mp = some k) (hk' : cn.key mn = some k') (hmap : KeyMap res k k')
    {id id' : Option Nat} (hp : cp.runPlain mp = (mp', .ok id)) (hn : cn.run mn = (mn', .ok id'))
    (hwf : mp'.WF) (hwf' : mn'.WF) :
    id = some mp.values.length ∧ mp'.values.length = mp.values.length + 1 ∧
      ∃ v' ω', id' = some v' ∧ Tracks mp' mn' (res ++ [v']) ω' := by
  rcases Call.run_key (m := valueNumberClear mp) hk with ⟨e, he⟩ | ⟨name, he⟩
  · rw [Call.runPlain, he] at hp; cases hp
  rcases Call.run_key hk' with ⟨e, he'⟩ | ⟨name', he'⟩
  · rw [he'] at hn; cases hn
  rw [Call.runPlain, he] at hp
  rw [he'] at hn
  obtain ⟨v, hv, rfl⟩ := withId_ok hp
  obtain ⟨v', hv', rfl⟩ := withId_ok hn
  have hm : (addOp (valueNumberClear mp) k name).1 = mp' := by rw [hv]
  have hm' : (addOp mn k' name').1 = mn' := by rw [hv']
  subst hm hm'
  obtain ⟨rfl, ω', ht⟩ := tracks_addOp h hmap hwf hwf' (by rw [hv]) (by rw [hv'])
  refine ⟨rfl, ?_, v', ω', rfl, ht⟩
  rw [← ht.values, List.length_append, List.length_singleton, h.values]

/-- **Step lemma.**  A call that succeeds in both builders keeps them in step. -/
theorem tracks_call (h : Tracks mp mn res ω) {c cp cn : Call} {mp' mn' : Module}
    {id id' : Option Nat} (hcp : c.resolve (List.range mp.values.length) = some cp)
    (hcn : c.resolve res = some cn) (hp : cp.runPlain mp = (mp', .ok id))
    (hn : cn.run mn = (mn', .ok id')) :
    ∃ ω', Tracks mp' mn' (res ++ c.results id') ω' ∧
      List.range mp.values.length ++ c.results id = List.range mp'.values.length := by
  have hwf : mp'.WF := by
    have := wf_call (h.wf.congr (sameCore_valueNumberClear mp)) cp
    rw [Call.runPlain] at hp
    rwa [hp] at this
  have hwf' : mn'.WF := by
    have := wf_call h.wf' cn
    rwa [hn] at this
  have hrange : ∀ m : Module, m.values.length = mp.values.length + 1 →
      List.range mp.values.length ++ [mp.values.length] = List.range m.values.length :=
    fun m hm => by rw [hm, List.range_succ]
  cases hk : cp.key mp with
  | some k =>
    obtain ⟨k', hk', hmap⟩ := resolve_key h hcp hcn hk
    have hres : ∀ v, c.results (some v) = [v] := by
      intro v
      cases c <;> first | rfl | (cases hcp; cases hk)
    obtain ⟨rfl, hlen, v', ω', rfl, ht⟩ := tracks_keyed h hk hk' hmap hp hn hwf hwf'
    rw [hres, hres]
    exact ⟨ω', ht, hrange _ hlen⟩
  | none =>
    cases c <;>
      simp only [Call.resolve, Option.bind_eq_bind, Option.bind_eq_some_iff, Option.pure_def,
        Option.some.injEq, reduceCtorEq] at hcp hcn
    case blockCreate name =>
      subst hcp hcn
      obtain ⟨b, hb, rfl⟩ := withId_ok hp
      obtain ⟨b', hb', rfl⟩ := withId_ok hn
      obtain ⟨ht, hlen⟩ := tracks_blockCreate h hb hb' hwf hwf'
      rw [Call.results, Call.results, List.append_nil, List.append_nil, hlen]
      exact ⟨ω, ht, rfl⟩
    case blockAddParam b t name =>
      subst hcp hcn
      obtain ⟨v, hv, rfl⟩ := withId_ok hp
      obtain ⟨v', hv', rfl⟩ := withId_ok hn
      obtain ⟨rfl, hlen, ht⟩ := tracks_blockAddParam h hv hv' hwf hwf'
      exact ⟨ω, ht, hrange _ hlen⟩
    case setJump b target args =>
      obtain ⟨ap, hap, rfl⟩ := hcp
      obtain ⟨an, han, rfl⟩ := hcn
      obtain ⟨hp', rfl⟩ := noId_ok (r := setJump _ b target ap) hp
      obtain ⟨hn', rfl⟩ := noId_ok (r := setJump _ b target an) hn
      have ha := resolve_args hap han
      refine tracks_term h (setJump_ok hp') (setJump_ok hn') hwf hwf'
        ⟨rfl, rfl, rfl, rfl, ha.count, fun hk => by simp [TermRec.empty] at hk, fun _ => ?_,
          fun hk => by simp [TermRec.empty] at hk⟩
      exact forall₂_slice ha.ids mp.termArgs mn.termArgs 0 ha.count
    case setCbranch b cond target targs ftarget fargs =>
      obtain ⟨c₁, hc₁, ta₁, hta₁, fa₁, hfa₁, rfl⟩ := hcp
      obtain ⟨c₂, hc₂, ta₂, hta₂, fa₂, hfa₂, rfl⟩ := hcn
      obtain ⟨hp', rfl⟩ := noId_ok (r := setCbranch _ b c₁ target ta₁ ftarget fa₁) hp
      obtain ⟨hn', rfl⟩ := noId_ok (r := setCbranch _ b c₂ target ta₂ ftarget fa₂) hn
      obtain ⟨rfl, -⟩ := range_getElem? hc₁
      have hta := resolve_args hta₁ hta₂
      have hfa := resolve_args hfa₁ hfa₂
      have hp := (setCbranch_ok hp').1
      have hn := (setCbranch_ok hn').1
      have hids := List.rel_append hta.ids hfa.ids
      refine tracks_term h hp hn hwf hwf' ⟨rfl, rfl, rfl, rfl, hta.count, fun _ => hc₂, fun _ => ?_,
        fun _ => ?_⟩
      · exact forall₂_slice hids mp.termArgs mn.termArgs 0 hta.count
      · simp only [Module.termArgsConst, if_true, hta.count]
        exact forall₂_slice hids mp.termArgs mn.termArgs ta₁.count hfa.count
    case setReturn b vs =>
      obtain ⟨ap, hap, rfl⟩ := hcp
      obtain ⟨an, han, rfl⟩ := hcn
      obtain ⟨hp', rfl⟩ := noId_ok (r := setReturn _ b ap) hp
      obtain ⟨hn', rfl⟩ := noId_ok (r := setReturn _ b an) hn
      have ha := resolve_args hap han
      refine tracks_term h (setReturn_ok hp') (setReturn_ok hn') hwf hwf'
        ⟨rfl, rfl, rfl, rfl, ha.count, fun hk => by simp [TermRec.empty] at hk, fun _ => ?_,
          fun hk => by simp [TermRec.empty] at hk⟩
      exact forall₂_slice ha.ids mp.termArgs mn.termArgs 0 ha.count
    case setTrap b code =>
      subst hcp hcn
      obtain ⟨hp', rfl⟩ := noId_ok (r := setTrap _ b code) hp
      obtain ⟨hn', rfl⟩ := noId_ok (r := setTrap _ b code) hn
      exact tracks_term h (setTrap_ok hp') (setTrap_ok hn') hwf hwf' (termMap_stop (.inl rfl) rfl rfl)
    case setFault b code =>
      subst hcp hcn
      obtain ⟨hp', rfl⟩ := noId_ok (r := setFault _ b code) hp
      obtain ⟨hn', rfl⟩ := noId_ok (r := setFault _ b code) hn
      exact tracks_term h (setFault_ok hp') (setFault_ok hn') hwf hwf' (termMap_stop (.inr rfl) rfl rfl)
    -- the building calls have a key
    all_goals
      first
        | (subst hcp; cases hk)
        | (obtain ⟨_, -, rfl⟩ := hcp; cases hk)
        | (obtain ⟨_, -, _, -, rfl⟩ := hcp; cases hk)
        | (obtain ⟨_, -, _, -, _, -, rfl⟩ := hcp; cases hk)

/-- **Run lemma.**  A program that both builders run leaves modules in step. -/
theorem tracks_runProgram (calls : List Call) {mp mn mp' mn' : Module} {res rp rn : List Nat}
    {ω : Nat → Option Nat} (h : Tracks mp mn res ω)
    (hp : runProgram Call.runPlain calls (mp, List.range mp.values.length) = some (mp', rp))
    (hn : runProgram Call.run calls (mn, res) = some (mn', rn)) :
    ∃ ω', Tracks mp' mn' rn ω' := by
  induction calls generalizing mp mn res ω with
  | nil =>
    cases hp
    cases hn
    exact ⟨ω, h⟩
  | cons c calls ih =>
    rw [runProgram] at hp hn
    cases hcp : c.resolve (List.range mp.values.length) with
    | none => simp only [hcp, reduceCtorEq] at hp
    | some cp =>
      cases hcn : c.resolve res with
      | none => simp only [hcn, reduceCtorEq] at hn
      | some cn =>
        simp only [hcp] at hp
        simp only [hcn] at hn
        rcases hrp : cp.runPlain mp with ⟨m₁, e | id⟩
        · simp only [hrp, reduceCtorEq] at hp
        rcases hrn : cn.run mn with ⟨m₂, e | id'⟩
        · simp only [hrn, reduceCtorEq] at hn
        simp only [hrp] at hp
        simp only [hrn] at hn
        obtain ⟨ω', ht, hr⟩ := tracks_call h hcp hcn hrp hrn
        rw [hr] at hp
        exact ih ht hp hn

end Calls

end Xair
