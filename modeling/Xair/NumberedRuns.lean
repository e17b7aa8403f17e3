import Xair.Tracks
import Xair.DeadValues
import Xair.Entry

/-!
# Value numbering preserves runs

The module of the real builder runs like that of the plain one.  An operation that the
real builder did not append stands for an earlier one of the same block with the same
sources; the run has evaluated that one already, and evaluating it again would give the
same value (`NumRel.known`), because sources never change and memory has not changed
since.  The last point is where threading comes in: a reused load takes the most recent
token, as the earlier load did, so no store lies between the two.  That tokens do not
come back under renaming is read off the ids of the real module, where every operation
has a larger id than its sources (`Behind`).
-/

namespace Xair

section Static

variable {mp mn : Module} {res : List Nat} {ω : Nat → Option Nat}

/-! ### The modules -/

theorem Tracks.image (h : Tracks mp mn res ω) {v : Nat} (hv : v < mp.values.length) :
    ∃ v', resultMap res v = some v' := by
  have hv : v < res.length := h.values ▸ hv
  exact ⟨res[v], List.getElem?_eq_getElem hv⟩

theorem Tracks.moduleMap (h : Tracks mp mn res ω) : ModuleMap mp mn (resultMap res) where
  blocks := h.blocks
  type v v' hv _ := h.type v v' hv
  const v v' hv hc := by
    have hlt := valueIsGlobalConst_lt hc
    cases hop : mp.valueOp v with
    | none => simp [Module.valueIsGlobalConst, hop] at hc
    | some op =>
      obtain ⟨o, ho, rfl, rfl⟩ := h.wf.valueOp_some hop
      obtain ⟨o', ho', hmap, -⟩ := h.matched o ho
      obtain rfl : (mn.opRec o').dst = v' := Option.some.inj (hmap.dst.symm.trans hv)
      have hop' := h.wf'.valueOp_dst ho'
      obtain ⟨h1, h2⟩ := h.type _ _ hv
      simp only [Module.valueIsGlobalConst, hop, Bool.and_eq_true, beq_iff_eq] at hc
      constructor
      · simp [Module.valueIsGlobalConst, Module.validValue, h1, hop', hmap.renames.opcode, hc.2]
      · rw [Module.constValue, Module.constValue, hop, hop', h2]
        simp only [hmap.renames.imm]
  params := h.params
  param_lt b hb p hp := ((h.wf.block_params b hb p).mp hp).1
  term := h.term

/-- What stands for an operation that was not appended. -/
theorem Tracks.skipped (h : Tracks mp mn res ω) {b : Nat} (hb : b < mp.blocks.length)
    {pre post : List Nat} {o : Nat} (hsplit : (mp.blockRec b).ops = pre ++ o :: post)
    (hω : ω o = none) :
    (mp.valueIsGlobalConst (mp.opRec o).dst = true) ∨
      ∃ p ∈ pre, ∃ o', ω p = some o' ∧ OpMap mp mn (resultMap res) p o' ∧
        OpMap mp mn (resultMap res) o o' := by
  have hmem : o ∈ (mp.blockRec b).ops := by rw [hsplit]; simp
  obtain ⟨ho, hob⟩ := (h.wf.block_ops b hb o).mp hmem
  obtain ⟨o', ho', hmap, hor⟩ := h.matched o ho
  rcases hor with hs | ⟨-, hc | ⟨p, hpo, hpb, hωp⟩⟩
  · rw [hω] at hs; cases hs
  · left
    simp [Module.valueIsGlobalConst, Module.validValue, (h.wf.op_dst o ho).1, h.wf.valueOp_dst ho, hc]
  · right
    obtain ⟨hp, -, hmap'⟩ := h.omega_lt p o' hωp
    have hpmem := (h.wf.block_ops b hb p).mpr ⟨hp, hpb.trans hob⟩
    exact ⟨p, mem_pre_of_lt h.wf hb hsplit hpmem hpo, o', hωp, hmap', hmap⟩

/-- **Value numbering keeps verification.** -/
theorem Tracks.verified (h : Tracks mp mn res ω) (hver : mp.Verified) : mn.Verified := by
  refine verified_rename h.moduleMap h.wf' hver h.ops (fun b hb o ho o' hω av av' hav hok => ?_)
    (fun b hb pre o post d' hsplit hω hd' => ?_)
  · obtain ⟨-, -, hmap⟩ := h.omega_lt o o' hω
    have hmem : o' ∈ (mn.blockRec b).ops := by
      rw [h.ops b hb]
      exact List.mem_filterMap.mpr ⟨o, ho, hω⟩
    exact ⟨hmap.opOk h.moduleMap h.wf' (h.blocks.symm ▸ hb) hmem hav hok, hmap.dst⟩
  · have hmem : o ∈ (mp.blockRec b).ops := by rw [hsplit]; simp
    have hlt := (h.wf.op_dst o (h.wf.mem_ops_lt hb hmem)).1
    refine valueIsAvailable_iff.mpr ⟨(h.type _ _ hd').1, ?_⟩
    rcases h.skipped hb hsplit hω with hc | ⟨p, hp, o', hωp, -, hmap⟩
    · exact .inr (h.moduleMap.const _ _ hd' hc).1
    · left
      obtain rfl : (mn.opRec o').dst = d' := Option.some.inj (hmap.dst.symm.trans hd')
      rw [ValueSet.markAll_apply, Bool.or_eq_true, decide_eq_true_eq]
      exact .inl (List.mem_map_of_mem (List.mem_filterMap.mpr ⟨p, hp, hωp⟩))

/-! ### Tokens do not come back -/

/-- The tokens that the operations `pre` take and define are, under the renaming, at most
the most recent one, and equal to it only if they are it. -/
structure Behind (mp : Module) (σ : Nat → Option Nat) (tok : Option Nat) (pre : List Nat) : Prop where
  taken : ∀ p ∈ pre, (mp.opRec p).opcode.isMemoryOp → ∃ t, tok = some t ∧
    renamed σ ((mp.opRec p).srcAt 0) ≤ renamed σ t ∧
    (renamed σ ((mp.opRec p).srcAt 0) = renamed σ t → (mp.opRec p).srcAt 0 = t)
  stored : ∀ p ∈ pre, (mp.opRec p).opcode = .store → ∃ t, tok = some t ∧
    renamed σ (mp.opRec p).dst ≤ renamed σ t

theorem behind_nil (σ : Nat → Option Nat) (tok : Option Nat) : Behind mp σ tok [] :=
  ⟨fun p hp => by simp at hp, fun p hp => by simp at hp⟩

theorem memoryOp_src {b o : Nat} {av : ValueSet} (hok : OpOk mp b av o)
    (hop : (mp.opRec o).opcode.isMemoryOp) : 0 < (mp.opRec o).src.length := by
  have ha := arityOk_of_typeRule hok.typed
  rcases hop with hop | hop
  · rw [ha.1 hop]; omega
  · rw [ha.2 hop]; omega

/-- The result of a store is a token, and no other result is. -/
theorem isMem_dst_iff {b o : Nat} {av : ValueSet} (hok : OpOk mp b av o) :
    (mp.valueType (mp.opRec o).dst).isMem = true ↔ (mp.opRec o).opcode = .store := by
  refine ⟨typeRule_mem hok.typed, fun hop => ?_⟩
  have htyped := hok.typed
  rw [hop] at htyped
  obtain ⟨tm, ta, td, -, htm, -, hd, -⟩ := typeRule_store htyped
  exact hd ▸ htm

theorem nextToken_store {b o : Nat} {av : ValueSet} (hok : OpOk mp b av o)
    (hop : (mp.opRec o).opcode = .store) (tok : Option Nat) :
    mp.nextToken tok o = some (mp.opRec o).dst := if_pos ((isMem_dst_iff hok).mpr hop)

theorem nextToken_other {b o : Nat} {av : ValueSet} (hok : OpOk mp b av o)
    (hop : (mp.opRec o).opcode ≠ .store) (tok : Option Nat) : mp.nextToken tok o = tok :=
  if_neg fun hm => hop ((isMem_dst_iff hok).mp hm)

/-- Renaming moves the token of a memory operation below its result. -/
theorem Tracks.token_lt (h : Tracks mp mn res ω) {b o o' : Nat} {av : ValueSet}
    (hok : OpOk mp b av o) (hop : (mp.opRec o).opcode.isMemoryOp) (ho' : o' < mn.ops.length)
    (hmap : OpMap mp mn (resultMap res) o o') :
    renamed (resultMap res) ((mp.opRec o).srcAt 0) = (mn.opRec o').srcAt 0 ∧
      (mn.opRec o').srcAt 0 < renamed (resultMap res) (mp.opRec o).dst := by
  have hlen := memoryOp_src hok hop
  have hlen' : 0 < (mn.opRec o').src.length := by
    rw [hmap.renames.src, List.length_map]; exact hlen
  refine ⟨(hmap.renames.srcAt hlen).symm, ?_⟩
  rw [renamed_eq hmap.dst]
  exact h.srcs_lt o' ho' _ (OpRec.srcAt_mem hlen')

theorem Behind.store_kept (h : Tracks mp mn res ω) {b o : Nat} {av : ValueSet}
    {tok : Option Nat} {pre : List Nat} (hpre : Behind mp (resultMap res) tok pre)
    (hok : OpOk mp b av o) (hop : (mp.opRec o).opcode = .store)
    (htok : tok = some ((mp.opRec o).srcAt 0)) {p o' : Nat} (hp : p ∈ pre) (ho' : o' < mn.ops.length)
    (hmapp : OpMap mp mn (resultMap res) p o') (hmap : OpMap mp mn (resultMap res) o o') : False := by
  have hopp : (mp.opRec p).opcode = .store := by
    rw [← hmapp.renames.opcode, hmap.renames.opcode, hop]
  obtain ⟨t, ht, hle⟩ := hpre.stored p hp hopp
  obtain ⟨h1, h2⟩ := h.token_lt hok (.inr hop) ho' hmap
  obtain rfl : (mp.opRec o).srcAt 0 = t := Option.some.inj (htok.symm.trans ht)
  rw [renamed_eq hmapp.dst] at hle
  rw [renamed_eq hmap.dst] at h2
  omega

theorem Behind.snoc (h : Tracks mp mn res ω) {b o : Nat} {av : ValueSet} {tok : Option Nat}
    {pre : List Nat} (hpre : Behind mp (resultMap res) tok pre) (hok : OpOk mp b av o)
    (htok : (mp.opRec o).opcode.isMemoryOp → tok = some ((mp.opRec o).srcAt 0)) :
    Behind mp (resultMap res) (mp.nextToken tok o) (pre ++ [o]) := by
  obtain ⟨o', ho', hmap, -⟩ := h.matched o hok.lt
  by_cases hop : (mp.opRec o).opcode = .store
  · -- the new token is larger than the old one
    have htok := htok (.inr hop)
    obtain ⟨h1, h2⟩ := h.token_lt hok (.inr hop) ho' hmap
    rw [← h1] at h2
    rw [nextToken_store hok hop]
    refine ⟨fun p hp hmem => ⟨_, rfl, ?_⟩, fun p hp hst => ⟨_, rfl, ?_⟩⟩
    · rcases List.mem_append.mp hp with hp | hp
      · obtain ⟨t, ht, hle, -⟩ := hpre.taken p hp hmem
        obtain rfl : (mp.opRec o).srcAt 0 = t := Option.some.inj (htok.symm.trans ht)
        exact ⟨by omega, fun heq => by omega⟩
      · obtain rfl : p = o := by simpa using hp
        exact ⟨by omega, fun heq => by omega⟩
    · rcases List.mem_append.mp hp with hp | hp
      · obtain ⟨t, ht, hle⟩ := hpre.stored p hp hst
        obtain rfl : (mp.opRec o).srcAt 0 = t := Option.some.inj (htok.symm.trans ht)
        omega
      · obtain rfl : p = o := by simpa using hp
        exact Nat.le_refl _
  · rw [nextToken_other hok hop]
    refine ⟨fun p hp hmem => ?_, fun p hp hst => ?_⟩
    · rcases List.mem_append.mp hp with hp | hp
      · exact hpre.taken p hp hmem
      · obtain rfl : p = o := by simpa using hp
        exact ⟨_, htok hmem, Nat.le_refl _, fun _ => rfl⟩
    · rcases List.mem_append.mp hp with hp | hp
      · exact hpre.stored p hp hst
      · obtain rfl : p = o := by simpa using hp
        exact absurd hst hop

end Static

/-! ### The simulation -/

section Simulation

variable {mp mn : Module} {res : List Nat} {ω : Nat → Option Nat}

/-- Evaluating operation `p` again would give its value again and leave memory alone. -/
def Known (m : Module) (r : RefState) (p : Nat) : Prop :=
  ∃ x, refRead m r (m.opRec p).dst = .ok x ∧
    execOpValue (m.valueType (m.opRec p).dst) (refRead m r) r.mem (m.opRec p) = .ok (x, r.mem)

/-- The runs agree on the available values and on memory, and everything evaluated so far
in the block is known, apart from stores and from loads older than the last store. -/
structure NumRel (mp mn : Module) (res : List Nat) (b : Nat) (pre : List Nat) (r r' : RefState) :
    Prop where
  ready : Ready mp (refRead mp r) (mp.availableAfter b pre)
  reads : ReadsAgree mp (resultMap res) Eq (mp.availableAfter b pre) (refRead mp r) (refRead mn r')
  mem : r.mem = r'.mem
  behind : Behind mp (resultMap res) (mp.tokenAt b pre) pre
  accepted : ∀ p ∈ pre, OpOk mp b (mp.availableAfter b pre) p
  known : ∀ p ∈ pre, (mp.opRec p).opcode ≠ .store →
    ((mp.opRec p).opcode = .load → mp.tokenAt b pre = some ((mp.opRec p).srcAt 0)) → Known mp r p

theorem OpOk.mark {m : Module} {b o : Nat} {av : ValueSet} (h : OpOk m b av o) (d : Nat) :
    OpOk m b (av.mark d) o :=
  ⟨h.lt, h.dst_lt, h.dst_block, h.dst_op, fun s hs => by
    obtain ⟨h1, h2⟩ := valueIsAvailable_iff.mp (h.sources s hs)
    exact valueIsAvailable_iff.mpr ⟨h1, h2.imp (fun h2 => by simp [h2]) id⟩, h.out_type, h.typed⟩

/-- What is known stays known after another operation, as long as no store comes between a
load and its token. -/
theorem NumRel.known_after (h : Tracks mp mn res ω) (hver : mp.Verified) (hthr : mp.Threaded)
    {b : Nat} (hb : b < mp.blocks.length) {pre os : List Nat} {o : Nat}
    (hsplit : (mp.blockRec b).ops = pre ++ o :: os) {r r' : RefState}
    (hrel : NumRel mp mn res b pre r r') {x : ExecValue} {mem : ExecMemory}
    (he : execOpValue (mp.valueType (mp.opRec o).dst) (refRead mp r) r.mem (mp.opRec o) =
      .ok (x, mem)) {p : Nat} (hp : p ∈ pre) (hns : (mp.opRec p).opcode ≠ .store)
    (hld : (mp.opRec p).opcode = .load →
      mp.nextToken (mp.tokenAt b pre) o = some ((mp.opRec p).srcAt 0)) :
    Known mp (r.define (mp.opRec o).dst x mem) p := by
  have hok := opOk_at hver hb hsplit
  have hacc := hrel.accepted p hp
  have hread := refRead_after h.wf hb hsplit r x mem
    (available_dst (b := b) hp hacc.dst_lt)
  have heval := execOpValue_after h.wf hb hsplit r x mem hacc
  by_cases hop : (mp.opRec o).opcode = .store
  · -- a load would have taken the token that the store has just made
    have hpure : ¬ (mp.opRec p).opcode.isMemoryOp := by
      rintro (hload | hstore)
      · have heq := hld hload
        rw [nextToken_store hok hop, Option.some.injEq] at heq
        have htok := token_at hthr hb hsplit (.inr hop)
        obtain ⟨t, ht, hle, -⟩ := hrel.behind.taken p hp (.inl hload)
        obtain ⟨o', ho', hmap, -⟩ := h.matched o hok.lt
        obtain ⟨h1, h2⟩ := h.token_lt hok (.inr hop) ho' hmap
        obtain rfl : (mp.opRec o).srcAt 0 = t := Option.some.inj (htok.symm.trans ht)
        rw [← heq] at hle
        omega
      · exact hns hstore
    obtain ⟨y, hy, hey⟩ := hrel.known p hp hns fun hl => absurd (.inl hl) hpure
    refine ⟨y, hread.trans hy, ?_⟩
    rw [heval, execOpValue_pure hpure _ r.mem, hey]
    rfl
  · rw [nextToken_other hok hop] at hld
    obtain ⟨y, hy, hey⟩ := hrel.known p hp hns hld
    obtain rfl : mem = r.mem := execOpValue_mem hop he
    exact ⟨y, hread.trans hy, (heval _).trans hey⟩

/-- **One more operation** of the plain module has been evaluated. -/
theorem NumRel.snoc (h : Tracks mp mn res ω) (hver : mp.Verified) (hthr : mp.Threaded) {b : Nat}
    (hb : b < mp.blocks.length) {pre os : List Nat} {o : Nat}
    (hsplit : (mp.blockRec b).ops = pre ++ o :: os) {r r' r₂ : RefState}
    (hrel : NumRel mp mn res b pre r r') {x : ExecValue} {mem : ExecMemory}
    (he : execOpValue (mp.valueType (mp.opRec o).dst) (refRead mp r) r.mem (mp.opRec o) =
      .ok (x, mem))
    (hreads : ReadsAgree mp (resultMap res) Eq ((mp.availableAfter b pre).mark (mp.opRec o).dst)
      (refRead mp (r.define (mp.opRec o).dst x mem)) (refRead mn r₂))
    (hmem : mem = r₂.mem) :
    NumRel mp mn res b (pre ++ [o]) (r.define (mp.opRec o).dst x mem) r₂ := by
  have hok := opOk_at hver hb hsplit
  have htok := token_at hthr hb hsplit
  refine ⟨?_, availableAfter_snoc b pre o ▸ hreads, hmem,
    tokenAt_snoc b pre o ▸ hrel.behind.snoc h hok htok, fun p hp => ?_, fun p hp hns hld => ?_⟩
  · rw [availableAfter_snoc]
    exact hrel.ready.define (hok.value_type hrel.ready he).1 mem
  · rw [availableAfter_snoc]
    rcases List.mem_append.mp hp with hp | hp
    · exact (hrel.accepted p hp).mark _
    · obtain rfl : p = o := by simpa using hp
      exact hok.mark _
  · rw [tokenAt_snoc] at hld
    rcases List.mem_append.mp hp with hp | hp
    · exact hrel.known_after h hver hthr hb hsplit he hp hns hld
    · obtain rfl : p = o := by simpa using hp
      obtain rfl : mem = r.mem := execOpValue_mem hns he
      refine ⟨x, ?_, (execOpValue_after h.wf hb hsplit r x _ hok _).trans he⟩
      cases hc : mp.valueIsGlobalConst (mp.opRec p).dst with
      | true => rw [refRead_const hc, hok.const he hc]
      | false => exact refRead_env hc (by simp [RefState.define])

theorem NumRel.eval_eq (h : Tracks mp mn res ω) {b : Nat} {pre : List Nat} {r r' : RefState}
    (hrel : NumRel mp mn res b pre r r') {o o' : Nat}
    (hok : OpOk mp b (mp.availableAfter b pre) o) (hmap : OpMap mp mn (resultMap res) o o') :
    execOpValue (mp.valueType (mp.opRec o).dst) (refRead mp r) r.mem (mp.opRec o) =
      execOpValue (mn.valueType (mn.opRec o').dst) (refRead mn r') r'.mem (mn.opRec o') := by
  rw [(h.type _ _ hmap.dst).2, ← hrel.mem]
  refine execOpValue_congr (arityOk_of_typeRule hok.typed) hmap.renames fun s hs => ?_
  obtain ⟨s', hs'⟩ := hmap.src s hs
  obtain ⟨x, x', hx, hx', -, rfl⟩ := hrel.reads s s' (hok.sources s hs) hs'
  rw [renamed_eq hs', hx, hx']

theorem NumRel.keep (h : Tracks mp mn res ω) (hver : mp.Verified) (hthr : mp.Threaded) {b : Nat}
    (hb : b < mp.blocks.length) {pre os : List Nat} {o o' : Nat}
    (hsplit : (mp.blockRec b).ops = pre ++ o :: os) (hω : ω o = some o') {r r' : RefState}
    (hrel : NumRel mp mn res b pre r r') :
    OpRel (NumRel mp mn res b (pre ++ [o])) (fun s s' => s.mem = s'.mem) (mp.opRec o).opcode
      (mn.opRec o').opcode (refOp mp r (mp.opRec o)) (refOp mn r' (mn.opRec o')) := by
  have hok := opOk_at hver hb hsplit
  obtain ⟨-, ho', hmap⟩ := h.omega_lt o o' hω
  have heval := hrel.eval_eq h hok hmap
  have hout := hok.outcome hrel.ready r.mem
  unfold refOp
  rw [← heval]
  cases he : execOpValue (mp.valueType (mp.opRec o).dst) (refRead mp r) r.mem (mp.opRec o) with
  | error e =>
    rw [he] at hout
    refine .fail ?_ (by rw [hmap.renames.opcode]) hrel.mem
    cases hout <;> exact fun hh => by cases hh
  | ok y =>
    obtain ⟨x, mem⟩ := y
    refine .ok (hrel.snoc h hver hthr hb hsplit he ?_ rfl)
    refine hrel.reads.define hmap.dst (hok.value_type hrel.ready he).1 rfl (hok.const he)
      (fun hcu => ?_) (fun u hu _ hu' => ?_) mem mem
    · have := execOpValue_const ho' (h.wf'.op_dst o' ho').2 hcu (refRead mn r') r'.mem
      rw [← heval, he] at this
      exact (Prod.ext_iff.mp (Except.ok.inj this)).1
    · -- another value with this image is a constant
      rcases available_cases hu with hc | hp | ⟨p, hp, rfl⟩
      · exact (h.moduleMap.const _ _ hu' hc).1
      · obtain ⟨i, hi, rfl⟩ := List.mem_iff_getElem.mp hp
        have hps := List.forall₂_iff_get.mp (h.params b hb)
        have hi' : i < (mn.blockRec b).params.length := by omega
        have hσ := hps.2 i hi hi'
        rw [List.get_eq_getElem, hu', Option.some.injEq] at hσ
        have hnone := ((h.wf'.block_params b (h.blocks.symm ▸ hb) _).mp
          (List.get_mem _ ⟨i, hi'⟩)).2.1
        rw [← hσ, (h.wf'.op_dst o' ho').2] at hnone
        cases hnone
      · exact absurd hu' (h.fresh o o' hω p (lt_of_mem_pre h.wf hb hsplit hp))

/-- A reused operation computes the value that is already there. -/
theorem NumRel.skip (h : Tracks mp mn res ω) (hver : mp.Verified) (hthr : mp.Threaded) {b : Nat}
    (hb : b < mp.blocks.length) {pre os : List Nat} {o : Nat}
    (hsplit : (mp.blockRec b).ops = pre ++ o :: os) (hω : ω o = none) {r r' : RefState}
    (hrel : NumRel mp mn res b pre r r') :
    SkipRel (NumRel mp mn res b (pre ++ [o])) (fun _ => False) b (mp.opRec o).opcode r'
      (refOp mp r (mp.opRec o)) := by
  have hok := opOk_at hver hb hsplit
  obtain ⟨d', hd'⟩ := h.image hok.dst_lt
  obtain ⟨x, he, hx⟩ : ∃ x, execOpValue (mp.valueType (mp.opRec o).dst) (refRead mp r) r.mem
      (mp.opRec o) = .ok (x, r.mem) ∧ refRead mn r' d' = .ok x := by
    rcases h.skipped hb hsplit hω with hc | ⟨p, hp, o', hωp, hmapp, hmap⟩
    · obtain ⟨h1, h2⟩ := h.moduleMap.const _ _ hd' hc
      exact ⟨_, execOpValue_const hok.lt hok.dst_op hc _ _, by rw [refRead_const h1, h2]⟩
    · obtain rfl : (mn.opRec o').dst = d' := Option.some.inj (hmap.dst.symm.trans hd')
      have ho' := (h.omega_lt p o' hωp).2.1
      have hopcode : (mp.opRec p).opcode = (mp.opRec o).opcode :=
        hmapp.renames.opcode.symm.trans hmap.renames.opcode
      have htok := token_at hthr hb hsplit
      have hacc := hrel.accepted p hp
      have hns : (mp.opRec o).opcode ≠ .store := fun hop =>
        hrel.behind.store_kept h hok hop (htok (.inr hop)) hp ho' hmapp hmap
      -- a load took the token that this one takes
      have hload : (mp.opRec p).opcode = .load →
          mp.tokenAt b pre = some ((mp.opRec p).srcAt 0) := fun hl => by
        have hlo : (mp.opRec o).opcode = .load := hopcode.symm.trans hl
        obtain ⟨t, ht, -, heq⟩ := hrel.behind.taken p hp (.inl hl)
        rw [ht, heq ?_]
        obtain rfl : (mp.opRec o).srcAt 0 = t :=
          Option.some.inj ((htok (.inl hlo)).symm.trans ht)
        rw [(h.token_lt hacc (.inl hl) ho' hmapp).1, (h.token_lt hok (.inl hlo) ho' hmap).1]
      obtain ⟨x, hx, hex⟩ := hrel.known p hp (hopcode ▸ hns) hload
      refine ⟨x, ?_, ?_⟩
      · rw [hrel.eval_eq h hok hmap, ← hrel.eval_eq h hacc hmapp, hex]
      · obtain ⟨y, y', hy, hy', -, rfl⟩ := hrel.reads _ _ (available_dst hp hacc.dst_lt) hmapp.dst
        rw [hx] at hy
        cases hy
        exact hy'
  unfold refOp
  rw [he]
  refine .ok (hrel.snoc h hver hthr hb hsplit he ?_ hrel.mem)
  refine hrel.reads.defineLeft (hok.value_type hrel.ready he).1 (hok.const he) (fun d hd => ?_) r.mem
  obtain rfl : d' = d := Option.some.inj (hd'.symm.trans hd)
  exact ⟨x, hx, rfl⟩

/-- **Simulation.**  The module of the plain builder is simulated by that of the real one. -/
theorem numbered_blockSim (h : Tracks mp mn res ω) (hver : mp.Verified) (hthr : mp.Threaded) :
    BlockSim (refInterp mp) (refInterp mn) mp mn
      (fun b r r' => b < mp.blocks.length ∧ NumRel mp mn res b [] r r')
      (fun b os r r' => b < mp.blocks.length ∧ ∃ pre, (mp.blockRec b).ops = pre ++ os ∧
        NumRel mp mn res b pre r r')
      ω Eq (fun r r' => r.mem = r'.mem) (fun _ => False) where
  start b r r' hst := ⟨h.ops b hst.1, hst.1, [], rfl, hst.2⟩
  keep b o o' os r r' ho hat := by
    obtain ⟨hb, pre, hsplit, hrel⟩ := hat
    refine (hrel.keep h hver hthr hb hsplit ho).mono fun s s' hs => ⟨hb, pre ++ [o], ?_, hs⟩
    rw [hsplit, List.append_assoc]
    rfl
  skip b o os r r' ho hat := by
    obtain ⟨hb, pre, hsplit, hrel⟩ := hat
    refine (hrel.skip h hver hthr hb hsplit ho).mono fun s hs => ⟨hb, pre ++ [o], ?_, hs⟩
    rw [hsplit, List.append_assoc]
    rfl
  term b r r' hat := by
    obtain ⟨hb, pre, hsplit, hrel⟩ := hat
    rw [List.append_nil] at hsplit
    subst hsplit
    refine readsAgree_term h.moduleMap (fun _ => rfl) (fun x y hxy => hxy ▸ ValEq.refl x) h.wf' hb
      (verifyModule_ok_iff.mp hver b hb).term hrel.reads ?_ hrel.mem
    intro target args xs xs' hok _ _ hty hreads
    exact ⟨hok.target_lt, ready_bindParams hty _, hreads, hrel.mem, behind_nil _ _,
      fun p hp => by simp at hp, fun p hp => by simp at hp⟩
  final _ _ _ hst := hst.2.mem

theorem refRun_numbered (h : Tracks mp mn res ω) (hver : mp.Verified) (hthr : mp.Threaded)
    {entry : Nat} (hb : entry < mp.blocks.length) {args : List ExecValue}
    (hargs : List.Forall₂ (fun p x => x.type = mp.valueType p) (mp.blockRec entry).params args)
    (mem : ExecMemory) (limit : Nat) :
    (refRun mp entry args mem limit).1 = (refRun mn entry args mem limit).1 := by
  have hvb : mp.validBlock entry = true := by simpa [Module.validBlock] using hb
  have hvb' : mn.validBlock entry = true := by simpa [Module.validBlock, h.blocks] using hb
  rw [refRun, refRun, if_neg (by rw [hvb]; decide), if_neg (by rw [hvb']; decide)]
  have hreads := readsAgree_bindParams h.moduleMap (V := Eq) (fun _ => rfl) h.wf' hb hargs
    (List.forall₂_same.mpr fun _ _ => rfl) mem mem
  have hrel : NumRel mp mn res entry [] (refStart mp entry args mem) (refStart mn entry args mem) :=
    ⟨ready_bindParams hargs mem, hreads, rfl, behind_nil _ _, fun p hp => by simp at hp,
      fun p hp => by simp at hp⟩
  rcases (numbered_blockSim h hver hthr).run limit ⟨hb, hrel⟩ with hf | ⟨hr, -⟩
  · exact hf.elim
  · exact resultRel_eq hr

/-- Arguments for the plain module fit the real one. -/
theorem types_numbered (h : Tracks mp mn res ω) {entry : Nat} (hb : entry < mp.blocks.length)
    {args : List ExecValue}
    (hargs : List.Forall₂ (fun p x => x.type = mp.valueType p) (mp.blockRec entry).params args) :
    List.Forall₂ (fun p x => x.type = mn.valueType p) (mn.blockRec entry).params args := by
  have h1 := List.forall₂_iff_get.mp (h.params entry hb)
  have h2 := List.forall₂_iff_get.mp hargs
  refine List.forall₂_iff_get.mpr ⟨by rw [← h1.1, h2.1], fun i hi hi' => ?_⟩
  have hi₁ : i < (mp.blockRec entry).params.length := by omega
  rw [h2.2 i hi₁ hi', (h.type _ _ (h1.2 i hi₁ hi)).2]

end Simulation

/-- **Value numbering preserves execution.**  A program that both builders run, whose
plain module verifies and threads its memory tokens, has a numbered module that verifies
and that, entered with the same parameters and pages, ends in the same way with the same
returned values. -/
theorem numbered_execRun {calls : List Call} {mp mn : Module} {rp rn : List Nat}
    (hp : runProgram Call.runPlain calls (Module.create, []) = some (mp, rp))
    (hn : runProgram Call.run calls (Module.create, []) = some (mn, rn))
    (hthr : mp.Threaded) (hver : mp.Verified) :
    mn.Verified ∧ ∀ (entry : Nat) (pages : List ExecPage) (args : List ExecValue) (limit : Nat)
      (s : ExecState), (mp.blockRec entry).params.length = args.length →
      execEnter mp entry pages args = (.ok, s) →
      ∃ s', execEnter mn entry pages args = (.ok, s') ∧
        (execRun mn entry s' limit).1 = (execRun mp entry s limit).1 := by
  obtain ⟨ω, h⟩ := tracks_runProgram calls tracks_create hp hn
  have hver' := h.verified hver
  refine ⟨hver', fun entry pages args limit s hlen hs => ?_⟩
  have href := (execRun_enter h.wf hver hlen hs limit).1
  by_cases hb : entry < mp.blocks.length
  · have hargs := execEnter_types h.wf hlen hs
    have hargs' := types_numbered h hb hargs
    have hs' := execEnter_ok h.wf' (h.blocks.symm ▸ hb) hargs' pages
    refine ⟨_, hs', ?_⟩
    rw [(execRun_enter h.wf' hver' hargs'.length_eq hs' limit).1, href,
      refRun_numbered h hver hthr hb hargs]
  · -- there is no such block in either module
    have hnone : ∀ m : Module, ¬ entry < m.blocks.length → (m.blockRec entry).params = [] :=
      fun m hm => by rw [Module.blockRec, List.getD_eq_default _ _ (by omega)]; rfl
    have hb' : ¬ entry < mn.blocks.length := h.blocks.symm ▸ hb
    rw [execEnter, hnone mp hb] at hs
    refine ⟨{ freshState mn with mem := ⟨pages, 0#64⟩ }, ?_, ?_⟩
    · rw [execEnter, hnone mn hb']
      rfl
    · have hv : ∀ m : Module, ¬ entry < m.blocks.length → m.validBlock entry = false :=
        fun m hm => by simpa [Module.validBlock] using hm
      rw [execRun, execRun, if_pos (.inr (hv mn hb')), if_pos (.inr (hv mp hb))]

/-- A loop that counts down, stores and loads; one load and one constant are built twice. -/
def reuseLoop : List Call :=
  [.blockCreate none, .blockCreate none, .blockCreate none,
    .blockAddParam 0 (typeMem 0 64) none, .blockAddParam 0 (typeAddr 64) none,
    .blockAddParam 0 (typeI 8) none, .buildStore 0 0 1 2 .le none,
    .buildLoad 0 (typeI 8) 3 1 .le none, .buildLoad 0 (typeI 8) 3 1 .le none,
    .buildBinary 0 .add (typeI 8) 4 5 none, .buildStore 0 3 1 6 .le none,
    .buildLoad 0 (typeI 8) 7 1 .le none, .buildConstU64 1 (typeI 8) 1#64 none,
    .buildConstU64 0 (typeI 8) 1#64 none, .buildBinary 0 .sub (typeI 8) 2 10 none,
    .buildConstU64 0 (typeI 8) 0#64 none, .buildBinary 0 .eq (typeI 1) 11 12 none,
    .setCbranch 0 13 2 (.array [8]) 0 (.array [7, 1, 11]),
    .setTrap 1 0, .blockAddParam 2 (typeI 8) none, .setReturn 2 (.array [14])]

/-- Arguments for two rounds of `reuseLoop`. -/
def reuseLoopArgs : List ExecValue := [execMem 0 64, execAddr 64 16#64, execI 8 2#64]

theorem numbered_execRun_reuseLoop : ∃ mp mn rp rn s',
    runProgram Call.runPlain reuseLoop (Module.create, []) = some (mp, rp) ∧
      runProgram Call.run reuseLoop (Module.create, []) = some (mn, rn) ∧
      mn.ops.length < mp.ops.length ∧ mn.Verified ∧
      execEnter mn 0 [] reuseLoopArgs = (.ok, s') ∧
      (execRun mn 0 s' 5).1 = .ok ⟨.ret, 2, 0, [execI 8 2#64]⟩ := by
  have h := @numbered_execRun reuseLoop _ _ _ _ rfl rfl (by decide +kernel) (by decide +kernel)
  obtain ⟨s', hs', hrun⟩ := h.2 0 [] reuseLoopArgs 5 _ (by decide +kernel)
    (execEnter_eq (by decide +kernel))
  exact ⟨_, _, _, _, s', rfl, rfl, by decide +kernel, h.1, hs', hrun.trans (by decide +kernel)⟩

end Xair
