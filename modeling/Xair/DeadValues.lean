import Xair.Threading
import Xair.Compact

/-!
# Removing dead values preserves runs

A run on a module and a run on its compaction agree on the values that are kept.
They need not agree on memory: a store whose token is dead is gone, so the pages
agree only as long as the most recent token of the block is kept (`DeadRel.pages`).
Threading makes that enough, because a kept load or store takes the most recent
token and thereby keeps it.
-/

namespace Xair

theorem execOpValue_mem {out : Ty} {read : Nat → Except Status ExecValue} {mem mem' : ExecMemory}
    {op : OpRec} {x : ExecValue} (hop : op.opcode ≠ .store)
    (h : execOpValue out read mem op = .ok (x, mem')) : mem' = mem := by
  by_cases hm : op.opcode.isMemoryOp
  · have hload : op.opcode = .load := hm.resolve_right hop
    simp only [execOpValue, hload, execMemoryOp, reduceCtorEq, if_false, true_or, if_true] at h
    repeat' split at h
    all_goals first | cases h; rfl | cases h
  · rw [execOpValue_pure hm mem mem] at h
    cases hr : execOpValue out read mem op with
    | error e => rw [hr] at h; cases h
    | ok p => rw [hr] at h; cases h; rfl

/-- The runs agree on kept values, and on the pages while the token is kept. -/
structure DeadRel (m m' : Module) (σ : Nat → Option Nat) (tok : Option Nat) (av : ValueSet)
    (r r' : RefState) : Prop where
  ready : Ready m (refRead m r) av
  reads : ReadsAgree m σ ValEq av (refRead m r) (refRead m' r')
  pages : ∀ t t', tok = some t → σ t = some t' → r.mem.pages = r'.mem.pages

/-- A result that canonicalization may change: an error, or an unsupported operation. -/
def Unfinished (r : RunResult) : Prop := ∀ x, r = .ok x → x.kind = .unsupported

theorem unfinished_opFailure (b : Nat) (opcode : Opcode) (e : Status) :
    Unfinished (opFailure b opcode e) := by
  intro x hx
  cases e <;> cases hx
  rfl

section Simulation

variable {m m' : Module} {σ ω : Nat → Option Nat}

theorem DeadRel.keep (hc : Compaction m m' σ ω) (hwf : m.WF) {b o o' : Nat} {tok : Option Nat}
    {av : ValueSet} {r r' : RefState} (ho : ω o = some o') (hok : OpOk m b av o)
    (htok : (m.opRec o).opcode.isMemoryOp → tok = some ((m.opRec o).srcAt 0))
    (h : DeadRel m m' σ tok av r r') (R : RefState → RefState → Prop)
    (hR : ∀ s s', DeadRel m m' σ (m.nextToken tok o) (av.mark (m.opRec o).dst) s s' → R s s') :
    OpRel R (fun _ _ => True) (m.opRec o).opcode (m'.opRec o').opcode
      (refOp m r (m.opRec o)) (refOp m' r' (m'.opRec o')) := by
  have hmap := hc.opMap ho
  have hm := hc.moduleMap hwf
  have hwf' := hc.wf hwf
  have ho' : o' < m'.ops.length := (hc.op_range o').mpr ⟨o, ho⟩
  have htype : m'.valueType (m'.opRec o').dst = m.valueType (m.opRec o).dst :=
    (hm.type _ _ hmap.dst hok.dst_lt).2
  -- a kept memory operation keeps the token it takes
  have hpages : (m.opRec o).opcode.isMemoryOp → r.mem.pages = r'.mem.pages := fun hop => by
    have hlen : 0 < (m.opRec o).src.length := by
      have ha := arityOk_of_typeRule hok.typed
      rcases hop with hop | hop
      · rw [ha.1 hop]; omega
      · rw [ha.2 hop]; omega
    obtain ⟨t', ht'⟩ := hmap.src _ (OpRec.srcAt_mem hlen)
    exact h.pages _ t' (htok hop) ht'
  have hagree : OpAgree (r.mem.pages = r'.mem.pages)
      (execOpValue (m.valueType (m.opRec o).dst) (refRead m r) r.mem (m.opRec o))
      (execOpValue (m.valueType (m.opRec o).dst) (refRead m' r') r'.mem (m'.opRec o')) :=
    execOpValue_valEq hmap.renames hok.typed (fun s hs => by
      obtain ⟨s', hs'⟩ := hmap.src s hs
      obtain ⟨x, x', hx, hx', ht, hv⟩ := h.reads s s' (hok.sources s hs) hs'
      exact ⟨x, x', hx, by rw [renamed_eq hs', hx'], ht, hv⟩) hpages
  have hout := hok.outcome h.ready r.mem
  unfold refOp
  rw [htype]
  generalize he : execOpValue (m.valueType (m.opRec o).dst) (refRead m r) r.mem (m.opRec o) = p
    at hagree hout
  generalize he' : execOpValue (m.valueType (m.opRec o).dst) (refRead m' r') r'.mem (m'.opRec o') =
    p' at hagree
  match p, p', hagree with
  | .error e, .error e', hee =>
    cases hee
    refine .fail ?_ (by rw [hmap.renames.opcode]) trivial
    cases hout <;> exact fun hh => by cases hh
  | .ok (x, mem), .ok (x', mem'), ⟨hV, hpg⟩ =>
    have ht := (hok.value_type h.ready he).1
    refine .ok (hR _ _ ⟨h.ready.define ht mem, ?_, ?_⟩)
    · refine h.reads.define hmap.dst ht hV (hok.const he) (fun hcu => ?_)
        (fun u _ hu hu' => absurd (hc.value_inj _ _ _ hu' hmap.dst) hu) mem mem'
      have := execOpValue_const ho' (hwf'.op_dst o' ho').2 hcu (refRead m' r') r'.mem
      rw [htype, he'] at this
      exact (Prod.ext_iff.mp (Except.ok.inj this)).1
    · intro t t' htk hσ
      unfold Module.nextToken at htk
      split at htk
      · next hmem =>
        -- the token is the store's own, which took a kept one
        exact hpg (hpages (.inr (typeRule_mem hok.typed hmem)))
      · exact hpg (h.pages t t' htk hσ)

theorem DeadRel.skip (hc : Compaction m m' σ ω) {b o : Nat} {tok : Option Nat} {av : ValueSet}
    {r r' : RefState} (ho : ω o = none) (hok : OpOk m b av o) (h : DeadRel m m' σ tok av r r')
    (R : RefState → RefState → Prop)
    (hR : ∀ s s', DeadRel m m' σ (m.nextToken tok o) (av.mark (m.opRec o).dst) s s' → R s s') :
    SkipRel R Unfinished b (m.opRec o).opcode r' (refOp m r (m.opRec o)) := by
  have hnone : ∀ d', σ (m.opRec o).dst ≠ some d' := fun d' hd' => by
    obtain ⟨o', ho'⟩ := (hc.op_dst o hok.lt).mpr ⟨d', hd'⟩
    rw [ho] at ho'
    cases ho'
  have hout := hok.outcome h.ready r.mem
  unfold refOp
  cases he : execOpValue (m.valueType (m.opRec o).dst) (refRead m r) r.mem (m.opRec o) with
  | error e =>
    rw [he] at hout
    refine .fail ?_ (unfinished_opFailure _ _ _)
    cases hout <;> exact fun hh => by cases hh
  | ok p =>
    obtain ⟨x, mem⟩ := p
    have ht := (hok.value_type h.ready he).1
    refine .ok (hR _ _ ⟨h.ready.define ht mem,
      h.reads.defineLeft ht (hok.const he) (fun d' hd' => absurd hd' (hnone d')) mem, ?_⟩)
    intro t t' htk hσ
    unfold Module.nextToken at htk
    split at htk
    · next hmem =>
      -- the token of a dropped store is dead
      cases htk
      exact absurd hσ (hnone t')
    · next hmem =>
      have hop : (m.opRec o).opcode ≠ .store := fun hop => by
        have htyped := hok.typed
        rw [hop] at htyped
        obtain ⟨tm, ta, td, -, htm, -, hd, -⟩ := typeRule_store htyped
        exact hmem (hd ▸ htm)
      show mem.pages = _
      rw [execOpValue_mem hop he]
      exact h.pages t t' htk hσ

/-- **Simulation.**  A verified, threaded module is simulated by its compaction. -/
theorem deadValues_blockSim (hc : Compaction m m' σ ω) (hwf : m.WF) (hver : m.Verified)
    (hthr : m.Threaded) : BlockSim (refInterp m) (refInterp m') m m'
      (fun b r r' => b < m.blocks.length ∧
        DeadRel m m' σ (m.startToken b) (m.availableAtStart b) r r')
      (fun b os r r' => b < m.blocks.length ∧ ∃ av tok, OpsOk m b os av ∧
        av.markAll (m.dsts os) = m.availableAtEnd b ∧ m.TokensOk tok os ∧
        m.tokenAfter tok os = m.endToken b ∧ DeadRel m m' σ tok av r r')
      ω ValEq (fun _ _ => True) Unfinished where
  start b r r' hst :=
    ⟨hc.ops b hst.1, hst.1, _, _, (verifyModule_ok_iff.mp hver b hst.1).ops, rfl,
      (hthr b hst.1).2.1, rfl, hst.2⟩
  keep b o o' os r r' ho hat := by
    obtain ⟨hb, av, tok, ⟨hok, hos⟩, hav, ⟨htok, htoks⟩, hend, h⟩ := hat
    exact h.keep hc hwf ho hok htok _ fun s s' hs => ⟨hb, _, _, hos, hav, htoks, hend, hs⟩
  skip b o os r r' ho hat := by
    obtain ⟨hb, av, tok, ⟨hok, hos⟩, hav, ⟨-, htoks⟩, hend, h⟩ := hat
    exact h.skip hc ho hok _ fun s s' hs => ⟨hb, _, _, hos, hav, htoks, hend, hs⟩
  term b r r' hat := by
    obtain ⟨hb, av, tok, -, hav, -, hend, h⟩ := hat
    change av = m.availableAtEnd b at hav
    change tok = m.endToken b at hend
    subst hav hend
    refine readsAgree_term (hc.moduleMap hwf) ValEq.refl (fun _ _ h => h) (hc.wf hwf) hb
      (verifyModule_ok_iff.mp hver b hb).term h.reads ?_ trivial
    intro target args xs xs' hok hargs hkind hty hreads
    refine ⟨hok.target_lt, ready_bindParams hty _, hreads, fun p p' hp _ => ?_⟩
    -- the argument for the memory parameter is the token the block ends with
    obtain ⟨hmem, htype⟩ := List.mem_filter.mp (List.mem_of_head? hp)
    have hall := List.forall₂_iff_get.mp hok.args_ok
    obtain ⟨i, hi, rfl⟩ := List.mem_iff_getElem.mp hmem
    have hi' : i < args.length := by rw [hall.1]; exact hi
    have hat := (hall.2 i hi' hi).2
    simp only [List.get_eq_getElem] at hat
    rw [← hat] at htype
    have huse : args[i] ∈ m.termUses (m.blockRec b).term := by
      have hmem := List.getElem_mem hi'
      unfold Module.termUses
      rcases hargs with rfl | ⟨rfl, hk⟩
      · rcases hkind with hk | hk <;> rw [hk]
        · exact hmem
        · exact List.mem_cons_of_mem _ (List.mem_append_left _ hmem)
      · rw [hk]
        exact List.mem_cons_of_mem _ (List.mem_append_right _ hmem)
    obtain ⟨a', ha'⟩ := hc.use_kept b hb _ huse
    exact h.pages _ a' ((hthr b hb).2.2 _ huse htype) ha'
  final _ _ _ _ := trivial

/-- **Removing dead values preserves runs** that return, trap, fault or reach the
step limit. -/
theorem refRun_compaction (hc : Compaction m m' σ ω) (hwf : m.WF) (hver : m.Verified)
    (hthr : m.Threaded) (entry : Nat) {args : List ExecValue}
    (hargs : List.Forall₂ (fun p x => x.type = m.valueType p) (m.blockRec entry).params args)
    (mem : ExecMemory) (limit : Nat) :
    Unfinished (refRun m entry args mem limit).1 ∨
      ResultRel ValEq (refRun m entry args mem limit).1 (refRun m' entry args mem limit).1 := by
  unfold refRun
  have hvb : m'.validBlock entry = m.validBlock entry := by simp [Module.validBlock, hc.blocks]
  rw [hvb]
  by_cases hb : m.validBlock entry = false
  · rw [if_pos hb, if_pos hb]
    exact .inr rfl
  · have hlt : entry < m.blocks.length := by simpa [Module.validBlock] using hb
    rw [if_neg hb, if_neg hb]
    have hreads := readsAgree_bindParams (hc.moduleMap hwf) ValEq.refl (hc.wf hwf) hlt hargs
      (List.forall₂_same.mpr fun x _ => ValEq.refl x) mem mem
    rcases (deadValues_blockSim hc hwf hver hthr).run limit (b := entry)
      (s := refStart m entry args mem) (t := refStart m' entry args mem)
      ⟨hlt, ready_bindParams hargs _, hreads, fun _ _ _ _ => rfl⟩ with hf | h
    · exact .inl hf
    · exact .inr h.1

end Simulation

end Xair
