import Xair.CanonicalRuns
import Xair.Carried

/-!
# Canonicalization and the memory of a run

Canonicalization drops a store whose token is dead, so a run may leave other bytes in memory than
before.  It does not when every block that the run can get to hands its last token on, to a
successor or to the caller: then all the tokens of the block are kept, no store is dropped, and
the pages stay the same (`canonicalizeModule_memory`).  This is the shape of lifted blocks.
-/

namespace Xair

/-- The token that the block ends with is used by the terminator. -/
def Module.HandsOnToken (m : Module) (b : Nat) : Prop :=
  ∀ t, m.endToken b = some t → t ∈ m.termUses (m.blockRec b).term

/-- Every block that control can reach from `entry` hands its token on. -/
def Module.KeepsMemory (m : Module) (entry : Nat) : Prop :=
  ∀ b, Relation.ReflTransGen m.Targets entry b → m.HandsOnToken b

instance (m : Module) (b : Nat) : Decidable (m.HandsOnToken b) :=
  inferInstanceAs (Decidable (∀ t ∈ m.endToken b, _))

theorem keepsMemory_of_blocks {m : Module} (h : ∀ b < m.blocks.length, m.HandsOnToken b)
    (entry : Nat) : m.KeepsMemory entry := by
  intro b _
  by_cases hb : b < m.blocks.length
  · exact h b hb
  · have hrec : m.blockRec b = Module.defaultBlock := List.getD_eq_default _ _ (Nat.le_of_not_lt hb)
    intro t ht
    rw [Module.endToken, Module.startToken, Module.memParams, hrec] at ht
    cases ht

section Kept

variable {m m' : Module} {σ ω : Nat → Option Nat}

theorem nextToken_of_ok {b o : Nat} {av : ValueSet} (hok : OpOk m b av o) (tok : Option Nat) :
    m.nextToken tok o = if (m.opRec o).opcode = .store then some (m.opRec o).dst else tok := by
  by_cases hop : (m.opRec o).opcode = .store
  · have htyped := hok.typed
    rw [hop] at htyped
    obtain ⟨tm, ta, td, -, htm, -, hd, -⟩ := typeRule_store htyped
    rw [Module.nextToken, if_pos (hd ▸ htm), if_pos hop]
  · rw [Module.nextToken, if_neg fun hm => hop (typeRule_mem hok.typed hm), if_neg hop]

/-- When the last token is kept, every token is, and no store is dropped. -/
theorem Compaction.stores_kept (hc : Compaction m m' σ ω) {b : Nat} {os : List Nat} {av : ValueSet}
    {tok : Option Nat} (hops : OpsOk m b os av) (htok : m.TokensOk tok os)
    (hlast : ∀ t, m.tokenAfter tok os = some t → ∃ t', σ t = some t') :
    (∀ t, tok = some t → ∃ t', σ t = some t') ∧
      ∀ o ∈ os, (m.opRec o).opcode = .store → ∃ o', ω o = some o' := by
  induction os generalizing tok av with
  | nil => exact ⟨hlast, fun o ho => by cases ho⟩
  | cons o os ih =>
    obtain ⟨hok, hops⟩ := hops
    obtain ⟨hcur, htok⟩ := htok
    obtain ⟨hnext, hrest⟩ := ih hops htok hlast
    rw [nextToken_of_ok hok] at hnext
    by_cases hop : (m.opRec o).opcode = .store
    · -- a store is kept with its token, and what it takes with it
      obtain ⟨o', ho'⟩ := (hc.op_dst o hok.lt).mpr (hnext _ (if_pos hop))
      have hsrc := arityOk_of_typeRule hok.typed
      refine ⟨fun t ht => ?_, List.forall_mem_cons.mpr ⟨fun _ => ⟨o', ho'⟩, hrest⟩⟩
      have hlen : 0 < (m.opRec o).src.length := by
        rw [hsrc.2 hop]
        decide
      rw [hcur (.inr hop)] at ht
      cases ht
      exact hc.src_kept o o' ho' _ (OpRec.srcAt_mem hlen)
    · rw [if_neg hop] at hnext
      exact ⟨hnext, List.forall_mem_cons.mpr ⟨fun hs => absurd hs hop, hrest⟩⟩

theorem refOp_mem {r r' : RefState} {op : OpRec} {e : Status} (h : refOp m r op = (e, r'))
    (hs : op.opcode ≠ .store ∨ e ≠ .ok) : r'.mem = r.mem := by
  unfold refOp at h
  cases he : execOpValue (m.valueType op.dst) (refRead m r) r.mem op with
  | error e' =>
    rw [he] at h
    cases h
    rfl
  | ok p =>
    rw [he] at h
    cases h
    exact execOpValue_mem (hs.resolve_right fun h => h rfl) he

theorem refTransfer_mem {r r' : RefState} {target : Nat} {args : List Nat}
    (h : refTransfer m r target args = (.ok, r')) : r'.mem = r.mem := by
  unfold refTransfer at h
  repeat' split at h
  all_goals first | cases h; rfl | cases h

/-- A store that is kept leaves pages that agree, because its token is kept. -/
theorem DeadRel.store_pages (hc : Compaction m m' σ ω) (hwf : m.WF) {b o o' : Nat} {tok : Option Nat}
    {av : ValueSet} {r r' s s' : RefState} (ho : ω o = some o') (hok : OpOk m b av o)
    (hop : (m.opRec o).opcode = .store) (htok : tok = some ((m.opRec o).srcAt 0))
    (h : DeadRel m m' σ tok av r r') (hs : refOp m r (m.opRec o) = (.ok, s))
    (hs' : refOp m' r' (m'.opRec o') = (.ok, s')) : s.mem.pages = s'.mem.pages := by
  have hstep := h.keep hc hwf ho hok (fun _ => htok) (fun s s' => s.mem.pages = s'.mem.pages)
    fun s s' hrel => hrel.pages _ _ (by rw [nextToken_of_ok hok, if_pos hop]) (hc.opMap ho).dst
  rw [hs, hs'] at hstep
  cases hstep with
  | ok hpages => exact hpages
  | fail he _ _ => exact absurd rfl he

/-- **Removing dead values keeps memory** where the last tokens are used. -/
theorem refRun_compaction_pages (hc : Compaction m m' σ ω) (hwf : m.WF) (hver : m.Verified)
    (hthr : m.Threaded) {entry : Nat} (hkeeps : m.KeepsMemory entry) {args : List ExecValue}
    (hargs : List.Forall₂ (fun p x => x.type = m.valueType p) (m.blockRec entry).params args)
    (mem : ExecMemory) (limit : Nat) :
    Unfinished (refRun m entry args mem limit).1 ∨
      (refRun m entry args mem limit).2.mem.pages = (refRun m' entry args mem limit).2.mem.pages := by
  unfold refRun
  have hvb : m'.validBlock entry = m.validBlock entry := by simp [Module.validBlock, hc.blocks]
  rw [hvb]
  by_cases hb : m.validBlock entry = false
  · rw [if_pos hb, if_pos hb]
    exact .inr rfl
  · have hlt : entry < m.blocks.length := by simpa [Module.validBlock] using hb
    rw [if_neg hb, if_neg hb]
    have hkept : ∀ b, b < m.blocks.length → Relation.ReflTransGen m.Targets entry b →
        ∀ o ∈ (m.blockRec b).ops, (m.opRec o).opcode = .store → ∃ o', ω o = some o' :=
      fun b hb hreach => (hc.stores_kept (verifyModule_ok_iff.mp hver b hb).ops (hthr b hb).2.1
        fun t ht => hc.use_kept b hb t (hkeeps b hreach t ht)).2
    have hsim := (deadValues_blockSim hc hwf hver hthr).carry
      (S := Relation.ReflTransGen m.Targets entry) (P := fun r r' => r.mem.pages = r'.mem.pages)
      (fun b c hS ht => hS.tail ht)
      (fun b o o' os r r' hS hmem ho hat hP e s s' hs hs' => by
        by_cases hfree : (m.opRec o).opcode ≠ .store ∨ e ≠ .ok
        · have hopcode : (m'.opRec o').opcode = (m.opRec o).opcode := by rw [hc.opRec o o' ho]; rfl
          rw [refOp_mem hs hfree, refOp_mem hs' (hopcode ▸ hfree)]
          exact hP
        · simp only [not_or, not_not] at hfree
          obtain ⟨hop, rfl⟩ := hfree
          obtain ⟨-, av, tok, ⟨hok, -⟩, -, ⟨htok, -⟩, -, hrel⟩ := hat
          exact hrel.store_pages hc hwf ho hok hop (htok (.inr hop)) hs hs')
      (fun b o os r r' hS hmem ho hat hP s hs => by
        obtain ⟨hb, av, tok, ⟨hok, -⟩, -⟩ := hat
        have hop : (m.opRec o).opcode ≠ .store := fun hop => by
          obtain ⟨o', ho'⟩ := hkept b hb hS o hmem hop
          rw [ho] at ho'
          cases ho'
        rw [refOp_mem hs (.inl hop)]
        exact hP)
      (fun r r' hP target args args' s s' hs hs' => by
        rw [refTransfer_mem hs, refTransfer_mem hs']
        exact hP)
    have hreads := readsAgree_bindParams (hc.moduleMap hwf) ValEq.refl (hc.wf hwf) hlt hargs
      (List.forall₂_same.mpr fun x _ => ValEq.refl x) mem mem
    rcases hsim.run limit (b := entry) (s := refStart m entry args mem)
      (t := refStart m' entry args mem)
      ⟨⟨hlt, ready_bindParams hargs _, hreads, fun _ _ _ _ => rfl⟩, .refl, rfl⟩ with hf | h
    · exact .inl hf
    · exact .inr h.2

end Kept

section Canonical

variable {m : Module}

theorem keepsMemory_foldedModule {entry : Nat} (h : m.KeepsMemory entry) :
    (foldedModule m).KeepsMemory entry := by
  have htargets : (foldedModule m).Targets = m.Targets := by
    funext b c
    simp only [Module.Targets, foldedModule_blockRec]
  have htype : ∀ v, (foldedModule m).valueType v = m.valueType v := fun v => by
    rw [Module.valueType, Module.valueType, foldedModule_valueRec]
  have hnext : (foldedModule m).nextToken = m.nextToken := by
    funext tok o
    rw [Module.nextToken, Module.nextToken, foldedModule_dst, htype]
  have hend : ∀ b, (foldedModule m).endToken b = m.endToken b := fun b => by
    simp only [Module.endToken, Module.tokenAfter, Module.startToken, Module.memParams, hnext,
      foldedModule_blockRec, htype]
  have huses : ∀ t, (foldedModule m).termUses t = m.termUses t := fun t => by
    simp only [Module.termUses, foldedModule_termArgsConst]
  intro b hb t ht
  rw [htargets] at hb
  rw [hend] at ht
  rw [foldedModule_blockRec, huses]
  exact h b hb t ht

theorem refRun_canonicalizedModule_pages (hwf : m.WF) (hver : m.Verified) (hthr : m.Threaded)
    {entry : Nat} (hkeeps : m.KeepsMemory entry) {args : List ExecValue}
    (hargs : List.Forall₂ (fun p x => x.type = m.valueType p) (m.blockRec entry).params args)
    (mem : ExecMemory) (limit : Nat) :
    Unfinished (refRun m entry args mem limit).1 ∨
      (refRun m entry args mem limit).2.mem.pages =
        (refRun (canonicalizedModule m) entry args mem limit).2.mem.pages := by
  obtain ⟨σ, ω, hc, -⟩ := compaction_canonicalizedModule hwf hver
  obtain ⟨hresult, hmem⟩ := refRun_foldedModule hwf hver entry hargs mem limit
  rw [hresult, hmem]
  refine refRun_compaction_pages hc (wf_foldedModule hwf) (verified_foldedModule hwf hver)
    (threaded_foldedModule hthr) (keepsMemory_foldedModule hkeeps) ?_ mem limit
  rw [foldedModule_blockRec]
  refine hargs.imp fun p x hx => ?_
  rw [hx, Module.valueType, Module.valueType, foldedModule_valueRec]

/-- The canonical module can be entered with the same parameters and pages. -/
theorem execRun_canonicalizedModule (hwf : m.WF) (hver : m.Verified) {entry : Nat}
    (hb : entry < m.blocks.length) {args : List ExecValue}
    (hargs : List.Forall₂ (fun p x => x.type = m.valueType p) (m.blockRec entry).params args)
    (pages : List ExecPage) (limit : Nat) :
    ∃ s', execEnter (canonicalizedModule m) entry pages args = (.ok, s') ∧
      (execRun (canonicalizedModule m) entry s' limit).1 =
        (refRun (canonicalizedModule m) entry args ⟨pages, 0#64⟩ limit).1 ∧
      (execRun (canonicalizedModule m) entry s' limit).2.mem =
        (refRun (canonicalizedModule m) entry args ⟨pages, 0#64⟩ limit).2.mem := by
  have hwf' := wf_canonicalizedModule hwf hver
  have hargs' := types_canonicalizedModule hwf hver hb hargs
  have hb' : entry < (canonicalizedModule m).blocks.length := by
    obtain ⟨σ, ω, hc, -⟩ := compaction_canonicalizedModule hwf hver
    rw [hc.blocks, (foldedModule_core m).2.2.1]
    exact hb
  have hset' := execEnter_ok hwf' hb' hargs' pages
  exact ⟨_, hset', execRun_enter hwf' (verified_canonicalizedModule hwf hver) hargs'.length_eq
    hset' limit⟩

theorem canonicalizeModule_run (hwf : m.WF) (hver : m.Verified) (hthr : m.Threaded) {entry : Nat}
    (hkeeps : m.KeepsMemory entry) {pages : List ExecPage} {args : List ExecValue}
    (hlen : (m.blockRec entry).params.length = args.length) {s : ExecState}
    (hset : execEnter m entry pages args = (.ok, s)) {limit : Nat} {x : ExecResult}
    (hrun : (execRun m entry s limit).1 = .ok x) (hkind : x.kind ≠ .unsupported) :
    ∃ s' x', execEnter (canonicalizeModule m).1 entry pages args = (.ok, s') ∧
      (execRun (canonicalizeModule m).1 entry s' limit).1 = .ok x' ∧
      x'.kind = x.kind ∧ x'.block = x.block ∧ x'.code = x.code ∧
      List.Forall₂ ValEq x.returns x'.returns ∧
      (execRun (canonicalizeModule m).1 entry s' limit).2.mem.pages =
        (execRun m entry s limit).2.mem.pages := by
  rcases canonicalizeModule_cases hwf with he | ⟨-, -, he⟩
  · rw [he]
    exact ⟨s, x, hset, hrun, rfl, rfl, rfl, List.forall₂_same.mpr fun y _ => ValEq.refl y, rfl⟩
  · rw [he]
    have hargs := execEnter_types hwf hlen hset
    obtain ⟨href, hrefmem⟩ := execRun_enter hwf hver hlen hset limit
    have hb : entry < m.blocks.length := by
      by_contra hn
      simp [execRun, Module.validBlock, hn] at hrun
    obtain ⟨s', hset', href', hrefmem'⟩ :=
      execRun_canonicalizedModule hwf hver hb hargs pages limit
    rw [hrun] at href
    have hfinished : ¬ Unfinished (refRun m entry args ⟨pages, 0#64⟩ limit).1 :=
      fun hf => hkind (hf x href.symm)
    have hrel := (refRun_canonicalizedModule hwf hver hthr entry hargs _ limit).resolve_left
      hfinished
    have hpages := (refRun_canonicalizedModule_pages hwf hver hthr hkeeps hargs _ limit).resolve_left
      hfinished
    rw [← href, ← href'] at hrel
    rw [← hrefmem, ← hrefmem'] at hpages
    generalize hr : (execRun (canonicalizedModule m) entry s' limit).1 = r' at hrel
    cases r' with
    | error e => exact hrel.elim
    | ok x' =>
      obtain ⟨h1, h2, h3, h4⟩ := hrel
      exact ⟨s', x', hset', hr, h1.symm, h2.symm, h3.symm, h4, hpages.symm⟩

end Canonical

/-- **Canonicalization keeps memory** where tokens are handed on.  When the run of a verified,
threaded module whose blocks hand their tokens on returns, traps, faults or reaches the step
limit, the run after `xair_canonicalize_module` ends in the same way, with the same returned
values and the same pages. -/
theorem canonicalizeModule_memory {m : Module} (h : m.Reachable) (hver : m.Verified)
    (hthr : m.Threaded) {entry : Nat} (hkeeps : m.KeepsMemory entry) {pages : List ExecPage}
    {args : List ExecValue} (hlen : (m.blockRec entry).params.length = args.length) {s : ExecState}
    (hset : execEnter m entry pages args = (.ok, s)) {limit : Nat} {x : ExecResult}
    (hrun : (execRun m entry s limit).1 = .ok x) (hkind : x.kind ≠ .unsupported) :
    ∃ s' x', execEnter (canonicalizeModule m).1 entry pages args = (.ok, s') ∧
      (execRun (canonicalizeModule m).1 entry s' limit).1 = .ok x' ∧
      x'.kind = x.kind ∧ x'.block = x.block ∧ x'.code = x.code ∧
      List.Forall₂ ValEq x.returns x'.returns ∧
      (execRun (canonicalizeModule m).1 entry s' limit).2.mem.pages =
        (execRun m entry s limit).2.mem.pages :=
  canonicalizeModule_run (wf_reachable h) hver hthr hkeeps hlen hset hrun hkind

/-- A block that stores and hands its token on; the next one loads, stores a folded constant
and returns. -/
def handOnSample : List Call :=
  [.blockCreate none, .blockAddParam 0 (typeMem 0 64) none, .blockAddParam 0 (typeAddr 64) none,
    .blockAddParam 0 (typeI 8) none, .buildStore 0 0 1 2 .le none, .blockCreate none,
    .blockAddParam 1 (typeMem 0 64) none, .blockAddParam 1 (typeAddr 64) none,
    .setJump 0 1 (.array [3, 1]), .buildLoad 1 (typeI 8) 4 5 .le none,
    .buildConstU64 1 (typeI 8) 2#64 none, .buildConstU64 1 (typeI 8) 3#64 none,
    .buildBinary 1 .add (typeI 8) 7 8 none, .buildStore 1 4 5 9 .le none,
    .setReturn 1 (.array [10, 6])]

theorem canonicalizeModule_memory_handOn :
    ∃ s' x', execEnter (canonicalizeModule (runCalls Module.create handOnSample)).1 0 [] storeArgs =
        (.ok, s') ∧
      (execRun (canonicalizeModule (runCalls Module.create handOnSample)).1 0 s' 3).1 = .ok x' ∧
      x'.kind = .ret ∧ x'.block = 1 ∧ x'.code = 0 ∧
      List.Forall₂ ValEq [⟨typeMem 0 64, 2#64, 0#64⟩, execI 8 9#64] x'.returns ∧
      (execRun (canonicalizeModule (runCalls Module.create handOnSample)).1 0 s' 3).2.mem.pages =
        (execRun (runCalls Module.create handOnSample) 0
          (execEnter (runCalls Module.create handOnSample) 0 [] storeArgs).2 3).2.mem.pages :=
  canonicalizeModule_memory (m := runCalls Module.create handOnSample) ⟨handOnSample, rfl⟩
    (by decide +kernel) (by decide +kernel) (keepsMemory_of_blocks (by decide +kernel) 0)
    (by decide +kernel) (execEnter_eq (by decide +kernel))
    (x := ⟨.ret, 1, 0, [⟨typeMem 0 64, 2#64, 0#64⟩, execI 8 9#64]⟩) (by decide +kernel)
    (by decide)

end Xair
