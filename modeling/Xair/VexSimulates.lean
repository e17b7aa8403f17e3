import Xair.LiftSimulates
import Xair.Resume
import Xair.VexExits

/-!
# Blocks written through a VEX adapter simulate the machine

A run of a module into which a session has written its blocks goes through these blocks in the
order in which the machine goes through the calls (`vex_simulates`).  In a block the run follows
the denotation that the session has built up (`VexAt.runOps`); an exit that is not taken leads to
the continuation, whose parameters get the values of the bindings (`VexAt.continues`); at the call
where the machine leaves, the run returns the values or enters the target with them.
-/

namespace Xair

open BoundedRun
open PartialRun

/-! ### Edges -/

section Edges

variable {m : Module} {b : Nat} {s : ExecState} {r : RefState} {av : ValueSet} {target : Nat}
  {args : List Nat}

theorem bindParams_get {vs : List Nat} {xs : List ExecValue} (hnd : vs.Nodup) {i : Nat}
    (h : i < vs.length) (h' : i < xs.length) : bindParams vs xs vs[i] = some xs[i] := by
  induction vs generalizing xs i with
  | nil => cases h
  | cons v vs ih =>
    obtain ⟨hv, hnd⟩ := List.nodup_cons.mp hnd
    cases xs with
    | nil => cases h'
    | cons x xs =>
      cases i with
      | zero => simp [bindParams]
      | succ i =>
        have hi := Nat.lt_of_succ_lt_succ h
        have hne : vs[i] ≠ v := fun heq => hv (heq ▸ List.getElem_mem hi)
        simp only [List.getElem_cons_succ, bindParams, if_neg hne]
        exact ih hnd hi (Nat.lt_of_succ_lt_succ h')

theorem edge_reads (hwf : m.WF) (hm : Mirrors m s r) (hr : Ready m (refRead m r) av)
    (hok : EdgeOk m av target args) : ∃ s' r', execTransferArgs m s target args = (.ok, s') ∧
      Mirrors m s' r' ∧ StartsAt m target r' ∧ r'.mem = r.mem ∧
      List.Forall₂ (fun p v => refRead m r' p = refRead m r v) (m.blockRec target).params args := by
  obtain ⟨s', r', hexec, href, hm', hstart⟩ := hm.transfer hwf hok hr
  obtain ⟨xs, hxs, hty, ht⟩ := refTransfer_ok hok hr
  rw [ht] at href
  cases href
  refine ⟨s', _, hexec, hm', hstart, rfl, ?_⟩
  have hread := readAll_eq_ok hxs
  have hnd := hwf.params_nodup target hok.target_lt
  refine List.forall₂_iff_get.mpr ⟨hok.args_ok.length_eq.symm, fun i h h' => ?_⟩
  have hi : i < xs.length := hread.length_eq ▸ h'
  have hconst := hwf.param_not_const hok.target_lt (List.get_mem _ ⟨i, h⟩)
  rw [refRead_env hconst (bindParams_get hnd h hi)]
  exact ((List.forall₂_iff_get.mp hread).2 i h' hi).symm

theorem space_of_tokens {os : List Nat} {tok : Option Nat} {sp : Nat} (hops : OpsOk m b os av)
    (htok : m.TokensOk tok os)
    (hend : ∀ e, m.tokenAfter tok os = some e → (m.valueType e).aux = sp) {o : Nat} (ho : o ∈ os)
    (hop : (m.opRec o).opcode.isMemoryOp) : (m.valueType ((m.opRec o).srcAt 0)).aux = sp := by
  cases hlast : m.tokenAfter tok os with
  | none =>
    -- then there is no token to take
    obtain ⟨pre, post, rfl⟩ := List.append_of_mem ho
    have hcur := (tokensOk_split pre htok).1 hop
    have hsome := tokenAfter_isSome (m := m) (congrArg Option.isSome hcur) (o :: post)
    rw [Module.tokenAfter, List.foldl_append] at hlast
    change m.tokenAfter (m.tokenAfter _ pre) (o :: post) = none at hlast
    rw [hlast] at hsome
    cases hsome
  | some e =>
    rw [(tokens_type hops htok hlast).2 o ho hop]
    exact hend e hlast

end Edges

/-! ### The run of a block -/

/-- The executor is at the start of the block of the session, whose calls so far have taken the
machine to `M`; pages hold `f`, in the space `sp` the memory of the machine. -/
structure VexAt (F : Module) (L : Meaning) (tok : Option Nat) (f : FlatMemory) (sp : Nat)
    (guest : Nat → ExecValue) (s : VexSession) (M : VexMachine) (sE : ExecState) : Prop where
  agrees : VexAgrees F L tok (f.space sp) guest s M
  mirrors : Mirrors F sE L.env
  starts : StartsAt F s.adapter.current L.env
  pages : HoldsFlat L.env.mem.pages f
  space : M.token.type.aux = sp
  token : ∀ v, tok = some v →
    F.valueIsAvailable (F.availableAtStart s.adapter.current) v = true ∧ L.memory v = f.space sp

/-- The operations of the session were run. -/
structure VexRan (F : Module) (L : Meaning) (f : FlatMemory) (sp : Nat) (s : VexSession)
    (M : VexMachine) (sE sE' : ExecState) (r : RefState) : Prop where
  ops : runOps (execInterp F) F s.adapter.current (F.blockRec s.adapter.current).ops sE = .ok sE'
  mirrors : Mirrors F sE' r
  ready : Ready F (refRead F r) (F.availableAtEnd s.adapter.current)
  pages : HoldsFlat r.mem.pages (f.withSpace sp M.memory)
  holds : ∀ v x, s.Holds F L v x → ∃ y, refRead F r v = .ok y ∧ ValEq y x ∧
    F.valueIsAvailable (F.availableAtEnd s.adapter.current) v = true

section Block

variable {F : Module} {L : Meaning} {tok : Option Nat} {f : FlatMemory} {sp : Nat}
  {guest : Nat → ExecValue} {s : VexSession} {M : VexMachine} {sE : ExecState}

/-- **A run of the operations** of a session. -/
theorem VexAt.runOps (hver : F.Verified) (h : VexAt F L tok f sp guest s M sE)
    (hops : (F.blockRec s.adapter.current).ops = s.ops) :
    ∃ sE' r, VexRan F L f sp s M sE sE' r := by
  have hw := h.agrees.written
  have hblk := verifyModule_ok_iff.mp hver _ h.starts.1
  have hden : Denotes F s.adapter.current ((s.meaning F L).reading F) :=
    ⟨fun o ho => hw.means.fits o (hops ▸ ho), fun v hv => readValue_eq (refRead_const hv _)⟩
  have hend : ∀ e, F.tokenAfter tok (F.blockRec s.adapter.current).ops = some e →
      (F.valueType e).aux = sp := by
    intro e he
    rw [hops, hw.token] at he
    rw [← (h.agrees.token he).type hw]
    exact h.space
  have htok : F.TokensOk tok (F.blockRec s.adapter.current).ops := hops ▸ hw.tokens
  have hgo := carries_follows (f := f) hblk.ops hden (fun o ho => hw.inBounds o (hops ▸ ho)) htok
    (fun o ho hop => space_of_tokens hblk.ops htok hend ho hop) sE
  have hstart : Follows F s.adapter.current ((s.meaning F L).reading F) f sp tok [] L.env := by
    refine ⟨fun v hv _ => ?_, ?_⟩
    · obtain ⟨x, hx, -⟩ := h.starts.2 v hv
      exact hx.trans (congrArg Except.ok (readValue_eq ((hw.means.agree v hv).1.trans hx)).symm)
    · have hcur : ((s.meaning F L).reading F).current (f.space sp) tok = f.space sp := by
        cases htk : tok with
        | none => rfl
        | some v =>
          obtain ⟨hav, hmap⟩ := h.token v htk
          exact (hw.means.agree v hav).2.trans hmap
      show HoldsFlat _ (f.withSpace sp (((s.meaning F L).reading F).current (f.space sp) tok))
      rw [hcur, FlatMemory.withSpace_space]
      exact h.pages
  obtain ⟨sE', r, hrun, hm, hr, hfol⟩ :=
    runOps_mirrors hblk.ops hgo _ (List.nil_append _).symm rfl h.mirrors h.starts.2 hstart
  refine ⟨sE', r, hrun, hm, hr, ?_, fun v x hv => ?_⟩
  · have hmem := hfol.memory
    rw [hops, hw.token, h.agrees.memory] at hmem
    exact hmem
  · have hav : F.valueIsAvailable (F.availableAtEnd s.adapter.current) v = true := by
      have hav := hv.available
      rw [← hops] at hav
      exact hav
    obtain ⟨y, hy, ht⟩ := hr v hav
    refine ⟨y, hy, ⟨ht.trans (hv.type hw).symm, fun hk => ?_⟩, hav⟩
    rw [ht] at hk
    have hval := hfol.values v hav (by simpa [Ty.isMem] using hk)
    rw [hy, hv.value (by rw [hv.type hw]; exact hk)] at hval
    exact Except.ok.inj hval

variable {sE' : ExecState} {r : RefState} {M' : VexMachine} {x : ExecValue} {a : VexAdapter}

theorem VexMeans.token {c : VexCall} {id : Option Nat} (h : VexMeans M c id M') :
    M'.token = M.token := by
  cases h <;> rfl

/-- **A call that stays in the block.** -/
theorem VexAt.call (hver : F.Verified) (h : VexAt F L tok f sp guest s M sE) {c : VexCall}
    {id : Option Nat} (hrun : c.run s.adapter = (.ok id, a)) (hm : VexMeans M c id M')
    (hexit : c.exits = false) (hl : a.module.Later F)
    (hin : ∀ p ∈ s.input c id, Stands F s.adapter.current [] L p.2 (guest p.1)) :
    VexAt F L tok f sp guest (s.next c id a) M' sE := by
  have hcurrent : (s.next c id a).adapter.current = s.adapter.current := by
    rw [next_adapter]
    exact (current_call hrun hexit).1
  refine ⟨h.agrees.call hver hrun hm hexit hl hin, h.mirrors, ?_, h.pages, ?_, ?_⟩
  · rw [hcurrent]
    exact h.starts
  · rw [hm.token]
    exact h.space
  · rw [hcurrent]
    exact h.token

theorem VexRan.condition (h : VexRan F L f sp s M sE sE' r) (hw : VexWritten F L tok s)
    {condition : Nat} (hv : s.Holds F L condition x) (hi1 : (F.valueType condition).isI1 = true) :
    execReadValue F sE' condition = .ok x ∧ x.type.isI1 = true ∧
      (x.lo &&& 1#64 ≠ 0#64 ↔ x.lo ≠ 0#64) := by
  obtain ⟨y, hy, hval, hav⟩ := h.holds condition x hv
  have ht : x.type.isI1 = true := by
    rw [hv.type hw]
    exact hi1
  have hkind : x.type.kind = .int ∧ x.type.bits = 1 := by
    simpa [Ty.isI1] using ht
  have hrange := hv.inRange (execScalarU64Type_iff.mpr ⟨.inl hkind.1, by omega⟩)
  rw [hkind.2] at hrange
  have hyx : y = x := hval.eq (by rw [hval.1, hkind.1]; decide)
  refine ⟨by rw [h.mirrors.read_eq h.ready hav, hy, hyx], ht, ?_⟩
  rcases (by omega : x.lo.toNat = 0 ∨ x.lo.toNat = 1) with h0 | h1
  · have hlo : x.lo = 0#64 := BitVec.eq_of_toNat_eq h0
    rw [hlo]
    decide
  · have hlo : x.lo = 1#64 := BitVec.eq_of_toNat_eq h1
    rw [hlo]
    decide

theorem VexRan.edge (h : VexRan F L f sp s M sE sE' r) (hwf : F.WF) {target : Nat}
    {args : List Nat} (hok : EdgeOk F (F.availableAtEnd s.adapter.current) target args) :
    ∃ t r', runEdge (execInterp F) sE' target args = .next (target, t) ∧ Mirrors F t r' ∧
      StartsAt F target r' ∧ HoldsFlat r'.mem.pages (f.withSpace sp M.memory) ∧
      List.Forall₂ (fun p v => refRead F r' p = refRead F r v) (F.blockRec target).params args := by
  obtain ⟨t, r', hexec, hm, hstart, hmem, hreads⟩ := edge_reads hwf h.mirrors h.ready hok
  refine ⟨t, r', ?_, hm, hstart, hmem ▸ h.pages, hreads⟩
  have htr : (execInterp F).transfer sE' target args = (.ok, t) := hexec
  rw [runEdge, htr]

/-- **An exit that is not taken** leads to the continuation. -/
theorem VexAt.continues (hver : F.Verified) (h : VexAt F L tok f sp guest s M sE)
    {condition taken : Nat} {takenArgs : ArgArray} {name : Option Name} {u : Unit}
    (hemit : vexEmitExit condition taken takenArgs name s.adapter = (.ok u, a))
    (hready : a.Ready) (hwf : a.module.WF) (hl : a.module.Later F)
    (hc : M.given condition = some x) (hx : x.lo = 0#64) : ∃ t L',
      runBlock (execInterp F) F (s.adapter.current, sE) = .next (a.current, t) ∧
      VexAt F L' a.memory (f.withSpace sp M.memory) sp guest ⟨a, [], a.current :: s.written⟩
        M.forget t := by
  have hw := h.agrees.written
  have hF := hw.later.wf hw.wf
  have hlt := h.starts.1
  obtain ⟨ts, hin⟩ := vexEmitExit_leaves hw.ready hw.wf hemit hl
  obtain ⟨sE', r, hran⟩ := h.runOps hver hin.ops
  have hterm := (verifyModule_ok_iff.mp hver _ hlt).term
  rw [TermOk, hin.kind] at hterm
  obtain ⟨-, hi1, -, hedge⟩ := hterm
  rw [hin.condition_eq] at hi1
  obtain ⟨hread, hbool, htest⟩ := hran.condition hw (h.agrees.given condition x hc) hi1
  obtain ⟨t, r', hrun, hm, hstart, hpages, hreads⟩ := hran.edge hF hedge
  have hblock : runBlock (execInterp F) F (s.adapter.current, sE) = .next (a.current, t) := by
    have hcond : (execInterp F).read sE' condition = .ok x := hread
    rw [runBlock, hran.ops]
    simp only [runTerm, hin.kind, hin.condition_eq, hcond, hbool, Bool.not_true,
      Bool.false_eq_true, if_false, if_neg (fun hne => htest.mp hne hx)]
    rw [hrun, hin.continuation]
  have hparams := hin.params hver hlt hl
  rw [hin.continuation, hparams, hin.handed, List.forall₂_map_left_iff, List.forall₂_map_right_iff,
    List.forall₂_same] at hreads
  rw [hin.continuation] at hstart
  refine ⟨t, ⟨r', fun _ => M.memory⟩, hblock, ?_⟩
  -- a binding stands for the same value on both sides of the edge
  have hbound : ∀ k v, a.lookup k = some v → v ∈ (F.blockRec a.current).params ∧
      ∃ y, M.holds k = some y ∧ Stands F a.current [] ⟨r', fun _ => M.memory⟩ v y := by
    intro k v hv
    cases hk : s.adapter.lookup k with
    | none =>
      rw [hin.exit.unbound k hk] at hv
      cases hv
    | some old =>
      obtain ⟨p, hp, rfl⟩ := hin.exit.all k (by rw [hk]; rfl)
      obtain ⟨hold, hnew⟩ := hin.exit.moved p hp
      cases hnew.symm.trans hv
      obtain ⟨y, hy, hs⟩ := h.agrees.bound p.key p.old hold
      obtain ⟨z, hz, hval, -⟩ := hran.holds p.old y hs
      have hmem : p.new ∈ (F.blockRec a.current).params := by
        rw [hparams]
        exact List.mem_map_of_mem hp
      refine ⟨hmem, y, hy, ?_, ⟨z, (hreads p hp).trans hz, hval⟩, hs.inRange⟩
      exact valueIsAvailable_iff.mpr ⟨((hF.block_params a.current hstart.1 _).mp hmem).1,
        .inl (availableAtStart_iff.mpr hmem)⟩
  have hops : VexSession.ops ⟨a, [], a.current :: s.written⟩ = [] := hin.empty
  have hmeaning : VexSession.meaning ⟨a, [], a.current :: s.written⟩ F ⟨r', fun _ => M.memory⟩ =
      ⟨r', fun _ => M.memory⟩ := by
    rw [VexSession.meaning, hops]
    rfl
  have hmap : (f.withSpace sp M.memory).space sp = M.memory := FlatMemory.space_withSpace _ _ _
  refine ⟨⟨⟨hready, hwf, hl, ?_, ?_, ?_, ?_, ?_⟩, ?_, ?_, ?_, ?_⟩, hm, hstart, hpages, h.space, ?_⟩
  · rw [hops, hmeaning]
    exact ⟨hstart.2, fun p hp => (by cases hp), fun p hp => (by cases hp), .refl _ _ _⟩
  · rw [hops]
    exact fun o ho => by cases ho
  · rw [hops]
    trivial
  · rw [hops]
    exact fun o ho => by cases ho
  · rw [hops]
    rfl
  · intro k v hv
    obtain ⟨-, y, hy, hs⟩ := hbound k v hv
    refine ⟨y, ?_, ?_⟩
    · rw [← hy]
      cases k <;> rfl
    · rw [VexSession.Holds, hops, hmeaning]
      exact hs
  · intro v y hv
    cases hv
  · intro o ho
    refine h.agrees.unread o ?_
    cases hk : s.adapter.lookup (.reg o) with
    | none => rfl
    | some old =>
      obtain ⟨p, hp, hkey⟩ := hin.exit.all (.reg o) (by rw [hk]; rfl)
      have hnew := (hin.exit.moved p hp).2
      rw [hkey, ho] at hnew
      cases hnew
  · rw [hmeaning, hmap]
    show Denotation.current _ M.memory a.memory = M.memory
    cases a.memory <;> rfl
  · intro v hv
    obtain ⟨hmem, -⟩ := hbound .memory v hv
    refine ⟨?_, hmap.symm⟩
    exact valueIsAvailable_iff.mpr ⟨((hF.block_params a.current hstart.1 _).mp hmem).1,
      .inl (availableAtStart_iff.mpr hmem)⟩

end Block

/-! ### The run of a session -/

/-- In the state `t` the space `sp` holds the memory of the machine, and the other spaces are as in
`s`. -/
structure VexMemory (sp : Nat) (M : VexMachine) (s t : ExecState) : Prop where
  memory : ∀ a, execLoadByte t.mem.pages sp a = M.memory a
  otherSpaces : ∀ space, space ≠ sp → ∀ a,
    execLoadByte t.mem.pages space a = execLoadByte s.mem.pages space a

/-- The values are read from the ids. -/
def ReadsAs (F : Module) (t : ExecState) (ids : List Nat) (xs : List ExecValue) : Prop :=
  List.Forall₂ (fun v x => ∃ y, execReadValue F t v = .ok y ∧ ValEq y x) ids xs

/-- The run gets from block `b` to where the machine leaves, in no more than `n` blocks; block
`last` is the one that returns. -/
inductive VexGets (F : Module) (sp : Nat) (M : VexMachine) (b last : Nat) (s : ExecState)
    (n : Nat) : VexEnd → Prop
  | enters {k target : Nat} {xs : List ExecValue} {t : ExecState} : 0 < k → k ≤ n →
    Reaches (runBlock (execInterp F) F) k (b, s) (target, t) →
    ReadsAs F t (F.blockRec target).params xs → VexMemory sp M s t →
    VexGets F sp M b last s n (.enters target xs)
  | returns {k : Nat} {xs ys : List ExecValue} {u t : ExecState} : k < n →
    Reaches (runBlock (execInterp F) F) k (b, s) (last, u) →
    runBlock (execInterp F) F (last, u) =
      .halt (if execMaxReturns < xs.length then .error .errRange else .ok ⟨.ret, last, 0, ys⟩)
        (last, t) →
    List.Forall₂ ValEq ys xs → VexMemory sp M s t → VexGets F sp M b last s n (.returns xs)

section Run

variable {F : Module} {L : Meaning} {tok : Option Nat} {f : FlatMemory} {sp : Nat}
  {guest : Nat → ExecValue} {s t : VexSession} {M M' : VexMachine} {sE sE' : ExecState}
  {r : RefState} {calls : List VexCall} {e : VexEnd} {c : VexCall}

theorem vexMemory_of_pages {g : ByteMap} (hE : HoldsFlat sE.mem.pages f)
    (ht : HoldsFlat sE'.mem.pages (f.withSpace sp g)) (hg : g = M.memory) :
    VexMemory sp M sE sE' := by
  refine ⟨fun a => ?_, fun space hne a => ?_⟩
  · rw [ht.byte]
    show (f.withSpace sp g).space sp a = _
    rw [FlatMemory.space_withSpace, hg]
  · rw [ht.byte, hE.byte]
    show (f.withSpace sp g).space space a = _
    rw [FlatMemory.space_withSpace_ne _ _ hne]
    rfl

theorem VexGets.next {b b' last n : Nat} {s t : ExecState}
    (hblock : runBlock (execInterp F) F (b, s) = .next (b', t))
    (hspaces : ∀ space, space ≠ sp → ∀ a,
      execLoadByte t.mem.pages space a = execLoadByte s.mem.pages space a)
    (h : VexGets F sp M b' last t n e) : VexGets F sp M b last s (n + 1) e := by
  have hmem : ∀ {u}, VexMemory sp M t u → VexMemory sp M s u := fun hu =>
    ⟨hu.memory, fun space hne a => (hu.otherSpaces space hne a).trans (hspaces space hne a)⟩
  cases h with
  | enters _ hk hreach hreads hm =>
    exact .enters (Nat.succ_pos _) (Nat.succ_le_succ hk) ⟨_, hblock, hreach⟩ hreads (hmem hm)
  | returns hk hreach hhalt hvals hm =>
    exact .returns (Nat.succ_lt_succ hk) ⟨_, hblock, hreach⟩ hhalt hvals (hmem hm)

theorem VexAt.pagesE (h : VexAt F L tok f sp guest s M sE) : HoldsFlat sE.mem.pages f := by
  rw [h.mirrors.mem]
  exact h.pages

theorem VexRan.reads (hran : VexRan F L f sp s M sE sE' r) (h : VexAt F L tok f sp guest s M sE)
    {ids : List Nat} {xs : List ExecValue} (hids : M.Gives ids xs) :
    List.Forall₂ (fun v x => ∃ y, refRead F r v = .ok y ∧ ValEq y x ∧
      F.valueIsAvailable (F.availableAtEnd s.adapter.current) v = true) ids xs :=
  List.Forall₂.imp (fun v x hv => hran.holds v x (h.agrees.given v x hv)) hids

theorem VexRan.enters (hran : VexRan F L f sp s M sE sE' r) (h : VexAt F L tok f sp guest s M sE)
    (hwf : F.WF) {target last n : Nat} {ids : List Nat} {xs : List ExecValue}
    (hids : M.Gives ids xs) (hn : 1 ≤ n)
    (hok : EdgeOk F (F.availableAtEnd s.adapter.current) target ids)
    (hblock : runBlock (execInterp F) F (s.adapter.current, sE) =
      runEdge (execInterp F) sE' target ids) :
    VexGets F sp M s.adapter.current last sE n (.enters target xs) := by
  obtain ⟨t, r', hrun, hm, hstart, hpages, hreads⟩ := hran.edge hwf hok
  rw [hrun] at hblock
  refine .enters Nat.one_pos hn ⟨_, hblock, rfl⟩ ?_
    (vexMemory_of_pages h.pagesE (by rw [hm.mem]; exact hpages) rfl)
  obtain ⟨hlen, hget⟩ := List.forall₂_iff_get.mp hreads
  obtain ⟨hlen', hget'⟩ := List.forall₂_iff_get.mp (hran.reads h hids)
  refine List.forall₂_iff_get.mpr ⟨hlen.trans hlen', fun i hi hi' => ?_⟩
  obtain ⟨y, hy, hval, -⟩ := hget' i (hlen ▸ hi) hi'
  refine ⟨y, ?_, hval⟩
  have hmem : (F.blockRec target).params.get ⟨i, hi⟩ ∈ (F.blockRec target).params :=
    List.get_mem _ _
  have hav : F.valueIsAvailable (F.availableAtStart target)
      ((F.blockRec target).params.get ⟨i, hi⟩) = true :=
    valueIsAvailable_iff.mpr ⟨((hwf.block_params target hstart.1 _).mp hmem).1,
      .inl (availableAtStart_iff.mpr hmem)⟩
  rw [hm.read_eq hstart.2 hav]
  exact (hget i hi (hlen ▸ hi)).trans hy

theorem VexRan.returns (hran : VexRan F L f sp s M sE sE' r)
    (h : VexAt F L tok f sp guest s M sE) {n : Nat} {ids : List Nat} {xs : List ExecValue}
    (hids : M.Gives ids xs) (hn : 1 ≤ n)
    (hkind : (F.blockRec s.adapter.current).term.kind = .ret)
    (hcount : (F.blockRec s.adapter.current).term.trueArgCount = ids.length)
    (hargs : F.termArgsConst (F.blockRec s.adapter.current).term false = ids) :
    VexGets F sp M s.adapter.current s.adapter.current sE n (.returns xs) := by
  have hall := hran.reads h hids
  have hlen : ids.length = xs.length := hids.length_eq
  have hsome : ∀ v ∈ ids, ∃ y, refRead F r v = .ok y ∧ True := fun v hv => by
    obtain ⟨i, hi, rfl⟩ := List.mem_iff_getElem.mp hv
    obtain ⟨y, hy, -⟩ := (List.forall₂_iff_get.mp hall).2 i hi (hlen ▸ hi)
    exact ⟨y, hy, trivial⟩
  obtain ⟨ys, hys, -⟩ := readAll_ok ids hsome
  have hread : readAll ((execInterp F).read sE') ids = .ok ys := by
    rw [← hys]
    refine readAll_congr ids fun v hv => ?_
    obtain ⟨i, hi, rfl⟩ := List.mem_iff_getElem.mp hv
    obtain ⟨y, -, -, hav⟩ := (List.forall₂_iff_get.mp hall).2 i hi (hlen ▸ hi)
    exact hran.mirrors.read_eq hran.ready hav
  have hblock : runBlock (execInterp F) F (s.adapter.current, sE) =
      .halt (if execMaxReturns < xs.length then .error .errRange
        else .ok ⟨.ret, s.adapter.current, 0, ys⟩) (s.adapter.current, sE') := by
    rw [runBlock, hran.ops]
    simp only [runTerm, hkind, hcount, hargs, hread, hlen]
    split <;> rfl
  refine .returns hn rfl hblock ?_
    (vexMemory_of_pages h.pagesE (by rw [hran.mirrors.mem]; exact hran.pages) rfl)
  have hvals := readAll_eq_ok hys
  refine List.forall₂_iff_get.mpr ⟨hvals.length_eq.symm.trans hlen, fun i hi hi' => ?_⟩
  obtain ⟨y, hy, hval, -⟩ := (List.forall₂_iff_get.mp hall).2 i (hlen ▸ hi') hi'
  have hyi := (List.forall₂_iff_get.mp hvals).2 i (hlen ▸ hi') hi
  cases hyi.symm.trans hy
  exact hval

/-- The last block of a session is closed, and stays the current one. -/
theorem closed_run (h : (s.adapter.module.blockRec s.adapter.current).term.kind ≠ .none)
    (hrun : run VexSession.step s calls = some t) : t.adapter.current = s.adapter.current := by
  refine (run_keeps (P := fun _ _ => True)
    (I := fun u : VexSession =>
      (u.adapter.module.blockRec u.adapter.current).term.kind ≠ .none ∧
        u.adapter.current = s.adapter.current)
    (fun u c u' hI _ hs => ?_) ⟨h, rfl⟩ (fun _ _ => trivial) hrun).2
  obtain ⟨hm, hc, -⟩ := closed_step hI.1 hs
  rw [hm, hc]
  exact hI

/-- **Where the machine leaves**, the run of the block leaves. -/
theorem VexAt.leaves (hver : F.Verified) (h : VexAt F L tok f sp guest s M sE)
    (hleave : VexLeaves M c e) {id : Option Nat} {a : VexAdapter}
    (hrun : c.run s.adapter = (.ok id, a)) (hl : a.module.Later F) {last n : Nat} (hn : 1 ≤ n)
    (hlast : c.finishes = true → last = s.adapter.current) :
    VexGets F sp M s.adapter.current last sE n e := by
  have hw := h.agrees.written
  have hF := hw.later.wf hw.wf
  have hterm := (verifyModule_ok_iff.mp hver _ h.starts.1).term
  rw [TermOk] at hterm
  cases hleave with
  | @exit condition taken takenArgs name x xs hx hlo hids =>
    obtain ⟨u, hemit, -⟩ := returns_inv hrun
    obtain ⟨ts, hin⟩ := vexEmitExit_leaves hw.ready hw.wf hemit hl
    obtain ⟨sE', r, hran⟩ := h.runOps hver hin.ops
    rw [hin.kind] at hterm
    obtain ⟨-, hi1, hedge, -⟩ := hterm
    rw [hin.condition_eq] at hi1
    rw [hin.taken_eq, hin.args] at hedge
    obtain ⟨hread, hbool, htest⟩ := hran.condition hw (h.agrees.given condition x hx) hi1
    refine hran.enters h hF hids hn hedge ?_
    have hcond : (execInterp F).read sE' condition = .ok x := hread
    rw [runBlock, hran.ops]
    simp only [runTerm, hin.kind, hin.condition_eq, hcond, hbool, Bool.not_true,
      Bool.false_eq_true, if_false, if_pos (htest.mpr hlo), hin.taken_eq, hin.args]
  | @jump target args xs hids =>
    obtain ⟨u, hfinish, -⟩ := returns_inv hrun
    obtain ⟨hops, hkind, htarget, hargs⟩ := vexFinishJump_leaves hw.wf hfinish hl
    obtain ⟨sE', r, hran⟩ := h.runOps hver hops
    rw [hkind] at hterm
    rw [htarget, hargs] at hterm
    refine hran.enters h hF hids hn hterm ?_
    rw [runBlock, hran.ops]
    simp only [runTerm, hkind, htarget, hargs]
  | @ret values xs hids =>
    obtain ⟨u, hfinish, -⟩ := returns_inv hrun
    obtain ⟨hops, hkind, hcount, hargs⟩ := vexFinishReturn_leaves hw.wf hfinish hl
    obtain ⟨sE', r, hran⟩ := h.runOps hver hops
    rw [hlast rfl]
    exact hran.returns h hids hn hkind hcount hargs

/-- **The calls of a session**, from the start of its block. -/
theorem VexAt.gets (hver : F.Verified) (hruns : VexRuns s M calls M' e)
    (hrun : run VexSession.step s calls = some t) (hl : t.adapter.module.Later F)
    (hin : ∀ p ∈ vexInputs s calls, Stands F s.adapter.current [] L p.2 (guest p.1))
    (h : VexAt F L tok f sp guest s M sE) :
    VexGets F sp M' s.adapter.current t.adapter.current sE
      (t.written.length + 1 - s.written.length) e := by
  induction hruns generalizing L tok f sE with
  | @call s M M₁ M' c cs id a e hcall hm hruns ih =>
    obtain ⟨s', hs, hrest⟩ := run_cons.mp hrun
    rw [step_of_run hcall] at hs
    cases hs
    have hla : a.module.Later F := by
      have h := (later_of_run hrest).1.trans hl
      rwa [next_adapter] at h
    rw [vexInputs_cons hcall] at hin
    by_cases hexit : c.exits = true
    · have hw := h.agrees.written
      have hlater := later_run hcall
      have hready : a.Ready := by
        have hr := (step_later (step_of_run hcall)).2.1 hw.ready
        rwa [next_adapter] at hr
      -- no register is read for the first time after the exit
      have hnone : vexInputs (s.next c id a) cs = [] := by
        refine vexInputs_locked hver ?_ ?_ ?_ hrest hl
        · rw [next_adapter]
          exact hready
        · rw [next_adapter]
          exact hlater.wf hw.wf
        · exact VexSession.Locked.call hver hw.ready hw.wf (fun hno => absurd hexit (by simp [hno]))
            hcall hla
      cases hm with
      | @exitNotTaken condition taken takenArgs name x hx hlo =>
        obtain ⟨u, hemit, -⟩ := returns_inv hcall
        obtain ⟨t₁, L', hblock, hat⟩ :=
          h.continues hver hemit hready (hlater.wf hw.wf) hla hx hlo
        have hle := (later_of_run hrest).2
        have hgets := ih hrest (fun p hp => by rw [hnone] at hp; cases hp) hat
        have hmem := vexMemory_of_pages h.pagesE hat.pagesE rfl
        have hn : t.written.length + 1 - s.written.length =
            t.written.length + 1 - (a.current :: s.written).length + 1 := by
          have hle' : s.written.length + 1 ≤ t.written.length := hle
          rw [List.length_cons]
          omega
        rw [hn]
        exact hgets.next hblock hmem.otherSpaces
      | _ => cases hexit
    · rw [Bool.not_eq_true] at hexit
      obtain ⟨hcurrent, hwritten⟩ := current_call hcall hexit
      have hcur : (s.next c id a).adapter.current = s.adapter.current := by
        rw [next_adapter]
        exact hcurrent
      rw [← hcur, ← hwritten]
      refine ih hrest (fun p hp => ?_) (h.call hver hcall hm hexit hla fun p hp => ?_)
      · rw [hcur]
        exact hin p (List.mem_append_right _ hp)
      · exact hin p (List.mem_append_left _ (Option.mem_toList.mpr hp))
  | @leave s M c cs e hleave =>
    obtain ⟨s', hs, hrest⟩ := run_cons.mp hrun
    obtain ⟨id, a, hcall, rfl⟩ := step_some hs
    obtain ⟨hlater, hle⟩ := later_of_run hrest
    have hwritten := written_step hs
    have hla : a.module.Later F := by
      have h := hlater.trans hl
      rwa [next_adapter] at h
    refine h.leaves hver hleave hcall hla (by omega) fun hfin => ?_
    rw [closed_run (closed_of_finishes hfin hs) hrest, next_adapter]
    refine (current_call hcall ?_).1
    cases c <;> first | rfl | cases hfin

end Run

/-! ### From a fresh adapter -/

/-- The state starts where the machine is: the parameters of the first block are set, those that
registers become to the registers, and the space of the token holds the memory. -/
structure VexStandsFor (F : Module) (a : VexAdapter) (inputs : List (Nat × Nat)) (M : VexMachine)
    (s : ExecState) : Prop where
  params : ∀ v ∈ (F.blockRec a.current).params, s.defined v = true
  regs : ∀ p ∈ inputs, s.values p.2 = M.regs p.1 ∧ (M.regs p.1).InRange
  memory : ∀ x, execLoadByte s.mem.pages M.token.type.aux x = M.memory x
  token : ∀ v, a.memory = some v → M.token.type = F.valueType v
  given : ∀ v, M.given v = none

/-- What the runs of `F` from `entry` come to when the machine leaves in `M'`: they return its
values from block `last`, or they get to the block that it enters, which reads its arguments. -/
inductive VexOutcome (F : Module) (entry last n sp : Nat) (M' : VexMachine) (s : ExecState) :
    VexEnd → Prop
  | enters {k target : Nat} {xs : List ExecValue} {t : ExecState} : 0 < k → k ≤ n →
    ReadsAs F t (F.blockRec target).params xs → VexMemory sp M' s t →
    (∀ limit, execRun F entry s (k + limit) = execRun F target t limit) →
    VexOutcome F entry last n sp M' s (.enters target xs)
  | returns {xs ys : List ExecValue} {t : ExecState} : List.Forall₂ ValEq ys xs →
    VexMemory sp M' s t →
    (∀ limit, n ≤ limit → execRun F entry s limit =
      (if execMaxReturns < xs.length then .error .errRange else .ok ⟨.ret, last, 0, ys⟩, t)) →
    VexOutcome F entry last n sp M' s (.returns xs)

section Fresh

variable {F : Module} {sp : Nat} {s : ExecState} {M M' : VexMachine} {e : VexEnd}

theorem VexGets.outcome {entry last n : Nat} (hc : CanEnter F (entry, s))
    (h : VexGets F sp M' entry last s n e) : VexOutcome F entry last n sp M' s e := by
  cases h with
  | @enters k target xs t hk hn hreach hreads hmem =>
    refine .enters hk hn hreads hmem fun limit => ?_
    have hc' : CanEnter F (target, t) := reaches_induct (fun _ _ => canEnter_next) hreach hc
    rw [execRun_of_canEnter hc, execRun_of_canEnter hc', interpRun, interpRun, run_add hreach]
  | @returns k xs ys u t hk hreach hhalt hvals hmem =>
    refine .returns hvals hmem fun limit hlimit => ?_
    obtain ⟨i, rfl⟩ : ∃ i, limit = k + (i + 1) := ⟨limit - k - 1, by omega⟩
    rw [execRun_of_canEnter hc, interpRun, run_halt_add hreach hhalt]

theorem vexAdapterCreate_entry {m : Module} {entry memory : Nat} {a : VexAdapter}
    (h : vexAdapterCreate m entry memory = .ok a) : entry < m.blocks.length := by
  rw [vexAdapterCreate] at h
  split at h
  · cases h
  · next hv => simpa [Module.validBlock] using hv

theorem vexAdapterCreate_lookup {m : Module} {entry memory : Nat} {a : VexAdapter}
    (h : vexAdapterCreate m entry memory = .ok a) {k : VexKey} {v : Nat}
    (hk : a.lookup k = some v) : k = .memory ∧ a.memory = some v := by
  obtain rfl := vexAdapterCreate_ok h
  cases k with
  | memory => exact ⟨rfl, hk⟩
  | tmp t => simp [VexAdapter.lookup, vexDenseGet] at hk
  | reg o => simp [VexAdapter.lookup, VexAdapter.reg, vexFindEntry, KeyedList.lookup] at hk

theorem vexAdapterCreate_isMem {m : Module} {entry memory : Nat} {a : VexAdapter}
    (h : vexAdapterCreate m entry memory = .ok a) {v : Nat} (hv : a.memory = some v) :
    (m.valueType v).kind = .mem := by
  rw [vexAdapterCreate] at h
  split at h
  · cases h
  · split at h
    · cases h
      cases hv
    · split at h
      · cases h
      · next hkind =>
        cases h
        cases hv
        exact not_not.mp hkind

/-- The machine at the start of a session. -/
theorem VexStandsFor.start {m : Module} {entry memory : Nat} {a : VexAdapter} (hr : m.Reachable)
    (hcreate : vexAdapterCreate m entry memory = .ok a) (hempty : (m.blockRec entry).ops = [])
    (hparam : ∀ v, a.memory = some v → v ∈ (m.blockRec entry).params) (hl : m.Later F)
    (hentry : entry < m.blocks.length) {inputs : List (Nat × Nat)}
    (hinputs : ∀ p ∈ inputs, p.2 ∈ (F.blockRec entry).params) (hs : s.Reachable F)
    (hM : VexStandsFor F a inputs M s) :
    let L : Meaning := ⟨refStart F entry ((F.blockRec entry).params.map s.values) s.mem,
      fun _ => M.memory⟩
    VexAt F L a.memory (flatOf s.mem.pages) M.token.type.aux M.regs (.start a) M s ∧
      ∀ p ∈ inputs, Stands F entry [] L p.2 (M.regs p.1) := by
  intro L
  have htables := vexAdapterCreate_tables hcreate
  have hlookup := fun k v => vexAdapterCreate_lookup hcreate (k := k) (v := v)
  have hkind := fun v => vexAdapterCreate_isMem hcreate (v := v)
  have hstart := vexAdapterCreate_ok hcreate
  have hm : a.module = m := congrArg VexAdapter.module hstart
  have hcur : a.current = entry := congrArg VexAdapter.current hstart
  subst hm
  subst hcur
  have hF := hl.wf (wf_reachable hr)
  have hb := (hl.keepsBlock a.current).lt hentry
  obtain ⟨hmirrors, hstarts⟩ := mirrors_start hF (hs.ok hF) hb hM.params
  have hav : ∀ v ∈ (F.blockRec a.current).params,
      F.valueIsAvailable (F.availableAtStart a.current) v = true := fun v hv =>
    valueIsAvailable_iff.mpr ⟨((hF.block_params a.current hb v).mp hv).1,
      .inl (availableAtStart_iff.mpr hv)⟩
  have hread : ∀ v ∈ (F.blockRec a.current).params, refRead F L.env v = .ok (s.values v) :=
    fun v hv => refRead_refStart hF (hs.ok hF) hb hM.params hv
  have hmap : (flatOf s.mem.pages).space M.token.type.aux = M.memory := funext hM.memory
  have htoken : ∀ v, a.memory = some v → v ∈ (F.blockRec a.current).params := fun v hv =>
    (hl.keepsBlock a.current).params.subset (hparam v hv)
  have hops : VexSession.ops (.start a) = [] := hempty
  have hmeaning : VexSession.meaning (.start a) F L = L := by
    rw [VexSession.meaning, hops]
    rfl
  refine ⟨⟨⟨⟨⟨htables, hentry⟩, wf_reachable hr, hl, ?_, ?_, ?_, ?_, ?_⟩, ?_, ?_, ?_, ?_⟩, hmirrors,
    hstarts, hs.holdsFlat, rfl, ?_⟩, ?_⟩
  · rw [hops, hmeaning]
    exact ⟨hstarts.2, fun p hp => (by cases hp), fun p hp => (by cases hp), .refl _ _ _⟩
  · rw [hops]
    exact fun o ho => by cases ho
  · rw [hops]
    trivial
  · rw [hops]
    exact fun o ho => by cases ho
  · rw [hops]
    rfl
  · intro k v hv
    obtain ⟨rfl, hmem⟩ := hlookup k v hv
    refine ⟨M.token, rfl, ?_⟩
    have hv := htoken v hmem
    have hlt := ((hF.block_params a.current hb v).mp hv).1
    have htype := (hs.ok hF).typed v hlt (hM.params v hv)
    have hkindF : (F.valueType v).kind = .mem := by
      rw [hl.grows.valueType
        (((wf_reachable hr).block_params a.current hentry v).mp (hparam v hmem)).1]
      exact hkind v hmem
    rw [VexSession.Holds, hops, hmeaning]
    refine ⟨hav v hv, ⟨_, hread v hv, htype.trans (hM.token v hmem).symm, fun hne => ?_⟩, ?_⟩
    · exact absurd (htype ▸ hkindF) hne
    · intro hscalar
      rw [execScalarU64Type_iff, hM.token v hmem, hkindF] at hscalar
      rcases hscalar.1 with hk | hk <;> cases hk
  · intro v x hv
    rw [hM.given v] at hv
    cases hv
  · exact fun o _ => rfl
  · rw [hmeaning, hmap]
    show Denotation.current _ M.memory a.memory = M.memory
    cases a.memory <;> rfl
  · exact fun v hv => ⟨hav v (htoken v hv), hmap.symm⟩
  · intro p hp
    obtain ⟨hval, hrange⟩ := hM.regs p hp
    have hmem := hinputs p hp
    exact ⟨hav p.2 hmem, ⟨_, hread p.2 hmem, hval ▸ ValEq.refl _⟩, hrange⟩

/-- **Blocks written through an adapter simulate the machine.** -/
theorem vex_simulates {m : Module} {entry memory : Nat} {a : VexAdapter} (hr : m.Reachable)
    (hcreate : vexAdapterCreate m entry memory = .ok a) (hempty : (m.blockRec entry).ops = [])
    (hparam : ∀ v, a.memory = some v → v ∈ (m.blockRec entry).params) {calls : List VexCall}
    {t : VexSession} (hrun : run VexSession.step (.start a) calls = some t)
    (hruns : VexRuns (.start a) M calls M' e) (hl : t.adapter.module.Later F)
    (hs : s.Reachable F) (hM : VexStandsFor F a (vexInputs (.start a) calls) M s) :
    VexOutcome F entry t.adapter.current t.written.length M.token.type.aux M' s e := by
  have hver := hs.verified
  have hentry := vexAdapterCreate_entry hcreate
  have hcur : a.current = entry := congrArg VexAdapter.current (vexAdapterCreate_ok hcreate)
  have hmodule : a.module = m := congrArg VexAdapter.module (vexAdapterCreate_ok hcreate)
  have hwf := wf_reachable hr
  have hready : a.Ready := ⟨vexAdapterCreate_tables hcreate, by rw [hcur, hmodule]; exact hentry⟩
  have hlater : m.Later F := hmodule ▸ (later_of_run hrun).1.trans hl
  have hinputs := vexInputs_params hver (s := .start a) hready (hmodule.symm ▸ hwf) hrun hl
  obtain ⟨hat, hin⟩ :=
    VexStandsFor.start hr hcreate hempty hparam hlater hentry (hcur ▸ hinputs) hs hM
  have hgets := hat.gets hver hruns hrun hl (hcur.symm ▸ hin)
  change VexGets F _ M' a.current _ s (t.written.length + 1 - 1) e at hgets
  rw [hcur, Nat.add_sub_cancel] at hgets
  refine hgets.outcome ⟨(hs.ok (hlater.wf hwf)).count, ?_⟩
  exact decide_eq_true ((hlater.keepsBlock entry).lt hentry)

theorem VexRuns.cons {u : VexSession} {M₁ : VexMachine} {c : VexCall} {cs : List VexCall}
    (id : Option Nat) (hstatus : (c.run u.adapter).1 = .ok id) (hm : VexMeans M c id M₁)
    (hruns : VexRuns (u.next c id (c.run u.adapter).2) M₁ cs M' e) : VexRuns u M (c :: cs) M' e :=
  .call (Prod.ext hstatus rfl) hm hruns

/-- A block that doubles a register, stores the sum and goes on behind an exit, where the memory
and the register are returned. -/
def addExitCalls : List VexCall :=
  [.getReg 16 (typeI 64) none, .emitBinop 0 (some (literalName "Iop_Add64")) 1 1 none, .getTmp 0,
    .putReg 16 2, .emitConst 1 (typeI 1) 0 none, .getTmp 1, .emitConst 2 (typeAddr 64) 4096 none,
    .getTmp 2, .emitStore 4 2 .le none, .emitExit 3 1 (.array []) none, .currentMemory,
    .peekReg 16, .finishReturn (.array [6, 10])]

/-- The register is 21. -/
def addExitMachine : VexMachine :=
  ⟨fun _ => none, fun _ => wordValue (typeI 64) 21#64, fun _ => none, execMem 0 64, fun _ => none⟩

/-- The module of the session, with the target of the exit closed. -/
def addExitModule : Module :=
  runCalls ((run VexSession.step (.start sessionAdapter) addExitCalls).elim Module.create
    fun t => t.adapter.module) [.setReturn 1 (.array [])]

def addExitState : ExecState :=
  (execSetParam addExitModule (execSetParam addExitModule (freshState addExitModule) 0
    (execMem 0 64)).2 1 (wordValue (typeI 64) 21#64)).2

theorem vexRuns_addExit : ∃ M', VexRuns (.start sessionAdapter) addExitMachine addExitCalls M'
    (.returns [execMem 0 64, wordValue (typeI 64) 42#64]) ∧ M'.memory 4096#64 = some 42#8 := by
  have hname := vexMapBinop_ok_iff.mp
    (by decide : vexMapBinop (some (literalName "Iop_Add64")) (typeI 64) = .ok (.add, typeI 64))
  have hadd : BinopMeans (literalName "Iop_Add64") (wordValue (typeI 64) 21#64)
      (wordValue (typeI 64) 21#64) (wordValue (typeI 64) 42#64) :=
    @BinopMeans.scalar _ _ _ .add 64 42#64 ⟨rfl, rfl⟩ ⟨rfl, rfl⟩ hname.1 rfl
  refine ⟨_, .cons (some 1) (by decide +kernel) .getReg
    (.cons none (by decide +kernel) (.emitBinop rfl rfl hadd)
    (.cons (some 2) (by decide +kernel) (.getTmp rfl)
    (.cons none (by decide +kernel) (.putReg rfl)
    (.cons none (by decide +kernel) .emitConst
    (.cons (some 3) (by decide +kernel) (.getTmp rfl)
    (.cons none (by decide +kernel) .emitConst
    (.cons (some 4) (by decide +kernel) (.getTmp rfl)
    (.cons none (by decide +kernel) (.emitStore rfl rfl rfl (by decide))
    (.cons none (by decide +kernel) (.exitNotTaken rfl rfl)
    (.cons (some 6) (by decide +kernel) .currentMemory
    (.cons (some 10) (by decide +kernel) .peekReg
    (.leave (.ret (.cons rfl (.cons rfl .nil))))))))))))))), rfl⟩

/-- The register comes back doubled, and the sum is in memory. -/
theorem vex_simulates_addExit : ∃ M' : VexMachine, M'.memory 4096#64 = some 42#8 ∧
    VexOutcome addExitModule 0 2 2 0 M' addExitState
      (.returns [execMem 0 64, wordValue (typeI 64) 42#64]) := by
  have hends : (run VexSession.step (.start sessionAdapter) addExitCalls).map
      (fun t => (t.adapter.current, t.written.length)) = some (2, 2) := by decide +kernel
  obtain ⟨t, hrun, hend⟩ := Option.map_eq_some_iff.mp hends
  obtain ⟨hcurrent, hwritten⟩ := Prod.mk.inj hend
  obtain ⟨M', hruns, hmem⟩ := vexRuns_addExit
  have hcreate : vexAdapterCreate sessionModule 0 0 = .ok sessionAdapter := rfl
  have hl : t.adapter.module.Later addExitModule :=
    ⟨[.setReturn 1 (.array [])], by decide, by rw [addExitModule, hrun]; rfl⟩
  have hs : addExitState.Reachable addExitModule :=
    .setParam _ _ (.setParam _ _ (.create (execStateCreate_ok (by decide +kernel))))
  have hinputs : vexInputs (.start sessionAdapter) addExitCalls = [(16, 1)] := by decide +kernel
  have hM : VexStandsFor addExitModule sessionAdapter
      (vexInputs (.start sessionAdapter) addExitCalls) addExitMachine addExitState := by
    rw [hinputs]
    have hpages : addExitState.mem.pages = [] := by decide +kernel
    refine ⟨by decide +kernel, by decide +kernel, fun x => ?_, fun v hv => ?_, fun _ => rfl⟩
    · rw [hpages]
      rfl
    · cases hv
      decide +kernel
  have hout := vex_simulates (m := sessionModule) ⟨_, rfl⟩ hcreate rfl
    (fun v hv => by cases hv; decide) hrun hruns hl hs hM
  rw [hcurrent, hwritten] at hout
  exact ⟨M', hmem, hout⟩

end Fresh

end Xair
