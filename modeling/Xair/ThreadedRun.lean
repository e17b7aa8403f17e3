import Xair.BlockMeaning

/-!
# Runs of a block with threaded tokens

The executor keeps one memory, a denotation one map for every token.  When every load
and store of a block takes the most recent token, the memory of a run holds the map of
that token after each operation, and the values of the run are those of the denotation
(`carries_follows`).
-/

namespace Xair

/-- The map of the most recent token, or `g` while there is none. -/
def Denotation.current (ρ : Denotation) (g : ByteMap) : Option Nat → ByteMap
  | some t => ρ.memory t
  | none => g

/-- After the operations `pre` a run has the values of the denotation, and its memory is
`f` but for the map of the most recent token in the space `sp`. -/
structure Follows (m : Module) (b : Nat) (ρ : Denotation) (f : FlatMemory) (sp : Nat)
    (tok : Option Nat) (pre : List Nat) (r : RefState) : Prop where
  values : ∀ v, m.valueIsAvailable (m.availableAfter b pre) v = true →
    (m.valueType v).isMem = false → refRead m r v = .ok (ρ.value v)
  memory : HoldsFlat r.mem.pages
    (f.withSpace sp (ρ.current (f.space sp) (m.tokenAfter tok pre)))

theorem Ty.isMem_of_isAddr {t : Ty} (h : t.isAddr = true) : t.isMem = false := by
  simp only [Ty.isAddr, Ty.isMem, beq_iff_eq, beq_eq_false_iff_ne] at h ⊢
  rw [h]
  decide

section Run

variable {m : Module} {b o : Nat} {ρ : Denotation} {f : FlatMemory} {sp : Nat} {tok : Option Nat}
  {pre post : List Nat} {r : RefState}

/-- What a run of the operation `o` comes to. -/
def StepFollows (m : Module) (b : Nat) (ρ : Denotation) (f : FlatMemory) (sp : Nat)
    (tok : Option Nat) (pre : List Nat) (o : Nat) (r : RefState) : Prop :=
  ∃ x mem, execOpValue (m.valueType (m.opRec o).dst) (refRead m r) r.mem (m.opRec o) =
    .ok (x, mem) ∧ Follows m b ρ f sp tok (pre ++ [o]) (r.define (m.opRec o).dst x mem)

/-- The values after an operation are those of the denotation when its result is. -/
theorem Follows.define (h : Follows m b ρ f sp tok pre r) (hden : Denotes m b ρ) {x : ExecValue}
    {mem : ExecMemory} (hx : (m.valueType (m.opRec o).dst).isMem = false →
      m.valueIsGlobalConst (m.opRec o).dst = false → x = ρ.value (m.opRec o).dst)
    (hmem : HoldsFlat mem.pages
      (f.withSpace sp (ρ.current (f.space sp) (m.tokenAfter tok (pre ++ [o]))))) :
    Follows m b ρ f sp tok (pre ++ [o]) (r.define (m.opRec o).dst x mem) := by
  refine ⟨fun v hv ht => ?_, hmem⟩
  rw [availableAfter_snoc] at hv
  by_cases hvd : v = (m.opRec o).dst
  · subst hvd
    cases hc : m.valueIsGlobalConst (m.opRec o).dst with
    | true => rw [refRead_const hc, hden.consts _ hc]
    | false =>
      rw [← hx ht hc]
      exact refRead_env hc (by simp [RefState.define])
  · rw [refRead_define hvd]
    exact h.values v (valueIsAvailable_mark hv hvd) ht

theorem tokenAfter_quiet (hok : OpOk m b (m.availableAfter b pre) o)
    (hop : (m.opRec o).opcode ≠ .store) :
    m.tokenAfter tok (pre ++ [o]) = m.tokenAfter tok pre := by
  have hmem : (m.valueType (m.opRec o).dst).isMem = false := by
    by_contra hc
    rw [Bool.not_eq_false] at hc
    exact hop (typeRule_mem hok.typed hc)
  rw [tokenAfter_append, Module.nextToken, if_neg (by simp [hmem])]

theorem Follows.quiet (h : Follows m b ρ f sp tok pre r) (hden : Denotes m b ρ)
    (hok : OpOk m b (m.availableAfter b pre) o) (hfit : ρ.Fits m (m.opRec o))
    (hop : ¬ (m.opRec o).opcode.isMemoryOp) : StepFollows m b ρ f sp tok pre o r := by
  have hval : execOpValue (m.valueType (m.opRec o).dst) (refRead m r) r.mem (m.opRec o) =
      .ok (ρ.value (m.opRec o).dst, r.mem) := by
    have hall : ∀ mem, execOpValue (m.valueType (m.opRec o).dst) (fun v => .ok (ρ.value v)) mem
        (m.opRec o) = .ok (ρ.value (m.opRec o).dst, mem) := by
      unfold Denotation.Fits at hfit
      split at hfit
      · next hc => exact absurd (.inl hc) hop
      · next hc => exact absurd (.inr hc) hop
      · exact hfit
    rw [← hall r.mem]
    refine execOpValue_congr (arityOk_of_typeRule hok.typed) (.refl _) fun s hs => ?_
    have hnm := typeRule_not_mem hok.typed hop _ (List.mem_map_of_mem hs)
    exact h.values s (hok.sources s hs) (by simpa [Ty.isMem] using hnm)
  refine ⟨_, _, hval, h.define hden (fun _ _ => rfl) ?_⟩
  rw [tokenAfter_quiet hok fun hc => hop (.inr hc)]
  exact h.memory

/-- The token and the address of a load or store. -/
theorem Follows.address (h : Follows m b ρ f sp tok pre r)
    (hok : OpOk m b (m.availableAfter b pre) o)
    (hr : Ready m (refRead m r) (m.availableAfter b pre))
    (hop : (m.opRec o).opcode.isMemoryOp)
    (hsp : (m.valueType ((m.opRec o).srcAt 0)).aux = sp) :
    ∃ x, refRead m r ((m.opRec o).srcAt 0) = .ok x ∧ x.type.isMem = true ∧ x.type.aux = sp ∧
      refRead m r ((m.opRec o).srcAt 1) = .ok (ρ.value ((m.opRec o).srcAt 1)) ∧
      (ρ.value ((m.opRec o).srcAt 1)).type.isAddr = true := by
  have htypes : ∃ tm ta rest, (m.opRec o).src.map m.valueType = tm :: ta :: rest ∧
      tm.isMem = true ∧ ta.isAddr = true := by
    rcases hop with hop | hop
    · have htyped := hok.typed
      rw [hop] at htyped
      obtain ⟨tm, ta, hs, htm, hta, -⟩ := typeRule_load htyped
      exact ⟨tm, ta, [], hs, htm, hta⟩
    · have htyped := hok.typed
      rw [hop] at htyped
      obtain ⟨tm, ta, td, hs, htm, hta, -⟩ := typeRule_store htyped
      exact ⟨tm, ta, [td], hs, htm, hta⟩
  obtain ⟨tm, ta, rest, hs, htm, hta⟩ := htypes
  obtain ⟨v, vs, hsrc, hv, hs⟩ := List.map_eq_cons_iff.mp hs
  obtain ⟨w, ws, rfl, hw, -⟩ := List.map_eq_cons_iff.mp hs
  have h0 : (m.opRec o).srcAt 0 = v := by simp [OpRec.srcAt, hsrc]
  have h1 : (m.opRec o).srcAt 1 = w := by simp [OpRec.srcAt, hsrc]
  rw [h0] at hsp ⊢
  rw [h1]
  have hvav := hok.sources v (by simp [hsrc])
  have hwav := hok.sources w (by simp [hsrc])
  obtain ⟨x, hx, ht⟩ := hr v hvav
  obtain ⟨y, hy, hty⟩ := hr w hwav
  have haddr := h.values w hwav (by rw [hw]; exact Ty.isMem_of_isAddr hta)
  rw [hy, Except.ok.injEq] at haddr
  exact ⟨x, hx, by rw [ht, hv]; exact htm, by rw [ht]; exact hsp, by rw [← haddr]; exact hy,
    by rw [← haddr, hty, hw]; exact hta⟩

theorem Follows.load (h : Follows m b ρ f sp tok pre r) (hden : Denotes m b ρ)
    (hok : OpOk m b (m.availableAfter b pre) o)
    (hr : Ready m (refRead m r) (m.availableAfter b pre)) (hfit : ρ.Fits m (m.opRec o))
    (hin : ρ.InBounds m (m.opRec o)) (hop : (m.opRec o).opcode = .load)
    (htok : m.tokenAfter tok pre = some ((m.opRec o).srcAt 0))
    (hsp : (m.valueType ((m.opRec o).srcAt 0)).aux = sp) :
    StepFollows m b ρ f sp tok pre o r := by
  obtain ⟨x, hx, hxm, hxs, ha, hat⟩ := h.address hok hr (.inl hop) hsp
  unfold Denotation.InBounds at hin
  unfold Denotation.Fits at hfit
  rw [hop] at hin hfit
  obtain ⟨size, w, hsize, hwrap, hw⟩ := hin
  have hmem := h.memory
  rw [htok] at hmem
  have hload := execLoadU64_holds hmem sp (ρ.value ((m.opRec o).srcAt 1)).lo
    (execByteSizedScalar_le hsize) (m.opRec o).endian
  have hcur : ρ.current (f.space sp) (some ((m.opRec o).srcAt 0)) =
      ρ.memory ((m.opRec o).srcAt 0) := rfl
  rw [if_neg hwrap, FlatMemory.space_withSpace, hcur, hw] at hload
  have hval : execOpValue (m.valueType (m.opRec o).dst) (refRead m r) r.mem (m.opRec o) =
      .ok (execValueMake (m.valueType (m.opRec o).dst) w 0#64, r.mem) := by
    rw [execOpValue_memoryOp (.inl hop)]
    simp only [execMemoryOp, hx, ha, hxm, hat, hop, hsize, hxs, hload, Bool.not_true,
      Bool.or_self, Bool.false_eq_true, if_false]
  refine ⟨_, _, hval, h.define hden (fun _ _ => (hfit size w hsize hw).symm) ?_⟩
  rw [tokenAfter_quiet hok (by rw [hop]; decide)]
  exact h.memory

theorem Follows.store (h : Follows m b ρ f sp tok pre r) (hden : Denotes m b ρ)
    (hok : OpOk m b (m.availableAfter b pre) o)
    (hr : Ready m (refRead m r) (m.availableAfter b pre)) (hfit : ρ.Fits m (m.opRec o))
    (hin : ρ.InBounds m (m.opRec o)) (hop : (m.opRec o).opcode = .store)
    (htok : m.tokenAfter tok pre = some ((m.opRec o).srcAt 0))
    (hsp : (m.valueType ((m.opRec o).srcAt 0)).aux = sp) :
    StepFollows m b ρ f sp tok pre o r := by
  obtain ⟨x, hx, hxm, hxs, ha, hat⟩ := h.address hok hr (.inr hop) hsp
  have htyped := hok.typed
  rw [hop] at htyped
  obtain ⟨tm, ta, td, hs, htm, -, hout, htd⟩ := typeRule_store htyped
  have hlen : (m.opRec o).src.length = 3 := by simpa using congrArg List.length hs
  have hdmem : (m.opRec o).srcAt 2 ∈ (m.opRec o).src := OpRec.srcAt_mem (by omega)
  have hdtype : m.valueType ((m.opRec o).srcAt 2) = td := by
    have := congrArg (fun l => l.getD 2 td) hs
    simp only [List.getD_cons_succ, List.getD_cons_zero] at this
    rw [← this, OpRec.srcAt, List.getD_eq_getElem _ _ (by omega),
      List.getD_eq_getElem _ _ (by rw [List.length_map]; omega), List.getElem_map]
  have hd := h.values _ (hok.sources _ hdmem) (by rw [hdtype]; exact htd)
  unfold Denotation.InBounds at hin
  unfold Denotation.Fits at hfit
  rw [hop] at hin hfit
  obtain ⟨size, hsize, hwrap⟩ := hin
  have hmem := h.memory
  rw [htok] at hmem
  rcases execStoreU64_holds hmem sp (ρ.value ((m.opRec o).srcAt 1)).lo
    (ρ.value ((m.opRec o).srcAt 2)).lo (execByteSizedScalar_le hsize) (m.opRec o).endian with
    ⟨hw, -⟩ | ⟨-, pages, hstore, hholds⟩
  · exact absurd hw hwrap
  have hval : execOpValue (m.valueType (m.opRec o).dst) (refRead m r) r.mem (m.opRec o) =
      .ok (execValueMake (m.valueType (m.opRec o).dst) (r.mem.generation + 1#64) 0#64,
        ⟨pages, r.mem.generation + 1#64⟩) := by
    rw [execOpValue_memoryOp (.inr hop)]
    simp only [execMemoryOp, hx, ha, hd, hxm, hat, hop, hsize, hxs, hstore, Bool.not_true,
      Bool.or_self, Bool.false_eq_true, if_false]
  have hdst : (m.valueType (m.opRec o).dst).isMem = true := by rw [hout]; exact htm
  refine ⟨_, _, hval, h.define hden (fun hn => absurd hn (by simp [hdst])) ?_⟩
  have hafter : m.tokenAfter tok (pre ++ [o]) = some (m.opRec o).dst := by
    rw [tokenAfter_append, Module.nextToken, if_pos hdst]
  rw [hafter]
  rw [FlatMemory.withSpace_withSpace, FlatMemory.space_withSpace] at hholds
  change HoldsFlat pages (f.withSpace sp (ρ.memory (m.opRec o).dst))
  rw [hfit size hsize]
  exact hholds

/-- **A run of a threaded block follows its denotation.** -/
theorem carries_follows (hops : OpsOk m b (m.blockRec b).ops (m.availableAtStart b))
    (hden : Denotes m b ρ) (hin : ∀ o ∈ (m.blockRec b).ops, ρ.InBounds m (m.opRec o))
    (htok : m.TokensOk tok (m.blockRec b).ops)
    (hsp : ∀ o ∈ (m.blockRec b).ops, (m.opRec o).opcode.isMemoryOp →
      (m.valueType ((m.opRec o).srcAt 0)).aux = sp) (s : ExecState) :
    Carries m b s (Follows m b ρ f sp tok) := by
  intro pre o post t r hsplit _ _ hr hf
  have hmem : o ∈ (m.blockRec b).ops := by
    rw [hsplit]
    simp
  have hok : OpOk m b (m.availableAfter b pre) o := by
    rw [hsplit] at hops
    exact (opsOk_split pre hops).1
  rw [hsplit] at htok
  have hcur := (tokensOk_split pre htok).1
  by_cases hop : (m.opRec o).opcode.isMemoryOp
  · rcases id hop with hload | hstore
    · exact hf.load hden hok hr (hden.ops o hmem) (hin o hmem) hload (hcur hop) (hsp o hmem hop)
    · exact hf.store hden hok hr (hden.ops o hmem) (hin o hmem) hstore (hcur hop) (hsp o hmem hop)
  · exact hf.quiet hden hok (hden.ops o hmem) hop

end Run

end Xair
