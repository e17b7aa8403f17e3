import Xair.Resume
import Xair.VexReach

/-!
# Runs through an exit

An exit hands every binding to a new parameter of the continuation
(`vexEmitExit_carries`).  In every module built on from there, a run that takes the false edge
of the branch enters the continuation with each parameter holding what the old binding held
at the branch, and a run that takes the true edge enters the caller's block with the caller's
arguments: the executor copies the arguments of an edge all at once (`execTransferArgs_copies`).
-/

namespace Xair

open Effect (Ensures)

/-! ### A transfer is a parallel copy -/

section Transfer

variable {m : Module} {s t : ExecState} {v : Nat} {x : ExecValue}

theorem execDefineValue_reads (h : execDefineValue m s v x = (.ok, t)) :
    execReadValue m t v = .ok x := by
  unfold execDefineValue at h
  split at h
  · cases h
  · next hslot =>
    split at h
    · cases h
    · cases h
      rw [execReadValue]
      refine (if_neg hslot).trans ?_
      simp only [if_pos, Bool.not_true, Bool.false_eq_true, if_false]

theorem execDefineValue_other {u : Nat} (hu : u ≠ v) :
    execReadValue m (execDefineValue m s v x).2 u = execReadValue m s u := by
  unfold execDefineValue
  split
  · rfl
  · split
    · rfl
    · simp only [execReadValue, execSlotOk, if_neg hu]
      rfl

theorem execDefineAll_other {u : Nat} {vs : List Nat} (hu : u ∉ vs) (xs : List ExecValue) :
    execReadValue m (execDefineAll m s vs xs).2 u = execReadValue m s u := by
  induction vs generalizing s xs with
  | nil => cases xs <;> rfl
  | cons v vs ih =>
    have huv : u ≠ v := fun h => hu (h ▸ List.mem_cons_self)
    have hu : u ∉ vs := fun h => hu (List.mem_cons_of_mem v h)
    cases xs with
    | nil => rfl
    | cons x xs =>
      have hone := @execDefineValue_other m s v x u huv
      rw [execDefineAll]
      split
      · next heq =>
        rw [heq] at hone
        exact (ih hu xs).trans hone
      · next heq =>
        rw [heq] at hone
        exact hone

theorem execDefineAll_reads {vs : List Nat} {xs : List ExecValue} (hnd : vs.Nodup)
    (hlen : vs.length = xs.length) (h : execDefineAll m s vs xs = (.ok, t)) :
    List.Forall₂ (fun v x => execReadValue m t v = .ok x) vs xs := by
  induction vs generalizing s xs with
  | nil =>
    cases xs with
    | nil => exact .nil
    | cons x xs => cases hlen
  | cons v vs ih =>
    cases xs with
    | nil => cases hlen
    | cons x xs =>
      obtain ⟨hv, hnd⟩ := List.nodup_cons.mp hnd
      rw [execDefineAll] at h
      split at h
      · next s₁ heq =>
        refine .cons ?_ (ih hnd (Nat.succ.inj hlen) h)
        have hkeep := execDefineAll_other (m := m) (s := s₁) hv xs
        rw [h] at hkeep
        exact hkeep.trans (execDefineValue_reads heq)
      · next hne heq =>
        cases h
        exact (hne rfl).elim

theorem execReadValue_error {e : Status} (h : execReadValue m s v = .error e) : e = .errBadArg := by
  unfold execReadValue at h
  split at h
  · cases h
    rfl
  · split at h
    · split at h
      · cases h
      · cases h
        rfl
    · cases h

theorem forall₂_meet {α β γ : Type} {R : α → γ → Prop} {S : β → γ → Prop} {as : List α}
    {bs : List β} {xs : List γ} (h : List.Forall₂ R as xs) (h' : List.Forall₂ S bs xs) :
    List.Forall₂ (fun a b => ∃ x, S b x ∧ R a x) as bs := by
  induction h generalizing bs with
  | nil =>
    cases h'
    exact .nil
  | cons hr _ ih =>
    cases h' with
    | cons hs h' => exact .cons ⟨_, hs, hr⟩ (ih h')

/-- **A transfer is a parallel copy.**  Each parameter holds afterwards what its argument held
before, however arguments and parameters overlap. -/
theorem execTransferArgs_copies {target : Nat} {args : List Nat}
    (hnd : (m.blockRec target).params.Nodup) (h : execTransferArgs m s target args = (.ok, t)) :
    List.Forall₂ (fun p v => ∃ x, execReadValue m s v = .ok x ∧ execReadValue m t p = .ok x)
      (m.blockRec target).params args := by
  unfold execTransferArgs at h
  split at h
  · cases h
  · split at h
    · cases h
    · next hlen =>
      split at h
      · next e hread =>
        obtain ⟨v, -, hv⟩ := readAll_eq_error hread
        rw [execReadValue_error hv] at h
        cases h
      · next xs hread =>
        have hargs := readAll_eq_ok hread
        have hlen' : (m.blockRec target).params.length = xs.length :=
          (not_not.mp hlen).trans hargs.length_eq
        exact forall₂_meet (execDefineAll_reads hnd hlen' h) hargs

end Transfer

/-! ### The edges of an exit -/

/-- Values `ps` hold in `t` what `vs` held in `s`. -/
def HandsOver (m : Module) (s t : ExecState) (ps vs : List Nat) : Prop :=
  List.Forall₂ (fun p v => ∃ x, execReadValue m s v = .ok x ∧ execReadValue m t p = .ok x) ps vs

/-- What an exit from `a` to `a'` promises: the same keys are bound, each to a new parameter of
the continuation, for which the branch has an argument.  In every module that is built on, a run
that leaves the block of the branch in state `s` enters the continuation with the bindings it had
in `s`, or it enters `taken` with the arguments of the caller. -/
structure ExitCarries (a a' : VexAdapter) (taken : Nat) (takenArgs : List Nat) : Prop where
  bound : ∀ k, (a'.lookup k).isSome = (a.lookup k).isSome
  fresh : ∀ k p, a'.lookup k = some p →
    p ∈ (a'.module.blockRec a'.current).params ∧ a.module.values.length ≤ p
  distinct : ∀ k l p, a'.lookup k = some p → a'.lookup l = some p → k = l
  count : (a'.module.falseArgs a.current).length = (a'.module.blockRec a'.current).params.length
  falseEdge : ∀ a'', a'.Later a'' → ∀ s t, runTerm (execInterp a''.module) a''.module a.current
    (a''.module.blockRec a.current).term s = .next (a'.current, t) →
    ∀ k old p, a.lookup k = some old → a'.lookup k = some p →
      ∃ x, execReadValue a''.module s old = .ok x ∧ execReadValue a''.module t p = .ok x
  trueEdge : ∀ a'', a'.Later a'' → ∀ s b t, runTerm (execInterp a''.module) a''.module a.current
    (a''.module.blockRec a.current).term s = .next (b, t) → b ≠ a'.current →
    b = taken ∧ HandsOver a''.module s t (a''.module.blockRec taken).params takenArgs

section Exit

variable {a a' a'' : VexAdapter} {ts : List (VexTransfer VexKey)} {taken : Nat}
  {takenArgs : List Nat} {s t : ExecState} {b : Nat}

theorem VexTaken.later (htaken : VexTaken a a' taken takenArgs) (h : VexExit a a' ts)
    (hwf : a'.module.WF) (hlater : a'.Later a'') :
    (a''.module.blockRec a.current).term = (a'.module.blockRec a.current).term ∧
      a''.module.falseArgs a.current = ts.map VexTransfer.old ∧
      a''.module.termArgsConst (a''.module.blockRec a.current).term false = takenArgs := by
  have hblock := (hlater.module.keepsBlock a.current).closed (by rw [h.kind]; exact TermKind.noConfusion)
  have hterm := hwf.term a.current htaken.current_lt
  refine ⟨by rw [hblock], ?_, ?_⟩
  · rw [Module.falseArgs, hblock, hlater.module.grows.termArgsConst hterm]
    exact h.args
  · rw [hblock, hlater.module.grows.termArgsConst hterm]
    exact htaken.args

/-- A run that goes on from the branch takes one of its edges. -/
theorem VexExit.edges (h : VexExit a a' ts) (htaken : VexTaken a a' taken takenArgs)
    (hwf : a'.module.WF) (hlater : a'.Later a'')
    (hrun : runTerm (execInterp a''.module) a''.module a.current
      (a''.module.blockRec a.current).term s = .next (b, t)) :
    (b = a'.current ∧ HandsOver a''.module s t (a''.module.blockRec a'.current).params
      (ts.map VexTransfer.old)) ∨
    b = taken ∧ HandsOver a''.module s t (a''.module.blockRec taken).params takenArgs := by
  obtain ⟨hterm, hfalse, htrue⟩ := htaken.later h hwf hlater
  obtain ⟨f, ⟨-, hb⟩, htr⟩ := runTerm_next hrun
  have hvalid := validBlock_of_transfer htr
  have hnd := (hlater.module.wf hwf).params_nodup b (by simpa [Module.validBlock] using hvalid)
  have hcopy := execTransferArgs_copies hnd htr
  dsimp only at hb
  cases f with
  | false =>
    rw [if_neg Bool.false_ne_true, hterm, htaken.target] at hb
    subst hb
    rw [htrue] at hcopy
    exact .inr ⟨rfl, hcopy⟩
  | true =>
    rw [if_pos rfl, hterm, h.target] at hb
    subst hb
    rw [← hfalse]
    exact .inl ⟨rfl, hcopy⟩

/-- The parameters of the continuation are all there are when the edge is taken. -/
theorem VexExit.carries (h : VexExit a a' ts) (hlater : a'.Later a'')
    (hc : HandsOver a''.module s t (a''.module.blockRec a'.current).params (ts.map VexTransfer.old))
    {u : VexTransfer VexKey} (hu : u ∈ ts) :
    ∃ x, execReadValue a''.module s u.old = .ok x ∧ execReadValue a''.module t u.new = .ok x := by
  have hparams : (a''.module.blockRec a'.current).params = ts.map VexTransfer.new := by
    have hpre := (hlater.module.keepsBlock a'.current).params
    rw [h.params] at hpre
    have hlen := hc.length_eq
    rw [List.length_map] at hlen
    exact (hpre.eq_of_length (by rw [List.length_map, hlen])).symm
  rw [hparams, HandsOver, List.forall₂_map_left_iff, List.forall₂_map_right_iff,
    List.forall₂_same] at hc
  exact hc u hu

/-- The parameters that an exit makes are distinct and new. -/
theorem VexExit.fresh (h : VexExit a a' ts) (htaken : VexTaken a a' taken takenArgs)
    (hwf : a.module.WF) (hlater : a.module.Later a'.module) :
    (ts.map VexTransfer.new).Nodup ∧ ∀ u ∈ ts, a.module.values.length ≤ u.new := by
  have hwf' := hlater.wf hwf
  have hlt : a'.current < a'.module.blocks.length := by
    rw [← h.target]
    exact ((hwf'.term a.current htaken.current_lt).cbranch h.kind).2.1
  have hnd := hwf'.params_nodup a'.current hlt
  rw [h.params] at hnd
  refine ⟨hnd, fun u hu => ?_⟩
  by_contra hold
  have hmem : u.new ∈ (a'.module.blockRec a'.current).params := by
    rw [h.params]
    exact List.mem_map_of_mem hu
  -- an old value belongs to an old block
  obtain ⟨-, -, hblock⟩ := (hwf'.block_params a'.current hlt u.new).mp hmem
  have hold' := hwf.value_block u.new (by omega)
  rw [hlater.grows.valueRec u.new (by omega), htaken.current] at hblock
  omega

/-- **An exit carries the whole state.** -/
theorem vexEmitExit_carries (ha : a.Reachable) {condition : Nat} {args : ArgArray}
    {name : Option Name} (h : vexEmitExit condition taken args name a = (.ok (), a')) :
    ExitCarries a a' taken args.ids := by
  obtain ⟨ts, hexit, htaken⟩ := (vexEmitExit_ensures ha.ready.1.ok condition taken args name).ok h
  have hlater : a.module.Later a'.module := by
    have hl := (vexEmitExit_frames condition taken args name).later a
    rw [h] at hl
    exact hl
  obtain ⟨hnd, hfresh⟩ := hexit.fresh htaken ha.wf hlater
  have hbound : ∀ k p, a'.lookup k = some p →
      ∃ u ∈ ts, u.key = k ∧ u.new = p ∧ a.lookup k = some u.old := by
    intro k p hp
    cases hk : a.lookup k with
    | none =>
      rw [hexit.unbound k hk] at hp
      cases hp
    | some old =>
      obtain ⟨u, hu, rfl⟩ := hexit.all k (by rw [hk]; rfl)
      obtain ⟨hold, hnew⟩ := hexit.moved u hu
      exact ⟨u, hu, rfl, Option.some.inj (hnew.symm.trans hp), hk.symm.trans hold⟩
  constructor
  · intro k
    cases hk : a.lookup k with
    | none => rw [hexit.unbound k hk]
    | some old =>
      obtain ⟨u, hu, rfl⟩ := hexit.all k (by rw [hk]; rfl)
      rw [(hexit.moved u hu).2]
      rfl
  · intro k p hp
    obtain ⟨u, hu, -, rfl, -⟩ := hbound k p hp
    refine ⟨?_, hfresh u hu⟩
    rw [hexit.params]
    exact List.mem_map_of_mem hu
  · intro k l p hk hl
    obtain ⟨u, hu, rfl, rfl, -⟩ := hbound k p hk
    obtain ⟨u', hu', rfl, hnew, -⟩ := hbound l _ hl
    rw [List.inj_on_of_nodup_map hnd hu hu' hnew.symm]
  · rw [hexit.args, hexit.params, List.length_map, List.length_map]
  · intro a'' hlater' s t hrun k old p hold hp
    obtain ⟨u, hu, rfl, rfl, hu'⟩ := hbound k p hp
    obtain rfl := Option.some.inj (hu'.symm.trans hold)
    rcases hexit.edges htaken (hlater.wf ha.wf) hlater' hrun with ⟨-, hc⟩ | ⟨hne, -⟩
    · exact hexit.carries hlater' hc hu
    · have hlt := htaken.lt
      rw [← hne, htaken.current] at hlt
      exact absurd hlt (Nat.lt_irrefl _)
  · intro a'' hlater' s b t hrun hb
    exact (hexit.edges htaken (hlater.wf ha.wf) hlater' hrun).resolve_left fun hc => hb hc.1

/-- A block with memory, a condition and a word, and a block to go to with a word. -/
def exitBlocks : List Call :=
  [.blockCreate none, .blockAddParam 0 (typeMem 0 64) none, .blockAddParam 0 (typeI 1) none,
    .blockAddParam 0 (typeI 64) none, .blockCreate none, .blockAddParam 1 (typeI 64) none]

/-- The adapter that `xair_vex_adapter_create` makes for the first block. -/
def exitAdapter : VexAdapter :=
  ⟨runCalls Module.create exitBlocks, 0, some 0, ⟨0, fun _ => none⟩, fun _ => none, 0, [], 0⟩

/-- The adapter after a temporary, a direct and a sparse register have been bound to the word. -/
def boundAdapter : VexAdapter :=
  [VexCall.setTmp 5 2, .putReg 16 2, .putReg 100000 2].foldl (fun a c => (c.run a).2) exitAdapter

theorem vexEmitExit_carries_bound :
    ∃ a', vexEmitExit 1 1 (.array [2]) none boundAdapter = (.ok (), a') ∧
      ExitCarries boundAdapter a' 1 [2] ∧
      ∀ k ∈ [VexKey.memory, .tmp 5, .reg 16, .reg 100000], (a'.lookup k).isSome = true := by
  have hreach : boundAdapter.Reachable :=
    .call (.putReg 100000 2) (.call (.putReg 16 2) (.call (.setTmp 5 2)
      (@VexAdapter.Reachable.create _ 0 0 exitAdapter ⟨exitBlocks, rfl⟩ rfl)))
  have hbound : ∀ k ∈ [VexKey.memory, .tmp 5, .reg 16, .reg 100000],
      (boundAdapter.lookup k).isSome = true := by decide +kernel
  have hok : (vexEmitExit 1 1 (.array [2]) none boundAdapter).1.isOk = true := by decide +kernel
  rcases h : vexEmitExit 1 1 (.array [2]) none boundAdapter with ⟨e | ⟨⟩, a'⟩
  · rw [h] at hok
    cases hok
  · have hcarries := vexEmitExit_carries hreach h
    exact ⟨a', rfl, hcarries, fun k hk => by rw [hcarries.bound k, hbound k hk]⟩

end Exit

end Xair
