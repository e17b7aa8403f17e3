import Xair.AlikePasses

/-!
# Failed calls

A call that fails keeps the blocks, the operations and the values of the module.  It can still
leave a mark: `xair_set_cbranch` leaves the true arguments behind when the false ones are refused,
and `add_op` may have made room in its table (`Call.run_error`).  No later sequence of calls sees
that mark, since the module still looks like the one before (`Alike`).
-/

namespace Xair

/-! ### What can be observed -/

/-- The status and the id that each call of a sequence reports. -/
def outcomes (m : Module) : List Call → List (Except Status (Option Nat))
  | [] => []
  | c :: calls => (c.run m).2 :: outcomes (c.run m).1 calls

/-- The calls that only read a module report the same: `xair_format_module` into any buffer,
`xair_module_fingerprint` and `xair_verify_module`. -/
structure SameView (m m' : Module) : Prop where
  text : ∀ buffer n, formatModule m' buffer n = formatModule m buffer n
  fingerprint : moduleFingerprint m' = moduleFingerprint m
  verdict : verifyModule m' = verifyModule m

/-- No sequence of calls tells the modules apart. -/
def Indistinguishable (m m' : Module) : Prop :=
  ∀ calls, outcomes m' calls = outcomes m calls ∧ SameView (runCalls m calls) (runCalls m' calls)

/-- The blocks with their parameters and operation lists, the operations, the values and the
terminators with their arguments are as before. -/
structure Unchanged (m m' : Module) : Prop where
  values : m'.values = m.values
  ops : m'.ops = m.ops
  blocks : m'.blocks = m.blocks
  args : ∀ b < m.blocks.length, ∀ f,
    m'.termArgsConst (m.blockRec b).term f = m.termArgsConst (m.blockRec b).term f
  frozen : m'.frozen = m.frozen

section View

variable {m m' : Module}

theorem Alike.sameView (h : Alike m m') : SameView m m' :=
  ⟨formatModule_alike h.arrays,
    by rw [moduleFingerprint, moduleFingerprint, fingerprintWords_alike h.arrays],
    verifyModule_alike h.arrays⟩

/-- **Runs.**  Modules that are alike stay alike under every sequence of calls, which reports the
same on both. -/
theorem alike_runCalls (calls : List Call) {m m' : Module} (h : Alike m m') :
    Alike (runCalls m calls) (runCalls m' calls) ∧ outcomes m' calls = outcomes m calls := by
  induction calls generalizing m m' with
  | nil => exact ⟨h, rfl⟩
  | cons c calls ih =>
    obtain ⟨hout, hnext⟩ := alike_call h c
    obtain ⟨hend, houts⟩ := ih hnext
    exact ⟨hend, by rw [outcomes, outcomes, hout, houts]⟩

theorem Alike.indistinguishable (h : Alike m m') : Indistinguishable m m' := fun calls =>
  ⟨(alike_runCalls calls h).2, (alike_runCalls calls h).1.sameView⟩

end View

/-! ### Failures -/

section Failures

variable {m : Module}

/-- A failing call leaves the module alone, or it is `add_op` failing, or it leaves arguments
behind. -/
theorem Call.run_error (hwf : m.WF) {c : Call} {e : Status} (h : (c.run m).2 = .error e) :
    (c.run m).1 = m ∨
      (∃ k name, (c.run m).1 = (addOp m k name).1 ∧ (addOp m k name).2 = .error e) ∨
      ∃ ids, (c.run m).1 = m.withArgs ids := by
  have hmap : ∀ {α : Type} {x : Except Status α} {f : α → Option Nat},
      x.map f = .error e → x = .error e := by
    intro α x f hx
    cases x with
    | error e => exact congrArg _ (Except.error.inj hx)
    | ok a => cases hx
  cases hk : c.key m with
  | some k =>
    rcases Call.run_key hk with ⟨e', he⟩ | ⟨name, he⟩
    · exact .inl (by rw [he])
    · rw [he] at h ⊢
      exact .inr (.inl ⟨k, name, rfl, hmap h⟩)
  | none =>
    cases c <;> simp only [Call.key, reduceCtorEq] at hk
    case blockCreate name =>
      have h := hmap h
      rcases blockCreate_cases m name with ⟨e', he⟩ | ⟨-, -, he⟩
      · exact .inl (by rw [Call.run, he])
      · rw [he] at h
        cases h
    case blockAddParam b t name =>
      have h := hmap h
      rcases blockAddParam_cases m b t name with ⟨e', he⟩ | ⟨-, -, -, -, he⟩
      · exact .inl (by rw [Call.run, he])
      · rw [he] at h
        cases h
    case setJump b target args => exact .inl (setJump_error (Prod.ext rfl (hmap h)))
    case setCbranch b cond target targs ftarget fargs =>
      have h := hmap h
      simp only [Call.run, setCbranch_eq] at h ⊢
      split at h
      · next hguard =>
        split at h
        · cases h
        · next hf => exact .inr (.inr ⟨targs.ids, by rw [if_pos hguard, if_neg hf]⟩)
      · next hguard => exact .inl (by rw [if_neg hguard])
    case setReturn b vs => exact .inl (setReturn_error (Prod.ext rfl (hmap h)))
    case setTrap b code =>
      have h := hmap h
      simp only [Call.run, setTrap_eq] at h ⊢
      split at h
      · cases h
      · next hguard => exact .inl (by rw [if_neg hguard])
    case setFault b code =>
      have h := hmap h
      simp only [Call.run, setFault_eq] at h ⊢
      split at h
      · cases h
      · next hguard => exact .inl (by rw [if_neg hguard])
    case canonicalize =>
      rcases canonicalizeModule_cases hwf with he | ⟨hf, hver, -⟩
      · exact .inl he
      · simp only [Call.run, canonicalizeModule_ok hwf hf hver] at h
        cases h
    case freeze =>
      have h := hmap h
      simp only [Call.run, moduleFreeze] at h ⊢
      split at h
      · next hf => exact .inl (by rw [if_pos hf])
      · cases h

theorem Unchanged.of_sameCore {m' : Module} (hc : SameCore m m') (hf : m'.frozen = m.frozen) :
    Unchanged m m' :=
  ⟨hc.values, hc.ops, hc.blocks,
    fun b _ f => by rw [Module.termArgsConst, Module.termArgsConst, hc.termArgs], hf⟩

/-- **A failing call changes nothing**, and the module still looks the same. -/
theorem failed_call (h : Alike m m) {c : Call} {e : Status} (he : (c.run m).2 = .error e) :
    Unchanged m (c.run m).1 ∧ Alike m (c.run m).1 := by
  have hwf := wf_call h.wf c
  rcases Call.run_error h.wf he with hm | ⟨k, name, hm, hadd⟩ | ⟨ids, hm⟩
  · rw [hm]
    exact ⟨.of_sameCore (.refl m) rfl, h⟩
  · rw [hm] at hwf ⊢
    obtain ⟨os, ht, -⟩ := h.table
    have hc : SameCore m (addOp m k name).1 := by
      rcases addOp_cases m k name with ⟨hc, -⟩ | ⟨-, -, hc, -⟩ | ⟨-, -, -, -, -, -, -, -, hv⟩
      · exact hc
      · exact hc
      · rw [hadd] at hv
        cases hv
    have hf := frozen_addOp m k name
    exact ⟨.of_sameCore hc hf, h.wf, hwf, h.arrays.congr (.refl m) hc, hf, os, ht, ht.kept h.wf hc⟩
  · rw [hm] at hwf ⊢
    have hgrows := grows_withArgs m ids
    refine ⟨⟨rfl, rfl, rfl, fun b hb f => hgrows.termArgsConst (h.wf.term b hb) f, rfl⟩, ?_⟩
    have harrays := h.withArgs [] ids
    rw [withArgs_nil] at harrays
    exact h.framed h.wf hwf harrays rfl rfl (.refl m) (tableFrame_of_eq rfl rfl rfl rfl rfl)

end Failures

/-! ### Frozen modules -/

section Frozen

variable {m : Module}

theorem Call.run_frozen (hf : m.frozen = true) (c : Call) : ∃ e, c.run m = (m, .error e) := by
  have hopen : ∀ b, m.isOpen b = false := by
    intro b
    simp [Module.isOpen, hf]
  cases hk : c.key m with
  | some k =>
    rcases Call.run_key hk with he | ⟨name, he⟩
    · exact he
    · have hadd : addOp m k name = (m, .error .errBadArg) := by
        rw [addOp, if_pos (by simp [hf])]
      exact ⟨.errBadArg, by rw [he, hadd]; rfl⟩
  | none =>
    cases c <;> simp only [Call.key, reduceCtorEq] at hk
    case canonicalize =>
      rw [Call.run, canonicalizeModule, if_pos hf]
      exact ⟨_, rfl⟩
    all_goals
      simp only [Call.run, blockCreate_eq, blockAddParam_eq, setJump_eq, setCbranch_eq,
        setReturn_eq, setTrap_eq, setFault_eq, moduleFreeze, hopen, hf, Bool.false_eq_true,
        false_and, if_false, if_true]
      exact ⟨_, rfl⟩

theorem frozen_runCalls (hf : m.frozen = true) (calls : List Call) :
    runCalls m calls = m ∧ ∀ r ∈ outcomes m calls, ∃ e, r = .error e := by
  induction calls with
  | nil => exact ⟨rfl, fun r hr => absurd hr List.not_mem_nil⟩
  | cons c calls ih =>
    obtain ⟨e, he⟩ := Call.run_frozen hf c
    rw [outcomes, he]
    refine ⟨?_, fun r hr => ?_⟩
    · show runCalls (c.run m).1 calls = m
      rw [he]
      exact ih.1
    · rcases List.mem_cons.mp hr with rfl | hr
      · exact ⟨e, rfl⟩
      · exact ih.2 r hr

end Frozen

/-- **Failed calls leave no trace.**  A call that fails keeps the blocks, the operations, the
values and the terminators, and no later sequence of calls tells the module from the one before.
On a frozen module every call of every sequence fails, and the module stays as it is. -/
theorem failedCall_invisible {m : Module} (h : m.Reachable) :
    (∀ (c : Call) e, (c.run m).2 = .error e →
      Unchanged m (c.run m).1 ∧ Indistinguishable m (c.run m).1) ∧
    (m.frozen = true → ∀ calls,
      runCalls m calls = m ∧ ∀ r ∈ outcomes m calls, ∃ e, r = .error e) := by
  refine ⟨fun c e he => ?_, fun hf calls => frozen_runCalls hf calls⟩
  obtain ⟨hsame, halike⟩ := failed_call (alike_of_reachable h) he
  exact ⟨hsame, halike.indistinguishable⟩

/-- A block with a condition and two targets. -/
def branchSample : List Call :=
  [.blockCreate none, .blockCreate none, .blockAddParam 0 (typeI 1) none,
    .blockAddParam 1 (typeI 1) none]

/-- A branch whose true arguments are appended before its false arguments are refused. -/
def refusedBranch : Call := .setCbranch 0 0 1 (.array [0]) 1 (.null 1)

theorem failedCall_invisible_branch :
    (runCalls Module.create branchSample).termArgs = [] ∧
      (refusedBranch.run (runCalls Module.create branchSample)).1.termArgs = [0] ∧
      Unchanged (runCalls Module.create branchSample)
        (refusedBranch.run (runCalls Module.create branchSample)).1 ∧
      Indistinguishable (runCalls Module.create branchSample)
        (refusedBranch.run (runCalls Module.create branchSample)).1 := by
  have h := (failedCall_invisible (m := runCalls Module.create branchSample) ⟨branchSample, rfl⟩).1
    refusedBranch .errBadArg (by decide)
  exact ⟨by decide, by decide, h.1, h.2⟩

end Xair
