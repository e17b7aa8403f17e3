import Xair.Simulation
import Xair.StaleValues

/-!
# Cutting and resuming runs

Everything that `xair_exec_run` carries from one block to the next is in the state: the
parameters of the next block are transferred before the limit is looked at again.  So a
run that stops at the limit goes on from there (`execRun_resume`).
-/

namespace Xair

open BoundedRun (Outcome Reaches run_cases run_add run_halt_add reaches_induct)

/-! ### The results of a halt -/

section Halts

variable {σ : Type} {I : Interp σ} {m : Module}

/-- A halt other than the one at the limit. -/
def HaltsOtherwise (r : RunResult) : Prop := ∀ x, r = .ok x → x.kind ≠ .stepLimit

theorem haltsOtherwise_error (e : Status) : HaltsOtherwise (.error e) := fun _ h => by cases h

theorem haltsOtherwise_ok {x : ExecResult} (h : x.kind ≠ .stepLimit) : HaltsOtherwise (.ok x) := by
  rintro y hy
  cases hy
  exact h

theorem runOps_halts {b : Nat} {os : List Nat} {s s' : σ} {r : RunResult}
    (h : runOps I m b os s = .error (r, s')) : HaltsOtherwise r := by
  induction os generalizing s with
  | nil => cases h
  | cons o os ih =>
    rw [runOps] at h
    split at h
    · exact ih h
    · cases h
      exact haltsOtherwise_ok (by simp)
    · cases h
      exact haltsOtherwise_error _

theorem runEdge_halts {s : σ} {target : Nat} {args : List Nat} {r : RunResult} {c : Nat × σ}
    (h : runEdge I s target args = .halt r c) : HaltsOtherwise r := by
  unfold runEdge at h
  split at h
  · cases h
  · cases h
    exact haltsOtherwise_error _

theorem runTerm_halts {b : Nat} {t : TermRec} {s : σ} {r : RunResult} {c : Nat × σ}
    (h : runTerm I m b t s = .halt r c) : HaltsOtherwise r := by
  unfold runTerm at h
  split at h
  · exact runEdge_halts h
  · split at h
    · cases h
      exact haltsOtherwise_error _
    · split at h
      · cases h
        exact haltsOtherwise_error _
      · split at h
        · exact runEdge_halts h
        · exact runEdge_halts h
  · split at h
    · cases h
      exact haltsOtherwise_error _
    · split at h
      · cases h
        exact haltsOtherwise_error _
      · cases h
        exact haltsOtherwise_ok (by simp)
  · cases h
    exact haltsOtherwise_ok (by simp)
  · cases h
    exact haltsOtherwise_ok (by simp)
  · cases h
    exact haltsOtherwise_error _

/-- No block halts with the result of the limit. -/
theorem runBlock_halts {c d : Nat × σ} {r : RunResult} (h : runBlock I m c = .halt r d) :
    HaltsOtherwise r := by
  unfold runBlock at h
  split at h
  · next hops =>
    cases h
    exact runOps_halts hops
  · exact runTerm_halts h

/-- The edges of a terminator to block `target`; `f` picks the arguments. -/
def TermRec.TakesEdge (t : TermRec) (f : Bool) (target : Nat) : Prop :=
  (t.kind = .cbranch ∨ t.kind = .jump ∧ f = false) ∧
    target = if f then t.falseTarget else t.trueTarget

theorem runEdge_target {s : σ} {target : Nat} {args : List Nat} {c : Nat × σ}
    (h : runEdge I s target args = .next c) : ∃ s', I.transfer s target args = (.ok, s') ∧
      c = (target, s') := by
  unfold runEdge at h
  split at h
  · next s' htr =>
    cases h
    exact ⟨s', htr, rfl⟩
  · cases h

/-- A block is entered by an edge of the terminator. -/
theorem runTerm_next {b : Nat} {t : TermRec} {s : σ} {c : Nat × σ}
    (h : runTerm I m b t s = .next c) : ∃ f, t.TakesEdge f c.1 ∧
      I.transfer s c.1 (m.termArgsConst t f) = (.ok, c.2) := by
  unfold runTerm at h
  split at h
  · next hk =>
    obtain ⟨s', htr, rfl⟩ := runEdge_target h
    exact ⟨false, ⟨.inr ⟨hk, rfl⟩, rfl⟩, htr⟩
  · next hk =>
    split at h
    · cases h
    · split at h
      · cases h
      · split at h
        · obtain ⟨s', htr, rfl⟩ := runEdge_target h
          exact ⟨false, ⟨.inl hk, rfl⟩, htr⟩
        · obtain ⟨s', htr, rfl⟩ := runEdge_target h
          exact ⟨true, ⟨.inl hk, rfl⟩, htr⟩
  · split at h
    · cases h
    · split at h <;> cases h
  · cases h
  · cases h
  · cases h

end Halts

/-! ### The executor -/

variable {m : Module}

theorem execDefineValue_valueCount (s : ExecState) (v : Nat) (x : ExecValue) :
    (execDefineValue m s v x).2.valueCount = s.valueCount := by
  unfold execDefineValue
  split
  · rfl
  · split <;> rfl

theorem execDefineAll_valueCount (s : ExecState) (vs : List Nat) (xs : List ExecValue) :
    (execDefineAll m s vs xs).2.valueCount = s.valueCount := by
  induction vs generalizing s xs with
  | nil => rfl
  | cons v vs ih =>
    cases xs with
    | nil => rfl
    | cons x xs =>
      have hd := execDefineValue_valueCount (m := m) s v x
      rw [execDefineAll]
      split
      · next heq =>
        rw [heq] at hd
        exact (ih _ xs).trans hd
      · next heq =>
        rw [heq] at hd
        exact hd

theorem execOp_valueCount (s : ExecState) (op : OpRec) :
    (execOp m s op).2.valueCount = s.valueCount := by
  unfold execOp
  split
  · rfl
  · exact execDefineValue_valueCount _ _ _

theorem execTransferArgs_valueCount (s : ExecState) (target : Nat) (args : List Nat) :
    (execTransferArgs m s target args).2.valueCount = s.valueCount := by
  unfold execTransferArgs
  split
  · rfl
  · split
    · rfl
    · split
      · rfl
      · exact execDefineAll_valueCount _ _ _

/-- A transfer that succeeds goes to a block of the module. -/
theorem validBlock_of_transfer {s s' : ExecState} {target : Nat} {args : List Nat}
    (h : execTransferArgs m s target args = (.ok, s')) : m.validBlock target = true := by
  unfold execTransferArgs at h
  split at h
  · cases h
  · next hv => simpa using hv

/-- What the guard of `xair_exec_run` asks of a block and a state. -/
def CanEnter (m : Module) (c : Nat × ExecState) : Prop :=
  c.2.valueCount = m.values.length ∧ m.validBlock c.1 = true

theorem execRun_of_canEnter {b : Nat} {s : ExecState} (h : CanEnter m (b, s)) (limit : Nat) :
    execRun m b s limit = interpRun (execInterp m) m limit b s := by
  rw [execRun, if_neg]
  rintro (hc | hv)
  · exact hc h.1
  · rw [h.2] at hv
    cases hv

theorem canEnter_next {c d : Nat × ExecState} (hc : CanEnter m c)
    (h : runBlock (execInterp m) m c = .next d) : CanEnter m d := by
  have hops := runOps_keeps (I := execInterp m) (m := m) (b := c.1)
    (Q := fun s => s.valueCount = m.values.length)
    (fun s op hs => (execOp_valueCount s op).trans hs) (m.blockRec c.1).ops hc.1
  unfold runBlock at h
  split at h
  · cases h
  · next s' hr =>
    rw [hr] at hops
    obtain ⟨f, -, htr⟩ := runTerm_next h
    have hcount := execTransferArgs_valueCount (m := m) s' d.1
      (m.termArgsConst (m.blockRec c.1).term f)
    change execTransferArgs m s' d.1 _ = (.ok, d.2) at htr
    rw [htr] at hcount
    exact ⟨hcount.trans hops, validBlock_of_transfer htr⟩

/-- **Runs can be cut at every step limit and resumed.**  A run that stops at the limit in
block `r.block` and goes on there is a run with the sum of the limits; a run that halts
otherwise does so under every larger limit. -/
theorem execRun_resume (m : Module) (entry : Nat) (s : ExecState) (n : Nat) :
    (∀ r, (execRun m entry s n).1 = .ok r → r.kind = .stepLimit → ∀ k,
      execRun m r.block (execRun m entry s n).2 k = execRun m entry s (n + k)) ∧
    (∀ r, (execRun m entry s n).1 = .ok r → r.kind ≠ .stepLimit → ∀ k, n ≤ k →
      execRun m entry s k = execRun m entry s n) := by
  by_cases hc : CanEnter m (entry, s)
  swap
  · have hbad : execRun m entry s n = (.error .errBadArg, s) := by
      rw [execRun, if_pos]
      by_contra hn
      rw [not_or] at hn
      exact hc ⟨not_not.mp hn.1, by simpa using hn.2⟩
    rw [hbad]
    exact ⟨fun r hr => (by cases hr), fun r hr => (by cases hr)⟩
  have hrun : ∀ k, execRun m entry s k = interpRun (execInterp m) m k entry s :=
    execRun_of_canEnter hc
  simp only [hrun]
  rcases @run_cases _ _ (runBlock (execInterp m) m) stepLimitResult n (entry, s) with
    ⟨c, hreach, hout⟩ | ⟨j, hj, u, res, c, hreach, hu, hout⟩
  · -- the limit is hit in `c`
    have hres : interpRun (execInterp m) m n entry s = (stepLimitResult c, c.2) := by
      rw [interpRun, hout]
    rw [hres]
    refine ⟨fun r hr _ k => ?_, fun r hr hk => ?_⟩
    · cases hr
      have hc' : CanEnter m c := reaches_induct (fun _ _ => canEnter_next) hreach hc
      rw [execRun_of_canEnter hc', interpRun, interpRun, run_add hreach k]
    · cases hr
      exact absurd rfl hk
  · have hres : ∀ k, j < k → interpRun (execInterp m) m k entry s = (res, c.2) := by
      intro k hk
      obtain ⟨i, rfl⟩ : ∃ i, k = j + (i + 1) := ⟨k - j - 1, by omega⟩
      rw [interpRun, run_halt_add hreach hu]
    rw [hres n hj]
    refine ⟨fun r hr hk => absurd hk (runBlock_halts hu r hr), fun r _ _ k hk => ?_⟩
    rw [hres k (Nat.lt_of_lt_of_le hj hk)]

theorem execRun_resume_swapLoop :
    execRun (runCalls Module.create swapLoop) 0
        (execRun (runCalls Module.create swapLoop) 0 swapLoopState 2).2 3 =
      execRun (runCalls Module.create swapLoop) 0 swapLoopState 5 :=
  (execRun_resume (runCalls Module.create swapLoop) 0 swapLoopState 2).1
    ⟨.stepLimit, 0, 0, []⟩ rfl rfl 3

end Xair
