import Xair.AcyclicRun
import Xair.Draft
import Xair.Resume

/-!
# Control flow without loops

The steps of `xair_exec_run` follow the terminators of the module.  Where no block that the
entry can get to leads back to itself, a run enters each block at most once, so a step limit
of `block_count` is never hit and every larger one gives the same run.
-/

namespace Xair

open BoundedRun (Reaches run_halt_add reaches_induct)
open Relation (ReflTransGen TransGen)

variable {m : Module}

theorem targets_of_takesEdge {b c : Nat} {f : Bool} (h : (m.blockRec b).term.TakesEdge f c) :
    m.Targets b c := by
  obtain ⟨hkind, rfl⟩ := h
  cases f with
  | false =>
    rcases hkind with hk | ⟨hk, -⟩
    · exact .inr ⟨hk, .inl rfl⟩
    · exact .inl ⟨hk, rfl⟩
  | true =>
    rcases hkind with hk | ⟨-, hf⟩
    · exact .inr ⟨hk, .inr rfl⟩
    · cases hf

theorem targets_of_next {σ : Type} {I : Interp σ} {c d : Nat × σ}
    (h : runBlock I m c = .next d) : m.Targets c.1 d.1 := by
  unfold runBlock at h
  split at h
  · cases h
  · obtain ⟨f, hedge, -⟩ := runTerm_next h
    exact targets_of_takesEdge hedge

/-- Every terminator goes to later blocks only. -/
def Module.ForwardOnly (m : Module) : Prop :=
  ∀ b < m.blocks.length, let t := (m.blockRec b).term
    (t.kind = .jump ∨ t.kind = .cbranch → b < t.trueTarget) ∧
      (t.kind = .cbranch → b < t.falseTarget)

instance (m : Module) : Decidable m.ForwardOnly := inferInstanceAs (Decidable (∀ b < _, _ ∧ _))

theorem Module.ForwardOnly.lt (h : m.ForwardOnly) {b c : Nat} (hbc : m.Targets b c) : b < c := by
  have hb : b < m.blocks.length := by
    by_contra hn
    have hrec : m.blockRec b = Module.defaultBlock :=
      List.getD_eq_default _ _ (Nat.not_lt.mp hn)
    rcases hbc with ⟨hk, -⟩ | ⟨hk, -⟩ <;> rw [hrec] at hk <;> cases hk
  obtain ⟨htrue, hfalse⟩ := h b hb
  rcases hbc with ⟨hk, rfl⟩ | ⟨hk, rfl | rfl⟩
  · exact htrue (.inl hk)
  · exact htrue (.inr hk)
  · exact hfalse hk

/-- Edges that only go to later blocks close no loop. -/
theorem Module.ForwardOnly.acyclic (h : m.ForwardOnly) (b : Nat) : ¬ TransGen m.Targets b b := by
  have hlt : ∀ {c}, TransGen m.Targets b c → b < c := by
    intro c hc
    induction hc with
    | single hbc => exact h.lt hbc
    | tail _ hcd ih => exact Nat.lt_trans ih (h.lt hcd)
  exact fun hb => Nat.lt_irrefl _ (hlt hb)

/-- **Runs without loops halt.**  When no block that the entry can get to leads back to
itself, a run of at least `block_count` steps does not end at the step limit, and it is the
run of exactly `block_count` steps, with the same result and the same final state. -/
theorem execRun_loopFree {entry : Nat}
    (hacyclic : ∀ b, ReflTransGen m.Targets entry b → ¬ TransGen m.Targets b b) (s : ExecState)
    {limit : Nat} (hlimit : m.blocks.length ≤ limit) :
    (∀ x, (execRun m entry s limit).1 = .ok x → x.kind ≠ .stepLimit) ∧
      execRun m entry s limit = execRun m entry s m.blocks.length := by
  by_cases hc : CanEnter m (entry, s)
  swap
  · have hbad : ∀ k, execRun m entry s k = (.error .errBadArg, s) := by
      intro k
      rw [execRun, if_pos]
      by_contra hn
      rw [not_or] at hn
      exact hc ⟨not_not.mp hn.1, by simpa using hn.2⟩
    rw [hbad, hbad]
    exact ⟨fun x hx => (by cases hx), rfl⟩
  have hplaces : ∀ n t, Reaches (runBlock (execInterp m) m) n (entry, s) t →
      t.1 ∈ List.range m.blocks.length := by
    intro n t ht
    have hvalid := (reaches_induct (fun _ _ => canEnter_next) ht hc).2
    exact List.mem_range.mpr (by simpa [Module.validBlock] using hvalid)
  obtain ⟨k, hk, u, r, t, hu, hstep⟩ := BoundedRun.run_halts Prod.fst
    (fun _ _ => targets_of_next) stepLimitResult hacyclic hplaces
  rw [List.length_range] at hk
  have hrun : ∀ n, k < n → execRun m entry s n = (r, t.2) := by
    intro n hn
    obtain ⟨i, rfl⟩ : ∃ i, n = k + (i + 1) := ⟨n - k - 1, by omega⟩
    rw [execRun_of_canEnter hc, interpRun, run_halt_add hu hstep]
  rw [hrun _ hk, hrun _ (Nat.lt_of_lt_of_le hk hlimit)]
  exact ⟨runBlock_halts hstep, rfl⟩

/-- A branch over a bit whose two sides meet again. -/
def diamondSample : List Call :=
  [.blockCreate none, .blockCreate none, .blockCreate none, .blockCreate none,
    .blockAddParam 0 (typeI 1) none, .blockAddParam 3 (typeI 8) none,
    .buildConstU64 0 (typeI 8) 1#64 none, .buildConstU64 0 (typeI 8) 2#64 none,
    .setCbranch 0 0 1 (.array []) 2 (.array []), .setJump 1 3 (.array [2]),
    .setJump 2 3 (.array [3]), .setReturn 3 (.array [1])]

theorem execRun_loopFree_diamondSample :
    let m := runCalls Module.create diamondSample
    let s := (execSetParam m (freshState m) 0 (execI 1 1#64)).2
    (∀ x, (execRun m 0 s 9).1 = .ok x → x.kind ≠ .stepLimit) ∧
      execRun m 0 s 9 = execRun m 0 s m.blocks.length :=
  execRun_loopFree (fun b _ => Module.ForwardOnly.acyclic (by decide) b) _ (by decide)

end Xair
