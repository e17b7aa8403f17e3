import Mathlib.Data.List.Basic
import Mathlib.Tactic.Common

/-!
# Computations with a trace

A computation gives a value and the list of the events on the way to it.  Forgetting the events
(`value`) gives the computation without them, and `All P x` says that every event of `x` has `P`.
-/

/-- A value and the events on the way to it, the first one first. -/
structure Traced (ε α : Type) where
  value : α
  trace : List ε

namespace Traced

variable {ε α β : Type}

instance : Monad (Traced ε) where
  pure a := ⟨a, []⟩
  bind x f := ⟨(f x.value).value, x.trace ++ (f x.value).trace⟩

/-- An event. -/
def event (e : ε) : Traced ε Unit := ⟨(), [e]⟩

/-! ### Forgetting the events -/

@[simp] theorem value_pure (a : α) : (pure a : Traced ε α).value = a := rfl

@[simp] theorem value_bind (x : Traced ε α) (f : α → Traced ε β) :
    (x >>= f).value = (f x.value).value := rfl

@[simp] theorem value_ite (c : Prop) [Decidable c] (x y : Traced ε α) :
    (if c then x else y).value = if c then x.value else y.value := by
  split <;> rfl

/-! ### What every event has -/

/-- Every event has `P`. -/
def All (P : ε → Prop) (x : Traced ε α) : Prop := ∀ e ∈ x.trace, P e

section Rules

variable {P : ε → Prop}

theorem all_pure (a : α) : All P (pure a : Traced ε α) := fun _ he => absurd he List.not_mem_nil

theorem all_event {e : ε} (h : P e) : All P (event e) := by
  intro e' he
  rw [List.mem_singleton.mp he]
  exact h

/-- Sequencing. -/
theorem All.bind {x : Traced ε α} {f : α → Traced ε β} (hx : All P x) (hf : All P (f x.value)) :
    All P (x >>= f) :=
  fun e he => (List.mem_append.mp he).elim (hx e) (hf e)

theorem all_ite {c : Prop} [Decidable c] {x y : Traced ε α} (hx : c → All P x)
    (hy : ¬ c → All P y) : All P (if c then x else y) := by
  split
  · next h => exact hx h
  · next h => exact hy h

end Rules

end Traced
