/-!
# Stateful computations that can fail

A computation on a state either returns a value or fails with an error, and in both
cases it leaves a state behind.  `Ensures x s Q E` says what holds after it is run
from `s`: `Q` of a value and the state it leaves, `E` of an error and that state.
-/

/-- A computation on states `σ` that returns an `α` or fails with an `ε`. -/
def Effect (σ ε α : Type) : Type := σ → Except ε α × σ

namespace Effect

variable {σ ε α β : Type}

instance : Monad (Effect σ ε) where
  pure a := fun s => (.ok a, s)
  bind x f := fun s =>
    match x s with
    | (.ok a, s) => f a s
    | (.error e, s) => (.error e, s)

/-- The state. -/
def get : Effect σ ε σ := fun s => (.ok s, s)

/-- Change the state. -/
def modify (f : σ → σ) : Effect σ ε Unit := fun s => (.ok (), f s)

/-- Fail. -/
def throw (e : ε) : Effect σ ε α := fun s => (.error e, s)

/-- Run a computation and hand over its outcome, failure or not. -/
def attempt (x : Effect σ ε α) : Effect σ ε (Except ε α) := fun s => (.ok (x s).1, (x s).2)

theorem bind_assoc {γ : Type} (x : Effect σ ε α) (f : α → Effect σ ε β) (g : β → Effect σ ε γ) :
    (x >>= f) >>= g = x >>= fun a => f a >>= g := by
  funext s
  simp only [Bind.bind]
  rcases x s with ⟨e | a, s'⟩ <;> rfl

theorem bind_of_ok {x : Effect σ ε α} {s s' : σ} {a : α} (hx : x s = (.ok a, s'))
    (f : α → Effect σ ε β) : (x >>= f) s = f a s' := by
  simp only [Bind.bind, hx]

theorem get_bind (f : σ → Effect σ ε β) (s : σ) : (get >>= f) s = f s s := rfl

theorem modify_bind (g : σ → σ) (f : Unit → Effect σ ε β) (s : σ) :
    (modify g >>= f) s = f () (g s) := rfl

theorem bind_of_error {x : Effect σ ε α} {s s' : σ} {e : ε} (hx : x s = (.error e, s'))
    (f : α → Effect σ ε β) : (x >>= f) s = (.error e, s') := by
  simp only [Bind.bind, hx]

/-- A sequence succeeds when both parts do. -/
theorem bind_eq_ok {x : Effect σ ε α} {f : α → Effect σ ε β} {s s' : σ} {b : β} :
    (x >>= f) s = (.ok b, s') ↔ ∃ a t, x s = (.ok a, t) ∧ f a t = (.ok b, s') := by
  rcases hx : x s with ⟨r, t⟩
  cases r with
  | ok a =>
    rw [bind_of_ok hx]
    constructor
    · intro h
      exact ⟨a, t, rfl, h⟩
    · rintro ⟨a', t', ⟨⟩, h⟩
      exact h
  | error e =>
    rw [bind_of_error hx]
    constructor
    · rintro ⟨⟩
    · rintro ⟨a', t', ⟨⟩, h⟩

/-- What holds after a run from `s`. -/
def Ensures (x : Effect σ ε α) (s : σ) (Q : α → σ → Prop) (E : ε → σ → Prop) : Prop :=
  match x s with
  | (.ok a, s') => Q a s'
  | (.error e, s') => E e s'

section Rules

variable {x : Effect σ ε α} {f : α → Effect σ ε β} {s : σ} {Q : α → σ → Prop} {R : β → σ → Prop}
  {E : ε → σ → Prop}

theorem Ensures.ok {a : α} {s' : σ} (h : Ensures x s Q E) (hx : x s = (.ok a, s')) : Q a s' := by
  rw [Ensures, hx] at h
  exact h

theorem Ensures.error {e : ε} {s' : σ} (h : Ensures x s Q E) (hx : x s = (.error e, s')) :
    E e s' := by
  rw [Ensures, hx] at h
  exact h

theorem ensures_of_ok {a : α} {s' : σ} (hx : x s = (.ok a, s')) (h : Q a s') :
    Ensures x s Q E := by
  rw [Ensures, hx]
  exact h

theorem ensures_of_error {e : ε} {s' : σ} (hx : x s = (.error e, s')) (h : E e s') :
    Ensures x s Q E := by
  rw [Ensures, hx]
  exact h

theorem Ensures.congr {y : Effect σ ε α} {t : σ} (h : Ensures y t Q E) (hx : x s = y t) :
    Ensures x s Q E := by
  rw [Ensures, hx]
  exact h

theorem ensures_pure {a : α} (h : Q a s) : Ensures (pure a) s Q E := h

theorem ensures_throw {e : ε} (h : E e s) : Ensures (throw e) s Q E := h

theorem Ensures.mono {Q' : α → σ → Prop} {E' : ε → σ → Prop} (h : Ensures x s Q E)
    (hQ : ∀ a s', Q a s' → Q' a s') (hE : ∀ e s', E e s' → E' e s') : Ensures x s Q' E' := by
  unfold Ensures at h ⊢
  split at h
  · exact hQ _ _ h
  · exact hE _ _ h

theorem Ensures.and {Q' : α → σ → Prop} {E' : ε → σ → Prop} (h : Ensures x s Q E)
    (h' : Ensures x s Q' E') :
    Ensures x s (fun a s' => Q a s' ∧ Q' a s') fun e s' => E e s' ∧ E' e s' := by
  unfold Ensures at h h' ⊢
  split
  · next heq =>
    rw [heq] at h h'
    exact ⟨h, h'⟩
  · next heq =>
    rw [heq] at h h'
    exact ⟨h, h'⟩

/-- **Sequencing.** -/
theorem Ensures.bind (h : Ensures x s Q E) (hf : ∀ a s', Q a s' → Ensures (f a) s' R E) :
    Ensures (x >>= f) s R E := by
  rcases hx : x s with ⟨r, s'⟩
  cases r with
  | ok a =>
    have hf' := hf a s' (h.ok hx)
    rw [Ensures] at hf' ⊢
    rw [bind_of_ok hx]
    exact hf'
  | error e => exact ensures_of_error (bind_of_error hx f) (h.error hx)

/-- Sequencing after a run that is known. -/
theorem ensures_bind_of_ok {a : α} {s' : σ} (hx : x s = (.ok a, s')) (h : Ensures (f a) s' R E) :
    Ensures (x >>= f) s R E := by
  refine Ensures.bind (Q := fun b t => b = a ∧ t = s') (ensures_of_ok hx ⟨rfl, rfl⟩) ?_
  rintro b t ⟨rfl, rfl⟩
  exact h

theorem ensures_bind_of_error {e : ε} {s' : σ} (hx : x s = (.error e, s')) (h : E e s') :
    Ensures (x >>= f) s R E :=
  Ensures.bind (Q := fun _ _ => False) (ensures_of_error hx h) fun _ _ hf => hf.elim

theorem ensures_get_bind {f : σ → Effect σ ε β} (h : Ensures (f s) s R E) :
    Ensures (get >>= f) s R E := h

theorem ensures_attempt {Q : Except ε α → σ → Prop}
    (h : Ensures x s (fun a => Q (.ok a)) (fun e => Q (.error e))) : Ensures (attempt x) s Q E := by
  show Q (x s).1 (x s).2
  rcases hx : x s with ⟨r, s'⟩
  cases r with
  | ok a => exact h.ok hx
  | error e => exact h.error hx

theorem ensures_ite {c : Prop} [Decidable c] {y : Effect σ ε α}
    (ht : c → Ensures x s Q E) (hf : ¬ c → Ensures y s Q E) :
    Ensures (if c then x else y) s Q E := by
  split
  · next h => exact ht h
  · next h => exact hf h

end Rules

/-- Whatever the outcome, the state that `x` leaves is in the relation `R` to the one before. -/
def Leads (R : σ → σ → Prop) (x : Effect σ ε α) : Prop := ∀ s, R s (x s).2

section Leads

variable {R : σ → σ → Prop} {x : Effect σ ε α} {f : α → Effect σ ε β}

theorem leads_pure (hR : ∀ s, R s s) (a : α) : Leads R (pure a : Effect σ ε α) := hR

theorem leads_throw (hR : ∀ s, R s s) (e : ε) : Leads R (throw e : Effect σ ε α) := hR

theorem leads_modify {f : σ → σ} (h : ∀ s, R s (f s)) : Leads R (modify f : Effect σ ε Unit) := h

theorem leads_get_bind {f : σ → Effect σ ε β} (h : ∀ s, Leads R (f s)) : Leads R (get >>= f) :=
  fun s => h s s

theorem Leads.bind (hR : ∀ s t u, R s t → R t u → R s u) (hx : Leads R x)
    (hf : ∀ a, Leads R (f a)) : Leads R (x >>= f) := by
  intro s
  have h := hx s
  rcases heq : x s with ⟨r, t⟩
  rw [heq] at h
  cases r with
  | ok a =>
    rw [bind_of_ok heq]
    exact hR s t _ h (hf a t)
  | error e =>
    rw [bind_of_error heq]
    exact h

theorem leads_attempt (hx : Leads R x) : Leads R (attempt x) := hx

end Leads

end Effect
