import Xair.OpValue

/-!
# The reference interpreter

A second meaning for modules, in which a value has no storage.  Every activation
of a block starts with an environment that holds the block's parameters and
nothing else, constants are known everywhere, and memory is the executor's own.
The control part and the evaluation of operations are shared with the executor.

`Ready` says that every value the verifier counts as available can be read and
has its type; it holds at the start of a run (`ready_bindParams`) and each
operation and edge of a verified module keeps it (`ready_refOp`, `refTransfer_ok`).
-/

namespace Xair

/-- The environment of the current block activation, and memory. -/
structure RefState where
  env : Nat → Option ExecValue
  mem : ExecMemory

/-- A constant is known everywhere, anything else is looked up. -/
def refRead (m : Module) (s : RefState) (v : Nat) : Except Status ExecValue :=
  if m.valueIsGlobalConst v then .ok (m.constValue v)
  else
    match s.env v with
    | some x => .ok x
    | none => .error .errBadArg

/-- Bind the destination of an operation. -/
def RefState.define (s : RefState) (v : Nat) (x : ExecValue) (mem : ExecMemory) : RefState :=
  ⟨fun u => if u = v then some x else s.env u, mem⟩

/-- Evaluate one operation. -/
def refOp (m : Module) (s : RefState) (op : OpRec) : Status × RefState :=
  match execOpValue (m.valueType op.dst) (refRead m s) s.mem op with
  | .error e => (e, s)
  | .ok (x, mem) => (.ok, s.define op.dst x mem)

/-- The environment that binds a list of parameters and nothing else. -/
def bindParams : List Nat → List ExecValue → Nat → Option ExecValue
  | v :: vs, x :: xs => fun u => if u = v then some x else bindParams vs xs u
  | _, _ => fun _ => none

/-- Take an edge: read the arguments, then start over with the parameters of the
target. -/
def refTransfer (m : Module) (s : RefState) (target : Nat) (args : List Nat) :
    Status × RefState :=
  if !m.validBlock target then (.errBadArg, s)
  else if (m.blockRec target).params.length ≠ args.length then (.errBadArg, s)
  else
    match readAll (refRead m s) args with
    | .error e => (e, s)
    | .ok xs => (.ok, ⟨bindParams (m.blockRec target).params xs, s.mem⟩)

/-- The reference interpreter. -/
def refInterp (m : Module) : Interp RefState := ⟨refOp m, refRead m, refTransfer m⟩

/-- The state a run from `entry` starts in. -/
def refStart (m : Module) (entry : Nat) (args : List ExecValue) (mem : ExecMemory) : RefState :=
  ⟨bindParams (m.blockRec entry).params args, mem⟩

/-- A run of the reference interpreter from block `entry` with arguments `args`. -/
def refRun (m : Module) (entry : Nat) (args : List ExecValue) (mem : ExecMemory) (limit : Nat) :
    RunResult × RefState :=
  if m.validBlock entry = false then (.error .errBadArg, refStart m entry args mem)
  else interpRun (refInterp m) m limit entry (refStart m entry args mem)

/-! ### Lists of values -/

theorem readAll_ok {read : Nat → Except Status ExecValue} {P : Nat → ExecValue → Prop}
    (vs : List Nat) (h : ∀ v ∈ vs, ∃ x, read v = .ok x ∧ P v x) :
    ∃ xs, readAll read vs = .ok xs ∧ List.Forall₂ P vs xs := by
  induction vs with
  | nil => exact ⟨[], rfl, .nil⟩
  | cons v vs ih =>
    obtain ⟨x, hx, hp⟩ := h v (by simp)
    obtain ⟨xs, hxs, hps⟩ := ih fun u hu => h u (by simp [hu])
    exact ⟨x :: xs, by simp [readAll, hx, hxs, Except.map], .cons hp hps⟩

theorem readAll_congr {read read' : Nat → Except Status ExecValue} (vs : List Nat)
    (h : ∀ v ∈ vs, read v = read' v) : readAll read vs = readAll read' vs := by
  induction vs with
  | nil => rfl
  | cons v vs ih => rw [readAll, readAll, h v (by simp), ih fun u hu => h u (by simp [hu])]

theorem readAll_eq_ok {read : Nat → Except Status ExecValue} {vs : List Nat} {xs : List ExecValue}
    (h : readAll read vs = .ok xs) : List.Forall₂ (fun v x => read v = .ok x) vs xs := by
  induction vs generalizing xs with
  | nil => cases h; exact .nil
  | cons v vs ih =>
    rw [readAll] at h
    cases hv : read v with
    | error e => rw [hv] at h; cases h
    | ok x =>
      cases hvs : readAll read vs with
      | error e => rw [hv, hvs] at h; cases h
      | ok ys =>
        rw [hv, hvs] at h
        cases h
        exact .cons hv (ih hvs)

/-- Reading a list fails like reading one of its values. -/
theorem readAll_eq_error {read : Nat → Except Status ExecValue} {vs : List Nat} {e : Status}
    (h : readAll read vs = .error e) : ∃ v ∈ vs, read v = .error e := by
  induction vs with
  | nil => cases h
  | cons v vs ih =>
    rw [readAll] at h
    cases hv : read v with
    | error e' =>
      rw [hv] at h
      cases h
      exact ⟨v, List.mem_cons_self, hv⟩
    | ok x =>
      cases hvs : readAll read vs with
      | error e' =>
        rw [hv, hvs] at h
        cases h
        obtain ⟨u, hu, he⟩ := ih hvs
        exact ⟨u, List.mem_cons_of_mem _ hu, he⟩
      | ok xs =>
        rw [hv, hvs] at h
        cases h

theorem bindParams_some {P : Nat → ExecValue → Prop} {vs : List Nat} {xs : List ExecValue}
    (h : List.Forall₂ P vs xs) {v : Nat} (hv : v ∈ vs) :
    ∃ x, bindParams vs xs v = some x ∧ P v x := by
  induction h with
  | nil => simp at hv
  | @cons u x vs xs hux _ ih =>
    by_cases hvu : v = u
    · subst hvu; exact ⟨x, by simp [bindParams], hux⟩
    · obtain ⟨y, hy, hp⟩ := ih (by simpa [hvu] using hv)
      exact ⟨y, by simp [bindParams, hvu, hy], hp⟩

theorem bindParams_none {vs : List Nat} {v : Nat} (hv : v ∉ vs) (xs : List ExecValue) :
    bindParams vs xs v = none := by
  induction vs generalizing xs with
  | nil => rfl
  | cons u vs ih =>
    cases xs with
    | nil => rfl
    | cons x xs =>
      rw [List.mem_cons, not_or] at hv
      simp [bindParams, hv.1, ih hv.2]

/-! ### Readiness -/

/-- Every available value can be read and has its type. -/
def Ready (m : Module) (read : Nat → Except Status ExecValue) (av : ValueSet) : Prop :=
  ∀ v, m.valueIsAvailable av v = true → ∃ x, read v = .ok x ∧ x.type = m.valueType v

@[simp] theorem Module.constValue_type (m : Module) (v : Nat) :
    (m.constValue v).type = m.valueType v := by
  unfold constValue
  split <;> rfl

theorem refRead_const {m : Module} {v : Nat} (h : m.valueIsGlobalConst v = true) (s : RefState) :
    refRead m s v = .ok (m.constValue v) := by
  simp [refRead, h]

theorem refRead_env {m : Module} {s : RefState} {v : Nat} {x : ExecValue}
    (h : m.valueIsGlobalConst v = false) (hx : s.env v = some x) : refRead m s v = .ok x := by
  simp [refRead, h, hx]

theorem refRead_define {m : Module} {s : RefState} {v : Nat} {x : ExecValue} {mem : ExecMemory}
    {u : Nat} (h : u ≠ v) : refRead m (s.define v x mem) u = refRead m s u := by
  simp [refRead, RefState.define, h]

/-- Marking a destination whose value is bound keeps readiness. -/
theorem Ready.define {m : Module} {s : RefState} {av : ValueSet}
    (h : Ready m (refRead m s) av) {v : Nat} {x : ExecValue} (hx : x.type = m.valueType v)
    (mem : ExecMemory) : Ready m (refRead m (s.define v x mem)) (av.mark v) := by
  intro u hu
  cases hc : m.valueIsGlobalConst u with
  | true => exact ⟨_, refRead_const hc _, m.constValue_type u⟩
  | false =>
    by_cases huv : u = v
    · subst huv
      exact ⟨x, refRead_env hc (by simp [RefState.define]), hx⟩
    · rw [refRead_define huv]
      simp only [Module.valueIsAvailable, ValueSet.mark_apply, hc, Bool.or_false, Bool.and_eq_true,
        Bool.or_eq_true, beq_iff_eq, huv, false_or] at hu
      exact h u (by simp [Module.valueIsAvailable, hu])

/-- The outcome of an operation that the verifier accepts, from a ready state. -/
theorem OpOk.outcome {m : Module} {b o : Nat} {av : ValueSet} (hok : OpOk m b av o)
    {read : Nat → Except Status ExecValue} (h : Ready m read av) (mem : ExecMemory) :
    OpOutcome (m.valueType (m.opRec o).dst) read mem (m.opRec o)
      (execOpValue (m.valueType (m.opRec o).dst) read mem (m.opRec o)) :=
  execOpValue_outcome hok.typed fun s hs => h s (hok.sources s hs)

theorem OpOk.value_type {m : Module} {b o : Nat} {av : ValueSet} (hok : OpOk m b av o)
    {read : Nat → Except Status ExecValue} (h : Ready m read av) {mem mem' : ExecMemory}
    {x : ExecValue} (hx : execOpValue (m.valueType (m.opRec o).dst) read mem (m.opRec o) =
      .ok (x, mem')) : x.type = m.valueType (m.opRec o).dst ∧ x.InRange := by
  have := hok.outcome h mem
  rw [hx] at this
  cases this with
  | ok ht hr => exact ⟨ht, hr⟩

/-- **Operations keep readiness.** -/
theorem ready_refOp {m : Module} {b o : Nat} {av : ValueSet} (hok : OpOk m b av o) {s s' : RefState}
    (h : Ready m (refRead m s) av) (hs : refOp m s (m.opRec o) = (.ok, s')) :
    Ready m (refRead m s') (av.mark (m.opRec o).dst) := by
  have hout := hok.outcome h s.mem
  unfold refOp at hs
  cases hx : execOpValue (m.valueType (m.opRec o).dst) (refRead m s) s.mem (m.opRec o) with
  | error e =>
    rw [hx] at hs hout
    -- a failing operation never reports `ok`
    cases hout <;> simp at hs
  | ok r =>
    obtain ⟨x, mem⟩ := r
    rw [hx] at hs
    cases hs
    exact h.define (hok.value_type h hx).1 mem

/-- The parameters of a block are the only values available at its start. -/
theorem availableAtStart_iff {m : Module} {b v : Nat} :
    m.availableAtStart b v = true ↔ v ∈ (m.blockRec b).params := by
  simp [Module.availableAtStart, ValueSet.markAll_apply]

theorem ready_bindParams {m : Module} {b : Nat} {xs : List ExecValue}
    (h : List.Forall₂ (fun p x => x.type = m.valueType p) (m.blockRec b).params xs)
    (mem : ExecMemory) :
    Ready m (refRead m ⟨bindParams (m.blockRec b).params xs, mem⟩) (m.availableAtStart b) := by
  intro v hv
  cases hc : m.valueIsGlobalConst v with
  | true => exact ⟨_, refRead_const hc _, m.constValue_type v⟩
  | false =>
    simp only [Module.valueIsAvailable, hc, Bool.or_false, Bool.and_eq_true,
      availableAtStart_iff] at hv
    obtain ⟨x, hx, ht⟩ := bindParams_some h hv.2
    exact ⟨x, refRead_env hc hx, ht⟩

/-- An accepted edge can be taken from a ready state. -/
theorem refTransfer_ok {m : Module} {av : ValueSet} {target : Nat} {args : List Nat}
    (hok : EdgeOk m av target args) {s : RefState} (h : Ready m (refRead m s) av) :
    ∃ xs, readAll (refRead m s) args = .ok xs ∧
      List.Forall₂ (fun p x => x.type = m.valueType p) (m.blockRec target).params xs ∧
      refTransfer m s target args = (.ok, ⟨bindParams (m.blockRec target).params xs, s.mem⟩) := by
  have hall := List.forall₂_iff_get.mp hok.args_ok
  obtain ⟨xs, hxs, hty⟩ := readAll_ok (P := fun v x => x.type = m.valueType v) args (by
    intro v hv
    obtain ⟨i, hi, rfl⟩ := List.mem_iff_getElem.mp hv
    exact h _ (hall.2 i hi (by rw [← hall.1]; exact hi)).1)
  refine ⟨xs, hxs, ?_, ?_⟩
  · -- argument, parameter and value in one position share their type
    have hty' := List.forall₂_iff_get.mp hty
    refine List.forall₂_iff_get.mpr ⟨by rw [← hall.1, hty'.1], fun i h1 h2 => ?_⟩
    have hi : i < args.length := by rw [hall.1]; exact h1
    rw [hty'.2 i hi h2, (hall.2 i hi h1).2]
  · simp [refTransfer, Module.validBlock, hok.target_lt, hok.args_ok.length_eq, hxs]

/-- A state in which block `b` can start. -/
def StartsAt (m : Module) (b : Nat) (s : RefState) : Prop :=
  b < m.blocks.length ∧ Ready m (refRead m s) (m.availableAtStart b)

end Xair
