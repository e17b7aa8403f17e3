import Xair.LiftMeaning

/-!
# What the functions of the lifter do

One specification for each function of the lifter.  From a state in order it takes a
bounded number of steps and returns a value that stands for what the instruction
means, or fails because the value ids have run out (`Fails`).  `Quietly` is for the
functions that only build values, `Lifts` for those that also write registers, memory
or the flag.
-/

namespace Xair

open Effect (Ensures)

/-- The lifter fails only when no value id is left. -/
def Fails (n : Nat) (s : LiftState) (e : Status) (s' : LiftState) : Prop :=
  e = .errRange ∧ LiftSteps n s s' ∧ s'.module.values.length = uint32Max

/-- Quiet steps that do not touch memory either. -/
structure Quiet (n : Nat) (s s' : LiftState) : Prop where
  steps : QuietSteps n s s'
  memory : s'.memory = s.memory

/-- At most `n` quiet steps, and `P` of the result. -/
def Quietly {α : Type} (n : Nat) (x : Lift α) (s : LiftState) (P : α → LiftState → Prop) : Prop :=
  Ensures x s (fun a s' => Quiet n s s' ∧ P a s') (Fails n s)

/-- Steps that build at most `n` times, and `P` of the result. -/
def Lifts {α : Type} (n : Nat) (x : Lift α) (s : LiftState) (P : α → LiftState → Prop) : Prop :=
  Ensures x s (fun a s' => LiftSteps n s s' ∧ P a s') (Fails n s)

section Rules

variable {α β : Type} {x : Lift α} {f : α → Lift β} {s : LiftState} {n k : Nat}
  {P : α → LiftState → Prop} {R : β → LiftState → Prop}

theorem Fails.mono {e : Status} {s' : LiftState} (h : Fails n s e s') (hn : n ≤ k) :
    Fails k s e s' := ⟨h.1, h.2.1.mono hn, h.2.2⟩

theorem Fails.after {e : Status} {s' s'' : LiftState} (hs : LiftSteps n s s')
    (h : Fails k s' e s'') : Fails (n + k) s e s'' := ⟨h.1, hs.trans h.2.1, h.2.2⟩

theorem QuietSteps.mono {s' : LiftState} (h : QuietSteps n s s') (hn : n ≤ k) :
    QuietSteps k s s' := by
  induction h generalizing k with
  | refl n s => exact .refl _ _
  | step _ hs ih =>
    obtain ⟨j, rfl⟩ : ∃ j, k = j + 1 := ⟨k - 1, by omega⟩
    exact .step (ih (by omega)) hs

theorem Quiet.trans {s' s'' : LiftState} (h : Quiet n s s') (h' : Quiet k s' s'') :
    Quiet (n + k) s s'' := ⟨h.steps.trans h'.steps, h'.memory.trans h.memory⟩

theorem Quietly.pure {a : α} (h : P a s) : Quietly n (Pure.pure a) s P :=
  ⟨⟨.refl n s, rfl⟩, h⟩

theorem Quietly.mono (h : Quietly n x s P) (hn : n ≤ k) : Quietly k x s P :=
  Ensures.mono h (fun _ _ hq => ⟨⟨hq.1.steps.mono hn, hq.1.memory⟩, hq.2⟩) fun _ _ hf => hf.mono hn

theorem Quietly.bind (h : Quietly n x s P)
    (hf : ∀ a s', Quiet n s s' → P a s' → Quietly k (f a) s' R) :
    Quietly (n + k) (x >>= f) s R := by
  have hx : Ensures x s (fun a s' => Quiet n s s' ∧ P a s') (Fails (n + k) s) :=
    Ensures.mono h (fun _ _ hq => hq) fun _ _ hx => hx.mono (Nat.le_add_right n k)
  refine Ensures.bind hx fun a s' hq => ?_
  exact Ensures.mono (hf a s' hq.1 hq.2) (fun _ _ hr => ⟨hq.1.trans hr.1, hr.2⟩)
    fun _ _ hr => hr.after hq.1.steps.lift

theorem Lifts.mono (h : Lifts n x s P) (hn : n ≤ k) : Lifts k x s P :=
  Ensures.mono h (fun _ _ hq => ⟨hq.1.mono hn, hq.2⟩) fun _ _ hf => hf.mono hn

theorem Lifts.pure {a : α} (h : P a s) : Lifts n (Pure.pure a) s P := ⟨.refl n s, h⟩

theorem Quietly.get {f : LiftState → Lift β} (h : Quietly n (f s) s R) :
    Quietly n (Effect.get >>= f) s R := h

theorem Lifts.get {f : LiftState → Lift β} (h : Lifts n (f s) s R) :
    Lifts n (Effect.get >>= f) s R := h

theorem Lifts.bind (h : Lifts n x s P)
    (hf : ∀ a s', LiftSteps n s s' → P a s' → Lifts k (f a) s' R) :
    Lifts (n + k) (x >>= f) s R := by
  have hx : Ensures x s (fun a s' => LiftSteps n s s' ∧ P a s') (Fails (n + k) s) :=
    Ensures.mono h (fun _ _ hq => hq) fun _ _ hx => hx.mono (Nat.le_add_right n k)
  refine Ensures.bind hx fun a s' hq => ?_
  exact Ensures.mono (hf a s' hq.1 hq.2) (fun _ _ hr => ⟨hq.1.trans hr.1, hr.2⟩)
    fun _ _ hr => hr.after hq.1

/-- Quiet steps, then others. -/
theorem Quietly.bindLifts (h : Quietly n x s P)
    (hf : ∀ a s', Quiet n s s' → P a s' → Lifts k (f a) s' R) :
    Lifts (n + k) (x >>= f) s R := by
  have hx : Lifts n x s fun a s' => Quiet n s s' ∧ P a s' :=
    Ensures.mono h (fun _ _ hq => ⟨hq.1.steps.lift, hq⟩) fun _ _ hf => hf
  exact hx.bind fun a s' _ hq => hf a s' hq.1 hq.2

theorem Lifts.weaken {Q : α → LiftState → Prop} (h : Lifts n x s P)
    (hPQ : ∀ a s', LiftSteps n s s' → P a s' → Q a s') : Lifts n x s Q :=
  Ensures.mono h (fun a s' hq => ⟨hq.1, hPQ a s' hq.1 hq.2⟩) fun _ _ hf => hf

theorem Quietly.weaken {Q : α → LiftState → Prop} (h : Quietly n x s P)
    (hPQ : ∀ a s', Quiet n s s' → P a s' → Q a s') : Quietly n x s Q :=
  Ensures.mono h (fun a s' hq => ⟨hq.1, hPQ a s' hq.1 hq.2⟩) fun _ _ hf => hf

end Rules

/-! ### Keys that run -/

section Keys

variable {m : Module} {b dst : Nat} {t : Ty} {opcode : Opcode} {imm : Word} {endian : Endian}
  {read : Nat → Except Status ExecValue} {mem : ExecMemory}

/-- An opcode with one source does not use memory. -/
theorem not_memoryOp_of_unary (h : opcode.arity = 1) : ¬ opcode.isMemoryOp := by
  rintro (rfl | rfl) <;> cases h

theorem not_memoryOp_of_binary (h : opcode.arity = 2 ∧ opcode ≠ .load) : ¬ opcode.isMemoryOp := by
  rintro (rfl | rfl)
  · exact h.2 rfl
  · cases h.1

/-- What a denotation says of an operation that leaves memory alone. -/
theorem Denotation.Fits.value {ρ : Denotation} {op : OpRec} (h : ρ.Fits m op)
    (hop : ¬ op.opcode.isMemoryOp) (mem : ExecMemory) :
    execOpValue (m.valueType op.dst) (fun v => .ok (ρ.value v)) mem op =
      .ok (ρ.value op.dst, mem) := by
  unfold Denotation.Fits at h
  split at h
  · next heq => exact absurd (.inl heq) hop
  · next heq => exact absurd (.inr heq) hop
  · exact h mem

theorem keyRuns_const : KeyRuns m ⟨b, .constU64, t, [], imm, endian⟩ := by
  intro dst read mem _
  simp [execOpValue]

theorem keyRuns_unary {src : Nat} (hop : opcode.arity = 1)
    (h : ∀ x : ExecValue, x.type = m.valueType src → ∃ y, execUnaryOp opcode t x = .ok y) :
    KeyRuns m ⟨b, opcode, t, [src], imm, endian⟩ := by
  intro dst read mem hread
  obtain ⟨x, hx, ht⟩ := hread src (by simp)
  obtain ⟨y, hy⟩ := h x ht
  have heval : execOpValue t read mem ⟨opcode, dst, [src], endian, imm⟩ =
      (execUnaryOp opcode t x).map (·, mem) := execOpValue_unary hop rfl hx
  dsimp only
  rw [heval, hy]
  simp [Except.map]

theorem keyRuns_binary {l r : Nat} (hop : opcode.arity = 2 ∧ opcode ≠ .load)
    (h : ∀ x y : ExecValue, x.type = m.valueType l → y.type = m.valueType r →
      ∃ z, execBinaryOp opcode t x y = .ok z) :
    KeyRuns m ⟨b, opcode, t, [l, r], imm, endian⟩ := by
  intro dst read mem hread
  obtain ⟨x, hx, hxt⟩ := hread l (by simp)
  obtain ⟨y, hy, hyt⟩ := hread r (by simp)
  obtain ⟨z, hz⟩ := h x y hxt hyt
  have heval : execOpValue t read mem ⟨opcode, dst, [l, r], endian, imm⟩ =
      (execBinaryOp opcode t x y).map (·, mem) := execOpValue_binary hop.1 hop.2 rfl hx hy
  dsimp only
  rw [heval, hz]
  simp [Except.map]

theorem execByteSizedScalar_word (arch : Arch) {t : Ty}
    (ht : t = typeI arch.bits ∨ t = typeAddr arch.bits) :
    execByteSizedScalar t = some arch.bytes := by
  rcases ht with rfl | rfl <;> cases arch <;> decide

theorem keyRuns_load (arch : Arch) {l r : Nat} :
    KeyRuns m ⟨b, .load, typeI arch.bits, [l, r], imm, endian⟩ := by
  intro dst read mem hread
  obtain ⟨x, hx, -⟩ := hread l (by simp)
  obtain ⟨y, hy, -⟩ := hread r (by simp)
  have hsize := execByteSizedScalar_word arch (.inl rfl)
  simp only [execOpValue, execMemoryOp, OpRec.srcAt, List.getD_cons_zero, List.getD_cons_succ, hx,
    hy, hsize]
  simp only [reduceCtorEq, if_false, true_or, if_true]
  split
  · simp
  · unfold execLoadU64
    rw [if_neg (by cases arch <;> decide)]
    cases hl : execLoadBytes mem.pages x.type.aux y.lo arch.bytes with
    | ok bytes => simp
    | error e =>
      have he : e = .errBadArg ∨ e = .errRange := by
        unfold execLoadBytes at hl
        split at hl
        · cases hl
          exact .inl rfl
        · exact .inr (execLoadBytesFrom_error _ _ hl).1
      rcases he with rfl | rfl <;> simp

theorem keyRuns_store (arch : Arch) {a l r : Nat} (hr : m.valueType r = typeI arch.bits) :
    KeyRuns m ⟨b, .store, t, [a, l, r], imm, endian⟩ := by
  intro dst read mem hread
  obtain ⟨x, hx, -⟩ := hread a (by simp)
  obtain ⟨y, hy, -⟩ := hread l (by simp)
  obtain ⟨z, hz, hzt⟩ := hread r (by simp)
  have hsize := execByteSizedScalar_word arch (t := z.type) (.inl (hzt.trans hr))
  simp only [execOpValue, execMemoryOp, OpRec.srcAt, List.getD_cons_zero, List.getD_cons_succ, hx,
    hy, hz, hsize]
  simp only [reduceCtorEq, if_false, or_true, if_true]
  split
  · simp
  · unfold execStoreU64 execStoreBytes
    rw [if_neg (by cases arch <;> decide)]
    split
    · next e he =>
      split at he
      · cases he
        simp
      · cases he
    · simp

end Keys

/-! ### Building an operation -/

section Build

variable {s : LiftState} {k : OpKey} {v : Nat}

theorem build_of_ok {α : Type} {call : Module → Module × Except Status α} {m' : Module} {a : α}
    (h : call s.module = (m', .ok a)) : build call s = (.ok a, { s with module := m' }) := by
  rw [build, h]

theorem build_of_error {α : Type} {call : Module → Module × Except Status α} {m' : Module}
    {e : Status} (h : call s.module = (m', .error e)) :
    build call s = (.error e, { s with module := m' }) := by
  rw [build, h]

/-- A building call of the lifter on a key that the verifier accepts. -/
theorem build_addOp (h : LiftInv s) (call : Module → Module × Except Status Nat) {name : Name}
    (hcall : call s.module = addOp s.module k (some name)) (hblock : k.block = s.block)
    (ht : k.type.isValueType = true) (hs : ∀ src ∈ k.srcs, s.module.Usable s.block src)
    (htyped : typeRule k.opcode k.type (k.srcs.map s.module.valueType) = true)
    (hl : k.srcs.length ≤ 3) :
    (∃ v m', build call s = (.ok v, { s with module := m' }) ∧ OpAdded k s.module v m') ∨
      ∃ s', build call s = (.error .errRange, s') ∧ Fails 1 s .errRange s' := by
  have hfr : ∀ m', addOp s.module k (some name) = m' → m'.1.frozen = s.module.frozen := by
    rintro _ rfl
    exact frozen_addOp _ _ _
  rcases addOp_draft h.draft hblock ht hs htyped hl (some name) with
    ⟨v, m', he, ha⟩ | ⟨m', he, hfull, -, hc⟩
  · exact .inl ⟨v, m', build_of_ok (hcall.trans he), ha⟩
  · have hframe : m'.frozen = s.module.frozen := hfr _ he
    refine .inr ⟨_, build_of_error (hcall.trans he), rfl, ?_, ?_⟩
    · exact .build (.refl 0 s) (.quiet (.same hc hframe))
    · show m'.values.length = _
      rw [hc.values]
      exact hfull

/-- A building call that leaves memory alone. -/
theorem build_quietly (h : LiftInv s) {call : Module → Module × Except Status Nat} {name : Name}
    (hcall : call s.module = addOp s.module k (some name)) (hblock : k.block = s.block)
    (ht : k.type.isValueType = true) (hs : ∀ src ∈ k.srcs, s.module.Usable s.block src)
    (htyped : typeRule k.opcode k.type (k.srcs.map s.module.valueType) = true)
    (hl : k.srcs.length ≤ 3) (hop : ¬ k.opcode.isMemoryOp) (hruns : KeyRuns s.module k) :
    Quietly 1 (build call) s fun v s' => s'.module.Computes v k ∧ s'.block = s.block := by
  rcases build_addOp h call hcall hblock ht hs htyped hl with ⟨v, m', he, ha⟩ | ⟨s', he, hf⟩
  · refine Effect.ensures_of_ok he ⟨⟨?_, rfl⟩, ha.computes, rfl⟩
    exact .step (.refl 0 s) (.op hblock hop hruns ha)
  · exact Effect.ensures_of_error he hf

theorem hasValue_of_computes (h : LiftInv s) (hc : s.module.Computes v k)
    (hblock : k.block = s.block) : s.HasValue v k.type :=
  ⟨hc.usable h.draft.wf h.draft.isOpen.1 hblock, hc.type h.draft.wf⟩

variable {arch : Arch} {F : Module} {ρ : Denotation} {M₀ : X86Machine arch}

theorem Completes.computes (hm : Completes F ρ M₀ s) (h : LiftInv s) (hc : s.module.Computes v k) :
    F.Computes v k := hc.grows h.draft.wf hm.wf hm.extends_.grows

theorem Completes.type (hm : Completes F ρ M₀ s) (h : LiftInv s) (hc : s.module.Computes v k) :
    F.valueType v = k.type := (hm.computes h hc).type hm.wf

theorem Completes.fits (hm : Completes F ρ M₀ s) (h : LiftInv s) (hc : s.module.Computes v k)
    (hk : k.opcode ≠ .constU64) (hblock : k.block = s.block) :
    ρ.Fits F ⟨k.opcode, v, k.srcs, k.endian, k.imm⟩ := by
  have hb : s.block < F.blocks.length := by
    rw [hm.extends_.blocks]
    exact h.draft.isOpen.1
  exact hm.denotes.fits hm.wf hb (hm.computes h hc) hk hblock

/-- The value of an operation with one source. -/
theorem Completes.unary (hm : Completes F ρ M₀ s) (h : LiftInv s) {b src : Nat} {opcode : Opcode}
    {t : Ty} (hc : s.module.Computes v ⟨b, opcode, t, [src], 0#64, .le⟩) (hb : b = s.block)
    (hop : opcode.arity = 1) : execUnaryOp opcode t (ρ.value src) = .ok (ρ.value v) := by
  have hne : opcode ≠ .constU64 := fun heq => by rw [heq] at hop; cases hop
  have hfit := hm.fits h hc hne hb
  have htype := hm.type h hc
  dsimp only at hfit htype
  have heval := hfit.value (not_memoryOp_of_unary hop) ⟨[], 0#64⟩
  rw [htype, execOpValue_unary hop rfl rfl] at heval
  change (execUnaryOp opcode t (ρ.value src)).map _ = _ at heval
  cases hr : execUnaryOp opcode t (ρ.value src) with
  | error e =>
    rw [hr] at heval
    cases heval
  | ok x =>
    rw [hr] at heval
    cases heval
    rfl

/-- The value of an operation with two sources. -/
theorem Completes.binary (hm : Completes F ρ M₀ s) (h : LiftInv s) {b l r : Nat} {opcode : Opcode}
    {t : Ty} (hc : s.module.Computes v ⟨b, opcode, t, [l, r], 0#64, .le⟩) (hb : b = s.block)
    (hop : opcode.arity = 2 ∧ opcode ≠ .load) :
    execBinaryOp opcode t (ρ.value l) (ρ.value r) = .ok (ρ.value v) := by
  have hne : opcode ≠ .constU64 := fun heq => by rw [heq] at hop; cases hop.1
  have hfit := hm.fits h hc hne hb
  have htype := hm.type h hc
  dsimp only at hfit htype
  have heval := hfit.value (not_memoryOp_of_binary hop) ⟨[], 0#64⟩
  rw [htype, execOpValue_binary hop.1 hop.2 rfl rfl rfl] at heval
  change (execBinaryOp opcode t (ρ.value l) (ρ.value r)).map _ = _ at heval
  cases hr : execBinaryOp opcode t (ρ.value l) (ρ.value r) with
  | error e =>
    rw [hr] at heval
    cases heval
  | ok x =>
    rw [hr] at heval
    cases heval
    rfl

end Build

end Xair
