import Xair.LiftRuns
import Xair.Soundness

/-!
# Lifted blocks execute

A run of a lifted block whose inputs are set and whose accesses go well halts at the
return of the block, unless more values are returned than a result of the executor can
hold.  How many they are can be counted from the instruction stream
(`streamReturns`): the lift has room for a token, every register and a condition, and
the executor for `execMaxReturns` values.
-/

namespace Xair

open BoundedRun (Reaches)

variable {m m₁ : Module} {b : Nat} {image : Image} {options : LiftOptions} {t s' : LiftState}
  {r : LiftResult}

/-- A lift that succeeds: it creates block `b`, which makes `m` into `m₁`, gets to the end
of the stream in `t` and finishes in `s'`. -/
structure LiftedFrom (m : Module) (image : Image) (options : LiftOptions) (b : Nat) (m₁ : Module)
    (t : LiftState) (r : LiftResult) (s' : LiftState) : Prop where
  out : liftBasicBlock m image options = ⟨.ok, s'.module, s'.result⟩
  created : BlockCreated m b m₁
  ends : LiftEnds options.arch (options.stream image).1 (options.stream image).2
    (liftStart m₁ options b true) t r s'

/-- A lift that returns `XAIR_OK` has created a block and got to the end of its loop. -/
theorem liftBasicBlock_run (h : m.Reachable)
    (hok : (liftBasicBlock m image options).status = .ok) :
    ∃ b m₁ s', blockCreate m (some (liftBlockName options)) = (m₁, .ok b) ∧ BlockCreated m b m₁ ∧
      x86LiftLoop image options.limit (liftStart m₁ options b true) = (.ok (), s') ∧
      liftBasicBlock m image options = ⟨.ok, s'.module, s'.result⟩ := by
  generalize hout : liftBasicBlock m image options = out at hok
  have hrun := hout
  unfold liftBasicBlock at hrun
  cases hoff : imageOffset image options.address with
  | none =>
    rw [hoff] at hrun
    cases hrun
    cases hok
  | some offset =>
    rw [hoff] at hrun
    have hf : m.frozen = false := by
      by_contra hc
      rw [Bool.not_eq_false] at hc
      rw [blockCreate, if_pos hc] at hrun
      cases hrun
      cases hok
    rcases blockCreate_draft (wf_reachable h) hf (some (liftBlockName options)) with
      ⟨b, m₁, hcreate, hb⟩ | ⟨hcreate, -⟩ <;> rw [hcreate] at hrun
    · change liftFrom image options (liftStart m₁ options b true) = out at hrun
      unfold liftFrom at hrun
      rcases hx : x86LiftLoop image options.limit (liftStart m₁ options b true) with ⟨e | ⟨⟩, s'⟩
      · rw [hx] at hrun
        -- a failing loop returns the error it met, which is not `XAIR_OK`
        obtain ⟨rfl, -⟩ := (x86LiftLoop_lifts image options.limit
          (lifting_start hb.draft options true)).error hx
        rw [← hrun] at hok
        cases hok
      · rw [hx] at hrun
        exact ⟨b, m₁, s', hcreate, hb, hx, hrun.symm⟩
    · cases hrun
      cases hok

/-- A lift that returns `XAIR_OK` has succeeded. -/
theorem liftBasicBlock_ok (h : m.Reachable)
    (hok : (liftBasicBlock m image options).status = .ok) :
    ∃ b m₁ t r s', LiftedFrom m image options b m₁ t r s' := by
  obtain ⟨b, m₁, s', -, hb, hx, hout⟩ := liftBasicBlock_run h hok
  obtain ⟨-, t, r, hl⟩ := (x86LiftLoop_lifts image options.limit
    (lifting_start hb.draft options true)).ok hx
  exact ⟨b, m₁, t, r, s', hout, hb, hl⟩

/-! ### The finished block -/

namespace LiftedFrom

variable (h : LiftedFrom m image options b m₁ t r s')
include h

theorem frame : LiftFrame (liftStart m₁ options b true) t := h.ends.steps.frame h.created.draft

theorem lifting : Lifting options.arch t :=
  (lifting_start h.created.draft options true).lift h.ends.steps

theorem block_eq : t.block = b := h.frame.block

theorem result_block : s'.result.block = some b := by
  rw [h.ends.finished.result]
  exact h.ends.ends.block.trans h.frame.resultBlock

theorem inputRegs : s'.result.inputRegs = t.result.inputRegs := by
  rw [h.ends.finished.result]
  exact h.ends.ends.inputs

theorem memoryIn : s'.result.memoryIn = t.result.memoryIn := by
  rw [h.ends.finished.result]
  exact h.ends.ends.memoryIn

theorem returnValues : s'.result.returnValues = ({ t with result := r } : LiftState).returns := by
  rw [h.ends.finished.result]
  rfl

theorem returned : Returned b s'.result.returnValues t.module s'.module := by
  have hclosed := h.ends.finished.closed h.frame.emit
  rw [h.returnValues, ← h.block_eq]
  exact hclosed

theorem runnable : Runnable t := by
  have hstart := lifting_start h.created.draft options true
  refine h.ends.steps.runnable hstart.inv ?_
  have hrec : m₁.blockRec b = ⟨(m₁.blockRec b).name, [], [], TermRec.empty .none⟩ := by
    obtain ⟨name, rfl⟩ := h.created.change
    rw [h.created.block, m.blockRec_withBlock, if_neg (Nat.lt_irrefl _), if_pos rfl]
  have hparams : (m₁.blockRec b).params = [] := by rw [hrec]
  have hops : (m₁.blockRec b).ops = [] := by rw [hrec]
  refine ⟨?_, ?_, ?_, ?_, ?_, ?_, ?_⟩
  · show ∀ v ∈ (m₁.blockRec b).params, _
    rw [hparams]
    intro v hv
    cases hv
  · intro p hp
    cases hp
  · intro v hv
    cases hv
  · show ∀ o ∈ (m₁.blockRec b).ops, _
    rw [hops]
    intro o ho
    cases ho
  · show m₁.TokensOk none (m₁.blockRec b).ops
    rw [hops]
    trivial
  · show ∀ o ∈ (m₁.blockRec b).ops, _
    rw [hops]
    intro o ho
    cases ho
  · show m₁.tokenAfter none (m₁.blockRec b).ops = none
    rw [hops]
    rfl

theorem opRuns (o : Nat) (ho : o ∈ (s'.module.blockRec b).ops) :
    OpRuns s'.module (s'.module.opRec o) := by
  have hret := h.returned
  have hwf := h.lifting.inv.draft.wf
  have hlt := h.lifting.inv.draft.isOpen.1
  rw [hret.ops, ← h.block_eq] at ho
  exact (h.runnable.runs o ho).grows hwf hret.extends_.grows ((hwf.block_ops _ hlt o).mp ho).1

/-- The parameters of the finished block are the inputs. -/
theorem params_set {s : ExecState} (hregs : ∀ p ∈ s'.result.inputRegs, s.defined p.2 = true)
    (hmem : ∀ v, s'.result.memoryIn = some v → s.defined v = true) :
    ∀ v ∈ (s'.module.blockRec b).params, s.defined v = true := by
  intro v hv
  rw [h.returned.params, ← h.block_eq] at hv
  rcases h.runnable.params v hv with ⟨p, hp, rfl⟩ | hm
  · exact hregs p (h.inputRegs ▸ hp)
  · exact hmem v (h.memoryIn.trans hm)

/-- **A run of the finished block** in which no operation fails. -/
theorem execRun_returns {s : ExecState} (hs : s.Ok s'.module)
    (hregs : ∀ p ∈ s'.result.inputRegs, s.defined p.2 = true)
    (hmem : ∀ v, s'.result.memoryIn = some v → s.defined v = true)
    {P : List Nat → RefState → Prop}
    (hp : P [] (refStart s'.module b ((s'.module.blockRec b).params.map s.values) s.mem))
    (hgo : Carries s'.module b s P) {limit : Nat} (hlimit : 1 ≤ limit) :
    RunReturns s'.module b P (execRun s'.module b s limit) := by
  have hret := h.returned
  have hlt := h.lifting.inv.draft.isOpen.1
  rw [h.block_eq, ← hret.extends_.blocks] at hlt
  exact Xair.execRun_returns hret.wf hlt hret.blockOk hret.kind hs (h.params_set hregs hmem) hp hgo
    hlimit

end LiftedFrom

/-! ### How many values are returned -/

/-- How many values the block of a stream returns: the memory it touches, the registers it
writes, the condition it tests. -/
def streamReturns (st : List (X86DecodedInst × Word) × StreamEnd) : Nat :=
  (if st.1.any fun i => i.1.touchesMemory then 1 else 0) +
    (List.range x86RegCount).countP (fun r => st.1.any fun i => i.1.writes r) +
    (if st.2.tests.isSome && st.1.any fun i => i.1.mnemonic.isAlu then 1 else 0)

theorem LiftState.length_outputs (s : LiftState) :
    s.outputs.length = (List.range x86RegCount).countP s.writtenRegs := by
  rw [LiftState.outputs, List.length_filterMap_eq_countP]
  apply List.countP_congr
  intro reg _
  unfold LiftState.output
  split <;> simp [*]

theorem Option.length_toList_eq {α : Type} (o : Option α) :
    o.toList.length = if o.isSome then 1 else 0 := by
  cases o <;> rfl

/-- The condition is returned when the stream tests the flag and has set it. -/
theorem EndCondition.isSome_condition {arch : Arch} {stop : StreamEnd}
    (h : EndCondition arch stop t r) :
    ({ t with result := r } : LiftState).condition.isSome = (stop.tests.isSome && t.zf.isSome) := by
  cases h with
  | tested ht hz hk hb _ =>
    simp only [LiftState.condition, hk, hb, ht, hz, Option.isSome_some, Bool.and_self]
  | untested hn hk hb =>
    have hnone : ({ t with result := r } : LiftState).condition = none := by
      unfold LiftState.condition
      split
      · exact hb
      · rfl
    rw [hnone]
    rcases hn with hn | hn <;> simp [hn]

/-- **The returned values are counted by the stream.** -/
theorem LiftedFrom.length_returns (h : LiftedFrom m image options b m₁ t r s') :
    s'.result.returnValues.length = streamReturns (options.stream image) := by
  have hn := h.ends.notes
  have hmem : t.memory.isSome = (options.stream image).1.any fun i => i.1.touchesMemory := by
    rw [hn.memory]
    rfl
  have hregs : t.writtenRegs = fun reg => (options.stream image).1.any fun i => i.1.writes reg := by
    funext reg
    rw [hn.written]
    rfl
  have hzf : t.zf.isSome = (options.stream image).1.any fun i => i.1.mnemonic.isAlu := by
    rw [hn.zf]
    rfl
  rw [h.returnValues, LiftState.returns, List.length_append, List.length_append, List.length_map,
    Option.length_toList_eq, Option.length_toList_eq, LiftState.length_outputs,
    h.ends.ends.condition.isSome_condition, hzf]
  show (if t.memory.isSome = true then 1 else 0) + (List.range x86RegCount).countP t.writtenRegs + _
    = _
  rw [hmem, hregs]
  rfl

/-! ### Runs that go well -/

/-- The registers and the memory that a lifted block reads are set. -/
def LiftResult.InputsSet (r : LiftResult) (s : ExecState) : Prop :=
  (∀ p ∈ r.inputRegs, s.defined p.2 = true) ∧ ∀ v, r.memoryIn = some v → s.defined v = true

/-- No access of the run wraps, and every byte that it loads is defined. -/
def AccessesDefined (m : Module) (entry : Nat) (s : ExecState) (limit : Nat) : Prop :=
  ∀ b o t, ReachesOp m entry s limit b o t →
    ¬ AccessWraps (m.valueType (m.opRec o).dst) (execReadValue m t) (m.opRec o) ∧
    ¬ LoadsUndefined (m.valueType (m.opRec o).dst) (execReadValue m t) t.mem.pages (m.opRec o)

/-- The run halts at a return of `n` values. -/
def ReturnsValues (n : Nat) (out : RunResult × ExecState) : Prop :=
  ∃ res, out.1 = .ok res ∧ res.kind = .ret ∧ res.returns.length = n

/-- Without loads and stores there is nothing to go wrong. -/
theorem accessesDefined_of_no_memoryOp {entry limit : Nat} {s : ExecState}
    (h : ∀ op ∈ m.ops, ¬ op.opcode.isMemoryOp) : AccessesDefined m entry s limit := by
  have hall : ∀ o, ¬ (m.opRec o).opcode.isMemoryOp := by
    intro o
    by_cases ho : o < m.ops.length
    · refine h _ ?_
      rw [Module.opRec, List.getD_eq_getElem _ _ ho]
      exact List.getElem_mem ho
    · rw [Module.opRec, List.getD_eq_default _ _ (Nat.not_lt.mp ho)]
      decide
  intro b o t _
  refine ⟨?_, ?_⟩
  · rintro ⟨address, size, -, hsize, -⟩
    exact hall o (accessSize_memoryOp hsize)
  · rintro ⟨hload, -⟩
    exact hall o (.inl hload)

/-- Every state of the executor belongs to a module that passes the verifier. -/
theorem ExecState.Reachable.verified {s : ExecState} (h : s.Reachable m) : m.Verified := by
  induction h with
  | create hc =>
    unfold execStateCreate at hc
    split at hc
    · cases hc
    · next hv => exact hv
  | setParam _ _ _ ih => exact ih
  | storeBytes _ _ _ _ ih => exact ih
  | run _ _ _ ih => exact ih

/-- No operation fails in a run whose accesses are defined. -/
theorem LiftedFrom.carries (h : LiftedFrom m image options b m₁ t r s') {s : ExecState}
    {limit : Nat} (hlimit : 1 ≤ limit) (hgo : AccessesDefined s'.module b s limit) :
    Carries s'.module b s fun _ _ => True := by
  intro pre o post u r' hsplit hpre hm hr _
  have hmem : o ∈ (s'.module.blockRec b).ops := by
    rw [hsplit]
    simp
  have hok : OpOk s'.module b (s'.module.availableAfter b pre) o := by
    have hops := h.returned.blockOk.ops
    rw [hsplit] at hops
    exact (opsOk_split pre hops).1
  obtain ⟨hwrap, hund⟩ := hgo b o u ⟨0, hlimit, s, .refl _, pre, post, hsplit, hpre⟩
  have hready := hm.ready hr
  have hout := hok.outcome hready u.mem
  have hruns := h.opRuns o hmem _ u.mem fun v hv => hready v (hok.sources v hv)
  rw [hm.opValue hok hr] at hout hruns
  generalize execOpValue (s'.module.valueType (s'.module.opRec o).dst) (refRead s'.module r') r'.mem
    (s'.module.opRec o) = x at hout hruns
  cases hout with
  | ok _ _ => exact ⟨_, _, rfl, trivial⟩
  | unsupported => exact absurd rfl hruns
  | wraps hw => exact absurd hw hwrap
  | undefinedByte hu => exact absurd hu hund

/-- **Lifted blocks execute** exactly when they return no more values than a result of the
executor holds. -/
theorem lift_executes_iff (h : m.Reachable) (image : Image) (options : LiftOptions)
    (hok : (liftBasicBlock m image options).status = .ok) {b : Nat}
    (hb : (liftBasicBlock m image options).result.block = some b) {s : ExecState}
    (hs : s.Reachable (liftBasicBlock m image options).module)
    (hset : (liftBasicBlock m image options).result.InputsSet s) {limit : Nat} (hlimit : 1 ≤ limit)
    (hgo : AccessesDefined (liftBasicBlock m image options).module b s limit) :
    ReturnsValues (liftBasicBlock m image options).result.returnValues.length
        (execRun (liftBasicBlock m image options).module b s limit) ↔
      streamReturns (options.stream image) ≤ execMaxReturns := by
  obtain ⟨c, m₁, t, r, s', hl⟩ := liftBasicBlock_ok h hok
  rw [hl.out] at hb hs hset hgo ⊢
  dsimp only at hb hs hset hgo ⊢
  obtain rfl : c = b := by
    rw [hl.result_block] at hb
    cases hb
    rfl
  obtain ⟨r', values, -, -, -, hvalues, hrun⟩ := hl.execRun_returns (hs.ok hl.returned.wf) hset.1
    hset.2 trivial (hl.carries hlimit hgo) hlimit
  rw [hl.returned.args] at hvalues
  rw [hl.returned.count] at hrun
  rw [← hl.length_returns]
  unfold ReturnsValues
  rw [hrun]
  constructor
  · rintro ⟨res, hres, -⟩
    by_contra hlt
    rw [if_pos (Nat.lt_of_not_le hlt)] at hres
    cases hres
  · intro hle
    rw [if_neg (Nat.not_lt.mpr hle)]
    exact ⟨_, rfl, rfl, hvalues.length_eq.symm⟩

/-- The module of `add rax, rbx; ret`. -/
def addRetModule : Module := (liftBasicBlock Module.create addRetImage addRetOptions).module

/-- `rax` and `rbx` set. -/
def addRetState : ExecState :=
  (execSetParam addRetModule
    (execSetParam addRetModule (freshState addRetModule) 0 (execI 64 40#64)).2 1 (execI 64 2#64)).2

theorem addRetState_reachable : addRetState.Reachable addRetModule :=
  .setParam _ _ (.setParam _ _ (.create (execStateCreate_ok (by decide +kernel))))

theorem lift_executes_iff_addRet :
    ReturnsValues 1 (execRun addRetModule 0 addRetState 1) :=
  (lift_executes_iff ⟨[], rfl⟩ addRetImage addRetOptions (by decide +kernel) (by decide +kernel)
    addRetState_reachable ⟨by decide +kernel, by decide +kernel⟩ (Nat.le_refl 1)
    (accessesDefined_of_no_memoryOp (by decide +kernel))).mpr (by decide +kernel)

/-- `mov` from `rax` to nine other registers, and `ret`. -/
def nineMovesImage : Image :=
  ⟨[0x48#8, 0x89#8, 0xc1#8, 0x48#8, 0x89#8, 0xc2#8, 0x48#8, 0x89#8, 0xc3#8,
    0x48#8, 0x89#8, 0xc5#8, 0x48#8, 0x89#8, 0xc6#8, 0x48#8, 0x89#8, 0xc7#8,
    0x49#8, 0x89#8, 0xc0#8, 0x49#8, 0x89#8, 0xc1#8, 0x49#8, 0x89#8, 0xc2#8, 0xc3#8], 0x1000#64⟩

def nineMovesOptions : LiftOptions := ⟨.x8664, 0x1000#64, 0, 32, none⟩

/-- The module of the nine moves. -/
def nineMovesModule : Module :=
  (liftBasicBlock Module.create nineMovesImage nineMovesOptions).module

/-- `rax` set. -/
def nineMovesState : ExecState :=
  (execSetParam nineMovesModule (freshState nineMovesModule) 0 (execI 64 7#64)).2

/-- Nine registers are written, and the run of the lifted block fails. -/
theorem nineMoves_not_executed :
    (liftBasicBlock Module.create nineMovesImage nineMovesOptions).status = .ok ∧
      (liftBasicBlock Module.create nineMovesImage nineMovesOptions).result.block = some 0 ∧
      nineMovesState.Reachable nineMovesModule ∧
      (liftBasicBlock Module.create nineMovesImage nineMovesOptions).result.InputsSet
        nineMovesState ∧
      AccessesDefined nineMovesModule 0 nineMovesState 1 ∧
      (execRun nineMovesModule 0 nineMovesState 1).1 = .error .errRange := by
  refine ⟨by decide +kernel, by decide +kernel, ?_, ⟨by decide +kernel, by decide +kernel⟩, ?_,
    by decide +kernel⟩
  · exact .setParam _ _ (.create (execStateCreate_ok (by decide +kernel)))
  · exact accessesDefined_of_no_memoryOp (by decide +kernel)

end Xair
