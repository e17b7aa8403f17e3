import Xair.LiftRecord
import Xair.StackMachine

/-!
# The values of a stack program

Building an operation may find one that was built before (`OpBuilt`), so it need not use up a
value id.  The operations of a lifted `push` or `pop` that start from the stack pointer or
from the memory token are always new, because the pointer and the token are new themselves
(`StackReady`): a `push` builds three values or more, a `pop` one or more.  A lift has
`2 ^ 32 - 1` value ids, hence a balanced sequence that is lifted always fits the address space
(`balanced_fits`).
-/

namespace Xair

open Effect (Ensures)

/-! ### Operations that are built -/

/-- No operation with the opcode has the value as its first source. -/
def Module.Unused (m : Module) (opcode : Opcode) (v : Nat) : Prop :=
  ∀ o < m.ops.length, (m.opRec o).opcode = opcode → (m.opRec o).src.head? ≠ some v

/-- What a successful call of the builder has done: it has found an operation, or added one. -/
inductive OpBuilt (k : OpKey) (m : Module) (v : Nat) (m' : Module) : Prop
  | found (o : Nat) : o < m.ops.length → (m.opRec o).opcode = k.opcode →
      (m.opRec o).src = k.srcs → SameCore m m' → OpBuilt k m v m'
  | added (name : Name) : (∀ u ∈ k.srcs, u < m.values.length) → v = m.values.length →
      SameCore (m.withOp k name) m' → OpBuilt k m v m'

section Built

variable {m m' : Module} {k : OpKey} {v : Nat}

theorem opBuilt_addOp (h : m.WF) (hs : ∀ u ∈ k.srcs, u < m.values.length) {name : Option Name}
    (he : addOp m k name = (m', .ok v)) : m'.WF ∧ OpBuilt k m v m' := by
  have hwf : (addOp m k name).1.WF := wf_buildStep h (buildStep_addOp hs name)
  rw [he] at hwf
  refine ⟨hwf, ?_⟩
  rcases addOp_cases m k name with
    ⟨-, e, he'⟩ | ⟨-, -, hc, u, -, hmatch, -⟩ | ⟨-, -, -, -, -, -, -, hc, he'⟩
  · rw [he] at he'
    cases he'
  · rw [he] at hc
    obtain ⟨o, ho, -, hsame⟩ := (valueNumberMatches_iff h).mp hmatch
    exact .found o ho hsame.opcode hsame.srcs hc
  · rw [he] at hc he'
    cases he'
    exact .added _ hs rfl hc

/-- A value that does not exist yet is not used. -/
theorem unused_of_le (h : m.WF) (hv : m.values.length ≤ v) (opcode : Opcode) :
    m.Unused opcode v := by
  intro o ho _ hsrc
  have hlt := h.op_src o ho v (List.mem_of_mem_head? hsrc)
  omega

theorem Module.Unused.congr {opcode : Opcode} (h : m.Unused opcode v) (hc : SameCore m m') :
    m'.Unused opcode v := by
  intro o ho hop
  rw [hc.ops] at ho
  rw [hc.opRec] at hop ⊢
  exact h o ho hop

/-- An operation uses its first source. -/
theorem Module.Unused.withOp {opcode : Opcode} (h : m.Unused opcode v)
    (hk : k.opcode = opcode → k.srcs.head? ≠ some v) (name : Name) :
    (m.withOp k name).Unused opcode v := by
  intro o ho hop
  have hlen : (m.withOp k name).ops.length = m.ops.length + 1 := by simp [Module.withOp]
  by_cases hold : o < m.ops.length
  · rw [Module.withOp_oldOp hold] at hop ⊢
    exact h o hold hop
  · rw [m.opRec_withOp, if_neg hold, if_pos (by omega)] at hop ⊢
    exact hk hop

theorem OpBuilt.values_le (h : OpBuilt k m v m') : m.values.length ≤ m'.values.length := by
  cases h with
  | found o ho hop hsrc hc => rw [hc.values]
  | added name hs hv hc =>
    rw [hc.values]
    simp [Module.withOp]

/-- Building keeps values unused by other opcodes. -/
theorem OpBuilt.unused (h : OpBuilt k m v m') {opcode : Opcode} (hne : opcode ≠ k.opcode) {u : Nat}
    (hu : m.Unused opcode u) : m'.Unused opcode u := by
  cases h with
  | found o ho hop hsrc hc => exact hu.congr hc
  | added name hs hv hc => exact (hu.withOp (fun he => absurd he.symm hne) name).congr hc

/-- **An operation on an unused value is new**, and so is its result. -/
theorem OpBuilt.fresh (h : OpBuilt k m v m') (hwf : m.WF) {u : Nat} (hk : k.srcs.head? = some u)
    (hu : m.Unused k.opcode u) :
    m.values.length + 1 ≤ m'.values.length ∧ ∀ opcode, m'.Unused opcode v := by
  cases h with
  | found o ho hop hsrc hc =>
    rw [← hsrc] at hk
    exact absurd hk (hu o ho hop)
  | added name hs hv hc =>
    refine ⟨?_, fun opcode => ?_⟩
    · rw [hc.values]
      simp [Module.withOp]
    · refine ((unused_of_le hwf hv.ge opcode).withOp (fun _ hsrc => ?_) name).congr hc
      have hlt := hs v (List.mem_of_mem_head? hsrc)
      omega

end Built

/-- From `m` to `m'` at least `n` values have been added, and values stay unused by the
opcodes that are not in `used`. -/
structure Adds (n : Nat) (used : List Opcode) (m m' : Module) : Prop where
  wf : m'.WF
  values : m.values.length + n ≤ m'.values.length
  unused : ∀ opcode, opcode ∉ used → ∀ v, m.Unused opcode v → m'.Unused opcode v

theorem Adds.trans {n k : Nat} {used used' : List Opcode} {m m' m'' : Module}
    (h : Adds n used m m') (h' : Adds k used' m' m'') : Adds (n + k) (used ++ used') m m'' := by
  refine ⟨h'.wf, ?_, fun opcode hnot v hv => ?_⟩
  · have h₁ := h.values
    have h₂ := h'.values
    omega
  · rw [List.mem_append, not_or] at hnot
    exact h'.unused opcode hnot.2 v (h.unused opcode hnot.1 v hv)

/-! ### The lifter -/

section Ready

variable {s : LiftState}

/-- A call of the builder on the module of the state that fails or adds an operation. -/
theorem build_built (h : s.module.WF) (k : OpKey) (name : Option Name)
    {call : Module → Module × Except Status Nat}
    (hcall : (∃ e, (call s.module).2 = .error e) ∨
      (call s.module = addOp s.module k name ∧ ∀ u ∈ k.srcs, u < s.module.values.length)) :
    Ensures (build call) s (fun v s' => ∃ m', s' = { s with module := m' } ∧ m'.WF ∧
      OpBuilt k s.module v m') fun _ _ => True := by
  rcases hcall with ⟨e, he⟩ | ⟨he, hs⟩
  · exact Effect.ensures_of_error (build_of_error (Prod.ext rfl he)) trivial
  · rcases hadd : addOp s.module k name with ⟨m', e | v⟩
    · exact Effect.ensures_of_error (build_of_error (he.trans hadd)) trivial
    · refine Effect.ensures_of_ok (build_of_ok (he.trans hadd)) ⟨m', rfl, ?_⟩
      exact opBuilt_addOp h hs hadd

/-- What a building function of the lifter does, when it builds an operation with the opcode
on `u`. -/
def BuildsOn (opcode : Opcode) (u : Option Nat) (x : Lift Nat) (s : LiftState) : Prop :=
  Ensures x s (fun v s' => s'.memory = s.memory ∧ Adds 0 [opcode] s.module s'.module ∧
    ∀ w, u = some w → s.module.Unused opcode w →
      Adds 1 [opcode] s.module s'.module ∧ ∀ opcode', s'.module.Unused opcode' v) fun _ _ => True

theorem build_buildsOn (h : s.module.WF) (k : OpKey) (name : Option Name)
    {call : Module → Module × Except Status Nat}
    (hcall : (∃ e, (call s.module).2 = .error e) ∨
      (call s.module = addOp s.module k name ∧ ∀ u ∈ k.srcs, u < s.module.values.length)) :
    BuildsOn k.opcode k.srcs.head? (build call) s := by
  refine Ensures.mono (build_built h k name hcall) ?_ fun _ _ _ => trivial
  rintro v _ ⟨m', rfl, hwf, hb⟩
  have hunused : ∀ opcode, opcode ∉ [k.opcode] → ∀ u, s.module.Unused opcode u →
      m'.Unused opcode u := fun opcode hnot u hu =>
    hb.unused (fun he => hnot (List.mem_singleton.mpr he)) hu
  refine ⟨rfl, ⟨hwf, hb.values_le, hunused⟩, fun w hw hu => ?_⟩
  obtain ⟨hlen, hnew⟩ := hb.fresh h hw hu
  exact ⟨⟨hwf, hlen, hunused⟩, hnew⟩

theorem BuildsOn.get {opcode : Opcode} {u : Option Nat} {f : LiftState → Lift Nat}
    (h : BuildsOn opcode u (f s) s) : BuildsOn opcode u (Effect.get >>= f) s := h

theorem x86BuildConstU64_buildsOn (h : s.module.WF) (t : Ty) (value : Word) (name : Name) :
    BuildsOn .constU64 none (x86BuildConstU64 t value name) s := by
  refine BuildsOn.get (build_buildsOn h ⟨s.block, .constU64, t, [], value, .le⟩ (some name) ?_)
  rw [buildConstU64]
  split
  · exact .inl ⟨_, rfl⟩
  · exact .inr ⟨rfl, fun u hu => by cases hu⟩

theorem x86BuildUnary_buildsOn (h : s.module.WF) (opcode : Opcode) (t : Ty) (src : Nat)
    (name : Name) : BuildsOn opcode (some src) (x86BuildUnary opcode t src name) s := by
  refine BuildsOn.get (build_buildsOn h ⟨s.block, opcode, t, [src], 0#64, .le⟩ (some name) ?_)
  rw [buildUnary]
  split
  · exact .inl ⟨_, rfl⟩
  · next hv => exact .inr ⟨rfl, by simpa [Module.validValue] using hv⟩

theorem x86IntToAddr_buildsOn (h : s.module.WF) (src : Nat) :
    BuildsOn .intToAddr (some src) (x86IntToAddr src) s :=
  BuildsOn.get (x86BuildUnary_buildsOn h .intToAddr (x86AddrType s.arch) src (literalName "addr"))

theorem x86BuildBinary_buildsOn (h : s.module.WF) (opcode : Opcode) (t : Ty) (lhs rhs : Nat)
    (name : Name) : BuildsOn opcode (some lhs) (x86BuildBinary opcode t lhs rhs name) s := by
  refine BuildsOn.get
    (build_buildsOn h ⟨s.block, opcode, t, [lhs, rhs], 0#64, .le⟩ (some name) ?_)
  rw [buildBinary]
  split
  · exact .inl ⟨_, rfl⟩
  · next hv => exact .inr ⟨rfl, by simpa [Module.validValue] using hv⟩

theorem x86BuildLoad_buildsOn (h : s.module.WF) (t : Ty) (memory address : Nat) (name : Name) :
    BuildsOn .load (some memory) (x86BuildLoad t memory address name) s := by
  refine BuildsOn.get
    (build_buildsOn h ⟨s.block, .load, t, [memory, address], 0#64, .le⟩ (some name) ?_)
  rw [buildLoad]
  split
  · exact .inl ⟨_, rfl⟩
  · next hv => exact .inr ⟨rfl, by simpa [Module.validValue] using hv⟩

theorem x86BuildStore_buildsOn (h : s.module.WF) (memory address data : Nat) (name : Name) :
    BuildsOn .store (some memory) (x86BuildStore memory address data name) s := by
  refine BuildsOn.get (build_buildsOn h ⟨s.block, .store, s.module.valueType memory,
    [memory, address, data], 0#64, .le⟩ (some name) ?_)
  rw [buildStore]
  split
  · exact .inl ⟨_, rfl⟩
  · next hv => exact .inr ⟨rfl, by simpa [Module.validValue, and_assoc] using hv⟩

/-- A parameter takes a value that was not there. -/
theorem blockAddParam_adds {m : Module} (h : m.WF) (b : Nat) (t : Ty) (name : Option Name) :
    (∃ e, (blockAddParam m b t name).2 = .error e) ∨
      ∃ m' v, blockAddParam m b t name = (m', .ok v) ∧ Adds 0 [] m m' ∧
        ∀ opcode, m'.Unused opcode v := by
  rcases blockAddParam_cases m b t name with ⟨e, he⟩ | ⟨-, ho, ht, hlt, he⟩
  · exact .inl ⟨e, by rw [he]⟩
  · refine .inr ⟨_, _, he, ⟨wf_buildStep h (.param b t _ ho ht hlt (.refl _)), ?_, ?_⟩, ?_⟩
    · simp [Module.withParam]
    · exact fun opcode _ u hu => hu
    · exact fun opcode => unused_of_le h (Nat.le_refl _) opcode

theorem x86EnsureReg_adds (h : s.module.WF) (reg : X86Reg) :
    Ensures (x86EnsureReg reg) s (fun v s' => s'.memory = s.memory ∧
      Adds 0 [] s.module s'.module ∧
      (s.regs reg = some v ∨ ∀ opcode, s'.module.Unused opcode v)) fun _ _ => True := by
  rw [x86EnsureReg]
  refine Effect.ensures_ite (fun _ => trivial) fun _ => ?_
  cases hreg : s.regs reg with
  | some v => exact ⟨rfl, ⟨h, Nat.le_refl _, fun _ _ _ hv => hv⟩, .inl rfl⟩
  | none =>
    rcases blockAddParam_adds h s.block (x86RegType s.arch)
      (some (x86RegNameForState s.arch reg)) with ⟨e, he⟩ | ⟨m', v, he, ha, hnew⟩
    · exact Effect.ensures_bind_of_error (build_of_error (Prod.ext rfl he)) trivial
    · refine Effect.ensures_bind_of_ok (build_of_ok he) ?_
      exact Effect.ensures_ite (fun _ => trivial) fun _ => ⟨rfl, ha, .inr hnew⟩

theorem x86EnsureMemory_adds (h : s.module.WF) :
    Ensures x86EnsureMemory s (fun v s' => s'.memory = some v ∧ Adds 0 [] s.module s'.module ∧
      (s.memory = some v ∨ ∀ opcode, s'.module.Unused opcode v)) fun _ _ => True := by
  refine Effect.ensures_get_bind ?_
  cases hmem : s.memory with
  | some v => exact ⟨hmem, ⟨h, Nat.le_refl _, fun _ _ _ hv => hv⟩, .inl rfl⟩
  | none =>
    rcases blockAddParam_adds h s.block (typeMem s.memorySpace s.arch.bits)
      (some (literalName "mem")) with ⟨e, he⟩ | ⟨m', v, he, ha, hnew⟩
    · exact Effect.ensures_bind_of_error (build_of_error (Prod.ext rfl he)) trivial
    · exact Effect.ensures_bind_of_ok (build_of_ok he) ⟨rfl, ha, .inr hnew⟩

/-- The stack pointer and the memory token have not been built on. -/
structure StackReady (s : LiftState) : Prop where
  wf : s.module.WF
  rsp : ∀ v, s.regs x86Rsp = some v → s.module.Unused .sub v ∧ s.module.Unused .add v
  memory : ∀ v, s.memory = some v → s.module.Unused .store v

/-- `push` builds the new stack pointer, its address, and the new memory token. -/
theorem x86LiftPushDecoded_adds (h : StackReady s) {inst : X86DecodedInst} {w : Nat}
    {src : X86Reg} (hops : inst.operands = [.register w src]) :
    Ensures (x86LiftPushDecoded inst) s (fun _ s' => StackReady s' ∧
      s.module.values.length + 3 ≤ s'.module.values.length) fun _ _ => True := by
  rw [x86LiftPushDecoded, X86DecodedInst.operand, hops]
  refine Effect.ensures_get_bind ?_
  refine Ensures.bind (x86EnsureReg_adds h.wf x86Rsp) fun rsp s₁ ⟨hm₁, h₁, hrsp⟩ => ?_
  have hrsp₁ : s₁.module.Unused .sub rsp := by
    rcases hrsp with hr | hr
    · exact h₁.unused .sub List.not_mem_nil rsp (h.rsp rsp hr).1
    · exact hr .sub
  refine Ensures.bind (x86EnsureReg_adds h₁.wf src) fun data s₂ ⟨hm₂, h₂, _⟩ => ?_
  refine Ensures.bind (x86BuildConstU64_buildsOn h₂.wf _ _ _) fun eight s₃ ⟨hm₃, h₃, _⟩ => ?_
  have hrsp₃ : s₃.module.Unused .sub rsp := (h₂.trans h₃).unused .sub (by decide) rsp hrsp₁
  refine Ensures.bind (x86BuildBinary_buildsOn h₃.wf .sub _ rsp eight _)
    fun sp s₄ ⟨hm₄, _, hsub⟩ => ?_
  obtain ⟨h₄, hsp⟩ := hsub rsp rfl hrsp₃
  refine Ensures.bind (x86IntToAddr_buildsOn h₄.wf sp) fun addr s₅ ⟨hm₅, _, haddr⟩ => ?_
  obtain ⟨h₅, -⟩ := haddr sp rfl (hsp .intToAddr)
  refine Ensures.bind (x86EnsureMemory_adds h₅.wf) fun memory s₆ ⟨hm₆, h₆, hmem⟩ => ?_
  have h₁₆ := ((((h₁.trans h₂).trans h₃).trans h₄).trans h₅).trans h₆
  have hmem₆ : s₆.module.Unused .store memory := by
    rcases hmem with hm | hm
    · rw [hm₅, hm₄, hm₃, hm₂, hm₁] at hm
      exact h₁₆.unused .store (by decide) memory (h.memory memory hm)
    · exact hm .store
  refine Ensures.bind (x86BuildStore_buildsOn h₆.wf memory addr data _)
    fun token s₇ ⟨_, _, hstore⟩ => ?_
  obtain ⟨h₇, htoken⟩ := hstore memory rfl hmem₆
  have hsp₇ := (h₅.trans h₆).trans h₇
  refine ⟨⟨h₇.wf, ?_, ?_⟩, (h₁₆.trans h₇).values⟩
  · intro v hv
    cases hv
    exact ⟨hsp₇.unused .sub (by decide) sp (hsp .sub), hsp₇.unused .add (by decide) sp (hsp .add)⟩
  · intro v hv
    cases hv
    exact htoken .store

/-- `pop` builds the new stack pointer. -/
theorem x86LiftPopDecoded_adds (h : StackReady s) {inst : X86DecodedInst} {w : Nat}
    {dst : X86Reg} (hops : inst.operands = [.register w dst]) :
    Ensures (x86LiftPopDecoded inst) s (fun _ s' => StackReady s' ∧
      s.module.values.length + 1 ≤ s'.module.values.length) fun _ _ => True := by
  rw [x86LiftPopDecoded, X86DecodedInst.operand, hops]
  refine Effect.ensures_get_bind ?_
  refine Ensures.bind (x86EnsureReg_adds h.wf x86Rsp) fun rsp s₁ ⟨hm₁, h₁, hrsp⟩ => ?_
  have hrsp₁ : s₁.module.Unused .add rsp := by
    rcases hrsp with hr | hr
    · exact h₁.unused .add List.not_mem_nil rsp (h.rsp rsp hr).2
    · exact hr .add
  refine Ensures.bind (x86IntToAddr_buildsOn h₁.wf rsp) fun addr s₂ ⟨hm₂, h₂, _⟩ => ?_
  refine Ensures.bind (x86EnsureMemory_adds h₂.wf) fun memory s₃ ⟨hm₃, h₃, hmem⟩ => ?_
  have hmem₃ : s₃.module.Unused .store memory := by
    rcases hmem with hm | hm
    · rw [hm₂, hm₁] at hm
      exact ((h₁.trans h₂).trans h₃).unused .store (by decide) memory (h.memory memory hm)
    · exact hm .store
  refine Ensures.bind (x86BuildLoad_buildsOn h₃.wf _ memory addr _)
    fun loaded s₄ ⟨hm₄, h₄, _⟩ => ?_
  refine Ensures.bind (x86BuildConstU64_buildsOn h₄.wf _ _ _) fun eight s₅ ⟨hm₅, h₅, _⟩ => ?_
  have h₂₅ := ((h₂.trans h₃).trans h₄).trans h₅
  refine Ensures.bind (x86BuildBinary_buildsOn h₅.wf .add _ rsp eight _)
    fun sp s₆ ⟨hm₆, _, hadd⟩ => ?_
  obtain ⟨h₆, hsp⟩ := hadd rsp rfl (h₂₅.unused .add (by decide) rsp hrsp₁)
  refine ⟨⟨h₆.wf, ?_, ?_⟩, ((h₁.trans h₂₅).trans h₆).values⟩
  · intro v hv
    cases hv
    exact ⟨hsp .sub, hsp .add⟩
  · intro v hv
    change s₆.memory = some v at hv
    rw [hm₆, hm₅, hm₄, hm₃] at hv
    cases hv
    exact ((h₄.trans h₅).trans h₆).unused .store (by decide) memory hmem₃

/-- The values that a stack instruction builds at least. -/
def StackInst.values : StackInst → Nat
  | .push _ => 3
  | .pop _ => 1

theorem x86LiftInst_adds {arch : Arch} (hl : Lifting arch s) (h : StackReady s)
    {inst : X86DecodedInst} {i : StackInst} (hi : inst.stackInst = some i) (hin : Inner arch inst)
    (pc : Word) :
    Ensures (x86LiftInst inst pc) s (fun _ s' => StackReady s' ∧
      s.module.values.length + i.values ≤ s'.module.values.length) fun _ _ => True := by
  have hdecoded : Ensures (x86LiftDecoded inst (inst.next pc)) s (fun _ s' => StackReady s' ∧
      s.module.values.length + i.values ≤ s'.module.values.length) fun _ _ => True := by
    rw [X86DecodedInst.stackInst] at hi
    split at hi
    · next hm hops =>
      cases hi
      rw [x86LiftDecoded, hm]
      exact x86LiftPushDecoded_adds h hops
    · next hm hops =>
      cases hi
      rw [x86LiftDecoded, hm]
      exact x86LiftPopDecoded_adds h hops
    · cases hi
  refine Ensures.mono (x86LiftInst_after hl hin pc hdecoded) ?_ fun _ _ _ => trivial
  rintro _ _ ⟨s₁, ⟨h₁, hlen⟩, rfl⟩
  exact ⟨⟨h₁.wf, h₁.rsp, h₁.memory⟩, hlen⟩

/-- **A stack program** builds the values of its instructions. -/
theorem x86LiftInsts_adds {arch : Arch} {insts : List StackInst}
    {code : List (X86DecodedInst × Word)} {image : Image} {s' : LiftState}
    (hl : Lifting arch s) (h : StackReady s)
    (hcode : code.map (fun c => c.1.stackInst) = insts.map some)
    (hc : Consecutive image arch s.pc code) (hin : ∀ c ∈ code, Inner arch c.1)
    (hrun : x86LiftInsts code s = (.ok (), s')) :
    s.module.values.length + (insts.map StackInst.values).sum ≤ s'.module.values.length ∧
      s'.module.WF := by
  induction insts generalizing s code with
  | nil =>
    rw [List.map_nil, List.map_eq_nil_iff] at hcode
    subst hcode
    cases hrun
    exact ⟨Nat.le_refl _, h.wf⟩
  | cons i insts ih =>
    obtain ⟨c, code, rfl, hi, hcode⟩ := List.map_eq_cons_iff.mp hcode
    have hinner := hin c (List.mem_cons_self ..)
    change (x86LiftInst c.1 s.pc >>= fun _ => x86LiftInsts code) s = _ at hrun
    rcases hone : x86LiftInst c.1 s.pc s with ⟨e | done, s₁⟩
    · rw [Effect.bind_of_error hone] at hrun
      cases hrun
    · rw [Effect.bind_of_ok hone] at hrun
      obtain ⟨-, hsteps, hledger, -⟩ := (x86LiftInst_step hl hinner s.pc).ok hone
      obtain ⟨h₁, hlen⟩ := (x86LiftInst_adds hl h hi hinner s.pc).ok hone
      obtain ⟨-, hnext, hrest⟩ := hc
      have hpc : s₁.pc = c.2 := by
        rw [hnext]
        exact congrArg Ledger.pc hledger
      obtain ⟨hsum, hwf⟩ := ih (hl.lift hsteps) h₁ hcode (hpc ▸ hrest)
        (fun j hj => hin j (List.mem_cons_of_mem c hj)) hrun
      refine ⟨?_, hwf⟩
      rw [List.map_cons, List.sum_cons]
      omega

end Ready

/-! ### Balanced sequences -/

theorem sum_values_balanced (regs : List X86Reg) :
    ((X86Machine.balanced regs).map StackInst.values).sum = 4 * regs.length := by
  induction regs with
  | nil => rfl
  | cons reg regs ih =>
    rw [X86Machine.balanced_cons, List.map_cons, List.map_append, List.sum_cons, List.sum_append,
      ih, List.length_cons]
    show 3 + (4 * regs.length + 1) = 4 * (regs.length + 1)
    omega

theorem stackReady_liftStart {m : Module} (h : m.WF) (options : LiftOptions) (b : Nat) :
    StackReady (liftStart m options b true) :=
  ⟨h, fun _ hv => (by cases hv), fun _ hv => by cases hv⟩

/-- **A balanced sequence that is lifted** fits the address space. -/
theorem balanced_fits {m : Module} (h : m.Reachable) {image : Image} {options : LiftOptions}
    (hok : (liftBasicBlock m image options).status = .ok) {regs : List X86Reg}
    (hregs : (options.stream image).1.map (fun c => c.1.stackInst) =
      (X86Machine.balanced regs).map some) :
    regs.length * options.arch.bytes ≤ 2 ^ options.arch.bits := by
  obtain ⟨b, m₁, t, r, s', hl, -, hloop⟩ := liftBasicBlock_loop h hok
  obtain ⟨s₁, h₁, -⟩ := hloop.middle hl.created.draft
  obtain ⟨hc, hi, -⟩ := x86Stream_consecutive image options.arch options.limit options.address
  obtain ⟨hsum, hwf⟩ := x86LiftInsts_adds (lifting_start hl.created.draft options true)
    (stackReady_liftStart hl.created.draft.wf options b) hregs hc hi h₁.run
  have hle : s₁.module.values.length ≤ 4294967295 := hwf.values_le
  rw [sum_values_balanced] at hsum
  have hlen : 4 * regs.length ≤ 4294967295 := by omega
  cases options.arch with
  | x8632 =>
    show regs.length * 4 ≤ 2 ^ 32
    omega
  | x8664 =>
    show regs.length * 8 ≤ 2 ^ 64
    omega

end Xair
