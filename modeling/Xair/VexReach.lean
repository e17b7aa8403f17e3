import Xair.ConstPool
import Xair.VexBindings

/-!
# Reachable adapters

An adapter changes its module by building calls only, whatever the outcome of its own calls
(`VexCall.frames`): a later module still has the records of an earlier one and the blocks that
were closed (`Module.Later`).  The module of a reachable adapter is reachable through the
builder API, its tables are in order, and its current block is there
(`VexAdapter.Reachable.ready`).
-/

namespace Xair

open Effect

/-! ### Later modules -/

/-- `m'` is `m` after calls of the builder API other than canonicalization. -/
def Module.Later (m m' : Module) : Prop :=
  ∃ calls : List Call, (∀ c ∈ calls, c ≠ .canonicalize) ∧ m' = runCalls m calls

/-- Block `b` is still there, with more parameters unless it was closed. -/
structure KeepsBlock (b : Nat) (m m' : Module) : Prop where
  lt : b < m.blocks.length → b < m'.blocks.length
  params : (m.blockRec b).params <+: (m'.blockRec b).params
  closed : (m.blockRec b).term.kind ≠ .none → m'.blockRec b = m.blockRec b

section Later

variable {m m' m'' : Module} {b : Nat}

theorem Module.Later.refl (m : Module) : m.Later m := ⟨[], fun _ hc => (by cases hc), rfl⟩

theorem Module.Later.trans (h : m.Later m') (h' : m'.Later m'') : m.Later m'' := by
  obtain ⟨calls, hc, rfl⟩ := h
  obtain ⟨calls', hc', rfl⟩ := h'
  refine ⟨calls ++ calls', fun c hmem => ?_, ?_⟩
  · exact (List.mem_append.mp hmem).elim (hc c) (hc' c)
  · rw [runCalls, runCalls, runCalls, List.foldl_append]

theorem later_call (m : Module) {c : Call} (hc : c ≠ .canonicalize) : m.Later (c.run m).1 :=
  ⟨[c], fun _ hd => (List.mem_singleton.mp hd) ▸ hc, rfl⟩

/-- What every change by a builder call keeps holds of later modules. -/
theorem Module.Later.keeps {R : Module → Module → Prop} (h : m.Later m') (hrefl : ∀ m, R m m)
    (htrans : ∀ m m' m'', R m m' → R m' m'' → R m m'') (hstep : ∀ m m', BuildStep m m' → R m m') :
    R m m' := by
  obtain ⟨calls, hc, rfl⟩ := h
  induction calls generalizing m with
  | nil => exact hrefl m
  | cons c calls ih =>
    refine htrans m (c.run m).1 _ (hstep _ _ (Call.buildStep m c (hc c List.mem_cons_self))) ?_
    exact ih fun d hd => hc d (List.mem_cons_of_mem _ hd)

theorem Module.Later.grows (h : m.Later m') : Grows m m' :=
  h.keeps Grows.refl (fun _ _ _ => Grows.trans) fun _ _ => BuildStep.grows

theorem Module.Later.wf (h : m.Later m') (hwf : m.WF) : m'.WF :=
  h.keeps (R := fun m m' => m.WF → m'.WF) (fun _ => id) (fun _ _ _ h h' hwf => h' (h hwf))
    (fun _ _ hs hwf => wf_buildStep hwf hs) hwf

theorem Module.Later.reachable (h : m.Later m') (hr : m.Reachable) : m'.Reachable := by
  obtain ⟨calls, -, rfl⟩ := h
  obtain ⟨before, rfl⟩ := hr
  exact ⟨before ++ calls, by rw [runCalls, runCalls, runCalls, List.foldl_append]⟩

theorem KeepsBlock.refl (b : Nat) (m : Module) : KeepsBlock b m m :=
  ⟨id, List.prefix_refl _, fun _ => rfl⟩

theorem KeepsBlock.trans (h : KeepsBlock b m m') (h' : KeepsBlock b m' m'') :
    KeepsBlock b m m'' where
  lt := fun hb => h'.lt (h.lt hb)
  params := h.params.trans h'.params
  closed := fun hk => by
    have heq := h.closed hk
    rw [h'.closed (by rw [heq]; exact hk), heq]

theorem keepsBlock_of_core (hlen : m.blocks.length ≤ m'.blocks.length)
    (hc : m'.blockRec b = m.blockRec b) : KeepsBlock b m m' :=
  ⟨fun hb => Nat.lt_of_lt_of_le hb hlen, prefix_of_eq (congrArg BlockRec.params hc.symm),
    fun _ => hc⟩

/-- A change of an open block. -/
theorem keepsBlock_of_open {c : Nat} (hlen : m'.blocks.length = m.blocks.length)
    (hopen : m.OpenBlock c) (hother : ∀ d, d ≠ c → m'.blockRec d = m.blockRec d)
    (hparams : (m.blockRec c).params <+: (m'.blockRec c).params) (b : Nat) : KeepsBlock b m m' := by
  refine ⟨fun hb => hlen ▸ hb, ?_, fun hk => hother b ?_⟩
  · by_cases hbc : b = c
    · rw [hbc]
      exact hparams
    · exact prefix_of_eq (congrArg BlockRec.params (hother b hbc).symm)
  · rintro rfl
    exact hk hopen.2

/-- A builder call keeps every block. -/
theorem BuildStep.keepsBlock (h : BuildStep m m') (b : Nat) : KeepsBlock b m m' := by
  have hsame : ∀ {m₁ : Module}, SameCore m₁ m' → KeepsBlock b m m₁ → KeepsBlock b m m' :=
    fun hc h => h.trans (keepsBlock_of_core (by rw [hc.blocks]) (hc.blockRec b))
  cases h with
  | same hc => exact hsame hc (.refl b m)
  | block name _ hc =>
    refine hsame hc ⟨fun hb => by simp [Module.withBlock]; omega, ?_, fun hk => ?_⟩
    · rw [m.blockRec_withBlock]
      split
      · exact List.prefix_refl _
      · next hb =>
        have hdefault : m.blockRec b = Module.defaultBlock := List.getD_eq_default _ _ (by omega)
        rw [hdefault]
        exact List.nil_prefix
    · have hb : b < m.blocks.length := by
        by_contra hge
        have hdefault : m.blockRec b = Module.defaultBlock := List.getD_eq_default _ _ (by omega)
        rw [hdefault] at hk
        exact hk rfl
      rw [m.blockRec_withBlock, if_pos hb]
  | param c t name ho _ _ hc =>
    refine hsame hc (keepsBlock_of_open (by simp [Module.withParam]) ho (fun d hd => ?_) ?_ b)
    · rw [m.blockRec_withParam, if_neg fun hh => hd hh.1.symm]
    · rw [m.blockRec_withParam, if_pos ⟨rfl, ho.1⟩]
      exact List.prefix_append _ _
  | op k name ho _ _ _ _ _ hc =>
    refine hsame hc (keepsBlock_of_open (by simp [Module.withOp]) ho (fun d hd => ?_) ?_ b)
    · rw [m.blockRec_withOp, if_neg fun hh => hd hh.1.symm]
    · refine prefix_of_eq ?_
      rw [m.blockRec_withOp, if_pos ⟨rfl, ho.1⟩]
      rfl
  | args ids hc => exact hsame hc (keepsBlock_of_core (Nat.le_refl _) rfl)
  | term c t ids ho _ hc =>
    refine hsame hc (keepsBlock_of_open (by simp [Module.withTerm]) ho (fun d hd => ?_) ?_ b)
    · rw [m.blockRec_withTerm, if_neg fun hh => hd hh.1.symm]
    · exact prefix_of_eq (by rw [m.blockRec_withTerm, if_pos ⟨rfl, ho.1⟩])

theorem Module.Later.keepsBlock (h : m.Later m') (b : Nat) : KeepsBlock b m m' :=
  h.keeps (KeepsBlock.refl b) (fun _ _ _ => KeepsBlock.trans) fun _ _ hs => hs.keepsBlock b

end Later

/-! ### Calls of the adapter -/

/-- The adapters agree up to their modules and the numbering of continuations. -/
structure SameTables (a a' : VexAdapter) : Prop where
  current : a'.current = a.current
  memory : a'.memory = a.memory
  tmps : a'.tmps = a.tmps
  regs : a'.regs = a.regs
  regCount : a'.regCount = a.regCount
  sparse : a'.sparseRegs = a.sparseRegs

/-- Building calls were made on the module. -/
structure VexBuilt (a a' : VexAdapter) : Prop where
  later : a.module.Later a'.module
  tables : SameTables a a'

/-- The tables are in order, and the current block is a block of the module. -/
structure VexAdapter.Ready (a : VexAdapter) : Prop where
  ok : a.Ok
  current_lt : a.current < a.module.blocks.length

/-- Whatever the outcome, the module is changed by building calls only and the adapter stays
ready; a call that fails leaves the tables as they were. -/
structure Frames {α : Type} (x : Vex α) : Prop where
  later : Leads (fun a a' : VexAdapter => a.module.Later a'.module) x
  ready : Leads (fun a a' : VexAdapter => a.Ready → a'.Ready) x
  error : ∀ a e, (x a).1 = .error e → SameTables a (x a).2

section Tables

variable {a a' a'' : VexAdapter}

theorem SameTables.refl (a : VexAdapter) : SameTables a a := ⟨rfl, rfl, rfl, rfl, rfl, rfl⟩

theorem SameTables.trans (h : SameTables a a') (h' : SameTables a' a'') : SameTables a a'' :=
  ⟨h'.current.trans h.current, h'.memory.trans h.memory, h'.tmps.trans h.tmps,
    h'.regs.trans h.regs, h'.regCount.trans h.regCount, h'.sparse.trans h.sparse⟩

theorem tables_ok (hregs : a'.regs = a.regs) (hcount : a'.regCount = a.regCount)
    (hsparse : a'.sparseRegs = a.sparseRegs) (hok : a.Ok) : a'.Ok := by
  refine ⟨?_, ?_, ?_⟩
  · rw [hsparse]
    exact hok.sparse_nodup
  · rw [hsparse]
    exact hok.sparse_ge
  · rw [VexAdapter.definedRegs, hcount, hregs]
    exact hok.count

theorem SameTables.ok (h : SameTables a a') (hok : a.Ok) : a'.Ok :=
  tables_ok h.regs h.regCount h.sparse hok

/-- The tables are written over. -/
theorem VexAdapter.Ready.write (h : a.Ready) (hm : a'.module = a.module)
    (hcurrent : a'.current = a.current) (hok : a'.Ok) : a'.Ready := by
  refine ⟨hok, ?_⟩
  rw [hm, hcurrent]
  exact h.current_lt

theorem VexBuilt.ready (h : VexBuilt a a') (hr : a.Ready) : a'.Ready := by
  refine ⟨h.tables.ok hr.ok, ?_⟩
  rw [h.tables.current]
  exact (h.later.keepsBlock a.current).lt hr.current_lt

theorem VexBuilt.refl (a : VexAdapter) : VexBuilt a a := ⟨.refl _, .refl a⟩

theorem VexBuilt.trans (h : VexBuilt a a') (h' : VexBuilt a' a'') : VexBuilt a a'' :=
  ⟨h.later.trans h'.later, h.tables.trans h'.tables⟩

end Tables

section Rules

variable {α β : Type} {x : Vex α} {f : α → Vex β}

theorem vexBuild_run {call : Module → Module × Except Status α} {a : VexAdapter} {m : Module}
    {r : Except Status α} (h : call a.module = (m, r)) :
    vexBuild call a = (r.mapError .returns, a.withModule m) := by
  rw [vexBuild, h]
  rfl

theorem vexBuild_ok {call : Module → Module × Except Status α} {a a' : VexAdapter} {v : α}
    (h : vexBuild call a = (.ok v, a')) : call a.module = (a'.module, .ok v) := by
  have hr := congrArg Prod.fst h
  have ha := congrArg Prod.snd h
  rcases hc : call a.module with ⟨m, r⟩
  simp only [vexBuild, hc] at hr ha
  cases r with
  | error e => cases hr
  | ok v' =>
    cases hr
    rw [← ha]

/-- A building call. -/
theorem leads_vexBuild {call : Module → Module × Except Status α} (c : Call)
    (hc : c ≠ .canonicalize) (h : ∀ m, (call m).1 = (c.run m).1) :
    Leads VexBuilt (vexBuild call) := by
  intro a
  refine ⟨?_, rfl, rfl, rfl, rfl, rfl, rfl⟩
  show a.module.Later (call a.module).1
  rw [h]
  exact later_call a.module hc

theorem leads_ok (a : α) : Leads VexBuilt (pure a : Vex α) := leads_pure VexBuilt.refl a

theorem leads_bind (hx : Leads VexBuilt x) (hf : ∀ a, Leads VexBuilt (f a)) :
    Leads VexBuilt (x >>= f) :=
  Leads.bind (fun _ _ _ => VexBuilt.trans) hx hf

theorem Frames.of_leads (h : Leads VexBuilt x) : Frames x :=
  ⟨fun a => (h a).later, fun a => (h a).ready, fun a _ _ => (h a).tables⟩

theorem frames_fail (e : VexStop) : Frames (throw e : Vex α) :=
  .of_leads (leads_throw VexBuilt.refl e)

theorem frames_get_bind {f : VexAdapter → Vex β} (h : ∀ a, Frames (f a)) :
    Frames (Effect.get >>= f) :=
  ⟨fun a => (h a).later a, fun a => (h a).ready a, fun a => (h a).error a⟩

/-- The tables are written last. -/
theorem frames_tables {f : VexAdapter → VexAdapter} (h : ∀ a, (f a).module = a.module)
    (hcurrent : ∀ a, (f a).current = a.current) (hok : ∀ a, a.Ok → (f a).Ok) :
    Frames (modify f : Vex Unit) := by
  refine ⟨fun a => ?_, fun a ha => ha.write (h a) (hcurrent a) (hok a ha.ok),
    fun a e he => (by cases he)⟩
  show a.module.Later (f a).module
  rw [h]
  exact .refl _

theorem Frames.after (hf : ∀ a, Frames (f a)) (hx : Leads VexBuilt x) : Frames (x >>= f) := by
  constructor
  · exact Leads.bind (fun _ _ _ => Module.Later.trans) (fun a => (hx a).later) fun v => (hf v).later
  · exact Leads.bind (fun _ _ _ h h' hr => h' (h hr))
      (fun a => (hx a).ready) fun v => (hf v).ready
  · intro a e he
    have h := (hx a).tables
    rcases heq : x a with ⟨r, b⟩
    rw [heq] at h
    cases r with
    | ok v =>
      rw [bind_of_ok heq] at he ⊢
      exact h.trans ((hf v).error b e he)
    | error e =>
      rw [bind_of_error heq]
      exact h

/-- The value that is handed out. -/
theorem Frames.returns (h : Frames x) (g : α → β) : Frames (x >>= fun a => pure (g a)) := by
  constructor
  · exact Leads.bind (fun _ _ _ => Module.Later.trans) h.later fun _ a => .refl a.module
  · exact Leads.bind (fun _ _ _ h h' hr => h' (h hr)) h.ready fun _ _ => id
  · intro a e he
    have ha := h.error a
    rcases heq : x a with ⟨r, b⟩
    rw [heq] at ha
    cases r with
    | ok v =>
      rw [bind_of_ok heq] at he
      cases he
    | error e =>
      rw [bind_of_error heq]
      exact ha e rfl

end Rules

section Calls

theorem vexSetTmp_frames (tmp value : Nat) : Frames (vexSetTmp tmp value) := by
  refine frames_get_bind fun a => ?_
  split
  · exact frames_fail _
  · split
    · exact frames_fail _
    · exact frames_tables (fun _ => rfl) (fun _ => rfl) fun _ => tables_ok rfl rfl rfl

theorem vexGetTmp_frames (tmp : Nat) : Frames (vexGetTmp tmp) := by
  refine frames_get_bind fun a => ?_
  split
  · exact frames_fail _
  · exact .of_leads (leads_ok _)

theorem vexPeekReg_frames (offset : Nat) : Frames (vexPeekReg offset) := by
  refine frames_get_bind fun a => ?_
  split
  · exact frames_fail _
  · exact .of_leads (leads_ok _)

theorem vexCurrentMemory_frames : Frames vexCurrentMemory := by
  refine frames_get_bind fun a => ?_
  split
  · exact frames_fail _
  · exact .of_leads (leads_ok _)

theorem setReg_module (a : VexAdapter) (offset value : Nat) :
    (a.setReg offset value).module = a.module := by
  unfold VexAdapter.setReg
  split <;> rfl

theorem setReg_frames (offset value : Nat) :
    Frames (modify fun a => a.setReg offset value : Vex Unit) := by
  refine frames_tables (fun a => setReg_module a offset value) (fun a => ?_)
    fun _ => VexAdapter.Ok.setReg
  unfold VexAdapter.setReg
  split <;> rfl

theorem vexGetReg_frames (offset : Nat) (type : Ty) (name : Option Name) :
    Frames (vexGetReg offset type name) := by
  refine frames_get_bind fun a => ?_
  split
  · exact frames_fail _
  · split
    · split
      · exact frames_fail _
      · exact .of_leads (leads_ok _)
    · refine Frames.after (fun value => ?_)
        (leads_vexBuild (.blockAddParam a.current type name) nofun fun _ => rfl)
      exact (setReg_frames offset value).returns _

theorem vexPutReg_frames (offset value : Nat) : Frames (vexPutReg offset value) := by
  refine frames_get_bind fun a => ?_
  split
  · exact frames_fail _
  · exact setReg_frames offset value

theorem vexSetMemory_frames (memory : Nat) : Frames (vexSetMemory memory) := by
  refine frames_get_bind fun a => ?_
  split
  · exact frames_fail _
  · split
    · exact frames_fail _
    · exact frames_tables (fun _ => rfl) (fun _ => rfl) fun _ => tables_ok rfl rfl rfl

theorem vexEmitConst_frames (tmp : Nat) (type : Ty) (value : Word) (name : Option Name) :
    Frames (vexEmitConst tmp type value name) :=
  frames_get_bind fun a => Frames.after (fun _ => vexSetTmp_frames _ _)
    (leads_vexBuild (.buildConstU64 a.current type value name) nofun fun _ => rfl)

theorem vexEmitUnop_frames (tmp : Nat) (irop : Option Name) (src : Nat) (name : Option Name) :
    Frames (vexEmitUnop tmp irop src name) := by
  refine frames_get_bind fun a => ?_
  split
  · exact frames_fail _
  · split
    · exact frames_fail _
    · next opcode type _ =>
      exact Frames.after (fun _ => vexSetTmp_frames _ _)
        (leads_vexBuild (.buildUnary a.current opcode type src name) nofun fun _ => rfl)

theorem vexEmitBinop_frames (tmp : Nat) (irop : Option Name) (lhs rhs : Nat) (name : Option Name) :
    Frames (vexEmitBinop tmp irop lhs rhs name) := by
  refine frames_get_bind fun a => ?_
  split
  · exact frames_fail _
  · split
    · exact frames_fail _
    · split
      · exact frames_fail _
      · next opcode type _ =>
        exact Frames.after (fun _ => vexSetTmp_frames _ _)
          (leads_vexBuild (.buildBinary a.current opcode type lhs rhs name) nofun fun _ => rfl)

theorem vexEmitLoad_frames (tmp : Nat) (type : Ty) (address : Nat) (endian : Endian)
    (name : Option Name) : Frames (vexEmitLoad tmp type address endian name) := by
  refine frames_get_bind fun a => ?_
  split
  · exact frames_fail _
  · next memory _ =>
    split
    · exact frames_fail _
    · exact Frames.after (fun _ => vexSetTmp_frames _ _)
        (leads_vexBuild (.buildLoad a.current type memory address endian name) nofun fun _ => rfl)

theorem vexEmitStore_frames (address data : Nat) (endian : Endian) (name : Option Name) :
    Frames (vexEmitStore address data endian name) := by
  refine frames_get_bind fun a => ?_
  split
  · exact frames_fail _
  · next memory _ =>
    split
    · exact frames_fail _
    · exact Frames.after (fun _ => frames_tables (fun _ => rfl) (fun _ => rfl) fun _ => tables_ok rfl rfl rfl)
        (leads_vexBuild (.buildStore a.current memory address data endian name) nofun fun _ => rfl)

theorem vexTransferValue_leads (continuation : Nat) (text : Name) (old : Nat) (args : List Nat) :
    Leads VexBuilt (vexTransferValueToContinuation continuation text old args) :=
  leads_get_bind fun a => leads_bind
    (leads_vexBuild (.blockAddParam continuation (a.module.valueType old) (some text)) nofun
      fun _ => rfl) fun _ => leads_ok _

theorem vexTransferSlots_leads (continuation : Nat) (name : Nat → Name) (slots : Nat → Option Nat)
    (is : List Nat) (next : Option (Nat → Nat)) (args : List Nat) :
    Leads VexBuilt (vexTransferSlots continuation name slots is next args) := by
  induction is generalizing next args with
  | nil => exact leads_ok _
  | cons i is ih =>
    unfold vexTransferSlots
    split
    · exact ih _ _
    · exact leads_throw VexBuilt.refl _
    · exact leads_bind (vexTransferValue_leads _ _ _ _) fun _ => ih _ _

theorem vexTransferMemory_leads (continuation : Nat) (memory : Option Nat) :
    Leads VexBuilt (vexTransferMemory continuation memory) := by
  cases memory with
  | none => exact leads_ok _
  | some memory => exact vexTransferValue_leads _ _ _ _

theorem vexTransferAll_leads (continuation : Nat) (a : VexAdapter) :
    Leads VexBuilt (vexTransferAll continuation a) :=
  leads_bind (vexTransferMemory_leads _ _) fun _ =>
    leads_bind (vexTransferSlots_leads _ _ _ _ _ _) fun _ =>
      leads_bind (vexTransferSlots_leads _ _ _ _ _ _) fun _ =>
        leads_bind (vexTransferSlots_leads _ _ _ _ _ _) fun _ => leads_ok _

/-- Only the memory of a new adapter is handed over. -/
theorem vexTransferAll_fresh (continuation : Nat) (m : Module) (entry : Nat) (memory : Option Nat)
    (index : Nat) :
    vexTransferAll continuation
        ⟨m, entry, memory, ⟨0, fun _ => none⟩, fun _ => none, 0, [], index⟩ =
      vexTransferMemory continuation memory >>= fun r => pure (⟨r.1, none, none, none⟩, r.2) := by
  have hregs (name : Nat → Name) (next : Option (Nat → Nat)) (args : List Nat) :
      vexTransferSlots continuation name (fun _ => none) (List.range vexRegDirectSlots) next args =
        pure (next, args) :=
    vexTransferSlots_none (fun _ _ => rfl) next args
  unfold vexTransferAll
  simp only [hregs]
  rfl

theorem vexContinuationName_leads (name : Option Name) :
    Leads VexBuilt (vexContinuationName name) := by
  refine leads_get_bind fun a => ?_
  split
  · exact leads_ok _
  · refine leads_bind (leads_modify fun b => ?_) fun _ => leads_ok _
    exact ⟨.refl _, rfl, rfl, rfl, rfl, rfl, rfl⟩

/-- The continuation is a block when the branch to it was set. -/
theorem vexBranch_frames {b condition taken continuation : Nat} {takenArgs args : ArgArray}
    {next : VexNext} : Frames (do
      vexBuild fun m => setCbranch m b condition taken takenArgs continuation args
      modify fun a => { a.rebind next with current := continuation } : Vex Unit) := by
  have hbuild : Leads VexBuilt (vexBuild fun m =>
      setCbranch m b condition taken takenArgs continuation args) :=
    leads_vexBuild (.setCbranch b condition taken takenArgs continuation args) nofun fun _ => rfl
  refine ⟨Leads.bind (fun _ _ _ => Module.Later.trans) (fun a => (hbuild a).later)
    fun _ a => .refl a.module, fun a ha => ?_, fun a e he => ?_⟩
  all_goals
    have hb := hbuild a
    rcases hrun : vexBuild (fun m =>
      setCbranch m b condition taken takenArgs continuation args) a with ⟨r, a'⟩
    rw [hrun] at hb
  · cases r with
    | error e =>
      rw [bind_of_error hrun]
      exact hb.ready ha
    | ok u =>
      rw [bind_of_ok hrun]
      have hok := @rebind_ok _ next (hb.ready ha).ok
      refine ⟨⟨hok.sparse_nodup, hok.sparse_ge, hok.count⟩, ?_⟩
      have hset := vexBuild_ok hrun
      obtain ⟨-, -, -, hf⟩ := setCbranch_checks hset
      obtain ⟨hm, -⟩ := setCbranch_ok hset
      show continuation < a'.module.blocks.length
      rw [hm]
      simpa [Module.validBlock, Module.withTerm] using hf
  · cases r with
    | error e =>
      rw [bind_of_error hrun]
      exact hb.tables
    | ok u =>
      rw [bind_of_ok hrun] at he
      cases he

/-- An exit from the transfers on. -/
theorem vexHandOver_frames (a : VexAdapter) {b condition taken continuation : Nat}
    {takenArgs : ArgArray} : Frames (do
      let r ← vexTransferAll continuation a
      vexBuild fun m => setCbranch m b condition taken takenArgs continuation (.array r.2)
      modify fun a => { a.rebind r.1 with current := continuation } : Vex Unit) :=
  Frames.after (fun _ => vexBranch_frames) (vexTransferAll_leads continuation a)

theorem vexEmitExit_frames (condition taken : Nat) (takenArgs : ArgArray) (name : Option Name) :
    Frames (vexEmitExit condition taken takenArgs name) := by
  refine frames_get_bind fun a => ?_
  split
  · exact frames_fail _
  · refine Frames.after (fun text => ?_) (vexContinuationName_leads name)
    exact Frames.after (fun continuation => vexHandOver_frames a)
      (leads_vexBuild (.blockCreate (some text)) nofun fun _ => rfl)

/-- **A call of the adapter changes the module by building calls only**, and when it fails it
leaves the tables as they were. -/
theorem VexCall.frames (c : VexCall) : Frames c.run := by
  cases c with
  | setTmp tmp value => exact (vexSetTmp_frames _ _).returns _
  | getTmp tmp => exact (vexGetTmp_frames tmp).returns _
  | getReg offset type name => exact (vexGetReg_frames _ _ _).returns _
  | putReg offset value => exact (vexPutReg_frames _ _).returns _
  | peekReg offset => exact (vexPeekReg_frames offset).returns _
  | setMemory memory => exact (vexSetMemory_frames _).returns _
  | currentMemory => exact vexCurrentMemory_frames.returns _
  | emitConst tmp type value name => exact (vexEmitConst_frames _ _ _ _).returns _
  | emitUnop tmp irop src name => exact (vexEmitUnop_frames _ _ _ _).returns _
  | emitBinop tmp irop lhs rhs name => exact (vexEmitBinop_frames _ _ _ _ _).returns _
  | emitLoad tmp type address endian name => exact (vexEmitLoad_frames _ _ _ _ _).returns _
  | emitStore address data endian name => exact (vexEmitStore_frames _ _ _ _).returns _
  | emitExit condition taken takenArgs name => exact (vexEmitExit_frames _ _ _ _).returns _
  | finishJump target args =>
    have h : Frames (vexFinishJump target args) := frames_get_bind fun a =>
      .of_leads (leads_vexBuild (.setJump a.current target args) nofun fun _ => rfl)
    exact h.returns _
  | finishReturn values =>
    have h : Frames (vexFinishReturn values) := frames_get_bind fun a =>
      .of_leads (leads_vexBuild (.setReturn a.current values) nofun fun _ => rfl)
    exact h.returns _

end Calls

/-! ### Reachable adapters -/

/-- An adapter on a reachable module after a history of calls, whatever their outcomes.  Between
the calls of the adapter the module may be changed through the builder API. -/
inductive VexAdapter.Reachable : VexAdapter → Prop
  | create {m : Module} {entry memory : Nat} {a : VexAdapter} : m.Reachable →
    vexAdapterCreate m entry memory = .ok a → VexAdapter.Reachable a
  | build {a : VexAdapter} (c : Call) : VexAdapter.Reachable a →
    VexAdapter.Reachable (a.withModule (c.run a.module).1)
  | call {a : VexAdapter} (c : VexCall) : VexAdapter.Reachable a →
    VexAdapter.Reachable (c.run a).2

theorem reachable_call {m : Module} (h : m.Reachable) (c : Call) : (c.run m).1.Reachable := by
  obtain ⟨calls, rfl⟩ := h
  exact ⟨calls ++ [c], by rw [runCalls, runCalls, List.foldl_append]; rfl⟩

/-- No call removes a block. -/
theorem blocks_le_call {m : Module} (hwf : m.WF) (c : Call) :
    m.blocks.length ≤ (c.run m).1.blocks.length := by
  by_cases hc : c = .canonicalize
  · subst hc
    show m.blocks.length ≤ (canonicalizeModule m).1.blocks.length
    rcases canonicalizeModule_cases hwf with he | ⟨-, hver, he⟩
    · rw [he]
    · obtain ⟨σ, ω, hr⟩ := removesDead_canonicalizedModule hwf hver
      rw [he, hr.blocks]
  · by_contra hlt
    have hkeep := ((later_call m hc).keepsBlock (c.run m).1.blocks.length).lt (not_le.mp hlt)
    exact Nat.lt_irrefl _ hkeep

/-- A reachable adapter is ready, and its module is reachable. -/
theorem VexAdapter.Reachable.ready {a : VexAdapter} (h : a.Reachable) :
    a.Ready ∧ a.module.Reachable := by
  induction h with
  | @create m entry memory a hm h =>
    have hentry : entry < m.blocks.length := by
      rw [vexAdapterCreate] at h
      split at h
      · cases h
      · next hb => simpa [Module.validBlock] using hb
    have hok := vexAdapterCreate_tables h
    obtain rfl := vexAdapterCreate_ok h
    exact ⟨⟨hok, hentry⟩, hm⟩
  | @build a c _ ih =>
    obtain ⟨ha, hm⟩ := ih
    refine ⟨⟨ha.ok.withModule _, ?_⟩, reachable_call hm c⟩
    exact Nat.lt_of_lt_of_le ha.current_lt (blocks_le_call (wf_reachable hm) c)
  | @call a c _ ih => exact ⟨c.frames.ready a ih.1, (c.frames.later a).reachable ih.2⟩

theorem VexAdapter.Reachable.wf {a : VexAdapter} (h : a.Reachable) : a.module.WF :=
  wf_reachable h.ready.2

/-- `a'` is `a` after calls of the adapter and building calls, whatever their outcomes. -/
inductive VexAdapter.Later (a : VexAdapter) : VexAdapter → Prop
  | refl : VexAdapter.Later a a
  | build {a' : VexAdapter} (c : Call) : c ≠ .canonicalize → VexAdapter.Later a a' →
    VexAdapter.Later a (a'.withModule (c.run a'.module).1)
  | call {a' : VexAdapter} (c : VexCall) : VexAdapter.Later a a' → VexAdapter.Later a (c.run a').2

theorem VexAdapter.Later.module {a a' : VexAdapter} (h : a.Later a') :
    a.module.Later a'.module := by
  induction h with
  | refl => exact .refl _
  | build c hc _ ih => exact ih.trans (later_call _ hc)
  | @call a' c _ ih => exact ih.trans (c.frames.later a')

end Xair
