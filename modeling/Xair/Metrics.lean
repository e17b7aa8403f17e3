import Xair.HashCons

/-!
# Metrics

`xair_get_module_metrics` and `xair_get_value_numbering_stats`, and the ledger that a
history of calls keeps from what it was answered.  The two functions read sizes and
counters off the module; of the module itself the ledger asks only how many values it
has, to tell a new id from a shared one.  The counters go through every path of `add_op`
(a hit, a collision, a growing table, a failure after the table has grown) and through
canonicalization, which renumbers everything, and still agree with the ledger.
-/

namespace Xair

/-- `xair_module_metrics`. -/
structure ModuleMetrics where
  blocks : Nat
  values : Nat
  operations : Nat
  blockParameters : Nat
  terminatorArguments : Nat
  deriving DecidableEq, Repr

/-- What the terminator of one block adds to `terminator_arguments`. -/
def TermRec.metricArguments (t : TermRec) : Nat :=
  match t.kind with
  | .jump | .ret => t.trueArgCount
  | .cbranch => t.trueArgCount + t.falseArgCount + 1
  | _ => 0

/-- One round of the loop of `xair_get_module_metrics`. -/
def ModuleMetrics.addBlock (metrics : ModuleMetrics) (block : BlockRec) : ModuleMetrics :=
  { metrics with
    blockParameters := metrics.blockParameters + block.params.length
    terminatorArguments := metrics.terminatorArguments + block.term.metricArguments }

/-- `xair_get_module_metrics`. -/
def getModuleMetrics (m : Module) : ModuleMetrics :=
  m.blocks.foldl ModuleMetrics.addBlock ⟨m.blocks.length, m.values.length, m.ops.length, 0, 0⟩

/-- `xair_value_numbering_stats` as the API reports it. -/
structure ReportedStats where
  entries : Nat
  created : Nat
  reused : Nat
  collisions : Nat
  deriving DecidableEq, Repr

/-- `xair_get_value_numbering_stats`. -/
def getValueNumberingStats (m : Module) : ReportedStats :=
  ⟨m.valueNumberCount, m.stats.created, m.stats.reused, m.stats.collisions⟩

/-- The values that all terminators pass or test. -/
def Module.termArguments (m : Module) : Nat :=
  (m.blocks.map fun bb => bb.term.metricArguments).sum

theorem foldl_addBlock (bs : List BlockRec) (metrics : ModuleMetrics) :
    bs.foldl ModuleMetrics.addBlock metrics =
      { metrics with
        blockParameters := metrics.blockParameters + (bs.map fun bb => bb.params.length).sum
        terminatorArguments :=
          metrics.terminatorArguments + (bs.map fun bb => bb.term.metricArguments).sum } := by
  induction bs generalizing metrics with
  | nil => rfl
  | cons bb bs ih =>
    rw [List.foldl_cons, ih]
    simp only [ModuleMetrics.addBlock, List.map_cons, List.sum_cons, Nat.add_assoc]

theorem getModuleMetrics_eq (m : Module) : getModuleMetrics m =
    ⟨m.blocks.length, m.values.length, m.ops.length, m.paramCount, m.termArguments⟩ := by
  rw [getModuleMetrics, foldl_addBlock]
  simp only [Nat.zero_add]
  rfl

/-! ### The ledger of a history -/

/-- What the caller of a history can count: blocks and parameters it was given,
arguments it passed to terminators, building calls answered with a new id and with one that existed,
the new ones since the table was last dropped, and the operations that canonicalization
said it removed. -/
structure CallLedger where
  blocks : Nat
  params : Nat
  arguments : Nat
  fresh : Nat
  shared : Nat
  numbered : Nat
  removed : Nat
  deriving DecidableEq, Repr

/-- The ledger before the first call. -/
def CallLedger.empty : CallLedger := ⟨0, 0, 0, 0, 0, 0, 0⟩

/-- The `dead_operations_removed` of a canonicalization. -/
def reportedRemoved (m : Module) : Nat :=
  match (canonicalizeModule m).2 with
  | .ok stats => stats.deadOperationsRemoved
  | .error _ => 0

/-- Enter one call, made on a module of `m.values.length` values. -/
def CallLedger.enter (m : Module) (l : CallLedger) (c : Call) : CallLedger :=
  match (c.run m).2 with
  | .error _ => l
  | .ok id =>
    match c with
    | .blockCreate _ => { l with blocks := l.blocks + 1 }
    | .blockAddParam .. => { l with params := l.params + 1 }
    | .setJump _ _ args => { l with arguments := l.arguments + args.count }
    | .setCbranch _ _ _ targs _ fargs =>
      { l with arguments := l.arguments + (targs.count + fargs.count + 1) }
    | .setReturn _ values => { l with arguments := l.arguments + values.count }
    | .setTrap .. | .setFault .. => l
    | .canonicalize => { l with numbered := 0, removed := l.removed + reportedRemoved m }
    | .freeze => { l with numbered := 0 }
    | _ =>
      if id = some m.values.length then
        { l with fresh := l.fresh + 1, numbered := l.numbered + 1 }
      else { l with shared := l.shared + 1 }

/-- The ledger of the calls of a history made on `m`. -/
def ledgerOf : Module → CallLedger → List Call → CallLedger
  | _, l, [] => l
  | m, l, c :: calls => ledgerOf (c.run m).1 (l.enter m c) calls

/-- The module stands in the books as `l`. -/
structure Module.Booked (m : Module) (l : CallLedger) : Prop where
  wf : m.WF
  blocks : m.blocks.length = l.blocks
  arguments : m.termArguments = l.arguments
  values : m.values.length + l.removed = l.params + l.fresh
  ops : m.ops.length + l.removed = l.fresh
  created : m.stats.created = l.fresh
  reused : m.stats.reused = l.shared
  table : ∃ os, Tabled m os ∧ os.length = l.numbered

section Calls

variable {m : Module} {l : CallLedger} {k : OpKey} {name : Option Name}

/-! ### Building an operation -/

theorem reused_prepareInsert (m : Module) :
    (valueNumberPrepareInsert m).stats.reused = m.stats.reused := by
  unfold valueNumberPrepareInsert
  split
  · rfl
  · rfl

theorem reused_lookup (m : Module) (hash : Word) (k : OpKey) :
    (valueNumberLookup m hash k).1.stats.reused =
      m.stats.reused + if (valueNumberLookup m hash k).2.isSome then 1 else 0 := by
  unfold valueNumberLookup
  split
  · rfl
  · split
    · rfl
    · rfl

theorem stats_addValue (m : Module) (b : Nat) (t : Ty) (name : Option Name) :
    (addValue m b t name).1.stats = m.stats := by
  unfold addValue
  split
  · rfl
  · split
    · rfl
    · rfl

/-- `add_op` counts a reuse exactly when its lookup hits. -/
theorem reused_addOp (m : Module) (k : OpKey) (name : Option Name) :
    ((∀ v, (addOp m k name).2 = .ok v → (valueNumberLookup m (valueNumberHash k) k).2 = none) →
        (addOp m k name).1.stats.reused = m.stats.reused) ∧
      (∀ v, (addOp m k name).2 = .ok v → (valueNumberLookup m (valueNumberHash k) k).2 = some v →
        (addOp m k name).1.stats.reused = m.stats.reused + 1) := by
  have hcount := reused_lookup m (valueNumberHash k) k
  unfold addOp
  split
  · exact ⟨fun _ => rfl, fun v h => by cases h⟩
  split
  · exact ⟨fun _ => rfl, fun v h => by cases h⟩
  split
  · exact ⟨fun _ => rfl, fun v h => by cases h⟩
  split
  · next m₁ v hl =>
    rw [hl] at hcount ⊢
    exact ⟨fun h => absurd (h v rfl) (by simp), fun _ _ _ => hcount⟩
  · next m₁ hl =>
    rw [hl] at hcount ⊢
    have hprep := reused_prepareInsert m₁
    have hvalue := stats_addValue (valueNumberPrepareInsert m₁) k.block k.type name
    split
    · next m₂ e he =>
      rw [he] at hvalue
      refine ⟨fun _ => ?_, fun v h => by cases h⟩
      show m₂.stats.reused = _
      rw [hvalue, hprep, hcount]
      rfl
    · next m₂ v he =>
      rw [he] at hvalue
      refine ⟨fun _ => ?_, fun v _ h => by cases h⟩
      show m₂.stats.reused = _
      rw [hvalue, hprep, hcount]
      rfl

/-- Replacing a block changes the argument count by the difference of the two. -/
theorem sum_metricArguments_set (bs : List BlockRec) (b : Nat) (bb : BlockRec)
    (hb : b < bs.length) :
    ((bs.set b bb).map fun bb => bb.term.metricArguments).sum + bs[b].term.metricArguments =
      (bs.map fun bb => bb.term.metricArguments).sum + bb.term.metricArguments := by
  induction bs generalizing b with
  | nil => exact absurd hb (Nat.not_lt_zero _)
  | cons a bs ih =>
    cases b with
    | zero =>
      simp only [List.set_cons_zero, List.map_cons, List.sum_cons, List.getElem_cons_zero]
      omega
    | succ b =>
      have h := ih b (Nat.lt_of_succ_lt_succ hb)
      simp only [List.set_cons_succ, List.map_cons, List.sum_cons, List.getElem_cons_succ]
      omega

theorem termArguments_set (m : Module) {b : Nat} (hb : b < m.blocks.length) (bb : BlockRec) :
    (({ m with blocks := m.blocks.set b bb } : Module).termArguments) +
        (m.blockRec b).term.metricArguments =
      m.termArguments + bb.term.metricArguments := by
  have h := sum_metricArguments_set m.blocks b bb hb
  have hget : m.blocks[b] = m.blockRec b := by
    rw [Module.blockRec, List.getD_eq_getElem?_getD, List.getElem?_eq_getElem hb, Option.getD_some]
  rw [hget] at h
  exact h

theorem termArguments_congr {m' : Module} (h : m'.blocks = m.blocks) :
    m'.termArguments = m.termArguments := by
  rw [Module.termArguments, h]
  rfl

/-- The table after `add_op` follows the operations: it stands for the same ones, or for
the new one as well. -/
theorem tabled_addOp_of_ops {os : List Nat} (hwf : m.WF) (h : Tabled m os) :
    ((addOp m k name).1.ops.length = m.ops.length →
        Tabled (addOp m k name).1 os ∧ (addOp m k name).1.stats.created = m.stats.created) ∧
      ((addOp m k name).1.ops.length = m.ops.length + 1 →
        Tabled (addOp m k name).1 (os ++ [m.ops.length]) ∧
          (addOp m k name).1.stats.created = m.stats.created + 1) := by
  rcases tabled_addOp hwf h k name with ⟨ht, hc, hcr⟩ | ⟨ht, ⟨n, hc⟩, hcr⟩
  · refine ⟨fun _ => ⟨ht, hcr⟩, fun hlen => ?_⟩
    rw [hc.ops] at hlen
    omega
  · refine ⟨fun hlen => ?_, fun _ => ⟨ht, hcr⟩⟩
    rw [hc.ops, Module.withOp, List.length_append, List.length_singleton] at hlen
    omega

/-- A build keeps the books: a failure enters nothing, a value that existed is a reuse,
and a new value is a new operation in the table. -/
theorem Module.Booked.addOp (h : m.Booked l) (hwf : (Xair.addOp m k name).1.WF) :
    (∃ e, (Xair.addOp m k name).2 = .error e ∧ (Xair.addOp m k name).1.Booked l) ∨
      (∃ v < m.values.length, (Xair.addOp m k name).2 = .ok v ∧
        (Xair.addOp m k name).1.Booked { l with shared := l.shared + 1 }) ∨
      ((Xair.addOp m k name).2 = .ok m.values.length ∧ (Xair.addOp m k name).1.Booked
        { l with fresh := l.fresh + 1, numbered := l.numbered + 1 }) := by
  obtain ⟨os, ht, hos⟩ := h.table
  obtain ⟨hkeep, hgrow⟩ := @tabled_addOp_of_ops m k name os h.wf ht
  obtain ⟨hmiss, hhit⟩ := reused_addOp m k name
  rcases addOp_cases m k name with ⟨hc, e, he⟩ | ⟨-, -, hc, v, hv, hm, hl⟩ |
    ⟨-, hopen, -, -, -, -, hl, hc, hv⟩
  · -- failure: the table may have grown, for nothing
    obtain ⟨ht', hcr⟩ := hkeep (by rw [hc.ops])
    refine .inl ⟨e, he, hwf, ?_, (termArguments_congr hc.blocks).trans h.arguments, ?_, ?_,
      hcr.trans h.created, ?_, os, ht', hos⟩
    · rw [hc.blocks]; exact h.blocks
    · rw [hc.values]; exact h.values
    · rw [hc.ops]; exact h.ops
    · rw [hmiss fun v hv => by rw [he] at hv; cases hv]; exact h.reused
  · obtain ⟨ht', hcr⟩ := hkeep (by rw [hc.ops])
    obtain ⟨o, ho, hdst, -⟩ := (valueNumberMatches_iff h.wf).mp hm
    refine .inr (.inl ⟨v, hdst ▸ (h.wf.op_dst o ho).1, hv, hwf, ?_,
      (termArguments_congr hc.blocks).trans h.arguments, ?_, ?_, hcr.trans h.created, ?_,
      os, ht', hos⟩)
    · rw [hc.blocks]; exact h.blocks
    · rw [hc.values]; exact h.values
    · rw [hc.ops]; exact h.ops
    · rw [hhit v hv hl, h.reused]
  · have hops : (Xair.addOp m k name).1.ops.length = m.ops.length + 1 := by
      rw [hc.ops, Module.withOp, List.length_append, List.length_singleton]
    have hvalues : (Xair.addOp m k name).1.values.length = m.values.length + 1 := by
      rw [hc.values, Module.withOp, List.length_append, List.length_singleton]
    have hblocks : (Xair.addOp m k name).1.blocks.length = m.blocks.length := by
      rw [hc.blocks, Module.withOp, List.length_set]
    have hargs : (Xair.addOp m k name).1.termArguments = m.termArguments := by
      rw [termArguments_congr hc.blocks]
      exact Nat.add_right_cancel (termArguments_set m hopen.1 _)
    obtain ⟨ht', hcr⟩ := hgrow hops
    have hv₀ := h.values
    have ho₀ := h.ops
    refine .inr (.inr ⟨hv, hwf, hblocks.trans h.blocks, hargs.trans h.arguments, ?_, ?_, ?_, ?_, _,
      ht', ?_⟩)
    · rw [hvalues]; dsimp only; omega
    · rw [hops]; dsimp only; omega
    · rw [hcr, h.created]
    · rw [hmiss fun _ _ => hl]; exact h.reused
    · rw [List.length_append, List.length_singleton, hos]

/-! ### The other calls -/

/-- A change that enters `n` terminator arguments and nothing else. -/
structure Enters (n : Nat) (m m' : Module) : Prop where
  frame : TableFrame m m'
  values : m'.values.length = m.values.length
  blocks : m'.blocks.length = m.blocks.length
  reused : m'.stats.reused = m.stats.reused
  arguments : m'.termArguments = m.termArguments + n

theorem Enters.refl (m : Module) : Enters 0 m m := ⟨.refl m, rfl, rfl, rfl, rfl⟩

theorem Enters.trans {n n' : Nat} {m' m'' : Module} (h : Enters n m m') (h' : Enters n' m' m'') :
    Enters (n + n') m m'' where
  frame := h.frame.trans h'.frame
  values := h'.values.trans h.values
  blocks := h'.blocks.trans h.blocks
  reused := h'.reused.trans h.reused
  arguments := by rw [h'.arguments, h.arguments, Nat.add_assoc]

/-- The same after a change that enters nothing. -/
theorem Enters.after {n : Nat} {m' m'' : Module} (h : Enters n m' m'') (h₀ : Enters 0 m m') :
    Enters n m m'' := by
  have ht := h₀.trans h
  rw [Nat.zero_add] at ht
  exact ht

theorem Module.Booked.enters {n : Nat} {m' : Module} (h : m.Booked l) (hs : Enters n m m')
    (hwf : m'.WF) : m'.Booked { l with arguments := l.arguments + n } := by
  obtain ⟨os, ht, hos⟩ := h.table
  refine ⟨hwf, hs.blocks.trans h.blocks, ?_, ?_, ?_, hs.frame.created.trans h.created,
    hs.reused.trans h.reused, os, ht.frame h.wf hs.frame, hos⟩
  · rw [hs.arguments, h.arguments]
  · rw [hs.values]; exact h.values
  · rw [hs.frame.ops]; exact h.ops

theorem enters_appendTermArgs (m : Module) (args : ArgArray) :
    Enters 0 m (appendTermArgs m args).1 := by
  rcases appendTermArgs_cases m args with ⟨e, he⟩ | ⟨ids, -, he⟩
  · rw [he]; exact .refl m
  · rw [he]; exact ⟨tableFrame_of_eq rfl rfl rfl rfl rfl, rfl, rfl, rfl, rfl⟩

/-- A block gets a terminator once, so its arguments are entered once. -/
theorem enters_setTerm (m : Module) (b : Nat) (t : TermRec) :
    (∃ e, (setTerm m b t).2 = .error e ∧ Enters 0 m (setTerm m b t).1) ∨
      (setTerm m b t).2 = .ok () ∧ Enters t.metricArguments m (setTerm m b t).1 := by
  have h := tableFrame_setTerm m b t
  unfold setTerm at h ⊢
  split
  · exact .inl ⟨_, rfl, .refl m⟩
  · next hopen =>
    rw [if_neg hopen] at h
    simp only [Bool.not_eq_true', Bool.not_eq_false] at hopen
    obtain ⟨-, hb, hnone⟩ := isOpen_iff.mp hopen
    refine .inr ⟨rfl, h, rfl, List.length_set, rfl, ?_⟩
    have hset := termArguments_set m hb { m.blockRec b with term := t }
    have hzero : (m.blockRec b).term.metricArguments = 0 := by rw [TermRec.metricArguments, hnone]
    rw [hzero] at hset
    exact hset

theorem enters_setJump (m : Module) (b t : Nat) (args : ArgArray) :
    (∃ e, (setJump m b t args).2 = .error e ∧ Enters 0 m (setJump m b t args).1) ∨
      (setJump m b t args).2 = .ok () ∧ Enters args.count m (setJump m b t args).1 := by
  have h := enters_appendTermArgs m args
  unfold setJump
  split
  · exact .inl ⟨_, rfl, .refl m⟩
  · split
    · next he => rw [he] at h; exact .inl ⟨_, rfl, h⟩
    · next m₁ offset he =>
      rw [he] at h
      rcases enters_setTerm m₁ b { TermRec.empty .jump with
          trueTarget := t, trueArgOffset := offset, trueArgCount := args.count } with
        ⟨e, hr, hs⟩ | ⟨hr, hs⟩
      · exact .inl ⟨e, hr, hs.after h⟩
      · exact .inr ⟨hr, hs.after h⟩

theorem enters_setCbranch (m : Module) (b c t : Nat) (ta : ArgArray) (f : Nat) (fa : ArgArray) :
    (∃ e, (setCbranch m b c t ta f fa).2 = .error e ∧ Enters 0 m (setCbranch m b c t ta f fa).1) ∨
      (setCbranch m b c t ta f fa).2 = .ok () ∧
        Enters (ta.count + fa.count + 1) m (setCbranch m b c t ta f fa).1 := by
  have h := enters_appendTermArgs m ta
  unfold setCbranch
  split
  · exact .inl ⟨_, rfl, .refl m⟩
  · split
    · next he => rw [he] at h; exact .inl ⟨_, rfl, h⟩
    · next m₁ off he =>
      rw [he] at h
      have h' := enters_appendTermArgs m₁ fa
      split
      · next he' => rw [he'] at h'; exact .inl ⟨_, rfl, h.trans h'⟩
      · next m₂ off' he' =>
        rw [he'] at h'
        rcases enters_setTerm m₂ b ⟨.cbranch, c, t, f, off, ta.count, off', fa.count, 0⟩ with
          ⟨e, hr, hs⟩ | ⟨hr, hs⟩
        · exact .inl ⟨e, hr, hs.after (h.trans h')⟩
        · exact .inr ⟨hr, hs.after (h.trans h')⟩

theorem enters_setReturn (m : Module) (b : Nat) (vs : ArgArray) :
    (∃ e, (setReturn m b vs).2 = .error e ∧ Enters 0 m (setReturn m b vs).1) ∨
      (setReturn m b vs).2 = .ok () ∧ Enters vs.count m (setReturn m b vs).1 := by
  have h := enters_appendTermArgs m vs
  unfold setReturn
  split
  · exact .inl ⟨_, rfl, .refl m⟩
  · split
    · next he => rw [he] at h; exact .inl ⟨_, rfl, h⟩
    · next m₁ offset he =>
      rw [he] at h
      rcases enters_setTerm m₁ b { TermRec.empty .ret with
          trueArgOffset := offset, trueArgCount := vs.count } with ⟨e, hr, hs⟩ | ⟨hr, hs⟩
      · exact .inl ⟨e, hr, hs.after h⟩
      · exact .inr ⟨hr, hs.after h⟩

/-- A terminator without arguments enters nothing. -/
theorem enters_setTerm_code (m : Module) (b code : Nat) {kind : TermKind}
    (hk : kind = .trap ∨ kind = .fault) :
    Enters 0 m (setTerm m b { TermRec.empty kind with code := code }).1 := by
  rcases enters_setTerm m b { TermRec.empty kind with code := code } with ⟨e, -, hs⟩ | ⟨-, hs⟩
  · exact hs
  · rcases hk with rfl | rfl
    · exact hs
    · exact hs

theorem enters_setTrap (m : Module) (b code : Nat) : Enters 0 m (setTrap m b code).1 := by
  unfold setTrap
  split
  · exact .refl m
  · exact enters_setTerm_code m b code (.inl rfl)

theorem enters_setFault (m : Module) (b code : Nat) : Enters 0 m (setFault m b code).1 := by
  unfold setFault
  split
  · exact .refl m
  · exact enters_setTerm_code m b code (.inr rfl)

/-- The passes keep the counters of the table. -/
theorem stats_canonicalizedModule (m : Module) : (canonicalizedModule m).stats = m.stats := by
  have hfold : (foldedModule m).stats = m.stats := by
    refine localSteps_induct (P := fun m₁ => m₁.stats = m.stats) ?_ (localSteps_foldedModule m) rfl
    rintro m₁ m₂ h ⟨ho, hr⟩
    exact h
  rw [canonicalizedModule_eq, eliminateDeadValues, compactLiveValues_eq]
  split
  · exact hfold
  · exact hfold

theorem metricArguments_rename (σ : Nat → Option Nat) (t : TermRec) :
    (t.rename σ).metricArguments = t.metricArguments := by
  rw [TermRec.rename]
  split
  · rfl
  · rfl

theorem termArguments_canonicalizedModule (hwf : m.WF) (hver : m.Verified) :
    (canonicalizedModule m).termArguments = m.termArguments := by
  obtain ⟨σ, ω, hc, -⟩ := compaction_canonicalizedModule hwf hver
  have hblocks := hc.blocks
  rw [(foldedModule_core m).2.2.1] at hblocks
  have hterm : ∀ b < m.blocks.length, ((canonicalizedModule m).blockRec b).term.metricArguments =
      (m.blockRec b).term.metricArguments := by
    intro b hb
    have ht := hc.term b (by rw [(foldedModule_core m).2.2.1]; exact hb)
    rw [foldedModule_blockRec] at ht
    rw [ht, metricArguments_rename]
  unfold Module.termArguments
  refine congrArg List.sum (List.ext_getElem (by simp [hblocks]) fun b hb hb' => ?_)
  rw [List.length_map] at hb hb'
  have h := hterm b hb'
  rw [Module.blockRec, Module.blockRec, List.getD_eq_getElem?_getD, List.getD_eq_getElem?_getD,
    List.getElem?_eq_getElem hb, List.getElem?_eq_getElem hb'] at h
  simpa using h

/-- Canonicalization renumbers everything and empties the table; the ledger writes off
what it reports as removed. -/
theorem Module.Booked.canonicalize (h : m.Booked l) :
    (canonicalizeModule m).1.Booked (l.enter m .canonicalize) := by
  have hkeep : ∀ e, canonicalizeModule m = (m, .error e) →
      (canonicalizeModule m).1.Booked (l.enter m .canonicalize) := by
    intro e he
    have hl : l.enter m .canonicalize = l := by simp only [CallLedger.enter, Call.run, he, Except.map]
    rw [hl, he]
    exact h
  by_cases hf : m.frozen = true
  · exact hkeep .errBadArg (by simp [canonicalizeModule, hf])
  have hf : m.frozen = false := by simpa using hf
  cases hv : verifyModule m with
  | error e => exact hkeep .errVerify (by simp [canonicalizeModule, hf, hv])
  | ok _ =>
    have he := canonicalizeModule_ok h.wf hf hv
    have hremoved : reportedRemoved m = m.ops.length - (canonicalizedModule m).ops.length := by
      have hcounts := (eliminateDeadValues_counts (foldedModule m)).2
      rw [(foldedModule_core m).2.1, ← canonicalizedModule_eq] at hcounts
      rw [reportedRemoved, he]
      exact hcounts
    have hl : l.enter m .canonicalize =
        { l with
          numbered := 0
          removed := l.removed + (m.ops.length - (canonicalizedModule m).ops.length) } := by
      simp only [CallLedger.enter, Call.run, he, Except.map, hremoved]
    rw [hl, he]
    obtain ⟨σ, ω, hc, -⟩ := compaction_canonicalizedModule h.wf hv
    have hblocks := hc.blocks
    have hvalues := hc.values_le
    have hops := hc.ops_le
    have hpair := hc.removed (wf_foldedModule h.wf)
    obtain ⟨hfv, hfo, hfb, -⟩ := foldedModule_core m
    rw [hfb] at hblocks
    rw [hfv] at hvalues hpair
    rw [hfo] at hops hpair
    have hstats := stats_canonicalizedModule m
    obtain ⟨hn, hcount⟩ := table_canonicalizedModule m
    have hv₀ := h.values
    have ho₀ := h.ops
    refine ⟨wf_canonicalizedModule h.wf hv, hblocks.trans h.blocks,
      (termArguments_canonicalizedModule h.wf hv).trans h.arguments, ?_, ?_, ?_, ?_, [],
      tabled_nil hn hcount, rfl⟩
    · dsimp only; omega
    · dsimp only; omega
    · rw [hstats]; exact h.created
    · rw [hstats]; exact h.reused

theorem Module.Booked.blockCreate (h : m.Booked l) :
    (Call.run m (.blockCreate name)).1.Booked (l.enter m (.blockCreate name)) := by
  have hwf := wf_call h.wf (.blockCreate name)
  have hframe := tableFrame_blockCreate m name
  obtain ⟨os, ht, hos⟩ := h.table
  rcases blockCreate_cases m name with ⟨e, he⟩ | ⟨-, -, he⟩
  · simp only [Call.run, he, CallLedger.enter, Except.map]
    exact h
  · simp only [Call.run, he, CallLedger.enter, Except.map] at hwf hframe ⊢
    refine ⟨hwf, ?_, ?_, h.values, h.ops, h.created, h.reused, os, ht.frame h.wf hframe, hos⟩
    · rw [Module.withBlock, List.length_append, h.blocks, List.length_singleton]
    · have h0 := h.arguments
      unfold Module.termArguments at h0 ⊢
      rw [Module.withBlock, List.map_append, List.sum_append, h0]
      rfl

theorem Module.Booked.blockAddParam {b : Nat} {t : Ty} (h : m.Booked l) :
    (Call.run m (.blockAddParam b t name)).1.Booked (l.enter m (.blockAddParam b t name)) := by
  have hwf := wf_call h.wf (.blockAddParam b t name)
  have hframe := tableFrame_blockAddParam m b t name
  obtain ⟨os, ht, hos⟩ := h.table
  rcases blockAddParam_cases m b t name with ⟨e, he⟩ | ⟨-, hopen, -, -, he⟩
  · simp only [Call.run, he, CallLedger.enter, Except.map]
    exact h
  · simp only [Call.run, he, CallLedger.enter, Except.map] at hwf hframe ⊢
    have hv := h.values
    refine ⟨hwf, ?_, ?_, ?_, h.ops, h.created, h.reused, os, ht.frame h.wf hframe, hos⟩
    · rw [Module.withParam, List.length_set, h.blocks]
    · rw [← h.arguments]
      exact Nat.add_right_cancel (termArguments_set m hopen.1 _)
    · rw [Module.withParam, List.length_append, List.length_singleton]
      dsimp only
      omega

/-- The calls that ask for an operation. -/
theorem CallLedger.enter_build {c : Call} (hk : c.key m = some k) (l : CallLedger) :
    (∀ e, (c.run m).2 = .error e → l.enter m c = l) ∧
      ∀ v, (c.run m).2 = .ok (some v) → l.enter m c =
        if v = m.values.length then { l with fresh := l.fresh + 1, numbered := l.numbered + 1 }
        else { l with shared := l.shared + 1 } := by
  refine ⟨fun e he => by rw [CallLedger.enter, he], fun v hv => ?_⟩
  rw [CallLedger.enter, hv]
  cases c <;> simp only [Call.key, reduceCtorEq] at hk <;> simp only [Option.some.injEq]

theorem Module.Booked.build {c : Call} (h : m.Booked l) (hk : c.key m = some k) :
    (c.run m).1.Booked (l.enter m c) := by
  have hwf := wf_call h.wf c
  obtain ⟨herr, hok⟩ := l.enter_build hk
  rcases Call.run_key hk with ⟨e, he⟩ | ⟨name, he⟩
  · rw [herr e (by rw [he]), he]
    exact h
  · rw [he] at hwf herr hok ⊢
    rcases h.addOp hwf with ⟨e, hr, hb⟩ | ⟨v, hv, hr, hb⟩ | ⟨hr, hb⟩
    · rw [herr e (by rw [hr]; rfl)]
      exact hb
    · rw [hok v (by rw [hr]; rfl), if_neg (Nat.ne_of_lt hv)]
      exact hb
    · rw [hok _ (by rw [hr]; rfl), if_pos rfl]
      exact hb

/-- Dropping the table keeps everything that it does not hold. -/
theorem Module.Booked.freeze (h : m.Booked l) :
    (Call.run m .freeze).1.Booked (l.enter m .freeze) := by
  have hwf := wf_call h.wf .freeze
  by_cases hf : m.frozen = true
  · simp only [Call.run, moduleFreeze, if_pos hf, CallLedger.enter, Except.map]
    exact h
  · simp only [Call.run, moduleFreeze, if_neg hf, CallLedger.enter, Except.map] at hwf ⊢
    exact ⟨hwf, h.blocks, h.arguments, h.values, h.ops, h.created, h.reused, [], tabled_nil rfl rfl,
      rfl⟩

/-- **Every call keeps the books.** -/
theorem Module.Booked.call (h : m.Booked l) (c : Call) : (c.run m).1.Booked (l.enter m c) := by
  have hwf := wf_call h.wf c
  have hzero : ∀ {m' : Module}, Enters 0 m m' → m'.WF → m'.Booked l := fun hs hwf => h.enters hs hwf
  cases hk : c.key m with
  | some k => exact h.build hk
  | none =>
    cases c <;> simp only [Call.key, reduceCtorEq] at hk
    case blockCreate name => exact h.blockCreate
    case blockAddParam b t name => exact h.blockAddParam
    case setJump b t args =>
      rcases enters_setJump m b t args with ⟨e, he, hs⟩ | ⟨he, hs⟩
      · simp only [Call.run, he, CallLedger.enter, Except.map]
        exact hzero hs hwf
      · simp only [Call.run, he, CallLedger.enter, Except.map]
        exact h.enters hs hwf
    case setCbranch b c t ta f fa =>
      rcases enters_setCbranch m b c t ta f fa with ⟨e, he, hs⟩ | ⟨he, hs⟩
      · simp only [Call.run, he, CallLedger.enter, Except.map]
        exact hzero hs hwf
      · simp only [Call.run, he, CallLedger.enter, Except.map]
        exact h.enters hs hwf
    case setReturn b vs =>
      rcases enters_setReturn m b vs with ⟨e, he, hs⟩ | ⟨he, hs⟩
      · simp only [Call.run, he, CallLedger.enter, Except.map]
        exact hzero hs hwf
      · simp only [Call.run, he, CallLedger.enter, Except.map]
        exact h.enters hs hwf
    case setTrap b code =>
      have hl : l.enter m (.setTrap b code) = l := by
        unfold CallLedger.enter
        split
        · rfl
        · rfl
      rw [hl]
      exact hzero (enters_setTrap m b code) hwf
    case setFault b code =>
      have hl : l.enter m (.setFault b code) = l := by
        unfold CallLedger.enter
        split
        · rfl
        · rfl
      rw [hl]
      exact hzero (enters_setFault m b code) hwf
    case canonicalize => exact h.canonicalize
    case freeze => exact h.freeze

theorem booked_ledgerOf (calls : List Call) (h : m.Booked l) :
    (runCalls m calls).Booked (ledgerOf m l calls) := by
  induction calls generalizing m l with
  | nil => exact h
  | cons c calls ih => exact ih (h.call c)

end Calls

/-- **The books of every history balance.**  After any sequence of public calls, failing
ones and canonicalizations included, `xair_get_module_metrics` and
`xair_get_value_numbering_stats` report what the answers to the calls add up to: one block
and one parameter for each call that created one, the arguments of the terminators that
were set, one operation for each new value except those reported as removed, one reuse for
each building call answered with an existing value, and one entry for each new value since
the table was last dropped. -/
theorem metrics_runCalls (calls : List Call) :
    let m := runCalls Module.create calls
    let l := ledgerOf Module.create .empty calls
    (getModuleMetrics m).blocks = l.blocks ∧ (getModuleMetrics m).blockParameters = l.params ∧
      (getModuleMetrics m).terminatorArguments = l.arguments ∧
      (getModuleMetrics m).operations + l.removed = l.fresh ∧
      (getModuleMetrics m).values =
        (getModuleMetrics m).operations + (getModuleMetrics m).blockParameters ∧
      (getValueNumberingStats m).created = l.fresh ∧
      (getValueNumberingStats m).reused = l.shared ∧
      (getValueNumberingStats m).entries = l.numbered := by
  have h : (runCalls Module.create calls).Booked (ledgerOf Module.create .empty calls) :=
    booked_ledgerOf calls ⟨wf_create, rfl, rfl, rfl, rfl, rfl, rfl, [], tabled_nil rfl rfl, rfl⟩
  obtain ⟨os, ht, hos⟩ := h.table
  have hcount := values_length h.wf
  have hvalues := h.values
  have hops := h.ops
  simp only [getModuleMetrics_eq]
  refine ⟨h.blocks, ?_, h.arguments, hops, ?_, h.created, h.reused, ?_⟩
  · omega
  · omega
  · show (runCalls Module.create calls).valueNumberCount = _
    rw [ht.table.count_eq, List.length_map, hos]

end Xair
