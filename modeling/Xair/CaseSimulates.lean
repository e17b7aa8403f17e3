import Xair.CaseFileText
import Xair.CasePrepare

/-!
# Case runs simulate the machine

What `xair_case_run` prints.  After a lift the module always passes the verifier and is frozen, so
that the tool stops only when the state cannot be prepared or the block does not run
(`caseRun_stops`).  For a configuration that stands for a machine the registers that are printed
are those that the machine ends with (`caseRun_machine`).
-/

namespace Xair

/-! ### The frozen module -/

section Frozen

variable {m : Module}

theorem execDefineAll_frozen (s : ExecState) (vs : List Nat) (xs : List ExecValue) :
    execDefineAll { valueNumberClear m with frozen := true } s vs xs = execDefineAll m s vs xs := by
  induction vs generalizing s xs with
  | nil => rfl
  | cons v vs ih =>
    cases xs with
    | nil => rfl
    | cons x xs =>
      rw [execDefineAll, execDefineAll]
      have hdef : execDefineValue { valueNumberClear m with frozen := true } s v x =
          execDefineValue m s v x := rfl
      rw [hdef]
      cases execDefineValue m s v x with
      | mk e s' =>
        cases e with
        | ok => exact ih s' xs
        | _ => rfl

theorem runOps_frozen {σ : Type} (I : Interp σ) (b : Nat) (os : List Nat) (s : σ) :
    runOps I { valueNumberClear m with frozen := true } b os s = runOps I m b os s := by
  induction os generalizing s with
  | nil => rfl
  | cons o os ih =>
    rw [runOps, runOps]
    simp only [ih]
    rfl

/-- A frozen module is executed as before. -/
theorem execRun_frozen (b : Nat) (s : ExecState) (limit : Nat) :
    execRun { valueNumberClear m with frozen := true } b s limit = execRun m b s limit := by
  have htransfer : execTransferArgs { valueNumberClear m with frozen := true } =
      execTransferArgs m := by
    funext s target args
    have hread : execReadValue { valueNumberClear m with frozen := true } s = execReadValue m s :=
      rfl
    rw [execTransferArgs, execTransferArgs, hread]
    simp only [execDefineAll_frozen]
    rfl
  have hinterp : execInterp { valueNumberClear m with frozen := true } = execInterp m := by
    rw [execInterp, execInterp, htransfer]
    rfl
  have hblock : runBlock (execInterp m) { valueNumberClear m with frozen := true } =
      runBlock (execInterp m) m := by
    funext c
    rw [runBlock, runBlock, runOps_frozen]
    rfl
  rw [execRun, execRun, hinterp, interpRun, interpRun, hblock]
  rfl

theorem caseExecute_frozen {config : CaseConfig} {lift : LiftResult} (hwf : m.WF)
    (hver : m.Verified) : caseExecute config { valueNumberClear m with frozen := true } lift =
      caseExecute config m lift := by
  have hver' : Module.Verified { valueNumberClear m with frozen := true } :=
    verified_congr hwf ⟨rfl, rfl, rfl, rfl⟩ hver
  have hprepare : casePrepare config { valueNumberClear m with frozen := true } lift =
      casePrepare config m lift := by
    rw [casePrepare, casePrepare, execStateCreate_ok hver, execStateCreate_ok hver']
    rfl
  rw [caseExecute, caseExecute, hprepare]
  simp only [execRun_frozen]

end Frozen

/-! ### The run of the tool -/

section Tool

variable {config : CaseConfig}

/-- The lift of a configuration. -/
def caseLift (config : CaseConfig) : Lifted :=
  liftBasicBlock Module.create config.image config.liftOptions

/-- After a lift only the execution can fail. -/
theorem caseRun_eq (hstatus : (caseLift config).status = .ok) :
    ∃ report : CaseExecution → CaseReport,
      (∀ x, (report x).lift = (caseLift config).result ∧ (report x).execution = x) ∧
      caseRun config = (canExecute config (caseLift config).result).elim
        ((caseExecute config (caseLift config).module (caseLift config).result).map
          fun exec => report (.ran exec (caseOutputRegs (caseLift config).result exec)))
        fun reason => .ok (report (.skipped reason)) := by
  obtain ⟨b, m₁, t, r, s', hl⟩ := liftBasicBlock_ok ⟨[], rfl⟩ hstatus
  have hout : caseLift config = ⟨.ok, s'.module, s'.result⟩ := hl.out
  have hver : s'.module.Verified := hl.verified (wf_reachable ⟨[], rfl⟩) (by decide)
  have hfrozen : s'.module.frozen = false :=
    hl.returned.extends_.frozen.trans hl.lifting.inv.draft.unfrozen
  refine ⟨CaseReport.mk s'.result
    (getModuleMetrics { valueNumberClear s'.module with frozen := true })
    (getValueNumberingStats s'.module)
    (getValueNumberingStats { valueNumberClear s'.module with frozen := true })
    (moduleFingerprint { valueNumberClear s'.module with frozen := true }),
    fun x => ⟨by rw [hout], rfl⟩, ?_⟩
  have hverify : verifyModule s'.module = .ok () := hver
  have hfreeze : moduleFreeze s'.module =
      ({ valueNumberClear s'.module with frozen := true }, .ok ()) := by
    rw [moduleFreeze, if_neg (by rw [hfrozen]; decide)]
  have hlift : liftBasicBlock Module.create config.image config.liftOptions =
      ⟨.ok, s'.module, s'.result⟩ := hl.out
  unfold caseRun
  rw [hlift]
  dsimp only
  rw [if_neg (not_not.mpr rfl), hverify, hfreeze, hout]
  dsimp only
  rw [caseExecute_frozen hl.returned.wf hver]
  cases canExecute config s'.result with
  | some reason => rfl
  | none =>
    show (caseExecute config s'.module s'.result >>= _) = _
    cases caseExecute config s'.module s'.result <;> rfl

theorem caseRun_skipped (hstatus : (caseLift config).status = .ok) {reason : CaseSkip}
    (hskip : canExecute config (caseLift config).result = some reason) :
    ∃ report, caseRun config = .ok report ∧ report.lift = (caseLift config).result ∧
      report.execution = .skipped reason := by
  obtain ⟨report, hreport, hrun⟩ := caseRun_eq hstatus
  rw [hskip] at hrun
  exact ⟨_, hrun, (hreport _).1, (hreport _).2⟩

theorem caseRun_refused (hstatus : (caseLift config).status = .ok)
    (hexec : canExecute config (caseLift config).result = none) {stop : CaseStop}
    (hstop : caseRefusal config (caseLift config).result = some stop) :
    caseRun config = .error stop := by
  obtain ⟨report, -, hrun⟩ := caseRun_eq hstatus
  obtain ⟨b, m₁, t, r, s', hl⟩ := liftBasicBlock_ok ⟨[], rfl⟩ hstatus
  have hout : caseLift config = ⟨.ok, s'.module, s'.result⟩ := hl.out
  have hver : s'.module.Verified := hl.verified (wf_reachable ⟨[], rfl⟩) (by decide)
  rw [hexec] at hrun
  rw [hout] at hrun hstop
  obtain ⟨hrefused, -⟩ := hl.casePrepare config hver rfl rfl
  rw [hrun, Option.elim, caseExecute, hrefused stop hstop]
  rfl

/-- **What the tool runs**: the block from a state that holds the configuration, whose error or
result it reports. -/
theorem caseRun_prepared (hstatus : (caseLift config).status = .ok)
    (hexec : canExecute config (caseLift config).result = none)
    (hfit : caseRefusal config (caseLift config).result = none) : ∃ b s,
      (caseLift config).result.block = some b ∧
      CasePrepared config (caseLift config).module (caseLift config).result s ∧
      ((∀ e, (execRun (caseLift config).module b s 256).1 = .error e →
        caseRun config = .error (.exec e)) ∧
      ∀ exec, (execRun (caseLift config).module b s 256).1 = .ok exec →
        ∃ report, caseRun config = .ok report ∧ report.lift = (caseLift config).result ∧
          report.execution = .ran exec (caseOutputRegs (caseLift config).result exec)) := by
  obtain ⟨report, hreport, hrun⟩ := caseRun_eq hstatus
  obtain ⟨b, m₁, t, r, s', hl⟩ := liftBasicBlock_ok ⟨[], rfl⟩ hstatus
  have hout : caseLift config = ⟨.ok, s'.module, s'.result⟩ := hl.out
  have hver : s'.module.Verified := hl.verified (wf_reachable ⟨[], rfl⟩) (by decide)
  rw [hexec] at hrun
  rw [hout] at hreport hrun hfit ⊢
  dsimp only at hreport hrun hfit ⊢
  obtain ⟨-, hprepared⟩ := hl.casePrepare config hver rfl rfl
  obtain ⟨s, hs, hprep⟩ := hprepared hfit
  refine ⟨b, s, hl.result_block, hs, fun e he => ?_, fun exec he => ?_⟩
  · rw [hrun, Option.elim, caseExecute, hprep, hl.result_block]
    show (Except.mapError CaseStop.exec (execRun s'.module b s 256).1).map _ = _
    rw [he]
    rfl
  · refine ⟨_, ?_, (hreport (.ran exec (caseOutputRegs s'.result exec))).1, (hreport _).2⟩
    rw [hrun, Option.elim, caseExecute, hprep, hl.result_block]
    show (Except.mapError CaseStop.exec (execRun s'.module b s 256).1).map _ = _
    rw [he]
    rfl

/-- **Where the tool stops** after a lift: the module always passes the verifier and is frozen,
a case that cannot be executed is reported, and the state is prepared unless memory or a register
does not fit. -/
theorem caseRun_stops (hstatus : (caseLift config).status = .ok) :
    (∀ reason, canExecute config (caseLift config).result = some reason →
      ∃ report, caseRun config = .ok report ∧ report.lift = (caseLift config).result ∧
        report.execution = .skipped reason) ∧
    (canExecute config (caseLift config).result = none →
      (∀ stop, caseRefusal config (caseLift config).result = some stop →
        caseRun config = .error stop) ∧
      (caseRefusal config (caseLift config).result = none → ∃ b s,
        (caseLift config).result.block = some b ∧
        CasePrepared config (caseLift config).module (caseLift config).result s ∧
        ((∀ e, (execRun (caseLift config).module b s 256).1 = .error e →
          caseRun config = .error (.exec e)) ∧
        ∀ exec, (execRun (caseLift config).module b s 256).1 = .ok exec →
          ∃ report, caseRun config = .ok report ∧ report.lift = (caseLift config).result ∧
            report.execution = .ran exec (caseOutputRegs (caseLift config).result exec)))) := by
  refine ⟨fun reason hskip => caseRun_skipped hstatus hskip, fun hexec => ⟨fun stop hstop => ?_,
    fun hfit => ?_⟩⟩
  · exact caseRun_refused hstatus hexec hstop
  · exact caseRun_prepared hstatus hexec hfit

/-- The configuration stands for a machine: the registers that it sets have the values of the
machine, and the memory of the machine is what the configuration stores. -/
structure CaseStarts (config : CaseConfig) (M : X86Machine config.arch) : Prop where
  regs : ∀ reg, config.haveReg reg = true →
    M.regs reg = (config.regs reg).setWidth config.arch.bits
  memory : M.memory = (FlatMemory.empty.storeAll config.memory).space 0

theorem canExecute_haveReg {lift : LiftResult} (h : canExecute config lift = none)
    {p : X86Reg × Nat} (hp : p ∈ lift.inputRegs) : config.haveReg p.1 = true := by
  unfold canExecute at h
  split at h
  · cases h
  · split at h
    · cases h
    · split at h
      · cases h
      · next hany =>
        by_contra hno
        exact hany (List.any_eq_true.mpr ⟨p, hp, by rw [Bool.eq_false_iff.mpr hno]; rfl⟩)

theorem caseRefusal_bits {lift : LiftResult} (h : caseRefusal config lift = none)
    {p : X86Reg × Nat} (hp : p ∈ lift.inputRegs) : config.arch.bits = 64 := by
  unfold caseRefusal at h
  split at h
  · cases h
  · split at h
    · cases h
    · split at h
      · cases h
      · next hn =>
        by_contra hb
        exact hn ⟨List.ne_nil_of_mem hp, hb⟩

theorem CasePrepared.standsFor {M : X86Machine config.arch} {m : Module} {lift : LiftResult}
    {s : ExecState} (hM : CaseStarts config M) (hexec : canExecute config lift = none)
    (hfit : caseRefusal config lift = none) (hs : CasePrepared config m lift s) :
    StandsFor lift 0 M s := by
  refine ⟨fun p hp => ?_, hs.memoryIn, fun a => ?_⟩
  · obtain ⟨hdef, hval⟩ := hs.regs p hp
    have hbits := caseRefusal_bits hfit hp
    refine ⟨hdef, ?_⟩
    have hmake : execI 64 (config.regs p.1) =
        wordValue (typeI 64) ((config.regs p.1).setWidth 64) :=
      execValueMake_word (.inl rfl) rfl (Nat.le_refl 64) _
    rw [hval, hM.regs p.1 (canExecute_haveReg hexec hp), Arch.int, hmake, hbits]
  · rw [hs.memory.byte, hM.memory]
    rfl

theorem findIdx_forall₂ {β : Type} {R : Nat → β → Prop} (hR : ∀ v x y, R v x → R v y → x = y)
    {ids : List Nat} {values : List β} (h : List.Forall₂ R ids values) {v : Nat} {x : β}
    (hv : v ∈ ids) (hx : R v x) :
    ((ids.findIdx? fun u => u == v).bind fun i => values[i]?) = some x := by
  induction h with
  | nil => cases hv
  | @cons u y ids values huy _ ih =>
    rw [List.findIdx?_cons]
    by_cases huv : u = v
    · subst huv
      rw [if_pos (beq_self_eq_true u)]
      exact congrArg some (hR u y x huy hx)
    · rw [if_neg (by rw [beq_iff_eq]; exact huv), Option.bind_map]
      rcases List.mem_cons.mp hv with rfl | hv
      · exact absurd rfl huv
      · exact ih hv

theorem forall₂_middle {α β : Type} {R : α → β → Prop} {l₁ l₂ : List α} {xs₁ xs₂ : List β} {a : α}
    {x : β} (hlen : l₁.length = xs₁.length)
    (h : List.Forall₂ R (l₁ ++ a :: l₂) (xs₁ ++ x :: xs₂)) : R a x := by
  have hdrop := List.forall₂_drop_append _ xs₁ (x :: xs₂) h
  rw [← hlen, List.drop_left] at hdrop
  exact (List.forall₂_cons.mp hdrop).1

/-- **A run of a lifted block reads its return values**, each id having one value. -/
theorem LiftedFrom.execRun_reads {m m₁ : Module} {image : Image} {options : LiftOptions} {b : Nat}
    {t s' : LiftState} {r : LiftResult} (hl : LiftedFrom m image options b m₁ t r s')
    {M M' : X86Machine options.arch} (hrun : M.runThenRsp (options.stream image).1 = some M')
    {s : ExecState} (hs : s.Reachable s'.module)
    (hM : StandsFor s'.result options.memorySpace M s) {limit : Nat} (hlimit : 1 ≤ limit) :
    ∃ (R : Nat → ExecValue → Prop) (values : List ExecValue),
      (∀ v x y, R v x → R v y → x = y) ∧ List.Forall₂ R s'.result.returnValues values ∧
      (execRun s'.module b s limit).1 =
        if execMaxReturns < s'.result.returnValues.length then .error .errRange
        else .ok ⟨.ret, b, 0, values⟩ := by
  have hret := hl.returned
  have hsok := hs.ok hret.wf
  obtain ⟨-, hin⟩ := hl.agrees hrun hsok hM
  obtain ⟨hc, -⟩ := hl.completes hsok hM
  obtain ⟨htok, -⟩ := hl.tokens
  have hden : Denotes s'.module b (runReading s'.module b s M.memory) := hl.block_eq ▸ hc.denotes
  obtain ⟨r', values, -, -, -, hvalues, hout⟩ :=
    hl.execRun_returns hsok (fun p hp => (hM.regs p hp).1) hM.memoryIn (hl.follows_start hs hM)
      (carries_follows hret.blockOk.ops hden hin htok hl.space s) hlimit
  rw [hret.args] at hvalues
  rw [hret.count] at hout
  refine ⟨_, values, fun v x y hx hy => ?_, hvalues, hout⟩
  rw [hx] at hy
  cases hy
  rfl

theorem LiftedFrom.caseOutputRegs {m m₁ : Module} {image : Image} {options : LiftOptions} {b : Nat}
    {t s' : LiftState} {r : LiftResult} (hl : LiftedFrom m image options b m₁ t r s')
    (hmax : s'.result.returnValues.length ≤ execMaxReturns)
    {M M' : X86Machine options.arch} (hrun : M.runThenRsp (options.stream image).1 = some M')
    {s : ExecState} (hs : s.Reachable s'.module)
    (hM : StandsFor s'.result options.memorySpace M s) {limit : Nat} (hlimit : 1 ≤ limit) :
    ∃ exec, (execRun s'.module b s limit).1 = .ok exec ∧ exec.kind = .ret ∧
      exec.returns.length = s'.result.returnValues.length ∧
      Xair.caseOutputRegs s'.result exec =
        s'.result.outputRegs.map fun p => (p.1, some ((M'.regs p.1).setWidth 64)) := by
  obtain ⟨R, values, hR, hvalues, hout⟩ := hl.execRun_reads hrun hs hM hlimit
  rw [if_neg (Nat.not_lt.mpr hmax)] at hout
  obtain ⟨ids, tokens, hlen, hids, hres⟩ := (hl.runSimulates hmax hrun hs hM hlimit).result
  rw [hout] at hres
  have hret : values = _ := congrArg ExecResult.returns (Except.ok.inj hres)
  refine ⟨_, hout, rfl, hvalues.length_eq.symm, List.map_congr_left fun p hp => ?_⟩
  have hmem : p.2 ∈ s'.result.returnValues := by
    rw [hids]
    exact List.mem_append_left _ (List.mem_append_right _ (List.mem_map_of_mem hp))
  have hread : R p.2 (options.arch.int (M'.regs p.1)) := by
    obtain ⟨pre, post, hsplit⟩ := List.append_of_mem hp
    rw [hids, hret] at hvalues
    dsimp only at hvalues
    rw [hsplit, List.map_append, List.map_append, List.map_cons, List.map_cons, List.append_assoc,
      List.append_assoc, List.append_assoc, List.append_assoc, List.cons_append, List.cons_append,
      ← List.append_assoc ids, ← List.append_assoc tokens] at hvalues
    exact forall₂_middle (by simp [hlen]) hvalues
  have hfirst := findIdx_forall₂ hR hvalues hmem hread
  have hindex : ((returnIndexForValue s'.result p.2).bind fun i => values[i]?.map ExecValue.lo) =
      some ((M'.regs p.1).setWidth 64) := by
    have hlo := congrArg (Option.map ExecValue.lo) hfirst
    rw [Option.map_bind] at hlo
    exact hlo
  rw [hindex]

/-- **The prepared block** ends with the registers of the machine, unless it returns more values
than the executor can hold. -/
theorem CasePrepared.ends {b : Nat} {s : ExecState} (hstatus : (caseLift config).status = .ok)
    (hexec : canExecute config (caseLift config).result = none)
    (hfit : caseRefusal config (caseLift config).result = none)
    (hb : (caseLift config).result.block = some b)
    (hs : CasePrepared config (caseLift config).module (caseLift config).result s)
    {M M' : X86Machine config.arch} (hM : CaseStarts config M)
    (hrun : M.run (config.liftOptions.stream config.image).1 = some M') :
    (execMaxReturns < streamReturns (config.liftOptions.stream config.image) →
      (execRun (caseLift config).module b s 256).1 = .error .errRange) ∧
    (streamReturns (config.liftOptions.stream config.image) ≤ execMaxReturns →
      ∃ exec, (execRun (caseLift config).module b s 256).1 = .ok exec ∧
        caseOutputRegs (caseLift config).result exec =
          ((caseLift config).result.outputRegs.map fun p =>
            (p.1, some ((M'.regs p.1).setWidth 64))) ∧
        exec.kind = .ret ∧
        exec.returns.length = streamReturns (config.liftOptions.stream config.image) ∧
        ∀ reg, (∀ p ∈ (caseLift config).result.outputRegs, p.1 ≠ reg) →
          M'.regs reg = M.regs reg) := by
  obtain ⟨c, m₁, t, r, s', hl⟩ := liftBasicBlock_ok ⟨[], rfl⟩ hstatus
  have hout : caseLift config = ⟨.ok, s'.module, s'.result⟩ := hl.out
  have hstands := hs.standsFor hM hexec hfit
  rw [hout] at hb hs hstands ⊢
  dsimp only at hb hs hstands ⊢
  obtain rfl : c = b := by
    rw [hl.result_block] at hb
    cases hb
    rfl
  have hrun' := X86Machine.runThenRsp_of_run hrun
  have honce : 1 ≤ 256 := by decide
  rw [← hl.length_returns]
  refine ⟨fun hmax => ?_, fun hmax => ?_⟩
  · obtain ⟨R, values, -, -, hrange⟩ := hl.execRun_reads hrun' hs.reachable hstands honce
    rw [hrange, if_pos hmax]
  · obtain ⟨exec, hexec', hkind, hlen, hregs⟩ := hl.caseOutputRegs hmax hrun' hs.reachable hstands
      honce
    exact ⟨exec, hexec', hregs, hkind, hlen,
      (hl.runSimulates hmax hrun' hs.reachable hstands honce).unlisted⟩

/-- **Case runs simulate the machine.**  A configuration that stands for a machine, and whose
registers and memory fit, is run to the registers that the machine ends with, unless the block
returns more values than the executor can hold; the registers that are not printed are kept. -/
theorem caseRun_machine (hstatus : (caseLift config).status = .ok)
    (hexec : canExecute config (caseLift config).result = none)
    (hfit : caseRefusal config (caseLift config).result = none) {M M' : X86Machine config.arch}
    (hM : CaseStarts config M)
    (hrun : M.run (config.liftOptions.stream config.image).1 = some M') :
    (execMaxReturns < streamReturns (config.liftOptions.stream config.image) →
      caseRun config = .error (.exec .errRange)) ∧
    (streamReturns (config.liftOptions.stream config.image) ≤ execMaxReturns →
      ∃ report exec, caseRun config = .ok report ∧ report.lift = (caseLift config).result ∧
        report.execution = .ran exec ((caseLift config).result.outputRegs.map fun p =>
          (p.1, some ((M'.regs p.1).setWidth 64))) ∧
        exec.kind = .ret ∧
        exec.returns.length = streamReturns (config.liftOptions.stream config.image) ∧
        ∀ reg, (∀ p ∈ (caseLift config).result.outputRegs, p.1 ≠ reg) →
          M'.regs reg = M.regs reg) := by
  obtain ⟨b, s, hb, hs, hfail, hdone⟩ := caseRun_prepared hstatus hexec hfit
  obtain ⟨hrange, hends⟩ := hs.ends hstatus hexec hfit hb hM hrun
  refine ⟨fun hmax => hfail _ (hrange hmax), fun hmax => ?_⟩
  obtain ⟨exec, hexec', hregs, hkind, hlen, hkept⟩ := hends hmax
  obtain ⟨report, hreport, hlift, hprinted⟩ := hdone exec hexec'
  rw [hregs] at hprinted
  exact ⟨report, exec, hreport, hlift, hprinted, hkind, hlen, hkept⟩

/-- `add eax, ebx; ret` on x86_32. -/
def addRet32Case : CaseConfig :=
  { addRetCase with bytes := [0x01#8, 0xd8#8, 0xc3#8], arch := .x8632 }

theorem caseRun_stops_addRet32 : caseRun addRet32Case = .error (.registerParam .errBadArg) := by
  have hstatus : (caseLift addRet32Case).status = .ok := by decide +kernel
  exact ((caseRun_stops hstatus).2 (by decide +kernel)).1 _ (by decide +kernel)

/-- The machine of `addRetCase`. -/
def addRetCaseMachine : X86Machine addRetCase.arch :=
  ⟨addRetCase.regs, (FlatMemory.empty.storeAll addRetCase.memory).space 0, false⟩

theorem caseRun_machine_addRet : ∃ report exec, caseRun addRetCase = .ok report ∧
    report.execution = .ran exec [(0, some 42#64)] := by
  have hval : (addRetCaseMachine.run (addRetCase.liftOptions.stream addRetCase.image).1).map
      (fun M => (M.regs 0).toNat) = some 42 := by decide +kernel
  obtain ⟨M', hrun, hrax⟩ := Option.map_eq_some_iff.mp hval
  have hstatus : (caseLift addRetCase).status = .ok := by decide +kernel
  have hstarts : CaseStarts addRetCase addRetCaseMachine :=
    ⟨fun reg _ => (BitVec.setWidth_eq _).symm, rfl⟩
  obtain ⟨report, exec, hreport, -, hexec, -⟩ := (caseRun_machine hstatus (by decide +kernel)
    (by decide +kernel) hstarts hrun).2 (by decide +kernel)
  refine ⟨report, exec, hreport, hexec.trans ?_⟩
  have houts : (caseLift addRetCase).result.outputRegs.map Prod.fst = [0] := by decide +kernel
  obtain ⟨p, hp⟩ := List.length_eq_one_iff.mp
    ((List.length_map Prod.fst).symm.trans (congrArg List.length houts))
  rw [hp, List.map_singleton, List.singleton_inj] at houts
  rw [hp, List.map_singleton, houts]
  have hw : (M'.regs 0).setWidth 64 = 42#64 := by
    refine BitVec.eq_of_toNat_eq ?_
    rw [BitVec.toNat_setWidth, hrax]
    rfl
  rw [hw]

/-! ### From the text on -/

/-- A report is about a lift that succeeded. -/
theorem caseRun_ok {report : CaseReport} (hrun : caseRun config = .ok report) :
    (caseLift config).status = .ok ∧ report.lift = (caseLift config).result := by
  have hstatus : (caseLift config).status = .ok := by
    by_contra hne
    change (liftBasicBlock Module.create config.image config.liftOptions).status ≠ .ok at hne
    rw [caseRun, if_pos hne] at hrun
    cases hrun
  refine ⟨hstatus, ?_⟩
  obtain ⟨print, hprint, heq⟩ := caseRun_eq hstatus
  rw [hrun] at heq
  cases hexec : canExecute config (caseLift config).result with
  | some reason =>
    rw [hexec] at heq
    cases heq
    exact (hprint _).1
  | none =>
    rw [hexec] at heq
    cases hexecute : caseExecute config (caseLift config).module (caseLift config).result with
    | error stop =>
      rw [hexecute] at heq
      cases heq
    | ok exec =>
      rw [hexecute] at heq
      cases heq
      exact (hprint _).1

/-- **What the tool prints for a text is right**, whatever the text is: the report is about the
lift of the configuration that was read; a block is skipped for the reason that is printed; and
where a machine stands for the configuration and executes the instructions, the registers that are
printed are those that it ends with, and the others are kept. -/
theorem caseMain_machine {text : CText.Text} {report : CaseReport}
    (h : caseMain text = some (.ok report)) :
    ∃ config, readCaseFile text = some config ∧ (caseLift config).status = .ok ∧
      report.lift = (caseLift config).result ∧
      (∀ reason, canExecute config report.lift = some reason →
        report.execution = .skipped reason) ∧
      (canExecute config report.lift = none → ∀ M M' : X86Machine config.arch,
        CaseStarts config M → M.run (config.liftOptions.stream config.image).1 = some M' →
        ∃ exec, report.execution = .ran exec (report.lift.outputRegs.map fun p =>
            (p.1, some ((M'.regs p.1).setWidth 64))) ∧ exec.kind = .ret ∧
          ∀ reg, (∀ p ∈ report.lift.outputRegs, p.1 ≠ reg) → M'.regs reg = M.regs reg) := by
  obtain ⟨config, hread, hrun⟩ := Option.map_eq_some_iff.mp h
  obtain ⟨hstatus, hlift⟩ := caseRun_ok hrun
  refine ⟨config, hread, hstatus, hlift, fun reason hskip => ?_, fun hexec M M' hM hM' => ?_⟩
  · rw [hlift] at hskip
    obtain ⟨report', hrun', -, hskipped⟩ := caseRun_skipped hstatus hskip
    rw [hrun] at hrun'
    cases hrun'
    exact hskipped
  · rw [hlift] at hexec ⊢
    have hfit : caseRefusal config (caseLift config).result = none := by
      rw [Option.eq_none_iff_forall_ne_some]
      intro stop hstop
      rw [caseRun_refused hstatus hexec hstop] at hrun
      cases hrun
    obtain ⟨b, s, hb, hs, hfail, hdone⟩ := caseRun_prepared hstatus hexec hfit
    obtain ⟨hrange, hends⟩ := hs.ends hstatus hexec hfit hb hM hM'
    rcases Nat.lt_or_ge execMaxReturns (streamReturns (config.liftOptions.stream config.image)) with
      hmax | hmax
    · rw [hfail _ (hrange hmax)] at hrun
      cases hrun
    · obtain ⟨exec, hexec', hregs, hkind, -, hkept⟩ := hends hmax
      obtain ⟨report', hrun', -, hprinted⟩ := hdone exec hexec'
      rw [hrun] at hrun'
      cases hrun'
      rw [hregs] at hprinted
      exact ⟨exec, hprinted, hkind, hkept⟩

/-- A machine that a configuration stands for. -/
def CaseConfig.machine (config : CaseConfig) : X86Machine config.arch :=
  ⟨fun reg => (config.regs reg).setWidth config.arch.bits,
    (FlatMemory.empty.storeAll config.memory).space 0, false⟩

/-- `push rax; pop rbx; ret`, with a byte of memory. -/
def pushPopText : CText.Text :=
  literalName "arch=x86_64\nbase=0x1000\nentry=0x1000\nmax_instructions=4\n" ++
    literalName "bytes=505bc3\nrun=1\nreg.rax=7\nreg.rsp=0x2000\nmem.0.0x1ff0=ff\n"

theorem caseMain_machine_pushPop : ∃ report exec, caseMain pushPopText = some (.ok report) ∧
    report.execution = .ran exec [(3, some 7#64), (4, some 0x2000#64)] := by
  have hok : ((caseMain pushPopText).bind Except.toOption).isSome = true := by decide +kernel
  obtain ⟨report, hreport⟩ := Option.isSome_iff_exists.mp hok
  obtain ⟨out, hmain, hout⟩ := Option.bind_eq_some_iff.mp hreport
  obtain rfl : out = .ok report := by
    cases out with
    | error stop => cases hout
    | ok r => cases hout; rfl
  obtain ⟨config, hread, -, hlift, -, hall⟩ := caseMain_machine hmain
  -- what the text says of the block and of the machine
  have hval : (readCaseFile pushPopText).map (fun c =>
      (canExecute c (caseLift c).result, (caseLift c).result.outputRegs.map Prod.fst,
        (c.machine.run (c.liftOptions.stream c.image).1).map fun M =>
          ((M.regs 3).toNat, (M.regs 4).toNat))) = some (none, [3, 4], some (7, 0x2000)) := by
    decide +kernel
  rw [hread, Option.map_some, Option.some.injEq, Prod.mk.injEq, Prod.mk.injEq] at hval
  obtain ⟨hexec, houts, hregs⟩ := hval
  obtain ⟨M', hrun, hM'⟩ := Option.map_eq_some_iff.mp hregs
  rw [← hlift] at hexec houts
  obtain ⟨exec, hran, -⟩ := hall hexec config.machine M' ⟨fun _ _ => rfl, rfl⟩ hrun
  refine ⟨report, exec, hmain, hran.trans ?_⟩
  obtain ⟨h3, h4⟩ := Prod.mk.injEq .. ▸ hM'
  have hprinted : (report.lift.outputRegs.map fun p => (p.1, some ((M'.regs p.1).setWidth 64))) =
      (report.lift.outputRegs.map Prod.fst).map fun reg =>
        (reg, some ((M'.regs reg).setWidth 64)) := by
    rw [List.map_map]
    rfl
  have hw : ∀ {reg n}, (M'.regs reg).toNat = n → (M'.regs reg).setWidth 64 = BitVec.ofNat 64 n :=
    fun h => by rw [← h]; exact BitVec.eq_of_toNat_eq (by simp)
  rw [hprinted, houts, List.map_cons, List.map_cons, List.map_nil, hw h3, hw h4]

end Tool

end Xair
