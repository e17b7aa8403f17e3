import Xair.CaseFile
import Xair.Fingerprint
import Xair.LiftSimulates
import Xair.Metrics

/-!
# Running case files

`main` of `xair_case_run.c` from the configuration on: the block is lifted into a new module, the
module is verified and frozen, and the block is executed with the memory and the registers of the
configuration when it can be.  The report holds what is printed; the texts around it, the decoder's
name and the texts of statuses are left out.
-/

namespace Xair

/-! ### The tool -/

/-- The image of a configuration, as `xair_image_init` makes it. -/
def BenchCase.image (c : BenchCase) : Image := ⟨c.bytes, c.base⟩

/-- The options of the lift. -/
def BenchCase.liftOptions (c : BenchCase) : LiftOptions :=
  ⟨c.arch, c.entry, 0, c.maxInstructions, none⟩

/-- Why the block is not executed. -/
inductive CaseSkip
  | disabled | unsupportedLift | missingRegister
  deriving DecidableEq, Repr

/-- `can_execute`: `none` when the block can be executed. -/
def canExecute (config : CaseConfig) (lift : LiftResult) : Option CaseSkip :=
  if !config.run then some .disabled
  else if lift.endKind = .unsupported then some .unsupportedLift
  else if lift.inputRegs.any fun p => !config.haveReg p.1 then some .missingRegister
  else none

/-- `return_index_for_value`; `none` stands for `SIZE_MAX`. -/
def returnIndexForValue (lift : LiftResult) (value : Nat) : Option Nat :=
  lift.returnValues.findIdx? fun v => v == value

/-- Where the tool stops with a message on the error stream. -/
inductive CaseStop
  | lift (status : Status)
  | verify (error : XairError)
  | freeze (status : Status)
  | execStateCreate (status : Status)
  | memoryParam (status : Status)
  | memoryStore (status : Status)
  | registerParam (status : Status)
  | exec (status : Status)
  deriving DecidableEq, Repr

/-- A call that must return `XAIR_OK`. -/
def caseStep {α : Type} (stop : Status → CaseStop) (r : Status × α) : Except CaseStop α :=
  match r with
  | (.ok, a) => .ok a
  | (e, _) => .error (stop e)

/-- Memory is a token of space 0 with 64-bit addresses. -/
def caseSetMemory (m : Module) (s : ExecState) : Option Nat → Except CaseStop ExecState
  | some memoryIn => caseStep .memoryParam (execSetParam m s memoryIn (execMem 0 64))
  | none => .ok s

/-- The state that `main` prepares: memory is set, the bytes of the configuration are stored and
the registers are set. -/
def casePrepare (config : CaseConfig) (m : Module) (lift : LiftResult) :
    Except CaseStop ExecState := do
  let s ← (execStateCreate m).mapError .execStateCreate
  let s ← caseSetMemory m s lift.memoryIn
  let s ← config.memory.foldlM
    (fun s e => caseStep .memoryStore (execStateStoreBytes s e.space e.address e.data)) s
  lift.inputRegs.foldlM
    (fun s p => caseStep .registerParam (execSetParam m s p.2 (execI 64 (config.regs p.1)))) s

/-- The execution in `main`, on the frozen module. -/
def caseExecute (config : CaseConfig) (m : Module) (lift : LiftResult) :
    Except CaseStop ExecResult := do
  let s ← casePrepare config m lift
  (execRun m (lift.block.getD invalidId) s 256).1.mapError .exec

/-- What is printed of an execution. -/
inductive CaseExecution
  | skipped (reason : CaseSkip)
  | ran (exec : ExecResult) (outputRegs : List (X86Reg × Option Word))
  deriving DecidableEq, Repr

/-- What is printed. -/
structure CaseReport where
  lift : LiftResult
  metrics : ModuleMetrics
  construction : ReportedStats
  final : ReportedStats
  fingerprint : Word
  execution : CaseExecution
  deriving DecidableEq, Repr

/-- The `output_regs` of `print_execution_json`; `none` is printed as `null`. -/
def caseOutputRegs (lift : LiftResult) (exec : ExecResult) : List (X86Reg × Option Word) :=
  lift.outputRegs.map fun p =>
    (p.1, (returnIndexForValue lift p.2).bind fun i => exec.returns[i]?.map ExecValue.lo)

/-- `main`, from the configuration on. -/
def caseRun (config : CaseConfig) : Except CaseStop CaseReport := do
  let lifted := liftBasicBlock Module.create config.image config.liftOptions
  if lifted.status ≠ .ok then .error (.lift lifted.status)
  else
    (verifyModule lifted.module).mapError .verify
    let construction := getValueNumberingStats lifted.module
    let (m, frozen) := moduleFreeze lifted.module
    frozen.mapError .freeze
    let report := CaseReport.mk lifted.result (getModuleMetrics m) construction
      (getValueNumberingStats m) (moduleFingerprint m)
    match canExecute config lifted.result with
    | some reason => .ok (report (.skipped reason))
    | none => do
      let exec ← caseExecute config m lifted.result
      .ok (report (.ran exec (caseOutputRegs lifted.result exec)))

/-- `main`, on the text of the case file; `none` when it cannot be parsed. -/
def caseMain (text : List UInt8) : Option (Except CaseStop CaseReport) :=
  (readCaseFile text).map caseRun

end Xair
