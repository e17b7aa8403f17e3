import Xair.Module
import Xair.BoundedRun
import Xair.Verify

/-!
# The executor

The concrete executor of `xair.c`: paged memory, the evaluation of one
operation, argument transfer, and `xair_exec_run`.

What an operation computes (`execOpValue`) is kept apart from the write of its
destination (`execOp`), and takes the way sources are read as an argument.  The
control part of `xair_exec_run` is written once, over an interface of three
functions (`Interp`); `execInterp` is the executor's instance.
-/

namespace Xair

open BoundedRun (Outcome)

/-- `xair_exec_value`. -/
structure ExecValue where
  type : Ty
  lo : Word
  hi : Word
  deriving DecidableEq, Repr

/-- `exec_value_make`. -/
def execValueMake (t : Ty) (lo hi : Word) : ExecValue := ⟨t, truncateToType lo t, hi⟩

/-- `xair_exec_i`. -/
def execI (bits : Nat) (value : Word) : ExecValue := execValueMake (typeI bits) value 0#64
/-- `xair_exec_addr`. -/
def execAddr (bits : Nat) (value : Word) : ExecValue := execValueMake (typeAddr bits) value 0#64
/-- `xair_exec_mem`. -/
def execMem (space addrBits : Nat) : ExecValue := execValueMake (typeMem space addrBits) 0#64 0#64

/-! ### Pages -/

/-- `xair_exec_page`: 4096 bytes with a mask of the defined ones. -/
structure ExecPage where
  space : Nat
  number : Word
  bytes : Nat → BitVec 8
  defined : Nat → Bool

/-- The page number of an address. -/
def pageNumber (address : Word) : Word := address >>> 12

/-- The offset of an address in its page. -/
def pageOffset (address : Word) : Nat := (address &&& 0xfff#64).toNat

/-- A page fresh from `memset`. -/
def ExecPage.fresh (space : Nat) (number : Word) : ExecPage :=
  ⟨space, number, fun _ => 0#8, fun _ => false⟩

/-- Write one byte of a page. -/
def ExecPage.setByte (p : ExecPage) (offset : Nat) (b : BitVec 8) : ExecPage :=
  { p with
    bytes := fun i => if i = offset then b else p.bytes i
    defined := fun i => if i = offset then true else p.defined i }

/-- The test of `exec_find_page_mut` and `exec_find_page_const`. -/
def ExecPage.is (p : ExecPage) (space : Nat) (number : Word) : Bool :=
  p.space == space && p.number == number

/-- One round of the store loop: `exec_get_or_create_page`, which appends a fresh
page when the scan finds none, and the write of the byte. -/
def execStoreByte (space : Nat) (address : Word) (b : BitVec 8) : List ExecPage → List ExecPage
  | [] => [(ExecPage.fresh space (pageNumber address)).setByte (pageOffset address) b]
  | p :: ps =>
    if p.is space (pageNumber address) then p.setByte (pageOffset address) b :: ps
    else p :: execStoreByte space address b ps

/-- One round of the load loop: the byte, when its page exists and defines it. -/
def execLoadByte (pages : List ExecPage) (space : Nat) (address : Word) : Option (BitVec 8) :=
  match pages.find? (fun p => p.is space (pageNumber address)) with
  | none => none
  | some p => if p.defined (pageOffset address) then some (p.bytes (pageOffset address)) else none

/-- `exec_range_wraps`. -/
def execRangeWraps (address : Word) (size : Nat) : Bool :=
  decide (size ≠ 0 ∧ (BitVec.allOnes 64 - address).toNat < size - 1)

/-- The loop of `xair_exec_store_bytes`. -/
def execStoreBytesFrom (pages : List ExecPage) (space : Nat) (address : Word) :
    List (BitVec 8) → List ExecPage
  | [] => pages
  | b :: bs => execStoreBytesFrom (execStoreByte space address b pages) space (address + 1#64) bs

/-- `xair_exec_store_bytes`, on the pages. -/
def execStoreBytes (pages : List ExecPage) (space : Nat) (address : Word)
    (data : List (BitVec 8)) : Except Status (List ExecPage) :=
  if execRangeWraps address data.length then .error .errBadArg
  else .ok (execStoreBytesFrom pages space address data)

/-- The loop of `xair_exec_load_bytes`. -/
def execLoadBytesFrom (pages : List ExecPage) (space : Nat) (address : Word) :
    Nat → Except Status (List (BitVec 8))
  | 0 => .ok []
  | n + 1 =>
    match execLoadByte pages space address with
    | none => .error .errRange
    | some b => (execLoadBytesFrom pages space (address + 1#64) n).map (b :: ·)

/-- `xair_exec_load_bytes`, on the pages. -/
def execLoadBytes (pages : List ExecPage) (space : Nat) (address : Word) (size : Nat) :
    Except Status (List (BitVec 8)) :=
  if execRangeWraps address size then .error .errBadArg
  else execLoadBytesFrom pages space address size

/-- The position of byte `i` of `size` in the word. -/
def shiftIndex (endian : Endian) (size i : Nat) : Nat :=
  match endian with
  | .le => i
  | .be => size - 1 - i

/-- The bytes `exec_store_u64` writes. -/
def encodeU64 (value : Word) (size : Nat) (endian : Endian) : List (BitVec 8) :=
  (List.range size).map fun i => ((value >>> (shiftIndex endian size i * 8)) &&& 0xff#64).setWidth 8

/-- The word `exec_load_u64` assembles from byte `i` on. -/
def decodeU64From (endian : Endian) (size : Nat) : Nat → List (BitVec 8) → Word → Word
  | _, [], value => value
  | i, b :: bs, value =>
    decodeU64From endian size (i + 1) bs
      (value ||| ((b.setWidth 64) <<< (shiftIndex endian size i * 8)))

/-- `exec_store_u64`. -/
def execStoreU64 (pages : List ExecPage) (space : Nat) (address value : Word) (size : Nat)
    (endian : Endian) : Except Status (List ExecPage) :=
  if 8 < size then .error .errUnsupported
  else execStoreBytes pages space address (encodeU64 value size endian)

/-- `exec_load_u64`. -/
def execLoadU64 (pages : List ExecPage) (space : Nat) (address : Word) (size : Nat)
    (endian : Endian) : Except Status Word :=
  if 8 < size then .error .errBadArg
  else
    match execLoadBytes pages space address size with
    | .error e => .error e
    | .ok bytes => .ok (decodeU64From endian size 0 bytes 0#64)

/-! ### Operations -/

/-- `exec_scalar_u64_type`. -/
def execScalarU64Type (t : Ty) : Bool := (t.isInt || t.isAddr) && decide (t.bits ≤ 64)

/-- `exec_byte_sized_scalar`: the size in bytes. -/
def execByteSizedScalar (t : Ty) : Option Nat :=
  if !execScalarU64Type t || t.bits == 1 || t.bits % 8 != 0 then none else some (t.bits / 8)

def execFlagZf : Word := 1#64
def execFlagCf : Word := 2#64
def execFlagOf : Word := 4#64
def execFlagSf : Word := 8#64
def execFlagPf : Word := 16#64
def execFlagAf : Word := 32#64

/-- `if (cond) packed |= flag`. -/
def orFlag (packed flag : Word) (cond : Bool) : Word := if cond then packed ||| flag else packed

/-- `exec_logic_flags`. -/
def execLogicFlags (result : Word) (bits : Nat) : Word :=
  let result := result &&& maskForBits bits
  let packed := orFlag 0#64 execFlagZf (result == 0#64)
  let packed := orFlag packed execFlagSf (result &&& signBitForBits bits != 0#64)
  orFlag packed execFlagPf (evenParity8 result)

/-- `exec_flags`. -/
def execFlags (opcode : Opcode) (lhs rhs : Word) (bits : Nat) : Word :=
  let mask := maskForBits bits
  let sign := signBitForBits bits
  let lhs := lhs &&& mask
  let rhs := rhs &&& mask
  let result := if opcode = .flagsAdd then (lhs + rhs) &&& mask else (lhs - rhs) &&& mask
  let lhsSign := lhs &&& sign != 0#64
  let rhsSign := rhs &&& sign != 0#64
  let resultSign := result &&& sign != 0#64
  let packed := orFlag 0#64 execFlagZf (result == 0#64)
  let packed := orFlag packed execFlagCf
    (if opcode = .flagsAdd then decide (result < lhs) else decide (lhs < rhs))
  let packed := orFlag packed execFlagOf
    (if opcode = .flagsAdd then lhsSign == rhsSign && resultSign != lhsSign
      else lhsSign != rhsSign && resultSign != lhsSign)
  let packed := orFlag packed execFlagSf resultSign
  let packed := orFlag packed execFlagPf (evenParity8 result)
  orFlag packed execFlagAf ((lhs ^^^ rhs ^^^ result) &&& 0x10#64 != 0#64)

/-- `exec_shift_left_flags`. -/
def execShiftLeftFlags (lhs shift : Word) (bits : Nat) : Word :=
  let mask := maskForBits bits
  let sign := signBitForBits bits
  let lhs := lhs &&& mask
  let result := (lhs <<< shift.toNat) &&& mask
  let cf := (lhs >>> (bits - shift.toNat)) &&& 1#64
  let packed := orFlag 0#64 execFlagZf (result == 0#64)
  let packed := orFlag packed execFlagSf (result &&& sign != 0#64)
  let packed := orFlag packed execFlagPf (evenParity8 result)
  let packed := orFlag packed execFlagCf (cf != 0#64)
  orFlag packed execFlagOf
    (shift == 1#64 && ((result &&& sign != 0#64) != (cf != 0#64)))

/-- `exec_binary_op`: the value it defines. -/
def execBinaryOp (opcode : Opcode) (out : Ty) (lhs rhs : ExecValue) : Except Status ExecValue :=
  if !execScalarU64Type lhs.type || decide (64 < lhs.type.bits) || decide (64 < rhs.type.bits) then
    .error .errUnsupported
  else
    let bits := lhs.type.bits
    let mask := maskForBits bits
    let l := lhs.lo &&& mask
    let r := rhs.lo &&& maskForBits rhs.type.bits
    let define (result : Word) : Except Status ExecValue := .ok (execValueMake out result 0#64)
    match opcode with
    | .add => define (l + r)
    | .sub => define (l - r)
    | .mul => define (l * r)
    | .and => define (l &&& r)
    | .or => define (l ||| r)
    | .xor => define (l ^^^ r)
    | .shl => if bits ≤ r.toNat then .error .errUnsupported else define (l <<< r.toNat)
    | .lshr => if bits ≤ r.toNat then .error .errUnsupported else define (l >>> r.toNat)
    | .ashr =>
      if bits ≤ r.toNat then .error .errUnsupported
      else if r = 0#64 then define l
      else if l &&& signBitForBits bits ≠ 0#64 then
        define ((l >>> r.toNat) ||| (mask <<< (bits - r.toNat)))
      else define (l >>> r.toNat)
    | .eq => define (boolU64 (l == r))
    | .ne => define (boolU64 (l != r))
    | .ult => define (boolU64 (decide (l < r)))
    | .ule => define (boolU64 (decide (l ≤ r)))
    | .slt => define (boolU64 (signedLessU64 l r bits))
    | .sle => define (boolU64 (signedLessU64 l r bits || l == r))
    | .concat =>
      if !out.isInt || decide (64 < out.bits) || decide (64 ≤ rhs.type.bits) then
        .error .errUnsupported
      else define ((l <<< rhs.type.bits) ||| r)
    | .addrAdd => define (l + r)
    | .addrSub => define (l - r)
    | .flagsAdd | .flagsSub =>
      if !lhs.type.isInt then .error .errUnsupported
      else define (execFlags opcode l r bits)
    | .flagsShl =>
      if !lhs.type.isInt || !rhs.type.isInt || r == 0#64 || decide (bits ≤ r.toNat) then
        .error .errUnsupported
      else define (execShiftLeftFlags l r bits)
    | _ => .error .errUnsupported

/-- `exec_unary_op`: the value it defines. -/
def execUnaryOp (opcode : Opcode) (out : Ty) (src : ExecValue) : Except Status ExecValue :=
  let define (result : Word) : Except Status ExecValue := .ok (execValueMake out result 0#64)
  let extract (flag : Word) : Except Status ExecValue :=
    define (boolU64 (src.lo &&& flag != 0#64))
  match opcode with
  | .zext | .trunc | .intToAddr | .addrToInt =>
    if !execScalarU64Type out || !execScalarU64Type src.type then .error .errUnsupported
    else define src.lo
  | .flagsLogic =>
    if !out.isFlags || !src.type.isInt || decide (64 < src.type.bits) then .error .errUnsupported
    else define (execLogicFlags src.lo src.type.bits)
  | .sext =>
    if !execScalarU64Type out || !execScalarU64Type src.type then .error .errUnsupported
    else if src.lo &&& signBitForBits src.type.bits ≠ 0#64 then
      define (src.lo ||| ~~~(maskForBits src.type.bits))
    else define src.lo
  | .flagZf => extract execFlagZf
  | .flagCf => extract execFlagCf
  | .flagOf => extract execFlagOf
  | .flagSf => extract execFlagSf
  | .flagPf => extract execFlagPf
  | .flagAf => extract execFlagAf
  | _ => .error .errUnsupported

/-- The part of the executor's state that operations share: the page table and
the store counter `mem_generation`. -/
structure ExecMemory where
  pages : List ExecPage
  generation : Word

/-- `exec_memory_op`: the value it defines and the memory it leaves. -/
def execMemoryOp (out : Ty) (read : Nat → Except Status ExecValue) (mem : ExecMemory)
    (op : OpRec) : Except Status (ExecValue × ExecMemory) :=
  match read (op.srcAt 0) with
  | .error e => .error e
  | .ok memory =>
    match read (op.srcAt 1) with
    | .error e => .error e
    | .ok address =>
      if !memory.type.isMem || !address.type.isAddr then .error .errBadArg
      else
        match op.opcode with
        | .load =>
          match execByteSizedScalar out with
          | none => .error .errUnsupported
          | some size =>
            match execLoadU64 mem.pages memory.type.aux address.lo size op.endian with
            | .error e => .error e
            | .ok loaded => .ok (execValueMake out loaded 0#64, mem)
        | .store =>
          match read (op.srcAt 2) with
          | .error e => .error e
          | .ok data =>
            match execByteSizedScalar data.type with
            | none => .error .errUnsupported
            | some size =>
              match execStoreU64 mem.pages memory.type.aux address.lo data.lo size op.endian with
              | .error e => .error e
              | .ok pages =>
                let generation := mem.generation + 1#64
                .ok (execValueMake out generation 0#64, ⟨pages, generation⟩)
        | _ => .error .errUnsupported

/-- `exec_op` up to the write of its destination: the value it defines and the
memory it leaves, when sources are read with `read`. -/
def execOpValue (out : Ty) (read : Nat → Except Status ExecValue) (mem : ExecMemory)
    (op : OpRec) : Except Status (ExecValue × ExecMemory) :=
  if op.opcode = .constU64 then .ok (execValueMake out op.imm 0#64, mem)
  else if op.opcode = .load ∨ op.opcode = .store then execMemoryOp out read mem op
  else if op.src.length = 1 then
    match read (op.srcAt 0) with
    | .error e => .error e
    | .ok src => (execUnaryOp op.opcode out src).map (·, mem)
  else if op.src.length = 2 then
    match read (op.srcAt 0) with
    | .error e => .error e
    | .ok lhs =>
      match read (op.srcAt 1) with
      | .error e => .error e
      | .ok rhs => (execBinaryOp op.opcode out lhs rhs).map (·, mem)
  else .error .errUnsupported

/-! ### State -/

/-- `struct xair_exec_state`.  The module the state was created for is not stored:
every function takes it as an argument. -/
structure ExecState where
  valueCount : Nat
  values : Nat → ExecValue
  defined : Nat → Bool
  mem : ExecMemory

/-- `exec_check_value_slot`. -/
def execSlotOk (m : Module) (s : ExecState) (v : Nat) : Bool :=
  decide (v < s.valueCount) && decide (v < m.values.length)

/-- `exec_define_value`. -/
def execDefineValue (m : Module) (s : ExecState) (v : Nat) (x : ExecValue) : Status × ExecState :=
  if !execSlotOk m s v then (.errBadArg, s)
  else if m.valueType v ≠ x.type then (.errBadArg, s)
  else
    (.ok, { s with
      values := fun u => if u = v then x else s.values u
      defined := fun u => if u = v then true else s.defined u })

/-- The value a constant operation gives `v`, for a `v` that has one. -/
def Module.constValue (m : Module) (v : Nat) : ExecValue :=
  match m.valueOp v with
  | some op => execValueMake (m.valueType v) op.imm 0#64
  | none => execValueMake (m.valueType v) 0#64 0#64

/-- `exec_read_value`. -/
def execReadValue (m : Module) (s : ExecState) (v : Nat) : Except Status ExecValue :=
  if !execSlotOk m s v then .error .errBadArg
  else if !s.defined v then
    if m.valueIsGlobalConst v then .ok (m.constValue v) else .error .errBadArg
  else .ok (s.values v)

/-- `xair_exec_state_create`. -/
def execStateCreate (m : Module) : Except Status ExecState :=
  match verifyModule m with
  | .error _ => .error .errVerify
  | .ok () =>
    .ok ⟨m.values.length, fun _ => ⟨⟨.invalid, 0, 0⟩, 0#64, 0#64⟩, fun _ => false, ⟨[], 0#64⟩⟩

/-- `xair_exec_set_param`. -/
def execSetParam (m : Module) (s : ExecState) (v : Nat) (x : ExecValue) : Status × ExecState :=
  if !execSlotOk m s v then (.errBadArg, s)
  else if (m.valueRec v).op ≠ none then (.errBadArg, s)
  else execDefineValue m s v x

/-- `xair_exec_store_bytes`. -/
def execStateStoreBytes (s : ExecState) (space : Nat) (address : Word) (data : List (BitVec 8)) :
    Status × ExecState :=
  match execStoreBytes s.mem.pages space address data with
  | .error e => (e, s)
  | .ok pages => (.ok, { s with mem := { s.mem with pages := pages } })

/-- `exec_op`. -/
def execOp (m : Module) (s : ExecState) (op : OpRec) : Status × ExecState :=
  match execOpValue (m.valueType op.dst) (execReadValue m s) s.mem op with
  | .error e => (e, s)
  | .ok (x, mem) => execDefineValue m { s with mem := mem } op.dst x

/-- Read a list of values, up to the first that fails. -/
def readAll (read : Nat → Except Status ExecValue) : List Nat → Except Status (List ExecValue)
  | [] => .ok []
  | v :: vs =>
    match read v with
    | .error e => .error e
    | .ok x => (readAll read vs).map (x :: ·)

/-- The defining loop of `exec_transfer_args`. -/
def execDefineAll (m : Module) (s : ExecState) : List Nat → List ExecValue → Status × ExecState
  | v :: vs, x :: xs =>
    match execDefineValue m s v x with
    | (.ok, s) => execDefineAll m s vs xs
    | (e, s) => (e, s)
  | _, _ => (.ok, s)

/-- `exec_transfer_args`. -/
def execTransferArgs (m : Module) (s : ExecState) (target : Nat) (args : List Nat) :
    Status × ExecState :=
  if !m.validBlock target then (.errBadArg, s)
  else if (m.blockRec target).params.length ≠ args.length then (.errBadArg, s)
  else
    match readAll (execReadValue m s) args with
    | .error e => (e, s)
    | .ok copies => execDefineAll m s (m.blockRec target).params copies

/-! ### Runs -/

/-- `xair_exec_halt_kind`. -/
inductive HaltKind
  | ret | trap | fault | stepLimit | unsupported
  deriving DecidableEq, Repr

/-- `xair_exec_result`; `returns` holds the first `return_count` entries. -/
structure ExecResult where
  kind : HaltKind
  block : Nat
  code : Nat
  returns : List ExecValue
  deriving DecidableEq, Repr

/-- `XAIR_EXEC_MAX_RETURNS`. -/
def execMaxReturns : Nat := 8

/-- The three things the control loop of `xair_exec_run` asks of a state. -/
structure Interp (σ : Type) where
  op : σ → OpRec → Status × σ
  read : σ → Nat → Except Status ExecValue
  transfer : σ → Nat → List Nat → Status × σ

/-- The result a run reports: a status other than `XAIR_OK`, or a halt. -/
abbrev RunResult := Except Status ExecResult

section Control

variable {σ : Type} (I : Interp σ) (m : Module)

/-- The operation loop of `xair_exec_run`: the state after it, or the result and
state of a run that ends inside it. -/
def runOps (current : Nat) : List Nat → σ → Except (RunResult × σ) σ
  | [], s => .ok s
  | o :: os, s =>
    match I.op s (m.opRec o) with
    | (.ok, s) => runOps current os s
    | (.errUnsupported, s) =>
      .error (.ok ⟨.unsupported, current, (m.opRec o).opcode.code, []⟩, s)
    | (e, s) => .error (.error e, s)

/-- Take one edge. -/
def runEdge (s : σ) (target : Nat) (args : List Nat) : Outcome RunResult (Nat × σ) :=
  match I.transfer s target args with
  | (.ok, s) => .next (target, s)
  | (e, s) => .halt (.error e) (target, s)

/-- The terminator switch of `xair_exec_run`. -/
def runTerm (current : Nat) (t : TermRec) (s : σ) : Outcome RunResult (Nat × σ) :=
  match t.kind with
  | .jump => runEdge I s t.trueTarget (m.termArgsConst t false)
  | .cbranch =>
    match I.read s t.condition with
    | .error e => .halt (.error e) (current, s)
    | .ok condition =>
      if !condition.type.isI1 then .halt (.error .errBadArg) (current, s)
      else if condition.lo &&& 1#64 ≠ 0#64 then
        runEdge I s t.trueTarget (m.termArgsConst t false)
      else runEdge I s t.falseTarget (m.termArgsConst t true)
  | .ret =>
    if execMaxReturns < t.trueArgCount then .halt (.error .errRange) (current, s)
    else
      match readAll (I.read s) (m.termArgsConst t false) with
      | .error e => .halt (.error e) (current, s)
      | .ok values => .halt (.ok ⟨.ret, current, 0, values⟩) (current, s)
  | .trap => .halt (.ok ⟨.trap, current, t.code, []⟩) (current, s)
  | .fault => .halt (.ok ⟨.fault, current, t.code, []⟩) (current, s)
  | .none => .halt (.error .errBadArg) (current, s)

/-- One round of the loop of `xair_exec_run`. -/
def runBlock (c : Nat × σ) : Outcome RunResult (Nat × σ) :=
  match runOps I m c.1 (m.blockRec c.1).ops c.2 with
  | .error (r, s) => .halt r (c.1, s)
  | .ok s => runTerm I m c.1 (m.blockRec c.1).term s

/-- The result at the step limit. -/
def stepLimitResult (c : Nat × σ) : RunResult := .ok ⟨.stepLimit, c.1, 0, []⟩

/-- The loop of `xair_exec_run` from block `entry`. -/
def interpRun (limit entry : Nat) (s : σ) : RunResult × σ :=
  let r := BoundedRun.run (runBlock I m) stepLimitResult limit (entry, s)
  (r.1, r.2.2)

end Control

/-- The executor. -/
def execInterp (m : Module) : Interp ExecState := ⟨execOp m, execReadValue m, execTransferArgs m⟩

/-- `xair_exec_run`, with the state it leaves. -/
def execRun (m : Module) (entry : Nat) (s : ExecState) (limit : Nat) : RunResult × ExecState :=
  if s.valueCount ≠ m.values.length ∨ m.validBlock entry = false then (.error .errBadArg, s)
  else interpRun (execInterp m) m limit entry s

end Xair
