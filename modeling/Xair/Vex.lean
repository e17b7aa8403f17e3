import Xair.Builder
import Xair.Effect
import Xair.KeyedList

/-!
# The VEX adapter

`xair_vex.c`: an adapter that translates VEX statements into one block after the
other.  It keeps a binding for memory, for temporaries, for register offsets below
4096 and for other register offsets; an exit closes the current block with a
conditional branch and hands every binding over to a new block as a parameter.

A function of the adapter is an `Effect` on the adapter, and the module belongs to the
adapter's state: a failure leaves behind what was built before it.  A flag `defined[i]`
with the value `values[i]` is an `Option`.  Allocations succeed; an array that is not
allocated is null, and a write to it stops the program (`VexStop.nullWrite`).  Output
pointers are taken to be non-null.
-/

namespace Xair

/-- `xair_vex_dense_map`: the slots below `count`. -/
structure VexDenseMap where
  count : Nat
  slots : Nat → Option Nat

/-- `XAIR_VEX_REG_DIRECT_SLOTS`; loops over the slots are not to be unrolled. -/
@[irreducible] def vexRegDirectSlots : Nat := 4096

/-- `struct xair_vex_adapter`. -/
structure VexAdapter where
  module : Module
  current : Nat
  memory : Option Nat
  tmps : VexDenseMap
  regs : Nat → Option Nat
  regCount : Nat
  sparseRegs : List (Nat × Nat)
  continuationIndex : Nat

/-- How a function of the adapter stops without a value. -/
inductive VexStop
  | returns (status : Status)
  | nullWrite
  deriving DecidableEq, Repr

/-- A function of the adapter. -/
abbrev Vex := Effect VexAdapter VexStop

/-- Return a status that is not `XAIR_OK`. -/
def vexFail {α : Type} (status : Status) : Vex α := Effect.throw (.returns status)

/-- A call of the builder API on the adapter's module. -/
def vexBuild {α : Type} (call : Module → Module × Except Status α) : Vex α := fun a =>
  ((call a.module).2.mapError .returns, { a with module := (call a.module).1 })

/-! ### Bindings -/

/-- The doubling loop of `vex_dense_reserve`.  From a positive count it stops before its 65th
round. -/
def vexNextCount (need : Nat) : Nat → Nat → Except Status Nat
  | 0, _ => .error .errOom
  | rounds + 1, count =>
    if need ≤ count then .ok count
    else if (2 ^ 64 - 1) / 2 < count then .error .errOom
    else vexNextCount need rounds (count * 2)

/-- `vex_dense_reserve`. -/
def vexDenseReserve (map : VexDenseMap) (key : Nat) : Except Status VexDenseMap :=
  if key = uint32Max then .error .errBadArg
  else if key + 1 ≤ map.count then .ok map
  else
    (vexNextCount (key + 1) 65 (if map.count = 0 then 16 else map.count)).map fun count =>
      ⟨count, fun i => if i < map.count then map.slots i else none⟩

/-- `vex_dense_set`. -/
def vexDenseSet (map : VexDenseMap) (key value : Nat) : Except Status VexDenseMap :=
  (vexDenseReserve map key).map fun map =>
    { map with slots := fun i => if i = key then some value else map.slots i }

/-- `vex_dense_get`. -/
def vexDenseGet (map : VexDenseMap) (key : Nat) : Option Nat :=
  if map.count ≤ key then none else map.slots key

/-- `vex_find_entry`. -/
def vexFindEntry (entries : List (Nat × Nat)) (key : Nat) : Option (Nat × Nat) :=
  KeyedList.lookup Prod.fst key entries

/-- `vex_set_entry`. -/
def vexSetEntry (entries : List (Nat × Nat)) (key value : Nat) : List (Nat × Nat) :=
  KeyedList.update Prod.fst key (key, value) (fun entry => (entry.1, value)) entries

/-- `vex_valid_value`. -/
def vexValidValue (m : Module) (value : Nat) : Bool :=
  value != invalidId && (m.valueType value).kind != .invalid && (m.valueType value).isValid

/-! ### Operator names -/

/-- `vex_starts_with`; a null text starts with nothing. -/
def vexStartsWith (text : Option Name) (pre : Name) : Bool :=
  match text with
  | none => false
  | some text => pre.isPrefixOf text

/-- The loop of `vex_parse_u16` from the value so far; `sawDigit` says that there was a
digit. -/
def vexParseDigits : Nat → Bool → Name → Option (Nat × Name)
  | value, sawDigit, [] => if sawDigit then some (value, []) else none
  | value, sawDigit, c :: text =>
    if 48 ≤ c ∧ c ≤ 57 then
      let value := value * 10 + (c.toNat - 48)
      if 65535 < value then none else vexParseDigits value true text
    else if sawDigit then some (value, c :: text) else none

/-- `vex_parse_u16`: the number and the text after it. -/
def vexParseU16 (text : Name) : Option (Nat × Name) := vexParseDigits 0 false text

/-- `vex_match_width`. -/
def vexMatchWidth (irop pre : Name) : Option Nat :=
  if vexStartsWith (some irop) pre then
    match vexParseU16 (irop.drop pre.length) with
    | some (bits, []) => some bits
    | _ => none
  else none

/-- `vex_match_cmp`: the width and the signedness letter. -/
def vexMatchCmp (irop pre : Name) : Option (Nat × UInt8) :=
  if vexStartsWith (some irop) pre then
    match vexParseU16 (irop.drop pre.length) with
    | some (bits, [c]) => if c = 85 ∨ c = 83 then some (bits, c) else none
    | _ => none
  else none

/-- `vex_check_width`. -/
def vexCheckWidth {α : Type} (type : Ty) (bits : Nat) (result : α) : Except Status α :=
  if type.bits ≠ bits then .error .errUnsupported else .ok result

/-- The operators of `vex_map_binop` with a width, in the order in which they are tried;
a comparison gives an `i1`. -/
def vexWidthOps : List (String × Opcode × Bool) :=
  [("Iop_Add", .add, false), ("Iop_Sub", .sub, false), ("Iop_Mul", .mul, false),
    ("Iop_And", .and, false), ("Iop_Or", .or, false), ("Iop_Xor", .xor, false),
    ("Iop_Shl", .shl, false), ("Iop_Shr", .lshr, false), ("Iop_Sar", .ashr, false),
    ("Iop_CmpEQ", .eq, true), ("Iop_CmpNE", .ne, true)]

/-- The operators of `vex_map_binop` with a width and a signedness: signed, unsigned. -/
def vexCmpOps : List (String × Opcode × Opcode) :=
  [("Iop_CmpLT", .slt, .ult), ("Iop_CmpLE", .sle, .ule)]

/-- `vex_map_binop`. -/
def vexMapBinop (irop : Option Name) (lhs : Ty) : Except Status (Opcode × Ty) :=
  match irop with
  | none => .error .errBadArg
  | some irop =>
    match vexWidthOps.findSome? fun (pre, opcode, cmp) =>
        (vexMatchWidth irop (literalName pre)).map fun bits =>
          vexCheckWidth lhs bits (opcode, if cmp then typeI 1 else lhs) with
    | some result => result
    | none =>
      match vexCmpOps.findSome? fun (pre, signed, unsigned) =>
          (vexMatchCmp irop (literalName pre)).map fun (bits, c) =>
            vexCheckWidth lhs bits (if c = 83 then signed else unsigned, typeI 1) with
      | some result => result
      | none => .error .errUnsupported

/-- The conversions of `vex_map_unop`, in the order in which they are tried: the text
between the widths, the opcode, and whether it widens. -/
def vexConversions : List (String × Opcode × Bool) :=
  [("Uto", .zext, true), ("Sto", .sext, true), ("to", .trunc, false)]

/-- The width at the end of the name of a conversion from `fromBits` bits. -/
def vexToBits (fromBits : Nat) (widens : Bool) (text : Name) : Except Status Nat :=
  match vexParseU16 text with
  | some (toBits, []) =>
    if (if widens then toBits ≤ fromBits else fromBits ≤ toBits) then .error .errUnsupported
    else .ok toBits
  | _ => .error .errUnsupported

/-- `vex_map_unop`. -/
def vexMapUnop (irop : Option Name) (src : Ty) : Except Status (Opcode × Ty) :=
  if !vexStartsWith irop (literalName "Iop_") then .error .errBadArg
  else
    match vexParseU16 ((irop.getD []).drop 4) with
    | none => .error .errUnsupported
    | some (fromBits, text) =>
      if src.bits ≠ fromBits ∨ src.kind ≠ .int then .error .errUnsupported
      else
        match vexConversions.find? fun conv => vexStartsWith (some text) (literalName conv.1) with
        | none => .error .errUnsupported
        | some (pre, opcode, widens) =>
          (vexToBits fromBits widens (text.drop pre.length)).map fun toBits => (opcode, typeI toBits)

/-! ### Creating an adapter and its bindings -/

/-- `xair_vex_adapter_create`; `initialMemory` may be `XAIR_INVALID_ID`. -/
def vexAdapterCreate (m : Module) (entry initialMemory : Nat) : Except Status VexAdapter :=
  if !m.validBlock entry then .error .errBadArg
  else if initialMemory = invalidId then
    .ok ⟨m, entry, none, ⟨0, fun _ => none⟩, fun _ => none, 0, [], 0⟩
  else if (m.valueType initialMemory).kind ≠ .mem then .error .errBadArg
  else .ok ⟨m, entry, some initialMemory, ⟨0, fun _ => none⟩, fun _ => none, 0, [], 0⟩

/-- `xair_vex_set_tmp`. -/
def vexSetTmp (tmp value : Nat) : Vex Unit := do
  let a ← Effect.get
  if !vexValidValue a.module value then vexFail .errBadArg
  else
    match vexDenseSet a.tmps tmp value with
    | .error e => vexFail e
    | .ok tmps => Effect.modify fun a => { a with tmps := tmps }

/-- `xair_vex_get_tmp`. -/
def vexGetTmp (tmp : Nat) : Vex Nat := do
  let a ← Effect.get
  match vexDenseGet a.tmps tmp with
  | none => vexFail .errRange
  | some value => pure value

/-- The binding of a register offset. -/
def VexAdapter.reg (a : VexAdapter) (offset : Nat) : Option Nat :=
  if offset < vexRegDirectSlots then a.regs offset
  else (vexFindEntry a.sparseRegs offset).map Prod.snd

/-- The write of a binding in `xair_vex_get_reg` and `xair_vex_put_reg`. -/
def VexAdapter.setReg (a : VexAdapter) (offset value : Nat) : VexAdapter :=
  if offset < vexRegDirectSlots then
    { a with
      regs := fun i => if i = offset then some value else a.regs i
      regCount := if (a.regs offset).isSome then a.regCount else a.regCount + 1 }
  else { a with sparseRegs := vexSetEntry a.sparseRegs offset value }

/-- `xair_vex_get_reg`. -/
def vexGetReg (offset : Nat) (type : Ty) (name : Option Name) : Vex Nat := do
  let a ← Effect.get
  if !type.isValid then vexFail .errBadArg
  else
    match a.reg offset with
    | some value =>
      if a.module.valueType value ≠ type then vexFail .errBadArg else pure value
    | none => do
      let value ← vexBuild fun m => blockAddParam m a.current type name
      Effect.modify fun a => a.setReg offset value
      pure value

/-- `xair_vex_put_reg`. -/
def vexPutReg (offset value : Nat) : Vex Unit := do
  let a ← Effect.get
  if !vexValidValue a.module value then vexFail .errBadArg
  else Effect.modify fun a => a.setReg offset value

/-- `xair_vex_peek_reg`. -/
def vexPeekReg (offset : Nat) : Vex Nat := do
  let a ← Effect.get
  match a.reg offset with
  | none => vexFail .errRange
  | some value => pure value

/-- `xair_vex_set_memory`. -/
def vexSetMemory (memory : Nat) : Vex Unit := do
  let a ← Effect.get
  if !vexValidValue a.module memory then vexFail .errBadArg
  else if (a.module.valueType memory).kind ≠ .mem then vexFail .errBadArg
  else Effect.modify fun a => { a with memory := some memory }

/-- `xair_vex_current_memory`. -/
def vexCurrentMemory : Vex Nat := do
  let a ← Effect.get
  match a.memory with
  | none => vexFail .errBadArg
  | some memory => pure memory

/-! ### Emitting operations -/

/-- `xair_vex_emit_const`. -/
def vexEmitConst (tmp : Nat) (type : Ty) (value : Word) (name : Option Name) : Vex Unit := do
  let a ← Effect.get
  let out ← vexBuild fun m => buildConstU64 m a.current type value name
  vexSetTmp tmp out

/-- `xair_vex_emit_unop`. -/
def vexEmitUnop (tmp : Nat) (irop : Option Name) (src : Nat) (name : Option Name) : Vex Unit := do
  let a ← Effect.get
  if !vexValidValue a.module src then vexFail .errBadArg
  else
    match vexMapUnop irop (a.module.valueType src) with
    | .error e => vexFail e
    | .ok (opcode, type) => do
      let out ← vexBuild fun m => buildUnary m a.current opcode type src name
      vexSetTmp tmp out

/-- The operators whose operands may differ in type. -/
def vexIsShift (irop : Option Name) : Bool :=
  vexStartsWith irop (literalName "Iop_Shl") || vexStartsWith irop (literalName "Iop_Shr") ||
    vexStartsWith irop (literalName "Iop_Sar")

/-- `xair_vex_emit_binop`. -/
def vexEmitBinop (tmp : Nat) (irop : Option Name) (lhs rhs : Nat) (name : Option Name) :
    Vex Unit := do
  let a ← Effect.get
  if !vexValidValue a.module lhs || !vexValidValue a.module rhs then vexFail .errBadArg
  else if a.module.valueType lhs ≠ a.module.valueType rhs ∧ !vexIsShift irop then
    vexFail .errBadArg
  else
    match vexMapBinop irop (a.module.valueType lhs) with
    | .error e => vexFail e
    | .ok (opcode, type) => do
      let out ← vexBuild fun m => buildBinary m a.current opcode type lhs rhs name
      vexSetTmp tmp out

/-- `xair_vex_emit_load`. -/
def vexEmitLoad (tmp : Nat) (type : Ty) (address : Nat) (endian : Endian) (name : Option Name) :
    Vex Unit := do
  let a ← Effect.get
  match a.memory with
  | none => vexFail .errBadArg
  | some memory =>
    if !vexValidValue a.module address then vexFail .errBadArg
    else do
      let out ← vexBuild fun m => buildLoad m a.current type memory address endian name
      vexSetTmp tmp out

/-- `xair_vex_emit_store`. -/
def vexEmitStore (address data : Nat) (endian : Endian) (name : Option Name) : Vex Unit := do
  let a ← Effect.get
  match a.memory with
  | none => vexFail .errBadArg
  | some memory =>
    if !vexValidValue a.module address || !vexValidValue a.module data then
      vexFail .errBadArg
    else do
      let next ← vexBuild fun m => buildStore m a.current memory address data endian name
      Effect.modify fun a => { a with memory := some next }

/-! ### Exits -/

/-- `vex_transfer_value_to_continuation`: the new value, and the arguments with the old one. -/
def vexTransferValueToContinuation (continuation : Nat) (name : Name) (oldValue : Nat)
    (args : List Nat) : Vex (Nat × List Nat) := do
  let a ← Effect.get
  let newValue ← vexBuild fun m =>
    blockAddParam m continuation (a.module.valueType oldValue) (some name)
  pure (newValue, args ++ [oldValue])

/-- An array of `xair_vex_emit_exit` for the new values; it stays null when `count` is zero. -/
def vexScratch (count : Nat) : Option (Nat → Nat) :=
  if count ≠ 0 then some fun _ => invalidId else none

/-- A transfer loop of `xair_vex_emit_exit` over the indices of an array of slots: the
array of new values and the arguments. -/
def vexTransferSlots (continuation : Nat) (name : Nat → Name) (slots : Nat → Option Nat) :
    List Nat → Option (Nat → Nat) → List Nat → Vex (Option (Nat → Nat) × List Nat)
  | [], next, args => pure (next, args)
  | i :: is, next, args =>
    match slots i, next with
    | none, next => vexTransferSlots continuation name slots is next args
    | some _, none => Effect.throw .nullWrite
    | some oldValue, some next => do
      let (newValue, args) ← vexTransferValueToContinuation continuation (name i) oldValue args
      vexTransferSlots continuation name slots is
        (some fun j => if j = i then newValue else next j) args

/-- The transfer of the memory binding. -/
def vexTransferMemory (continuation : Nat) (memory : Option Nat) : Vex (Nat × List Nat) :=
  match memory with
  | none => pure (invalidId, [])
  | some memory => vexTransferValueToContinuation continuation (literalName "mem") memory []

/-- The values that `xair_vex_emit_exit` has collected: `next_memory`, `next_tmps`,
`next_direct_regs` and `next_sparse_regs`. -/
structure VexNext where
  memory : Nat
  tmps : Option (Nat → Nat)
  regs : Option (Nat → Nat)
  sparse : Option (Nat → Nat)

/-- The first pass of `xair_vex_emit_exit`: every binding goes to the continuation. -/
def vexTransferAll (continuation : Nat) (a : VexAdapter) : Vex (VexNext × List Nat) := do
  let (memory, args) ← vexTransferMemory continuation a.memory
  let (tmps, args) ← vexTransferSlots continuation (fun i => literalName "t" ++ decimal i)
    a.tmps.slots (List.range a.tmps.count) (vexScratch a.tmps.count) args
  let (regs, args) ← vexTransferSlots continuation (fun i => literalName "r" ++ decimal i)
    a.regs (List.range vexRegDirectSlots) (vexScratch a.regCount) args
  let (sparse, args) ← vexTransferSlots continuation
    (fun i => literalName "r" ++ decimal (a.sparseRegs.getD i (0, 0)).1)
    (fun i => a.sparseRegs[i]?.map Prod.snd) (List.range a.sparseRegs.length)
    (vexScratch a.sparseRegs.length) args
  pure (⟨memory, tmps, regs, sparse⟩, args)

/-- The second pass of `xair_vex_emit_exit` over an array of `count` slots. -/
def vexRebindSlots (count : Nat) (slots : Nat → Option Nat) (next : Option (Nat → Nat)) :
    Nat → Option Nat :=
  fun i => if i < count then (slots i).map fun _ => next.elim invalidId (· i) else slots i

/-- The second pass of `xair_vex_emit_exit`. -/
def VexAdapter.rebind (a : VexAdapter) (next : VexNext) : VexAdapter :=
  { a with
    memory := a.memory.map fun _ => next.memory
    tmps := { a.tmps with slots := vexRebindSlots a.tmps.count a.tmps.slots next.tmps }
    regs := vexRebindSlots vexRegDirectSlots a.regs next.regs
    sparseRegs := a.sparseRegs.mapIdx fun i entry => (entry.1, next.sparse.elim invalidId (· i)) }

/-- The name of the continuation: the caller's, or `vex_cont_` and a number. -/
def vexContinuationName (name : Option Name) : Vex Name := do
  let a ← Effect.get
  match name with
  | some (c :: s) => pure (c :: s)
  | _ => do
    Effect.modify fun a => { a with continuationIndex := (a.continuationIndex + 1) % 2 ^ 32 }
    pure (literalName "vex_cont_" ++ decimal a.continuationIndex)

/-- `xair_vex_emit_exit`. -/
def vexEmitExit (condition taken : Nat) (takenArgs : ArgArray) (continuationName : Option Name) :
    Vex Unit := do
  let a ← Effect.get
  if !vexValidValue a.module condition || !a.module.validBlock taken then vexFail .errBadArg
  else do
    let name ← vexContinuationName continuationName
    let continuation ← vexBuild fun m => blockCreate m (some name)
    let (next, args) ← vexTransferAll continuation a
    vexBuild fun m =>
      setCbranch m a.current condition taken takenArgs continuation (.array args)
    Effect.modify fun a => { a.rebind next with current := continuation }

/-- `xair_vex_finish_jump`. -/
def vexFinishJump (target : Nat) (args : ArgArray) : Vex Unit := do
  let a ← Effect.get
  vexBuild fun m => setJump m a.current target args

/-- `xair_vex_finish_return`. -/
def vexFinishReturn (values : ArgArray) : Vex Unit := do
  let a ← Effect.get
  vexBuild fun m => setReturn m a.current values

/-! ### Calls -/

/-- A call of the adapter. -/
inductive VexCall
  | setTmp (tmp value : Nat)
  | getTmp (tmp : Nat)
  | getReg (offset : Nat) (type : Ty) (name : Option Name)
  | putReg (offset value : Nat)
  | peekReg (offset : Nat)
  | setMemory (memory : Nat)
  | currentMemory
  | emitConst (tmp : Nat) (type : Ty) (value : Word) (name : Option Name)
  | emitUnop (tmp : Nat) (irop : Option Name) (src : Nat) (name : Option Name)
  | emitBinop (tmp : Nat) (irop : Option Name) (lhs rhs : Nat) (name : Option Name)
  | emitLoad (tmp : Nat) (type : Ty) (address : Nat) (endian : Endian) (name : Option Name)
  | emitStore (address data : Nat) (endian : Endian) (name : Option Name)
  | emitExit (condition taken : Nat) (takenArgs : ArgArray) (continuationName : Option Name)
  | finishJump (target : Nat) (args : ArgArray)
  | finishReturn (values : ArgArray)
  deriving DecidableEq, Repr

/-- What a call does: the value it hands out, and the adapter it leaves. -/
def VexCall.run : VexCall → Vex (Option Nat)
  | .setTmp tmp value => do vexSetTmp tmp value; pure none
  | .getTmp tmp => do return some (← vexGetTmp tmp)
  | .getReg offset type name => do return some (← vexGetReg offset type name)
  | .putReg offset value => do vexPutReg offset value; pure none
  | .peekReg offset => do return some (← vexPeekReg offset)
  | .setMemory memory => do vexSetMemory memory; pure none
  | .currentMemory => do return some (← vexCurrentMemory)
  | .emitConst tmp type value name => do vexEmitConst tmp type value name; pure none
  | .emitUnop tmp irop src name => do vexEmitUnop tmp irop src name; pure none
  | .emitBinop tmp irop lhs rhs name => do vexEmitBinop tmp irop lhs rhs name; pure none
  | .emitLoad tmp type address endian name => do
    vexEmitLoad tmp type address endian name; pure none
  | .emitStore address data endian name => do vexEmitStore address data endian name; pure none
  | .emitExit condition taken takenArgs name => do
    vexEmitExit condition taken takenArgs name; pure none
  | .finishJump target args => do vexFinishJump target args; pure none
  | .finishReturn values => do vexFinishReturn values; pure none

end Xair
