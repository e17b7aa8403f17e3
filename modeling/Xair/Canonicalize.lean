import Xair.Fold
import Xair.Verify
import Xair.Builder

/-!
# Canonicalization

Liveness (`mark_live_value`, `mark_term_live_values`), compaction
(`compact_live_values`) and the public pass `xair_canonicalize_module`, followed
by the calls of the whole mutating API as one type.

The arrays `value_map`, `op_map`, `new_values` and `new_ops` are maps from their
index while they are being filled; the two new arrays become lists at the end.
An unmapped id is `none` for `XAIR_INVALID_ID`.
-/

namespace Xair

/-! ### Liveness -/

/-- `mark_live_value`.  The recursion marks a new value at each level, so a bound
of one more than the number of values is never reached. -/
def markLiveValue (m : Module) : Nat → ValueSet → Nat → ValueSet
  | 0, live, _ => live
  | fuel + 1, live, v =>
    if !m.validValue v || live v then live
    else
      match m.valueOp v with
      | none => live.mark v
      | some op => op.src.foldl (markLiveValue m fuel) (live.mark v)

/-- `mark_live_value` on each id of a list. -/
def markLiveValues (m : Module) (live : ValueSet) (vs : List Nat) : ValueSet :=
  vs.foldl (markLiveValue m (m.values.length + 1)) live

/-- The ids that `mark_term_live_values` marks. -/
def Module.termUses (m : Module) (t : TermRec) : List Nat :=
  match t.kind with
  | .jump | .ret => m.termArgsConst t false
  | .cbranch => t.condition :: (m.termArgsConst t false ++ m.termArgsConst t true)
  | _ => []

/-- The marking loop of `eliminate_dead_values`: parameters and terminator uses
of every block. -/
def liveValues (m : Module) : ValueSet :=
  m.blocks.foldl
    (fun live bb => markLiveValues m (markLiveValues m live bb.params) (m.termUses bb.term))
    ValueSet.empty

/-! ### Compaction -/

/-- `value_map`, `op_map` and the two counters. -/
structure CompactMaps where
  valueMap : Nat → Option Nat
  opMap : Nat → Option Nat
  newValueCount : Nat
  newOpCount : Nat

/-- Number the next parameter. -/
def CompactMaps.addParam (maps : CompactMaps) (v : Nat) : CompactMaps :=
  { maps with
    valueMap := fun u => if u = v then some maps.newValueCount else maps.valueMap u
    newValueCount := maps.newValueCount + 1 }

/-- Number the next operation and its result, when the result is live. -/
def CompactMaps.addOp (m : Module) (live : ValueSet) (maps : CompactMaps) (o : Nat) :
    CompactMaps :=
  let dst := (m.opRec o).dst
  if live dst then
    { valueMap := fun u => if u = dst then some maps.newValueCount else maps.valueMap u
      opMap := fun p => if p = o then some maps.newOpCount else maps.opMap p
      newValueCount := maps.newValueCount + 1
      newOpCount := maps.newOpCount + 1 }
  else maps

/-- The numbering loop over the blocks. -/
def compactMaps (m : Module) (live : ValueSet) : CompactMaps :=
  m.blocks.foldl
    (fun maps bb => bb.ops.foldl (CompactMaps.addOp m live) (bb.params.foldl CompactMaps.addParam maps))
    ⟨fun _ => none, fun _ => none, 0, 0⟩

/-- `value_map[v]`. -/
def CompactMaps.value (maps : CompactMaps) (v : Nat) : Nat := (maps.valueMap v).getD invalidId

/-- `remap_args`, on the slice of one edge inside `term_args`. -/
def remapArgs (maps : CompactMaps) (args : List Nat) (offset count : Nat) : List Nat :=
  args.mapIdx fun i v => if offset ≤ i ∧ i < offset + count then maps.value v else v

/-- The new arrays while they are filled. -/
structure CompactArrays where
  newValues : Nat → ValueRec
  newOps : Nat → OpRec

/-- The loop that copies the surviving value records, without their operations. -/
def copyValues (m : Module) (maps : CompactMaps) : CompactArrays :=
  (List.range m.values.length).foldl
    (fun arrays i =>
      match maps.valueMap i with
      | none => arrays
      | some j =>
        { arrays with newValues := fun u =>
            if u = j then { m.valueRec i with op := none } else arrays.newValues u })
    ⟨fun _ => Module.defaultValue, fun _ => Module.defaultOp⟩

/-- The record of a surviving operation after renumbering. -/
def remapOp (maps : CompactMaps) (op : OpRec) : OpRec :=
  { op with dst := maps.value op.dst, src := op.src.map maps.value }

/-- One surviving operation: write its new record and link its result to it. -/
def compactOp (m : Module) (maps : CompactMaps) (arrays : CompactArrays) (o : Nat) :
    CompactArrays :=
  match maps.opMap o with
  | none => arrays
  | some o' =>
    let op := remapOp maps (m.opRec o)
    { newOps := fun p => if p = o' then op else arrays.newOps p
      newValues := fun u =>
        if u = op.dst then { arrays.newValues u with op := some o' } else arrays.newValues u }

/-- The rewritten terminator of a block. -/
def remapTerm (maps : CompactMaps) (t : TermRec) : TermRec :=
  match t.kind with
  | .cbranch => { t with condition := maps.value t.condition }
  | _ => t

/-- The argument array after the terminator of one block has been rewritten. -/
def remapTermArgs (maps : CompactMaps) (args : List Nat) (t : TermRec) : List Nat :=
  match t.kind with
  | .jump | .ret => remapArgs maps args t.trueArgOffset t.trueArgCount
  | .cbranch =>
    remapArgs maps (remapArgs maps args t.trueArgOffset t.trueArgCount)
      t.falseArgOffset t.falseArgCount
  | _ => args

/-- The rewritten record of a block. -/
def remapBlock (maps : CompactMaps) (bb : BlockRec) : BlockRec :=
  { bb with
    params := bb.params.map maps.value
    ops := bb.ops.filterMap maps.opMap
    term := remapTerm maps bb.term }

/-- `compact_live_values`, with the numbers of removed values and operations. -/
def compactLiveValues (m : Module) (live : ValueSet) : Module × Nat × Nat :=
  let maps := compactMaps m live
  if maps.newValueCount = m.values.length ∧ maps.newOpCount = m.ops.length then (m, 0, 0)
  else
    let arrays := m.blocks.foldl (fun a bb => bb.ops.foldl (compactOp m maps) a) (copyValues m maps)
    ({ m with
        values := (List.range maps.newValueCount).map arrays.newValues
        ops := (List.range maps.newOpCount).map arrays.newOps
        blocks := m.blocks.map (remapBlock maps)
        termArgs := m.blocks.foldl (fun args bb => remapTermArgs maps args bb.term) m.termArgs },
      m.values.length - maps.newValueCount, m.ops.length - maps.newOpCount)

/-- `eliminate_dead_values`. -/
def eliminateDeadValues (m : Module) : Module × Nat × Nat := compactLiveValues m (liveValues m)

/-- `xair_canonicalize_stats`. -/
structure CanonicalizeStats where
  valuesBefore : Nat
  valuesAfter : Nat
  operationsBefore : Nat
  operationsAfter : Nat
  valueNumberEntriesBefore : Nat
  valueNumberEntriesAfter : Nat
  operandsReordered : Nat
  constantsFolded : Nat
  deadValuesRemoved : Nat
  deadOperationsRemoved : Nat
  deriving DecidableEq, Repr

/-- The module after the two passes of `xair_canonicalize_module`. -/
def canonicalizedModule (m : Module) : Module :=
  (eliminateDeadValues (canonicalizeLocalOps (valueNumberClear m)).1).1

/-- `xair_canonicalize_module`.  The error record it fills is that of the
verification that failed. -/
def canonicalizeModule (m : Module) : Module × Except Status CanonicalizeStats :=
  if m.frozen then (m, .error .errBadArg)
  else
    match verifyModule m with
    | .error _ => (m, .error .errVerify)
    | .ok () =>
      let (m₁, localStats) := canonicalizeLocalOps (valueNumberClear m)
      let (m₂, deadValues, deadOps) := eliminateDeadValues m₁
      match verifyModule m₂ with
      | .error _ => (m₂, .error .errVerify)
      | .ok () =>
        (m₂, .ok
          { valuesBefore := m.values.length
            valuesAfter := m₂.values.length
            operationsBefore := m.ops.length
            operationsAfter := m₂.ops.length
            valueNumberEntriesBefore := m.valueNumberCount
            valueNumberEntriesAfter := m₂.valueNumberCount
            operandsReordered := localStats.operandsReordered
            constantsFolded := localStats.constantsFolded
            deadValuesRemoved := deadValues
            deadOperationsRemoved := deadOps })

/-! ### The mutating API as a whole -/

/-- A public call that can change a module. -/
inductive Call
  | blockCreate (name : Option Name)
  | blockAddParam (block : Nat) (type : Ty) (name : Option Name)
  | buildConstU64 (block : Nat) (type : Ty) (value : Word) (name : Option Name)
  | buildUnary (block : Nat) (opcode : Opcode) (type : Ty) (src : Nat) (name : Option Name)
  | buildBinary (block : Nat) (opcode : Opcode) (type : Ty) (lhs rhs : Nat) (name : Option Name)
  | buildLoad (block : Nat) (type : Ty) (memory address : Nat) (endian : Endian)
      (name : Option Name)
  | buildStore (block memory address data : Nat) (endian : Endian) (name : Option Name)
  | setJump (block target : Nat) (args : ArgArray)
  | setCbranch (block condition trueTarget : Nat) (trueArgs : ArgArray) (falseTarget : Nat)
      (falseArgs : ArgArray)
  | setReturn (block : Nat) (values : ArgArray)
  | setTrap (block code : Nat)
  | setFault (block code : Nat)
  | canonicalize
  | freeze
  deriving DecidableEq, Repr

/-- The module a call leaves behind, and its status with the id it hands out. -/
def Call.run (m : Module) (c : Call) : Module × Except Status (Option Nat) :=
  let withId (r : Module × Except Status Nat) : Module × Except Status (Option Nat) :=
    (r.1, r.2.map some)
  let noId (r : Module × Except Status Unit) : Module × Except Status (Option Nat) :=
    (r.1, r.2.map fun _ => none)
  match c with
  | .blockCreate name => withId (Xair.blockCreate m name)
  | .blockAddParam b t name => withId (Xair.blockAddParam m b t name)
  | .buildConstU64 b t w name => withId (Xair.buildConstU64 m b t w name)
  | .buildUnary b op t s name => withId (Xair.buildUnary m b op t s name)
  | .buildBinary b op t l r name => withId (Xair.buildBinary m b op t l r name)
  | .buildLoad b t mem a e name => withId (Xair.buildLoad m b t mem a e name)
  | .buildStore b mem a d e name => withId (Xair.buildStore m b mem a d e name)
  | .setJump b t args => noId (Xair.setJump m b t args)
  | .setCbranch b c t ta f fa => noId (Xair.setCbranch m b c t ta f fa)
  | .setReturn b vs => noId (Xair.setReturn m b vs)
  | .setTrap b c => noId (Xair.setTrap m b c)
  | .setFault b c => noId (Xair.setFault m b c)
  | .canonicalize => ((canonicalizeModule m).1, (canonicalizeModule m).2.map fun _ => none)
  | .freeze => noId (moduleFreeze m)

/-- The module after a sequence of calls, whatever their statuses. -/
def runCalls (m : Module) (calls : List Call) : Module :=
  calls.foldl (fun m c => (c.run m).1) m

/-- A module that some sequence of public calls builds from an empty one. -/
def Module.Reachable (m : Module) : Prop := ∃ calls, m = runCalls Module.create calls

end Xair
