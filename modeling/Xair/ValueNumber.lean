import Xair.Module

/-!
# Structural value numbering

The open-addressing table of `xair.c`: `value_number_hash`,
`value_number_matches`, `value_number_lookup`, `value_number_grow`,
`value_number_prepare_insert` and `value_number_insert`.

The probe loops carry a bound on the number of slots they may still visit.  For
the lookup it is the bound of the C loop.  The two insertion loops have no bound
in C; here they get the capacity, and `HashCons.lean` proves that they meet a
free slot before it runs out.
-/

namespace Xair

/-- The golden-ratio constant of the mixer. -/
def hashSeed : Word := 0x9e3779b97f4a7c15#64

/-- `hash_mix_u64`. -/
def hashMixU64 (hash value : Word) : Word :=
  let h := hash ^^^ (value + hashSeed + (hash <<< 6) + (hash >>> 2))
  if h = 0#64 then hashSeed else h

/-- `hash_type`. -/
def hashType (hash : Word) (t : Ty) : Word :=
  hashMixU64 (hashMixU64 (hashMixU64 hash (BitVec.ofNat 64 t.kind.code))
    (BitVec.ofNat 64 t.bits)) (BitVec.ofNat 64 t.aux)

/-- The arguments that identify an operation to the table. -/
structure OpKey where
  block : Nat
  opcode : Opcode
  type : Ty
  srcs : List Nat
  imm : Word
  endian : Endian
  deriving DecidableEq, Repr

/-- `value_number_is_global`: constants are pooled over all blocks. -/
def valueNumberIsGlobal (opcode : Opcode) : Bool := opcode == .constU64

/-- `value_number_hash`. -/
def valueNumberHash (k : OpKey) : Word :=
  let hash : Word := BitVec.ofNat 64 1469598103934665603
  let hash := hashMixU64 hash
    (if valueNumberIsGlobal k.opcode then BitVec.allOnes 64 else BitVec.ofNat 64 k.block)
  let hash := hashMixU64 hash (BitVec.ofNat 64 k.opcode.code)
  let hash := hashType hash k.type
  let hash := hashMixU64 hash (BitVec.ofNat 64 k.srcs.length)
  let hash := k.srcs.foldl (fun h s => hashMixU64 h (BitVec.ofNat 64 s)) hash
  let hash := hashMixU64 hash k.imm
  hashMixU64 hash (BitVec.ofNat 64 k.endian.code)

/-- `value_number_matches`. -/
def valueNumberMatches (m : Module) (value : Nat) (k : OpKey) : Bool :=
  m.validValue value && m.valueType value == k.type &&
    (valueNumberIsGlobal k.opcode || (m.valueRec value).block == k.block) &&
    match m.valueOp value with
    | none => false
    | some op =>
      op.opcode == k.opcode && op.src.length == k.srcs.length && op.imm == k.imm &&
        op.endian == k.endian && op.src == k.srcs

/-- `value_number_cap`. -/
def Module.valueNumberCap (m : Module) : Nat := m.valueNumbers.length

/-- The home slot of a hash in a table of `cap` slots. -/
def homeSlot (cap : Nat) (hash : Word) : Nat := hash.toNat &&& (cap - 1)

/-- The slot after `index`. -/
def nextSlot (cap index : Nat) : Nat := (index + 1) &&& (cap - 1)

/-- The probe loop of `value_number_lookup`, with `probes` slots left to visit:
the value it hits and the collisions it counts. -/
def probe (m : Module) (hash : Word) (k : OpKey) : Nat → Nat → Option Nat × Nat
  | 0, _ => (none, 0)
  | probes + 1, index =>
    match m.valueNumbers.getD index none with
    | none => (none, 0)
    | some entry =>
      if entry.hash = hash ∧ valueNumberMatches m entry.value k then (some entry.value, 0)
      else
        let (hit, collisions) := probe m hash k probes (nextSlot m.valueNumberCap index)
        (hit, collisions + 1)

/-- `value_number_lookup`. -/
def valueNumberLookup (m : Module) (hash : Word) (k : OpKey) : Module × Option Nat :=
  if m.valueNumberCap = 0 then (m, none)
  else
    match probe m hash k m.valueNumberCap (homeSlot m.valueNumberCap hash) with
    | (some value, collisions) =>
      ({ m with stats := { m.stats with
          reused := m.stats.reused + 1
          collisions := m.stats.collisions + collisions } }, some value)
    | (none, collisions) =>
      ({ m with stats := { m.stats with
          collisions := m.stats.collisions + collisions } }, none)

/-- The loop `while (value_numbers[index].used)`, bounded by `fuel` steps. -/
def freeSlot (table : List (Option ValueNumberEntry)) : Nat → Nat → Option Nat
  | 0, _ => none
  | fuel + 1, index =>
    match table.getD index none with
    | none => some index
    | some _ => freeSlot table fuel (nextSlot table.length index)

/-- Place an entry in the first free slot from its home. -/
def placeEntry (table : List (Option ValueNumberEntry)) (entry : ValueNumberEntry) :
    List (Option ValueNumberEntry) :=
  match freeSlot table table.length (homeSlot table.length entry.hash) with
  | some index => table.set index (some entry)
  | none => table

/-- `value_number_grow`. -/
def valueNumberGrow (m : Module) (nextCap : Nat) : Module :=
  let entries := m.valueNumbers.filterMap id
  { m with
    valueNumbers := entries.foldl placeEntry (List.replicate nextCap none)
    valueNumberCount := entries.length }

/-- `value_number_prepare_insert`. -/
def valueNumberPrepareInsert (m : Module) : Module :=
  if m.valueNumberCap ≠ 0 ∧ (m.valueNumberCount + 1) * 2 < m.valueNumberCap then m
  else valueNumberGrow m (if m.valueNumberCap = 0 then 64 else m.valueNumberCap * 2)

/-- `value_number_insert`. -/
def valueNumberInsert (m : Module) (hash : Word) (value : Nat) : Module :=
  { m with
    valueNumbers := placeEntry m.valueNumbers ⟨hash, value⟩
    valueNumberCount := m.valueNumberCount + 1
    stats := { m.stats with created := m.stats.created + 1 } }

/-- `value_number_clear`. -/
def valueNumberClear (m : Module) : Module :=
  { m with valueNumbers := [], valueNumberCount := 0 }

end Xair
