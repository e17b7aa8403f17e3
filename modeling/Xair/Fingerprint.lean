import Xair.PrefixCode
import Xair.Reachable

/-!
# The fingerprint

`xair_module_fingerprint`.  It feeds a sequence of words to `hash_mix_u64`
(`fingerprintWords`), and the sequence has no separators: each list follows its count.  The
words of two modules are the same exactly when their structures are
(`fingerprintWords_iff`).  The structure (`Module.shape`) leaves out names, offsets, the
value-number table and the frozen flag.
-/

namespace Xair

/-- The numbers of a type. -/
def fingerprintType (t : Ty) : List Nat := [t.kind.code, t.bits, t.aux]

/-- The numbers of value `i`. -/
def fingerprintValue (i : Nat) (value : ValueRec) : List Nat :=
  i :: fingerprintType value.type ++ [value.block, value.op.getD invalidId]

/-- The numbers of operation `i`. -/
def fingerprintOp (i : Nat) (op : OpRec) : List Nat :=
  [i, op.opcode.code, op.dst, op.src.length] ++ op.src ++ [op.endian.code, op.imm.toNat]

/-- The enumeration value of a terminator. -/
def TermKind.code : TermKind → Nat
  | .none => 0 | .jump => 1 | .cbranch => 2 | .ret => 3 | .trap => 4 | .fault => 5

/-- The numbers of block `i`. -/
def fingerprintBlock (m : Module) (i : Nat) (block : BlockRec) : List Nat :=
  let term := block.term
  [i, block.params.length] ++ block.params ++ [block.ops.length] ++ block.ops ++
    [term.kind.code, term.condition, term.trueTarget, term.falseTarget, term.trueArgCount] ++
    m.termArgsConst term false ++ [term.falseArgCount] ++ m.termArgsConst term true ++ [term.code]

/-- The numbers that `xair_module_fingerprint` mixes, in order. -/
def fingerprintNumbers (m : Module) : List Nat :=
  [m.blocks.length, m.values.length, m.ops.length] ++
    (m.values.mapIdx fingerprintValue).flatten ++ (m.ops.mapIdx fingerprintOp).flatten ++
    (m.blocks.mapIdx (fingerprintBlock m)).flatten

/-- Each number as a `uint64_t`. -/
def fingerprintWords (m : Module) : List Word := (fingerprintNumbers m).map (BitVec.ofNat 64)

/-- `xair_module_fingerprint`. -/
def moduleFingerprint (m : Module) : Word :=
  (fingerprintWords m).foldl hashMixU64 0x584149525f76305f#64

/-! ### Structure -/

/-- A value without its name. -/
structure ValueShape where
  type : Ty
  block : Nat
  op : Option Nat
  deriving DecidableEq, Repr

/-- A block without its name; the arguments of its edges are lists. -/
structure BlockShape where
  params : List Nat
  ops : List Nat
  kind : TermKind
  condition : Nat
  trueTarget : Nat
  falseTarget : Nat
  trueArgs : List Nat
  falseArgs : List Nat
  code : Nat
  deriving DecidableEq, Repr

/-- The structure of a module. -/
structure ModuleShape where
  values : List ValueShape
  ops : List OpRec
  blocks : List BlockShape
  deriving DecidableEq, Repr

def ValueRec.shape (value : ValueRec) : ValueShape := ⟨value.type, value.block, value.op⟩

def Module.blockShape (m : Module) (block : BlockRec) : BlockShape :=
  let term := block.term
  ⟨block.params, block.ops, term.kind, term.condition, term.trueTarget, term.falseTarget,
    m.termArgsConst term false, m.termArgsConst term true, term.code⟩

/-- What two modules have in common that are equal up to names, offsets and the tables that the
API keeps for itself. -/
def Module.shape (m : Module) : ModuleShape :=
  ⟨m.values.map ValueRec.shape, m.ops, m.blocks.map m.blockShape⟩

/-- The module with other names. -/
def Module.rename (m : Module) (valueName blockName : Nat → Name) : Module :=
  { m with
    values := m.values.mapIdx fun i value => { value with name := valueName i }
    blocks := m.blocks.mapIdx fun i block => { block with name := blockName i } }

/-- The numbers lie in the ranges of the fields' types. -/
structure Module.InRange (m : Module) : Prop where
  values_lt : m.values.length < 2 ^ 64
  ops_lt : m.ops.length < 2 ^ 64
  blocks_lt : m.blocks.length < 2 ^ 64
  termArgs : ∀ v ∈ m.termArgs, v < 2 ^ 32
  value : ∀ value ∈ m.values, value.type.bits < 2 ^ 16 ∧ value.type.aux < 2 ^ 16 ∧
    value.block < 2 ^ 32 ∧ ∀ o ∈ value.op, o < 2 ^ 32
  op : ∀ op ∈ m.ops, op.dst < 2 ^ 32 ∧ op.src.length < 2 ^ 8 ∧ ∀ v ∈ op.src, v < 2 ^ 32
  block : ∀ block ∈ m.blocks, block.params.length < 2 ^ 64 ∧ (∀ v ∈ block.params, v < 2 ^ 32) ∧
    block.ops.length < 2 ^ 64 ∧ ∀ o ∈ block.ops, o < 2 ^ 32
  term : ∀ block ∈ m.blocks, block.term.condition < 2 ^ 32 ∧ block.term.trueTarget < 2 ^ 32 ∧
    block.term.falseTarget < 2 ^ 32 ∧ block.term.trueArgCount < 2 ^ 64 ∧
    block.term.falseArgCount < 2 ^ 64 ∧ block.term.code < 2 ^ 32

/-! ### The structure as numbers -/

def ValueShape.numbers (i : Nat) (value : ValueShape) : List Nat :=
  i :: fingerprintType value.type ++ [value.block, value.op.getD invalidId]

def BlockShape.numbers (i : Nat) (block : BlockShape) : List Nat :=
  [i, block.params.length] ++ block.params ++ [block.ops.length] ++ block.ops ++
    [block.kind.code, block.condition, block.trueTarget, block.falseTarget, block.trueArgs.length] ++
    block.trueArgs ++ [block.falseArgs.length] ++ block.falseArgs ++ [block.code]

def ModuleShape.numbers (s : ModuleShape) : List Nat :=
  [s.blocks.length, s.values.length, s.ops.length] ++
    (s.values.mapIdx ValueShape.numbers).flatten ++ (s.ops.mapIdx fingerprintOp).flatten ++
    (s.blocks.mapIdx BlockShape.numbers).flatten

section Numbers

variable {m : Module}

/-- The slices of a terminator are as long as their counts. -/
theorem TermWF.args_length {t : TermRec} (h : TermWF m t) :
    (m.termArgsConst t false).length = t.trueArgCount ∧
      (m.termArgsConst t true).length = t.falseArgCount := by
  have htrue := h.true_le
  have hfalse := h.false_le
  simp only [Module.termArgsConst, Bool.false_eq_true, if_false, if_true, List.length_take,
    List.length_drop]
  omega

theorem numbers_blockShape (i : Nat) {block : BlockRec} (h : TermWF m block.term) :
    (m.blockShape block).numbers i = fingerprintBlock m i block := by
  obtain ⟨htrue, hfalse⟩ := h.args_length
  simp only [BlockShape.numbers, Module.blockShape, fingerprintBlock, htrue, hfalse]

/-- The numbers of a module are those of its structure. -/
theorem numbers_shape (h : m.WF) : m.shape.numbers = fingerprintNumbers m := by
  have hblocks : (m.blocks.map m.blockShape).mapIdx BlockShape.numbers =
      m.blocks.mapIdx (fingerprintBlock m) := by
    refine List.ext_getElem (by simp) fun b hb _ => ?_
    have hlt : b < m.blocks.length := by simpa using hb
    have hterm := h.term b hlt
    rw [Module.blockRec, List.getD_eq_getElem _ _ hlt] at hterm
    simp only [List.getElem_mapIdx, List.getElem_map]
    exact numbers_blockShape b hterm
  have hvalues : (m.values.map ValueRec.shape).mapIdx ValueShape.numbers =
      m.values.mapIdx fingerprintValue := by
    refine List.ext_getElem (by simp) fun v _ _ => ?_
    simp only [List.getElem_mapIdx, List.getElem_map]
    rfl
  simp only [ModuleShape.numbers, Module.shape, List.length_map, hblocks, hvalues,
    fingerprintNumbers]

end Numbers

/-! ### Reading back -/

theorem Endian.code_injective {d e : Endian} (h : d.code = e.code) : d = e := by
  cases d <;> cases e <;> first | rfl | exact absurd h (by decide)

theorem TermKind.code_injective {k l : TermKind} (h : k.code = l.code) : k = l := by
  cases k <;> cases l <;> first | rfl | exact absurd h (by decide)

theorem Opcode.code_injective {o p : Opcode} (h : o.code = p.code) : o = p := by
  have hcode : ∀ q : Opcode, Opcode.ofNat q.code = q := by
    intro q
    cases q <;> rfl
  rw [← hcode o, h, hcode]

theorem prefixCode_value (i : Nat) :
    PrefixCode (fun value : ValueShape => value.op ≠ some invalidId) (ValueShape.numbers i) := by
  rintro ⟨⟨kind, bits, aux⟩, block, op⟩ ⟨⟨kind', bits', aux'⟩, block', op'⟩ hx hy r s h
  simp only [ValueShape.numbers, fingerprintType, List.cons_append, List.nil_append,
    List.cons.injEq, true_and] at h
  obtain ⟨hkind, rfl, rfl, rfl, hop, rfl⟩ := h
  obtain rfl := TypeKind.code_injective hkind
  have hopt : op = op' := by
    cases op <;> cases op' <;> simp_all
  exact ⟨by rw [hopt], rfl⟩

theorem prefixCode_op (i : Nat) : PrefixCode (fun _ => True) (fingerprintOp i) := by
  rintro ⟨opcode, dst, src, endian, imm⟩ ⟨opcode', dst', src', endian', imm'⟩ - - r s h
  simp only [fingerprintOp, List.cons_append, List.nil_append, List.append_assoc,
    List.cons.injEq, true_and] at h
  obtain ⟨hopcode, rfl, hcount, hsrc⟩ := h
  obtain ⟨rfl, htail⟩ := List.append_inj hsrc hcount
  simp only [List.cons.injEq] at htail
  obtain ⟨hendian, himm, rfl⟩ := htail
  obtain rfl := Opcode.code_injective hopcode
  obtain rfl := Endian.code_injective hendian
  obtain rfl := BitVec.eq_of_toNat_eq himm
  exact ⟨rfl, rfl⟩

theorem prefixCode_block (i : Nat) : PrefixCode (fun _ => True) (BlockShape.numbers i) := by
  rintro ⟨params, ops, kind, cond, tt, ft, targs, fargs, code⟩
    ⟨params', ops', kind', cond', tt', ft', targs', fargs', code'⟩ - - r s h
  simp only [BlockShape.numbers, List.cons_append, List.nil_append, List.append_assoc,
    List.cons.injEq, true_and] at h
  obtain ⟨hcount, hparams⟩ := h
  obtain ⟨rfl, htail⟩ := List.append_inj hparams hcount
  simp only [List.cons.injEq] at htail
  obtain ⟨hcount, hops⟩ := htail
  obtain ⟨rfl, htail⟩ := List.append_inj hops hcount
  simp only [List.cons.injEq] at htail
  obtain ⟨hkind, rfl, rfl, rfl, hcount, htargs⟩ := htail
  obtain ⟨rfl, htail⟩ := List.append_inj htargs hcount
  simp only [List.cons.injEq] at htail
  obtain ⟨hcount, hfargs⟩ := htail
  obtain ⟨rfl, htail⟩ := List.append_inj hfargs hcount
  simp only [List.cons.injEq] at htail
  obtain ⟨rfl, rfl⟩ := htail
  obtain rfl := TermKind.code_injective hkind
  exact ⟨rfl, rfl⟩

/-- The numbers determine the structure. -/
theorem ModuleShape.numbers_injective {s t : ModuleShape}
    (hs : ∀ value ∈ s.values, value.op ≠ some invalidId)
    (ht : ∀ value ∈ t.values, value.op ≠ some invalidId) (h : s.numbers = t.numbers) : s = t := by
  simp only [ModuleShape.numbers, List.cons_append, List.nil_append, List.append_assoc,
    List.cons.injEq] at h
  obtain ⟨hblocks, hvalues, hops, h⟩ := h
  obtain ⟨evalues, h⟩ := prefixCode_table prefixCode_value hvalues hs ht h
  obtain ⟨eops, h⟩ := prefixCode_table prefixCode_op hops (fun _ _ => trivial)
    (fun _ _ => trivial) h
  obtain ⟨eblocks, -⟩ := prefixCode_table (r := []) (s := []) prefixCode_block hblocks
    (fun _ _ => trivial) (fun _ _ => trivial) (by rw [h])
  obtain ⟨values, ops, blocks⟩ := s
  obtain ⟨values', ops', blocks'⟩ := t
  obtain rfl := evalues
  obtain rfl := eops
  obtain rfl := eblocks
  rfl

/-! ### Words -/

section Words

variable {m : Module}

theorem TypeKind.code_lt (k : TypeKind) : k.code < 2 ^ 64 := by cases k <;> decide

theorem Opcode.code_lt (o : Opcode) : o.code < 2 ^ 64 := by cases o <;> decide

theorem Endian.code_lt (e : Endian) : e.code < 2 ^ 64 := by cases e <;> decide

theorem TermKind.code_lt (k : TermKind) : k.code < 2 ^ 64 := by cases k <;> decide

/-- Every member of a table of rows lies in one of them. -/
theorem mem_flatten_mapIdx {α : Type} {row : Nat → α → List Nat} {xs : List α} {n : Nat}
    (h : n ∈ (xs.mapIdx row).flatten) : ∃ i < xs.length, ∃ x ∈ xs, n ∈ row i x := by
  obtain ⟨l, hl, hn⟩ := List.mem_flatten.mp h
  obtain ⟨i, hi, rfl⟩ := List.mem_mapIdx.mp hl
  exact ⟨i, hi, xs[i], List.getElem_mem hi, hn⟩

theorem id_lt {k : Nat} (hk : k < 2 ^ 32) : k < 2 ^ 64 := Nat.lt_trans hk (by decide)

theorem Module.InRange.value_lt (h : m.InRange) {i n : Nat} (hi : i < m.values.length)
    {value : ValueRec} (hmem : value ∈ m.values) (hn : n ∈ fingerprintValue i value) :
    n < 2 ^ 64 := by
  obtain ⟨hbits, haux, hblock, hop⟩ := h.value value hmem
  have hvalues := h.values_lt
  simp only [fingerprintValue, fingerprintType, List.cons_append, List.nil_append, List.mem_cons,
    List.not_mem_nil, or_false] at hn
  rcases hn with rfl | rfl | rfl | rfl | rfl | rfl
  · omega
  · exact value.type.kind.code_lt
  · omega
  · omega
  · omega
  · cases hv : value.op with
    | none => decide
    | some o => exact id_lt (hop o hv)

theorem Module.InRange.op_lt (h : m.InRange) {i n : Nat} (hi : i < m.ops.length) {op : OpRec}
    (hmem : op ∈ m.ops) (hn : n ∈ fingerprintOp i op) : n < 2 ^ 64 := by
  obtain ⟨hdst, hcount, hsrc⟩ := h.op op hmem
  have hops := h.ops_lt
  simp only [fingerprintOp, List.mem_append, List.mem_cons, List.not_mem_nil, or_false] at hn
  rcases hn with ((rfl | rfl | rfl | rfl) | hn) | rfl | rfl
  · omega
  · exact op.opcode.code_lt
  · omega
  · omega
  · exact id_lt (hsrc n hn)
  · exact op.endian.code_lt
  · exact op.imm.isLt

theorem Module.InRange.args_lt (h : m.InRange) {n : Nat} {t : TermRec} {f : Bool}
    (hn : n ∈ m.termArgsConst t f) : n < 2 ^ 64 := by
  refine id_lt (h.termArgs n ?_)
  unfold Module.termArgsConst at hn
  split at hn <;> exact List.mem_of_mem_drop (List.mem_of_mem_take hn)

theorem Module.InRange.block_lt (h : m.InRange) {i n : Nat} (hi : i < m.blocks.length)
    {block : BlockRec} (hmem : block ∈ m.blocks) (hn : n ∈ fingerprintBlock m i block) :
    n < 2 ^ 64 := by
  obtain ⟨hparamCount, hparams, hopCount, hops⟩ := h.block block hmem
  obtain ⟨hcond, htrue, hfalse, htrueCount, hfalseCount, hcode⟩ := h.term block hmem
  have hblocks := h.blocks_lt
  simp only [fingerprintBlock, List.mem_append, List.mem_cons, List.not_mem_nil, or_false] at hn
  rcases hn with (((((((((rfl | rfl) | hn) | rfl) | hn) | hn) | hn) | rfl) | hn) | rfl)
  · omega
  · exact hparamCount
  · exact id_lt (hparams n hn)
  · exact hopCount
  · exact id_lt (hops n hn)
  · rcases hn with rfl | rfl | rfl | rfl | rfl
    · exact block.term.kind.code_lt
    · exact id_lt hcond
    · exact id_lt htrue
    · exact id_lt hfalse
    · exact htrueCount
  · exact h.args_lt hn
  · exact hfalseCount
  · exact h.args_lt hn
  · exact id_lt hcode

/-- No number is cut by the conversion to a word. -/
theorem Module.InRange.number_lt (h : m.InRange) {n : Nat} (hn : n ∈ fingerprintNumbers m) :
    n < 2 ^ 64 := by
  simp only [fingerprintNumbers, List.mem_append] at hn
  rcases hn with ((hn | hn) | hn) | hn
  · simp only [List.mem_cons, List.not_mem_nil, or_false] at hn
    rcases hn with rfl | rfl | rfl
    · exact h.blocks_lt
    · exact h.values_lt
    · exact h.ops_lt
  · obtain ⟨i, hi, value, hmem, hrow⟩ := mem_flatten_mapIdx hn
    exact h.value_lt hi hmem hrow
  · obtain ⟨i, hi, op, hmem, hrow⟩ := mem_flatten_mapIdx hn
    exact h.op_lt hi hmem hrow
  · obtain ⟨i, hi, block, hmem, hrow⟩ := mem_flatten_mapIdx hn
    exact h.block_lt hi hmem hrow

/-- Numbers that are not cut are determined by their words. -/
theorem words_injective {xs ys : List Nat} (hx : ∀ n ∈ xs, n < 2 ^ 64) (hy : ∀ n ∈ ys, n < 2 ^ 64)
    (h : xs.map (BitVec.ofNat 64) = ys.map (BitVec.ofNat 64)) : xs = ys := by
  have hback : ∀ zs : List Nat, (∀ n ∈ zs, n < 2 ^ 64) →
      (zs.map (BitVec.ofNat 64)).map BitVec.toNat = zs := by
    intro zs hz
    rw [List.map_map]
    refine (List.map_congr_left fun n hn => ?_).trans (List.map_id zs)
    rw [Function.comp_apply, BitVec.toNat_ofNat, Nat.mod_eq_of_lt (hz n hn), id]
  rw [← hback xs hx, h, hback ys hy]

/-- An operation id of a module is never `XAIR_INVALID_ID`. -/
theorem Module.WF.shape_op (h : m.WF) : ∀ value ∈ m.shape.values, value.op ≠ some invalidId := by
  intro value hmem hop
  obtain ⟨rec, hrec, rfl⟩ := List.mem_map.mp hmem
  obtain ⟨v, hv, rfl⟩ := List.getElem_of_mem hrec
  have hvalue : (m.valueRec v).op = some invalidId := by
    rw [Module.valueRec, List.getD_eq_getElem _ _ hv]
    exact hop
  have hlt := (h.value_op v hv _ hvalue).1
  have hle := h.ops_le
  rw [invalidId] at hlt
  omega

end Words

/-- **The fingerprint covers the whole structure.**  The words that the fingerprints of two
modules mix are the same exactly when the modules have the same structure.  A freeze and other
names change no word. -/
theorem fingerprintWords_iff {a b : Module} (ha : a.Reachable) (hb : b.Reachable) (hta : a.InRange)
    (htb : b.InRange) :
    (fingerprintWords a = fingerprintWords b ↔ a.shape = b.shape) ∧
      fingerprintWords (moduleFreeze a).1 = fingerprintWords a ∧
      ∀ valueName blockName,
        fingerprintWords (a.rename valueName blockName) = fingerprintWords a := by
  have hwfa := wf_reachable ha
  have hwfb := wf_reachable hb
  refine ⟨⟨fun h => ?_, fun h => ?_⟩, ?_, fun valueName blockName => ?_⟩
  · have hnumbers := words_injective (fun _ => hta.number_lt) (fun _ => htb.number_lt) h
    rw [← numbers_shape hwfa, ← numbers_shape hwfb] at hnumbers
    exact ModuleShape.numbers_injective hwfa.shape_op hwfb.shape_op hnumbers
  · rw [fingerprintWords, fingerprintWords, ← numbers_shape hwfa, ← numbers_shape hwfb, h]
  · rw [moduleFreeze]
    split <;> rfl
  · simp only [fingerprintWords, fingerprintNumbers, Module.rename, List.length_mapIdx,
      List.mapIdx_mapIdx]
    rfl

/-- A block of one constant that traps. -/
def trapModule (code : Nat) : Module :=
  runCalls Module.create [.blockCreate none, .buildConstU64 0 (typeI 8) 1#64 none, .setTrap 0 code]

theorem trapModule_inRange : (trapModule 1).InRange ∧ (trapModule 2).InRange := by
  constructor <;> constructor <;> decide

theorem fingerprintWords_iff_trap :
    (fingerprintWords (trapModule 1) = fingerprintWords (trapModule 2) ↔
        (trapModule 1).shape = (trapModule 2).shape) ∧
      fingerprintWords (moduleFreeze (trapModule 1)).1 = fingerprintWords (trapModule 1) ∧
      ∀ valueName blockName,
        fingerprintWords ((trapModule 1).rename valueName blockName) =
          fingerprintWords (trapModule 1) :=
  fingerprintWords_iff ⟨_, rfl⟩ ⟨_, rfl⟩ trapModule_inRange.1 trapModule_inRange.2

end Xair
