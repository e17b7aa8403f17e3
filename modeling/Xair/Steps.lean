import Xair.Canonicalize
import Mathlib.Data.List.GetD

/-!
# What a builder call can do

A call of the builder either leaves the arrays of a module alone or makes one of
a few changes to them: a block, a parameter, an operation with its result, a run
of terminator arguments, or a terminator with its arguments.  `BuildStep` lists
these changes with the guards that hold when they happen, and `addOp_cases`,
`blockAddParam_cases`, … say which of them each call makes.  Every invariant of
modules is proved about `BuildStep` and never unfolds a call again.
-/

namespace Xair

theorem getD_concat {α : Type} (l : List α) (a d : α) (i : Nat) :
    (l ++ [a]).getD i d = if i < l.length then l.getD i d else if i = l.length then a else d := by
  by_cases h : i < l.length
  · simp [List.getD_eq_getElem?_getD, List.getElem?_append_left h, h]
  · rw [if_neg h]
    by_cases h' : i = l.length
    · subst h'; simp
    · rw [if_neg h', List.getD_eq_default]
      simp only [List.length_append, List.length_singleton]
      omega

theorem getD_set {α : Type} (l : List α) (a d : α) (i j : Nat) :
    (l.set i a).getD j d = if i = j ∧ j < l.length then a else l.getD j d := by
  by_cases hj : j < l.length
  · by_cases h : i = j
    · subst h; simp [List.getD_eq_getElem?_getD, hj]
    · simp [List.getD_eq_getElem?_getD, List.getElem?_set_ne h, h]
  · rw [if_neg (by omega), List.getD_eq_default _ _ (by simpa using hj),
      List.getD_eq_default _ _ (by omega)]

/-! ### Modules with the same arrays -/

/-- `m'` has the arrays of `m`; the value-number table, the statistics and the
frozen flag may differ. -/
structure SameCore (m m' : Module) : Prop where
  values : m'.values = m.values
  ops : m'.ops = m.ops
  blocks : m'.blocks = m.blocks
  termArgs : m'.termArgs = m.termArgs

namespace SameCore

variable {m m' m'' : Module}

theorem refl (m : Module) : SameCore m m := ⟨rfl, rfl, rfl, rfl⟩

theorem trans (h : SameCore m m') (h' : SameCore m' m'') : SameCore m m'' :=
  ⟨h'.values.trans h.values, h'.ops.trans h.ops, h'.blocks.trans h.blocks,
    h'.termArgs.trans h.termArgs⟩

theorem symm (h : SameCore m m') : SameCore m' m :=
  ⟨h.values.symm, h.ops.symm, h.blocks.symm, h.termArgs.symm⟩

theorem valueRec (h : SameCore m m') (v : Nat) : m'.valueRec v = m.valueRec v := by
  rw [Module.valueRec, h.values]; rfl

theorem opRec (h : SameCore m m') (o : Nat) : m'.opRec o = m.opRec o := by
  rw [Module.opRec, h.ops]; rfl

theorem blockRec (h : SameCore m m') (b : Nat) : m'.blockRec b = m.blockRec b := by
  rw [Module.blockRec, h.blocks]; rfl

theorem valueType (h : SameCore m m') (v : Nat) : m'.valueType v = m.valueType v := by
  rw [Module.valueType, h.valueRec]; rfl

end SameCore

theorem sameCore_valueNumberLookup (m : Module) (hash : Word) (k : OpKey) :
    SameCore m (valueNumberLookup m hash k).1 := by
  unfold valueNumberLookup
  split
  · exact .refl m
  · split <;> exact ⟨rfl, rfl, rfl, rfl⟩

theorem sameCore_valueNumberPrepareInsert (m : Module) :
    SameCore m (valueNumberPrepareInsert m) := by
  unfold valueNumberPrepareInsert
  split
  · exact .refl m
  · exact ⟨rfl, rfl, rfl, rfl⟩

theorem sameCore_valueNumberClear (m : Module) : SameCore m (valueNumberClear m) :=
  ⟨rfl, rfl, rfl, rfl⟩

/-- A hit of the probe loop is a value that matches the key. -/
theorem probe_hit {m : Module} {hash : Word} {k : OpKey} (n index : Nat) {v : Nat}
    (h : (probe m hash k n index).1 = some v) : valueNumberMatches m v k = true := by
  induction n generalizing index with
  | zero => simp [probe] at h
  | succ n ih =>
    rw [probe] at h
    split at h
    · simp at h
    · next entry _ =>
      split at h
      · next hc => cases h; exact hc.2
      · exact ih _ h

/-- A hit of the lookup is a value that matches the key. -/
theorem valueNumberLookup_hit {m : Module} {hash : Word} {k : OpKey} {v : Nat}
    (h : (valueNumberLookup m hash k).2 = some v) : valueNumberMatches m v k = true := by
  unfold valueNumberLookup at h
  split at h
  · simp at h
  · split at h
    · next hp =>
      cases h
      exact probe_hit _ _ (by rw [hp])
    · simp at h

/-! ### The changes -/

namespace Module

/-- One more block. -/
def withBlock (m : Module) (name : Name) : Module :=
  { m with blocks := m.blocks ++ [⟨name, [], [], TermRec.empty .none⟩] }

/-- One more parameter of block `b`. -/
def withParam (m : Module) (b : Nat) (t : Ty) (name : Name) : Module :=
  { m with
    values := m.values ++ [⟨t, b, none, name⟩]
    blocks := m.blocks.set b ((m.blockRec b).appendParam m.values.length) }

/-- One more operation, with its result, at the end of block `k.block`. -/
def withOp (m : Module) (k : OpKey) (name : Name) : Module :=
  { m with
    values := m.values ++ [⟨k.type, k.block, some m.ops.length, name⟩]
    ops := m.ops ++ [⟨k.opcode, m.values.length, k.srcs, k.endian, k.imm⟩]
    blocks := m.blocks.set k.block ((m.blockRec k.block).appendOp m.ops.length) }

/-- More terminator arguments that no terminator owns. -/
def withArgs (m : Module) (ids : List Nat) : Module := { m with termArgs := m.termArgs ++ ids }

/-- A terminator for block `b`, with its arguments. -/
def withTerm (m : Module) (b : Nat) (t : TermRec) (ids : List Nat) : Module :=
  { m with
    termArgs := m.termArgs ++ ids
    blocks := m.blocks.set b { m.blockRec b with term := t } }

/-- Block `b` exists and has no terminator yet. -/
def OpenBlock (m : Module) (b : Nat) : Prop :=
  b < m.blocks.length ∧ (m.blockRec b).term.kind = .none

end Module

/-- A terminator whose targets and condition are valid and whose slices are the
two halves of the arguments `ids` appended at position `base`. -/
structure FreshTerm (m : Module) (t : TermRec) (ids : List Nat) : Prop where
  jump : t.kind = .jump → t.trueTarget < m.blocks.length
  cbranch : t.kind = .cbranch → t.trueTarget < m.blocks.length ∧
    t.falseTarget < m.blocks.length ∧ t.condition < m.values.length
  true_ge : t.trueArgCount ≠ 0 → m.termArgs.length ≤ t.trueArgOffset
  true_le : t.trueArgOffset + t.trueArgCount ≤ m.termArgs.length + ids.length
  false_ge : t.falseArgCount ≠ 0 → t.trueArgOffset + t.trueArgCount ≤ t.falseArgOffset ∧
    m.termArgs.length ≤ t.falseArgOffset
  false_le : t.falseArgOffset + t.falseArgCount ≤ m.termArgs.length + ids.length

/-- The change a builder call makes to the arrays of a module. -/
inductive BuildStep (m : Module) : Module → Prop
  | same {m'} : SameCore m m' → BuildStep m m'
  | block {m'} (name : Name) : m.blocks.length < uint32Max →
      SameCore (m.withBlock name) m' → BuildStep m m'
  | param {m'} (b : Nat) (t : Ty) (name : Name) : m.OpenBlock b → t.isValueType = true →
      m.values.length < uint32Max → SameCore (m.withParam b t name) m' → BuildStep m m'
  | op {m'} (k : OpKey) (name : Name) : m.OpenBlock k.block → k.type.isValueType = true →
      (∀ s ∈ k.srcs, s < m.values.length) → k.srcs.length ≤ 3 →
      m.ops.length < uint32Max → m.values.length < uint32Max →
      SameCore (m.withOp k name) m' → BuildStep m m'
  | args {m'} (ids : List Nat) : SameCore (m.withArgs ids) m' → BuildStep m m'
  | term {m'} (b : Nat) (t : TermRec) (ids : List Nat) : m.OpenBlock b → FreshTerm m t ids →
      SameCore (m.withTerm b t ids) m' → BuildStep m m'

/-! ### Which call makes which change -/

theorem addValue_cases (m : Module) (b : Nat) (t : Ty) (name : Option Name) :
    (∃ e, addValue m b t name = (m, .error e)) ∨
    (m.frozen = false ∧ b < m.blocks.length ∧ t.isValueType = true ∧
      m.values.length < uint32Max ∧
      addValue m b t name = ({ m with values := m.values ++
        [⟨t, b, none, copyName name [118] m.values.length⟩] }, .ok m.values.length)) := by
  unfold addValue
  split
  · exact .inl ⟨_, rfl⟩
  · next h1 =>
    split
    · exact .inl ⟨_, rfl⟩
    · next h2 =>
      simp only [Module.validBlock, Bool.or_eq_true, Bool.not_eq_true', decide_eq_false_iff_not,
        not_or, not_not, Bool.not_eq_false, Bool.not_eq_true] at h1
      exact .inr ⟨h1.1.1, h1.1.2, h1.2, by omega, rfl⟩

/-- **`add_op`.**  It fails and keeps the arrays; or it hands out an existing value
that matches the key and keeps the arrays; or the lookup finds nothing and it
appends the operation. -/
theorem addOp_cases (m : Module) (k : OpKey) (name : Option Name) :
    (SameCore m (addOp m k name).1 ∧ ∃ e, (addOp m k name).2 = .error e) ∨
    (m.frozen = false ∧ m.OpenBlock k.block ∧ SameCore m (addOp m k name).1 ∧
      ∃ v, (addOp m k name).2 = .ok v ∧ valueNumberMatches m v k = true ∧
        (valueNumberLookup m (valueNumberHash k) k).2 = some v) ∨
    (m.frozen = false ∧ m.OpenBlock k.block ∧ k.type.isValueType = true ∧ k.srcs.length ≤ 3 ∧
      m.ops.length < uint32Max ∧ m.values.length < uint32Max ∧
      (valueNumberLookup m (valueNumberHash k) k).2 = none ∧
      SameCore (m.withOp k (copyName name [118] m.values.length)) (addOp m k name).1 ∧
      (addOp m k name).2 = .ok m.values.length) := by
  unfold addOp
  split
  · exact .inl ⟨.refl m, _, rfl⟩
  · next h1 =>
    simp only [Module.validBlock, Bool.or_eq_true, Bool.not_eq_true', decide_eq_false_iff_not,
      decide_eq_true_eq, not_or, Bool.not_eq_true, not_lt] at h1
    obtain ⟨⟨hf, hb⟩, hsrc⟩ := h1
    split
    · exact .inl ⟨.refl m, _, rfl⟩
    · next h2 =>
      have hopen : m.OpenBlock k.block := ⟨not_le.mp hb, not_not.mp h2⟩
      split
      · exact .inl ⟨.refl m, _, rfl⟩
      · next h3 =>
        have hcore := sameCore_valueNumberLookup m (valueNumberHash k) k
        split
        · next m₁ v hl =>
          have hv : (valueNumberLookup m (valueNumberHash k) k).2 = some v := by rw [hl]
          rw [hl] at hcore
          exact .inr (.inl ⟨hf, hopen, hcore, v, rfl, valueNumberLookup_hit hv, hv⟩)
        · next m₁ hl =>
          have hnone : (valueNumberLookup m (valueNumberHash k) k).2 = none := by rw [hl]
          rw [hl] at hcore
          have hcore₂ := hcore.trans (sameCore_valueNumberPrepareInsert m₁)
          generalize valueNumberPrepareInsert m₁ = m₂ at hcore₂
          rcases addValue_cases m₂ k.block k.type name with ⟨e, he⟩ | ⟨-, -, ht, hlt, he⟩
          · rw [he]
            exact .inl ⟨hcore₂, e, rfl⟩
          · rw [he]
            refine .inr (.inr ⟨hf, hopen, ht, hsrc, by omega, by rwa [← hcore₂.values], hnone,
              ?_, by rw [hcore₂.values]⟩)
            -- the result record is written last, so only the final one remains
            refine ⟨?_, ?_, ?_, ?_⟩ <;>
              simp [valueNumberInsert, appendOpRec, Module.withOp, Module.valueRec, Module.blockRec,
                hcore₂.values, hcore₂.ops, hcore₂.blocks, hcore₂.termArgs]

theorem blockCreate_cases (m : Module) (name : Option Name) :
    (∃ e, blockCreate m name = (m, .error e)) ∨
    (m.frozen = false ∧ m.blocks.length < uint32Max ∧
      blockCreate m name = (m.withBlock (copyName name [98, 98] m.blocks.length),
        .ok m.blocks.length)) := by
  unfold blockCreate
  split
  · exact .inl ⟨_, rfl⟩
  · next h1 =>
    split
    · exact .inl ⟨_, rfl⟩
    · exact .inr ⟨by simpa using h1, by omega, rfl⟩

theorem blockAddParam_cases (m : Module) (b : Nat) (t : Ty) (name : Option Name) :
    (∃ e, blockAddParam m b t name = (m, .error e)) ∨
    (m.frozen = false ∧ m.OpenBlock b ∧ t.isValueType = true ∧ m.values.length < uint32Max ∧
      blockAddParam m b t name =
        (m.withParam b t (copyName name [118] m.values.length), .ok m.values.length)) := by
  unfold blockAddParam
  split
  · exact .inl ⟨_, rfl⟩
  · split
    · exact .inl ⟨_, rfl⟩
    · next h2 =>
      rcases addValue_cases m b t name with ⟨e, he⟩ | ⟨hf, hb, ht, hlt, he⟩
      · rw [he]; exact .inl ⟨e, rfl⟩
      · rw [he]
        exact .inr ⟨hf, ⟨hb, not_not.mp h2⟩, ht, hlt, rfl⟩

/-- The change `add_op` makes when its sources are valid. -/
theorem buildStep_addOp {m : Module} {k : OpKey} (hs : ∀ s ∈ k.srcs, s < m.values.length)
    (name : Option Name) : BuildStep m (addOp m k name).1 := by
  rcases addOp_cases m k name with ⟨h, -⟩ | ⟨-, -, h, -⟩ | ⟨-, ho, ht, hl, hops, hvals, -, h, -⟩
  · exact .same h
  · exact .same h
  · exact .op k _ ho ht hs hl hops hvals h

theorem appendTermArgs_cases (m : Module) (args : ArgArray) :
    (∃ e, appendTermArgs m args = (m, .error e)) ∨
    (∃ ids, ids.length = args.count ∧
      appendTermArgs m args = (m.withArgs ids, .ok m.termArgs.length)) := by
  unfold appendTermArgs
  split
  · next h => exact .inr ⟨[], h.symm, by simp [Module.withArgs]⟩
  · cases args with
    | null n => exact .inl ⟨_, rfl⟩
    | array ids => exact .inr ⟨ids, rfl, rfl⟩

theorem isOpen_iff {m : Module} {b : Nat} :
    m.isOpen b = true ↔ m.frozen = false ∧ m.OpenBlock b := by
  simp [Module.isOpen, Module.OpenBlock, Module.validBlock, and_assoc]

theorem setTerm_open {m : Module} {b : Nat} (h : m.isOpen b = true) (t : TermRec) :
    setTerm m b t = (m.setBlock b { m.blockRec b with term := t }, .ok ()) := by
  simp [setTerm, h]

theorem withArgs_withArgs (m : Module) (ids ids' : List Nat) :
    (m.withArgs ids).withArgs ids' = m.withArgs (ids ++ ids') := by
  simp [Module.withArgs]

theorem buildStep_setJump (m : Module) (b target : Nat) (args : ArgArray) :
    BuildStep m (setJump m b target args).1 := by
  unfold setJump
  split
  · exact .same (.refl m)
  · next h =>
    simp only [Bool.or_eq_true, Bool.not_eq_true', not_or, Bool.not_eq_false] at h
    rcases appendTermArgs_cases m args with ⟨e, he⟩ | ⟨ids, hids, he⟩
    · rw [he]; exact .same (.refl m)
    · rw [he]
      have ho : (m.withArgs ids).isOpen b = true := h.1
      simp only [setTerm_open ho]
      refine .term b _ ids (isOpen_iff.mp h.1).2 ⟨?_, ?_, ?_, ?_, ?_, ?_⟩ (.refl _)
      · intro _; simpa [Module.validBlock] using h.2
      · intro hc; simp [TermRec.empty] at hc
      · intro _; exact le_rfl
      · simp [hids]
      · intro hc; simp [TermRec.empty] at hc
      · simp [TermRec.empty]

theorem buildStep_setCbranch (m : Module) (b c t : Nat) (ta : ArgArray) (f : Nat)
    (fa : ArgArray) : BuildStep m (setCbranch m b c t ta f fa).1 := by
  unfold setCbranch
  split
  · exact .same (.refl m)
  · next h =>
    simp only [Bool.or_eq_true, Bool.not_eq_true', not_or, Bool.not_eq_false,
      Module.validValue, Module.validBlock, decide_eq_true_eq] at h
    obtain ⟨⟨⟨hopen, hc⟩, ht⟩, hf⟩ := h
    rcases appendTermArgs_cases m ta with ⟨e, he⟩ | ⟨ids, hids, he⟩
    · rw [he]; exact .same (.refl m)
    · rw [he]
      rcases appendTermArgs_cases (m.withArgs ids) fa with ⟨e, he'⟩ | ⟨ids', hids', he'⟩
      · simp only [he']
        exact .args ids (.refl _)
      · simp only [he', withArgs_withArgs]
        have ho : (m.withArgs (ids ++ ids')).isOpen b = true := hopen
        simp only [setTerm_open ho]
        refine .term b _ (ids ++ ids') (isOpen_iff.mp hopen).2 ⟨?_, ?_, ?_, ?_, ?_, ?_⟩ (.refl _)
        · intro hk; simp at hk
        · intro _; exact ⟨ht, hf, hc⟩
        · intro _; exact le_rfl
        · simp only [List.length_append]; omega
        · intro _; simp [Module.withArgs, hids]
        · simp only [Module.withArgs, List.length_append]; omega

theorem buildStep_setReturn (m : Module) (b : Nat) (vs : ArgArray) :
    BuildStep m (setReturn m b vs).1 := by
  unfold setReturn
  split
  · exact .same (.refl m)
  · next h =>
    simp only [Bool.not_eq_true', Bool.not_eq_false] at h
    rcases appendTermArgs_cases m vs with ⟨e, he⟩ | ⟨ids, hids, he⟩
    · rw [he]; exact .same (.refl m)
    · rw [he]
      have ho : (m.withArgs ids).isOpen b = true := h
      simp only [setTerm_open ho]
      refine .term b _ ids (isOpen_iff.mp h).2 ⟨?_, ?_, ?_, ?_, ?_, ?_⟩ (.refl _)
      · intro hc; simp [TermRec.empty] at hc
      · intro hc; simp [TermRec.empty] at hc
      · intro _; exact le_rfl
      · simp [hids]
      · intro hc; simp [TermRec.empty] at hc
      · simp [TermRec.empty]

/-- A terminator without targets, condition or arguments. -/
theorem freshTerm_plain (m : Module) {kind : TermKind} (hk : kind ≠ .jump ∧ kind ≠ .cbranch)
    (code : Nat) : FreshTerm m { TermRec.empty kind with code := code } [] := by
  refine ⟨fun h => absurd h hk.1, fun h => absurd h hk.2, ?_, ?_, ?_, ?_⟩ <;>
    simp [TermRec.empty]

theorem buildStep_setTrap (m : Module) (b code : Nat) : BuildStep m (setTrap m b code).1 := by
  unfold setTrap
  split
  · exact .same (.refl m)
  · next h =>
    simp only [Bool.not_eq_true', Bool.not_eq_false] at h
    rw [setTerm_open h]
    exact .term b _ [] (isOpen_iff.mp h).2 (freshTerm_plain m (by decide) code)
      ⟨rfl, rfl, rfl, by simp [Module.withTerm, Module.setBlock]⟩

theorem buildStep_setFault (m : Module) (b code : Nat) : BuildStep m (setFault m b code).1 := by
  unfold setFault
  split
  · exact .same (.refl m)
  · next h =>
    simp only [Bool.not_eq_true', Bool.not_eq_false] at h
    rw [setTerm_open h]
    exact .term b _ [] (isOpen_iff.mp h).2 (freshTerm_plain m (by decide) code)
      ⟨rfl, rfl, rfl, by simp [Module.withTerm, Module.setBlock]⟩

theorem sameCore_moduleFreeze (m : Module) : SameCore m (moduleFreeze m).1 := by
  unfold moduleFreeze
  split
  · exact .refl m
  · exact ⟨rfl, rfl, rfl, rfl⟩

/-- Every call other than canonicalization makes one of the listed changes. -/
theorem Call.buildStep (m : Module) (c : Call) (hc : c ≠ .canonicalize) :
    BuildStep m (c.run m).1 := by
  cases c with
  | blockCreate name =>
    show BuildStep m (Xair.blockCreate m name).1
    rcases blockCreate_cases m name with ⟨e, he⟩ | ⟨-, hlt, he⟩
    · rw [he]; exact .same (.refl m)
    · rw [he]; exact .block _ hlt (.refl _)
  | blockAddParam b t name =>
    show BuildStep m (Xair.blockAddParam m b t name).1
    rcases blockAddParam_cases m b t name with ⟨e, he⟩ | ⟨-, ho, ht, hlt, he⟩
    · rw [he]; exact .same (.refl m)
    · rw [he]; exact .param b t _ ho ht hlt (.refl _)
  | buildConstU64 b t w name =>
    show BuildStep m (Xair.buildConstU64 m b t w name).1
    unfold Xair.buildConstU64
    split
    · exact .same (.refl m)
    · exact buildStep_addOp (by simp) name
  | buildUnary b op t s name =>
    show BuildStep m (Xair.buildUnary m b op t s name).1
    unfold Xair.buildUnary
    split
    · exact .same (.refl m)
    · next h => exact buildStep_addOp (by simpa [Module.validValue] using h) name
  | buildBinary b op t l r name =>
    show BuildStep m (Xair.buildBinary m b op t l r name).1
    unfold Xair.buildBinary
    split
    · exact .same (.refl m)
    · next h => exact buildStep_addOp (by simpa [Module.validValue] using h) name
  | buildLoad b t mem a e name =>
    show BuildStep m (Xair.buildLoad m b t mem a e name).1
    unfold Xair.buildLoad
    split
    · exact .same (.refl m)
    · next h => exact buildStep_addOp (by simpa [Module.validValue] using h) name
  | buildStore b mem a d e name =>
    show BuildStep m (Xair.buildStore m b mem a d e name).1
    unfold Xair.buildStore
    split
    · exact .same (.refl m)
    · next h => exact buildStep_addOp (by simpa [Module.validValue, and_assoc] using h) name
  | setJump b t args => exact buildStep_setJump m b t args
  | setCbranch b c t ta f fa => exact buildStep_setCbranch m b c t ta f fa
  | setReturn b vs => exact buildStep_setReturn m b vs
  | setTrap b c => exact buildStep_setTrap m b c
  | setFault b c => exact buildStep_setFault m b c
  | canonicalize => exact absurd rfl hc
  | freeze => exact .same (sameCore_moduleFreeze m)

end Xair
