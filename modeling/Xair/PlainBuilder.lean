import Xair.HashCons
import Xair.Renaming

/-!
# The plain builder

A builder without value numbering, to compare the real one with: it empties the
value-number table before every call, so that no lookup finds anything and every
building call appends an operation of its own (`addOp_plain`).

The two builders hand out different ids.  A program that both can run therefore
names its operands by position: a value operand is the position of an earlier
result in the list of all results so far.
-/

namespace Xair

/-- A call of the plain builder. -/
def Call.runPlain (m : Module) (c : Call) : Module × Except Status (Option Nat) :=
  c.run (valueNumberClear m)

/-! ### Programs -/

/-- The ids of an argument array whose entries are positions in `res`. -/
def ArgArray.resolve (res : List Nat) : ArgArray → Option ArgArray
  | .null count => some (.null count)
  | .array ids => (ids.mapM fun i => res[i]?).map .array

/-- A call whose value operands are positions in the list of results `res`.  A
program neither canonicalizes nor freezes. -/
def Call.resolve (res : List Nat) : Call → Option Call
  | .blockCreate name => some (.blockCreate name)
  | .blockAddParam b t name => some (.blockAddParam b t name)
  | .buildConstU64 b t w name => some (.buildConstU64 b t w name)
  | .buildUnary b op t s name => do return .buildUnary b op t (← res[s]?) name
  | .buildBinary b op t l r name => do return .buildBinary b op t (← res[l]?) (← res[r]?) name
  | .buildLoad b t mem a e name => do return .buildLoad b t (← res[mem]?) (← res[a]?) e name
  | .buildStore b mem a d e name => do
    return .buildStore b (← res[mem]?) (← res[a]?) (← res[d]?) e name
  | .setJump b t args => do return .setJump b t (← args.resolve res)
  | .setCbranch b c t ta f fa => do
    return .setCbranch b (← res[c]?) t (← ta.resolve res) f (← fa.resolve res)
  | .setReturn b vs => do return .setReturn b (← vs.resolve res)
  | .setTrap b code => some (.setTrap b code)
  | .setFault b code => some (.setFault b code)
  | .canonicalize => none
  | .freeze => none

/-- The value a successful call adds to the results. -/
def Call.results (c : Call) (id : Option Nat) : List Nat :=
  match c with
  | .blockCreate _ => []
  | _ => id.toList

/-- Run a program with either builder: the module and the results, if every call
succeeds. -/
def runProgram (run : Module → Call → Module × Except Status (Option Nat)) :
    List Call → Module × List Nat → Option (Module × List Nat)
  | [], s => some s
  | c :: calls, (m, res) =>
    match c.resolve res with
    | none => none
    | some c' =>
      match run m c' with
      | (_, .error _) => none
      | (m', .ok id) => runProgram run calls (m', res ++ c.results id)

/-! ### Modules that grow -/

theorem prefix_of_eq {l l' : List Nat} (h : l = l') : l <+: l' := h ▸ List.prefix_refl l

/-- The records of `m` are still in `m'`. -/
structure Grows (m m' : Module) : Prop where
  ops_le : m.ops.length ≤ m'.ops.length
  values_le : m.values.length ≤ m'.values.length
  opRec : ∀ o < m.ops.length, m'.opRec o = m.opRec o
  valueRec : ∀ v < m.values.length, m'.valueRec v = m.valueRec v
  termArgs : ∃ ids, m'.termArgs = m.termArgs ++ ids

section Grows

variable {m m' : Module}

theorem Grows.refl (m : Module) : Grows m m :=
  ⟨Nat.le_refl _, Nat.le_refl _, fun _ _ => rfl, fun _ _ => rfl, [], by simp⟩

theorem grows_withBlock (m : Module) (name : Name) : Grows m (m.withBlock name) :=
  ⟨Nat.le_refl _, Nat.le_refl _, fun _ _ => rfl, fun _ _ => rfl, [], by simp [Module.withBlock]⟩

theorem grows_withParam (m : Module) (b : Nat) (t : Ty) (name : Name) :
    Grows m (m.withParam b t name) := by
  refine ⟨Nat.le_refl _, by simp [Module.withParam], fun _ _ => rfl, fun v hv => ?_, [],
    by simp [Module.withParam]⟩
  rw [Module.withParam_old hv]

theorem grows_withOp (m : Module) (k : OpKey) (name : Name) : Grows m (m.withOp k name) := by
  refine ⟨by simp [Module.withOp], by simp [Module.withOp], fun o ho => ?_, fun v hv => ?_, [],
    by simp [Module.withOp]⟩
  · rw [Module.withOp_oldOp ho]
  · rw [Module.withOp_old hv]

theorem grows_withTerm (m : Module) (b : Nat) (t : TermRec) (ids : List Nat) :
    Grows m (m.withTerm b t ids) :=
  ⟨Nat.le_refl _, Nat.le_refl _, fun _ _ => rfl, fun _ _ => rfl, ids, rfl⟩

theorem Grows.valueType (h : Grows m m') {v : Nat} (hv : v < m.values.length) :
    m'.valueType v = m.valueType v := by
  rw [Module.valueType, h.valueRec v hv]; rfl

/-- Slices inside the old arguments are still there. -/
theorem Grows.termArgsConst (h : Grows m m') {t : TermRec} (ht : TermWF m t) (f : Bool) :
    m'.termArgsConst t f = m.termArgsConst t f := by
  obtain ⟨ids, hids⟩ := h.termArgs
  have h1 := ht.true_le
  have h2 := ht.false_le
  unfold Module.termArgsConst
  rw [hids]
  split
  · rw [List.drop_append_of_le_length (by omega), List.take_append_of_le_length (by simp; omega)]
  · rw [List.drop_append_of_le_length (by omega), List.take_append_of_le_length (by simp; omega)]

end Grows

/-! ### The plain builder appends -/

/-- **The plain builder appends** an operation of its own for every building call. -/
theorem addOp_plain {m : Module} {k : OpKey} {name : Option Name} {v : Nat}
    (h : (addOp (valueNumberClear m) k name).2 = .ok v) :
    m.OpenBlock k.block ∧ v = m.values.length ∧
      ∃ n, SameCore (m.withOp k n) (addOp (valueNumberClear m) k name).1 := by
  rcases addOp_cases (valueNumberClear m) k name with ⟨-, e, he⟩ | ⟨-, -, -, w, -, -, hl⟩ |
    ⟨-, ho, -, -, -, -, -, hc, hw⟩
  · rw [he] at h; cases h
  · cases hl
  · rw [hw] at h
    cases h
    exact ⟨ho, rfl, _, hc.values, hc.ops, hc.blocks, hc.termArgs⟩

/-- The real builder reuses a matching value or appends. -/
theorem addOp_numbered {m : Module} {k : OpKey} {name : Option Name} {v : Nat}
    (h : (addOp m k name).2 = .ok v) :
    (SameCore m (addOp m k name).1 ∧ valueNumberMatches m v k = true) ∨
      (v = m.values.length ∧ ∃ n, SameCore (m.withOp k n) (addOp m k name).1) := by
  rcases addOp_cases m k name with ⟨-, e, he⟩ | ⟨-, -, hc, w, hw, hmatch, -⟩ |
    ⟨-, -, -, -, -, -, -, hc, hw⟩
  · rw [he] at h; cases h
  · rw [hw] at h
    cases h
    exact .inl ⟨hc, hmatch⟩
  · rw [hw] at h
    cases h
    exact .inr ⟨rfl, _, hc⟩

/-! ### Terminators -/

/-- The ids of an argument array that can be read. -/
def ArgArray.ids : ArgArray → List Nat
  | .null _ => []
  | .array ids => ids

/-- A slice that starts in the second part of a list. -/
theorem take_drop_append (as ids : List Nat) (i n : Nat) :
    ((as ++ ids).drop (as.length + i)).take n = (ids.drop i).take n := by
  rw [List.drop_append, List.drop_eq_nil_of_le (Nat.le_add_right _ _),
    Nat.add_sub_cancel_left, List.nil_append]

theorem withArgs_nil (m : Module) : m.withArgs [] = m := by simp [Module.withArgs]

/-- `append_term_args` in one equation. -/
theorem appendTermArgs_eq (m : Module) (args : ArgArray) : appendTermArgs m args =
    if args.ids.length = args.count then (m.withArgs args.ids, .ok m.termArgs.length)
    else (m, .error .errBadArg) := by
  unfold appendTermArgs
  cases args with
  | null n =>
    cases n with
    | zero => simp [ArgArray.ids, ArgArray.count, withArgs_nil]
    | succ n => rfl
  | array ids =>
    rw [if_pos (show (ArgArray.array ids).ids.length = (ArgArray.array ids).count from rfl)]
    split
    · next hn =>
      obtain rfl : ids = [] := List.length_eq_zero_iff.mp hn
      rw [ArgArray.ids, withArgs_nil]
    · rfl

section Terminators

variable {m m' : Module} {b : Nat} {u : Unit}

/-- `set_term` after the arguments were appended. -/
theorem setTerm_withArgs (hb : m.isOpen b = true) (ids : List Nat) (t : TermRec) :
    setTerm (m.withArgs ids) b t = (m.withTerm b t ids, .ok ()) := by
  have hopen : (m.withArgs ids).isOpen b = true := hb
  rw [setTerm_open hopen]
  rfl

/-- `xair_set_jump` in one equation. -/
theorem setJump_eq (m : Module) (b target : Nat) (args : ArgArray) : setJump m b target args =
    if m.isOpen b = true ∧ m.validBlock target = true ∧ args.ids.length = args.count then
      (m.withTerm b { TermRec.empty .jump with
        trueTarget := target, trueArgOffset := m.termArgs.length, trueArgCount := args.count }
        args.ids, .ok ())
    else (m, .error .errBadArg) := by
  unfold setJump
  rw [appendTermArgs_eq]
  by_cases hargs : args.ids.length = args.count
  · by_cases hb : m.isOpen b = true
    · by_cases ht : m.validBlock target = true
      · simp only [hargs, hb, ht, if_true, and_self, Bool.not_true, Bool.or_self,
          Bool.false_eq_true, if_false, setTerm_withArgs hb]
      · simp [ht]
    · simp [hb]
  · simp [hargs]

/-- `xair_set_return` in one equation. -/
theorem setReturn_eq (m : Module) (b : Nat) (values : ArgArray) : setReturn m b values =
    if m.isOpen b = true ∧ values.ids.length = values.count then
      (m.withTerm b { TermRec.empty .ret with
        trueArgOffset := m.termArgs.length, trueArgCount := values.count } values.ids, .ok ())
    else (m, .error .errBadArg) := by
  unfold setReturn
  rw [appendTermArgs_eq]
  by_cases hargs : values.ids.length = values.count
  · by_cases hb : m.isOpen b = true
    · simp only [hargs, hb, if_true, and_self, Bool.not_true, Bool.false_eq_true, if_false,
        setTerm_withArgs hb]
    · simp [hb]
  · simp [hargs]

/-- `xair_set_cbranch` in one equation: the true arguments stay behind when the false ones are
refused. -/
theorem setCbranch_eq (m : Module) (b condition target : Nat) (targs : ArgArray) (ftarget : Nat)
    (fargs : ArgArray) : setCbranch m b condition target targs ftarget fargs =
    if (m.isOpen b = true ∧ m.validValue condition = true ∧ m.validBlock target = true ∧
        m.validBlock ftarget = true) ∧ targs.ids.length = targs.count then
      if fargs.ids.length = fargs.count then
        (m.withTerm b ⟨.cbranch, condition, target, ftarget, m.termArgs.length, targs.count,
          m.termArgs.length + targs.count, fargs.count, 0⟩ (targs.ids ++ fargs.ids), .ok ())
      else (m.withArgs targs.ids, .error .errBadArg)
    else (m, .error .errBadArg) := by
  unfold setCbranch
  by_cases hguard : m.isOpen b = true ∧ m.validValue condition = true ∧
      m.validBlock target = true ∧ m.validBlock ftarget = true
  · obtain ⟨hb, hc, ht, hf⟩ := hguard
    rw [hb, hc, ht, hf, if_neg (by decide), appendTermArgs_eq]
    by_cases htargs : targs.ids.length = targs.count
    · rw [if_pos htargs, if_pos (by simp [htargs])]
      dsimp only
      rw [appendTermArgs_eq]
      by_cases hfargs : fargs.ids.length = fargs.count
      · rw [if_pos hfargs, if_pos hfargs]
        dsimp only
        rw [withArgs_withArgs, setTerm_withArgs hb]
        simp only [Module.withArgs, List.length_append, htargs]
      · rw [if_neg hfargs, if_neg hfargs]
    · rw [if_neg htargs, if_neg (by simp [htargs])]
  · have hrefuse : (!m.isOpen b || !m.validValue condition || !m.validBlock target ||
        !m.validBlock ftarget) = true := by
      simpa [imp_iff_not_or, or_assoc] using hguard
    rw [if_pos hrefuse, if_neg fun h => hguard h.1]

/-- `xair_set_trap` and `xair_set_fault` in one equation. -/
theorem setPlain_eq (m : Module) (b : Nat) (t : TermRec) :
    (if !m.isOpen b then (m, .error .errBadArg) else setTerm m b t) =
      if m.isOpen b = true then (m.withTerm b t [], .ok ())
      else (m, (.error .errBadArg : Except Status Unit)) := by
  by_cases hb : m.isOpen b = true
  · have hset := setTerm_withArgs hb [] t
    rw [withArgs_nil] at hset
    rw [if_pos hb, if_neg (by simp [hb]), hset]
  · rw [if_neg hb, if_pos (by simpa using hb)]

theorem setTrap_eq (m : Module) (b code : Nat) : setTrap m b code =
    if m.isOpen b = true then (m.withTerm b { TermRec.empty .trap with code := code } [], .ok ())
    else (m, .error .errBadArg) :=
  setPlain_eq m b _

theorem setFault_eq (m : Module) (b code : Nat) : setFault m b code =
    if m.isOpen b = true then (m.withTerm b { TermRec.empty .fault with code := code } [], .ok ())
    else (m, .error .errBadArg) :=
  setPlain_eq m b _

theorem setJump_ok {target : Nat} {args : ArgArray}
    (h : setJump m b target args = (m', .ok u)) :
    m' = m.withTerm b { TermRec.empty .jump with
      trueTarget := target, trueArgOffset := m.termArgs.length, trueArgCount := args.count }
      args.ids := by
  rw [setJump_eq] at h
  split at h <;> cases h
  rfl

theorem setJump_error {target : Nat} {args : ArgArray} {e : Status}
    (h : setJump m b target args = (m', .error e)) : m' = m := by
  rw [setJump_eq] at h
  split at h <;> cases h
  rfl

theorem setCbranch_ok {c target ftarget : Nat} {targs fargs : ArgArray}
    (h : setCbranch m b c target targs ftarget fargs = (m', .ok u)) :
    m' = m.withTerm b ⟨.cbranch, c, target, ftarget, m.termArgs.length, targs.count,
      m.termArgs.length + targs.count, fargs.count, 0⟩ (targs.ids ++ fargs.ids) ∧
      targs.ids.length = targs.count := by
  rw [setCbranch_eq] at h
  split at h
  · next hguard =>
    split at h <;> cases h
    exact ⟨rfl, hguard.2⟩
  · cases h

/-- What was checked for a branch that was set. -/
theorem setCbranch_checks {c target ftarget : Nat} {targs fargs : ArgArray}
    (h : setCbranch m b c target targs ftarget fargs = (m', .ok u)) :
    m.isOpen b = true ∧ m.validValue c = true ∧ m.validBlock target = true ∧
      m.validBlock ftarget = true := by
  rw [setCbranch_eq] at h
  split at h
  · next hguard => exact hguard.1
  · cases h

theorem setReturn_ok {vs : ArgArray} (h : setReturn m b vs = (m', .ok u)) :
    m' = m.withTerm b { TermRec.empty .ret with
      trueArgOffset := m.termArgs.length, trueArgCount := vs.count } vs.ids := by
  rw [setReturn_eq] at h
  split at h <;> cases h
  rfl

/-- A return that is refused changes nothing. -/
theorem setReturn_error {vs : ArgArray} {e : Status} (h : setReturn m b vs = (m', .error e)) :
    m' = m := by
  rw [setReturn_eq] at h
  split at h <;> cases h
  rfl

theorem setTrap_ok {code : Nat} (h : setTrap m b code = (m', .ok u)) :
    m' = m.withTerm b { TermRec.empty .trap with code := code } [] := by
  rw [setTrap_eq] at h
  split at h <;> cases h
  rfl

theorem setFault_ok {code : Nat} (h : setFault m b code = (m', .ok u)) :
    m' = m.withTerm b { TermRec.empty .fault with code := code } [] := by
  rw [setFault_eq] at h
  split at h <;> cases h
  rfl

end Terminators

end Xair
