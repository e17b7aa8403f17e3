import Mathlib.Data.BitVec
import Xair.HashCons
import Xair.KeyOrder
import Xair.LocalSound

/-!
# The order of operands

`compare_value_order` compares two values by six keys and then by their ids
(`compareValueOrder_eq`); the keys leave undecided what ties (`keyOrder_eq`).  The value of
a constant is a key although it means nothing for other values: it is looked at only where
both values are constants or neither is, and the key of no constant is the same for all.
So the comparison is a total order, and as a commutative operation has never more than two
operands (`paired_of_reachable`), its operands have one order that the local pass leaves
alone.
-/

namespace Xair

/-! ### The keys -/

/-- `strcmp` is the lexicographic order of the bytes. -/
theorem strcmp_eq_compare (s t : Name) : strcmp s t = compare s t := by
  show strcmp s t = List.compareLex compare s t
  induction s generalizing t with
  | nil => cases t <;> rfl
  | cons a s ih =>
    cases t with
    | nil => rfl
    | cons b t =>
      rw [List.compareLex_cons_cons]
      by_cases hab : a = b
      · rw [strcmp, if_pos hab, ih, hab, Std.ReflOrd.compare_self]
        rfl
      · rw [strcmp, if_neg hab, KeyOrder.ite_lt_gt hab,
          KeyOrder.then_of_ne (KeyOrder.compare_ne_eq hab)]

/-- Two values that the operand order tells apart by their ids only. -/
def Module.Ties (m : Module) (a b : Nat) : Prop :=
  constU64Value m a = constU64Value m b ∧ m.valueType a = m.valueType b ∧
    (m.valueRec a).name = (m.valueRec b).name

instance (m : Module) (a b : Nat) : Decidable (m.Ties a b) := inferInstanceAs (Decidable (_ ∧ _ ∧ _))

/-- The keys of the operand order, before the ids. -/
def keyOrder (m : Module) : Nat → Nat → Ordering :=
  compareLex (compareOn fun v => (constU64Value m v).isSome) <|
  compareLex (compareOn fun v => (m.valueType v).kind.code) <|
  compareLex (compareOn fun v => (m.valueType v).bits) <|
  compareLex (compareOn fun v => (m.valueType v).aux) <|
  compareLex (compareOn fun v => ((constU64Value m v).getD 0).toNat) <|
  compareOn fun v => (m.valueRec v).name

section Order

variable {m : Module}

/-- The operand order is the order by the keys, then by the ids. -/
theorem compareValueOrder_eq (m : Module) :
    compareValueOrder m = compareLex (keyOrder m) compare := by
  funext a b
  simp only [compareValueOrder, keyOrder, compareLex, compareOn, Ordering.then_assoc]
  refine KeyOrder.ite_ne_then id id (fun hne => ?_) fun hsome => ?_
  · -- constants come last
    cases ha : (constU64Value m a).isSome <;> cases hb : (constU64Value m b).isSome
    · exact absurd (ha.trans hb.symm) hne
    · rfl
    · rfl
    · exact absurd (ha.trans hb.symm) hne
  refine KeyOrder.ite_ne_then TypeKind.code (fun h => TypeKind.code_injective h)
    (fun hne => KeyOrder.ite_lt_gt fun h => hne (TypeKind.code_injective h)) fun _ => ?_
  refine KeyOrder.ite_ne_then id id KeyOrder.ite_lt_gt fun _ => ?_
  refine KeyOrder.ite_ne_then id id KeyOrder.ite_lt_gt fun _ => ?_
  -- both are constants or neither is
  have hconst : ((constU64Value m a).getD 0).toNat = ((constU64Value m b).getD 0).toNat →
      constU64Value m a = constU64Value m b :=
    fun h => KeyOrder.eq_of_getD hsome (BitVec.eq_of_toNat_eq h)
  refine KeyOrder.ite_ne_then (fun w : Option Word => (w.getD 0).toNat) hconst
    (fun hne => KeyOrder.ite_lt_gt fun h => hne (hconst h)) fun _ => ?_
  rw [strcmp_eq_compare]
  cases compare (m.valueRec a).name (m.valueRec b).name with
  | lt => rfl
  | gt => rfl
  | eq =>
    by_cases hab : a = b
    · simp [hab]
    · simp only [Ordering.then, if_neg hab, KeyOrder.ite_lt_gt hab]

theorem keyOrder_eq {a b : Nat} : keyOrder m a b = .eq ↔ m.Ties a b := by
  simp only [keyOrder, compareLex, compareOn, Ordering.then_eq_eq, Std.LawfulEqOrd.compare_eq_iff_eq]
  constructor
  · rintro ⟨hsome, hkind, hbits, haux, hconst, hname⟩
    refine ⟨KeyOrder.eq_of_getD hsome (BitVec.eq_of_toNat_eq hconst), ?_, hname⟩
    replace hkind := TypeKind.code_injective hkind
    cases hta : m.valueType a
    cases htb : m.valueType b
    rw [hta, htb] at hkind hbits haux
    congr
  · rintro ⟨hconst, htype, hname⟩
    rw [hconst, htype, hname]
    exact ⟨rfl, rfl, rfl, rfl, rfl, rfl⟩

instance : Std.TransCmp (compareValueOrder m) := by
  rw [compareValueOrder_eq]
  unfold keyOrder
  infer_instance

/-- Only a value and itself compare equal. -/
instance : Std.LawfulEqCmp (compareValueOrder m) where
  eq_of_compare {a b} h := by
    rw [compareValueOrder_eq] at h
    exact Std.LawfulEqOrd.eq_of_compare (Ordering.then_eq_eq.mp h).2

/-- The order of values that do not tie is decided by their keys. -/
theorem compareValueOrder_keys {m' : Module} {a b a' b' : Nat} (h : ¬ m.Ties a b)
    (hc : constU64Value m' a' = constU64Value m a) (hc' : constU64Value m' b' = constU64Value m b)
    (ht : m'.valueType a' = m.valueType a) (ht' : m'.valueType b' = m.valueType b)
    (hn : (m'.valueRec a').name = (m.valueRec a).name)
    (hn' : (m'.valueRec b').name = (m.valueRec b).name) :
    compareValueOrder m' a' b' = compareValueOrder m a b := by
  have hkeys : keyOrder m' a' b' = keyOrder m a b := by
    simp only [keyOrder, compareLex, compareOn, hc, hc', ht, ht', hn, hn']
  have hne : keyOrder m a b ≠ .eq := fun heq => h (keyOrder_eq.mp heq)
  rw [compareValueOrder_eq, compareValueOrder_eq, compareLex, compareLex, hkeys,
    KeyOrder.then_of_ne hne, KeyOrder.then_of_ne hne]

/-- The keys of values that tie leave the order to the ids. -/
theorem compareValueOrder_ties {a b : Nat} (h : m.Ties a b) :
    compareValueOrder m a b = compare a b := by
  rw [compareValueOrder_eq, compareLex, keyOrder_eq.mpr h]
  rfl

theorem compareValueOrder_swap (a b : Nat) :
    compareValueOrder m b a = (compareValueOrder m a b).swap :=
  Std.OrientedCmp.eq_swap

/-- The order looks at constants, types and names only. -/
theorem compareValueOrder_congr {m' : Module} {a b : Nat}
    (ha : constU64Value m' a = constU64Value m a) (hb : constU64Value m' b = constU64Value m b)
    (hrec : ∀ v, m'.valueRec v = m.valueRec v) :
    compareValueOrder m' a b = compareValueOrder m a b := by
  have htype : ∀ v, m'.valueType v = m.valueType v := fun v => congrArg ValueRec.type (hrec v)
  have hname : ∀ v, (m'.valueRec v).name = (m.valueRec v).name := fun v =>
    congrArg ValueRec.name (hrec v)
  by_cases h : m.Ties a b
  · obtain ⟨h1, h2, h3⟩ := h
    have h' : m'.Ties a b := by
      refine ⟨?_, ?_, ?_⟩
      · rw [ha, hb, h1]
      · rw [htype, htype, h2]
      · rw [hname, hname, h3]
    rw [compareValueOrder_ties ⟨h1, h2, h3⟩, compareValueOrder_ties h']
  · exact compareValueOrder_keys h ha hb (htype a) (htype b) (hname a) (hname b)

end Order

/-! ### Reordering -/

/-- The sources of an operation once the loop has met it. -/
def reorderedSrc (m : Module) (op : OpRec) : List Nat := ((reorderOperands m op).getD op).src

section Reorder

variable {m : Module} {op : OpRec} {a b : Nat}

/-- Operands are due to be swapped when the order says so. -/
theorem reorderOperands_none (hs : op.src = [a, b]) (hc : opIsCommutative op.opcode = true) :
    reorderOperands m op = none ↔ compareValueOrder m a b ≠ .gt := by
  simp [reorderOperands, hs, hc, OpRec.srcAt]

/-- Operations that are not commutative, or have not two sources, are not reordered. -/
theorem reorderOperands_other (h : ¬ (op.src.length = 2 ∧ opIsCommutative op.opcode = true)) :
    reorderOperands m op = none := by
  rw [reorderOperands, if_neg fun hh => h ⟨hh.1, hh.2.1⟩]

theorem reorderOperands_congr {m' : Module}
    (hc : ∀ s ∈ op.src, constU64Value m' s = constU64Value m s)
    (hrec : ∀ v, m'.valueRec v = m.valueRec v) :
    reorderOperands m' op = reorderOperands m op := by
  by_cases h : op.src.length = 2 ∧ opIsCommutative op.opcode = true
  · have h0 := hc _ (OpRec.srcAt_mem (i := 0) (by omega))
    have h1 := hc _ (OpRec.srcAt_mem (i := 1) (by omega))
    rw [reorderOperands, reorderOperands, compareValueOrder_congr h0 h1 hrec]
  · rw [reorderOperands_other h, reorderOperands_other h]

theorem reorderedSrc_pair (hs : op.src = [a, b]) (hc : opIsCommutative op.opcode = true) :
    reorderedSrc m op = KeyOrder.arrange (compareValueOrder m) a b := by
  rw [reorderedSrc, KeyOrder.arrange]
  split
  · next hgt =>
    simp [reorderOperands, hs, hc, hgt, OpRec.srcAt]
  · next hgt =>
    rw [(reorderOperands_none hs hc).mpr hgt, Option.getD_none, hs]

theorem reorderLocalOp_src {o : Nat} (ho : o < m.ops.length) (stats : LocalStats) :
    ((reorderLocalOp m o stats).1.opRec o).src = reorderedSrc m (m.opRec o) := by
  rw [reorderLocalOp, reorderedSrc]
  cases h : reorderOperands m (m.opRec o) with
  | none => rfl
  | some op' =>
    dsimp only
    rw [opRec_setOp, if_pos ⟨rfl, ho⟩]
    rfl

variable (hlen : op.src.length ≤ 2) (hc : opIsCommutative op.opcode = true)

include hlen hc

/-- Operands are left alone exactly if they are sorted. -/
theorem reorderOperands_none_iff :
    reorderOperands m op = none ↔ KeyOrder.Sorted (compareValueOrder m) op.src := by
  by_cases h2 : op.src.length = 2
  · obtain ⟨a, b, hs⟩ := List.length_eq_two.mp h2
    rw [reorderOperands_none hs hc, hs, KeyOrder.sorted_pair]
  · exact iff_of_true (reorderOperands_other fun hh => h2 hh.1) (KeyOrder.sorted_of_short (by omega))

theorem reorderedSrc_sorted : KeyOrder.Sorted (compareValueOrder m) (reorderedSrc m op) ∧
    (reorderedSrc m op).Perm op.src := by
  by_cases h2 : op.src.length = 2
  · obtain ⟨a, b, hs⟩ := List.length_eq_two.mp h2
    rw [reorderedSrc_pair hs hc, hs]
    exact ⟨KeyOrder.arrange_sorted a b, KeyOrder.arrange_perm a b⟩
  · have hnone : reorderOperands m op = none := reorderOperands_other fun hh => h2 hh.1
    rw [reorderedSrc, hnone, Option.getD_none]
    exact ⟨KeyOrder.sorted_of_short (by omega), List.Perm.refl _⟩

/-- **The operands of a commutative operation have one canonical order.** -/
theorem canonical_operands : ∃ l, l.Perm op.src ∧ ∀ l', l'.Perm op.src →
    (reorderOperands m { op with src := l' } = none ↔ l' = l) ∧
      reorderedSrc m { op with src := l' } = l := by
  obtain ⟨hsorted, hperm⟩ := @reorderedSrc_sorted m op hlen hc
  refine ⟨reorderedSrc m op, hperm, fun l' hp => ?_⟩
  have hlen' : l'.length ≤ 2 := by rw [hp.length_eq]; exact hlen
  obtain ⟨hsorted', hperm'⟩ := @reorderedSrc_sorted m { op with src := l' } hlen' hc
  constructor
  · rw [@reorderOperands_none_iff m { op with src := l' } hlen' hc]
    constructor
    · exact fun h => KeyOrder.eq_of_sorted (hp.trans hperm.symm) h hsorted
    · rintro rfl
      exact hsorted
  · exact KeyOrder.eq_of_sorted ((hperm'.trans hp).trans hperm.symm) hsorted' hsorted

end Reorder

/-! ### How many operands -/

/-- Commutative operations have at most two operands. -/
def Module.Paired (m : Module) : Prop :=
  ∀ o < m.ops.length, opIsCommutative (m.opRec o).opcode = true → (m.opRec o).src.length ≤ 2

section Paired

variable {m m' : Module}

theorem Module.Paired.congr (h : m.Paired) (hops : m'.ops = m.ops) : m'.Paired := by
  intro o ho hc
  have hrec : m'.opRec o = m.opRec o := by rw [Module.opRec, Module.opRec, hops]
  rw [hrec] at hc ⊢
  exact h o (hops ▸ ho) hc

theorem Opcode.arity_commutative {opcode : Opcode} (hc : opIsCommutative opcode = true) :
    opcode.arity = 2 := by
  cases opcode <;> cases hc <;> rfl

theorem paired_of_verified (hwf : m.WF) (hver : m.Verified) : m.Paired := by
  intro o ho hc
  have hlen := typeRule_length (typed_of_verified hwf hver o ho)
  rw [List.length_map, Opcode.arity_commutative hc] at hlen
  exact Nat.le_of_eq hlen

theorem Module.Paired.withOp (h : m.Paired) {k : OpKey} (name : Name)
    (hk : opIsCommutative k.opcode = true → k.srcs.length ≤ 2) : (m.withOp k name).Paired := by
  intro o ho hc
  have hlen : o < m.ops.length + 1 := by simpa [Module.withOp] using ho
  rw [opRec_withOp] at hc ⊢
  by_cases hlt : o < m.ops.length
  · rw [if_pos hlt] at hc ⊢
    exact h o hlt hc
  · rw [if_neg hlt, if_pos (by omega)] at hc ⊢
    exact hk hc

/-- Only the call for stores takes more than two operands. -/
theorem Call.key_srcs {c : Call} {k : OpKey} (h : c.key m = some k)
    (hc : opIsCommutative k.opcode = true) : k.srcs.length ≤ 2 := by
  cases c <;> simp only [Call.key, Option.some.injEq, reduceCtorEq] at h <;> subst h
  case buildStore => cases hc
  all_goals simp

theorem paired_call (hwf : m.WF) (h : m.Paired) (c : Call) : (c.run m).1.Paired := by
  by_cases hb : c.Builds
  · cases hk : c.key m with
    | some k =>
      rcases Call.run_key hk with ⟨e, he⟩ | ⟨name, he⟩
      · rw [he]
        exact h
      · rw [he]
        rcases addOp_cases m k name with ⟨hs, -⟩ | ⟨-, -, hs, -⟩ | ⟨-, -, -, -, -, -, -, hs, -⟩
        · exact h.congr hs.ops
        · exact h.congr hs.ops
        · exact (h.withOp _ (Call.key_srcs hk)).congr hs.ops
    | none => exact h.congr (Call.tableFrame hb hk).ops
  · rw [Call.Builds, not_and_or, not_not, not_not] at hb
    rcases hb with rfl | rfl
    · rcases canonicalizeModule_cases hwf with he | ⟨-, hver, he⟩
      · rw [Call.run, he]
        exact h
      · rw [Call.run, he]
        exact paired_of_verified (wf_canonicalizedModule hwf hver)
          (verified_canonicalizedModule hwf hver)
    · show (moduleFreeze m).1.Paired
      unfold moduleFreeze
      split
      · exact h
      · exact h.congr rfl

theorem paired_of_reachable (h : m.Reachable) : m.Paired := by
  refine (reachable_induct (P := fun m => m.WF ∧ m.Paired) ⟨wf_create, fun o ho => ?_⟩
    (fun _ c hm => ⟨wf_call hm.1 c, paired_call hm.1 hm.2 c⟩) h).2
  exact absurd ho (Nat.not_lt_zero o)

end Paired

/-! ### The total order -/

/-- The operand order is a strict total order of the values of `m`, and it gives the operands of
every commutative operation one canonical order: it is left alone and no other, every
other is brought into it, and a round of the loop leaves it behind. -/
structure Module.OperandsOrdered (m : Module) : Prop where
  antisymm : ∀ a < m.values.length, ∀ b < m.values.length,
    compareValueOrder m b a = (compareValueOrder m a b).swap
  eq_iff : ∀ a < m.values.length, ∀ b < m.values.length, compareValueOrder m a b = .eq ↔ a = b
  trans : ∀ a < m.values.length, ∀ b < m.values.length, ∀ c < m.values.length,
    compareValueOrder m a b = .lt → compareValueOrder m b c = .lt → compareValueOrder m a c = .lt
  canonical : ∀ o < m.ops.length, opIsCommutative (m.opRec o).opcode = true →
    ∃ l, l.Perm (m.opRec o).src ∧
      (∀ l', l'.Perm (m.opRec o).src →
        (reorderOperands m { m.opRec o with src := l' } = none ↔ l' = l) ∧
          reorderedSrc m { m.opRec o with src := l' } = l) ∧
      ∀ stats, ((reorderLocalOp m o stats).1.opRec o).src = l

/-- **Operand ordering is a strict total order**, in every module that the API builds. -/
theorem operandsOrdered_of_reachable {m : Module} (h : m.Reachable) : m.OperandsOrdered where
  antisymm a _ b _ := compareValueOrder_swap a b
  eq_iff _ _ _ _ := Std.LawfulEqCmp.compare_eq_iff_eq
  trans _ _ _ _ _ _ hab hbc := Std.TransCmp.lt_trans hab hbc
  canonical o ho hc := by
    obtain ⟨l, hperm, hl⟩ := canonical_operands (m := m) (paired_of_reachable h o ho hc) hc
    refine ⟨l, hperm, hl, fun stats => ?_⟩
    rw [reorderLocalOp_src ho]
    exact (hl _ (List.Perm.refl _)).2

/-- Two constants of one name and one value, built from different immediates, and a sum with
the higher operand first. -/
def orderSample : List Call :=
  [.blockCreate none, .buildConstU64 0 (typeI 8) 0xff#64 (some [99]),
    .buildConstU64 0 (typeI 8) 0x1ff#64 (some [99]), .buildBinary 0 .add (typeI 8) 1 0 none]

theorem operandsOrdered_orderSample : (runCalls Module.create orderSample).OperandsOrdered ∧
    (runCalls Module.create orderSample).Ties 0 1 :=
  ⟨operandsOrdered_of_reachable ⟨orderSample, rfl⟩, by decide⟩

end Xair
