import Xair.PlainBuilder

/-!
# Writing a block

A block is written by calls that add parameters and operations to it, and closed by
a terminator.  `Draft m b` says that `b` is such a block and that the verifier has
nothing against its operations so far; `GrowsIn b m m'` says that `m'` is `m` with
more in block `b`.  A call on a draft leaves a draft (`blockAddParam_draft`,
`addOp_draft`), values that could be used stay usable, and a return of usable values
closes the block so that it passes (`setReturn_draft`).
-/

namespace Xair

/-- Block `b` is open, and the verifier accepts its operations so far. -/
structure Draft (m : Module) (b : Nat) : Prop where
  wf : m.WF
  unfrozen : m.frozen = false
  isOpen : m.OpenBlock b
  ops : OpsOk m b (m.blockRec b).ops (m.availableAtStart b)

/-- The value can be used at the end of block `b`. -/
def Module.Usable (m : Module) (b v : Nat) : Prop :=
  m.valueIsAvailable (m.availableAtEnd b) v = true

/-- The value is the result of an operation with the key `k`. -/
def Module.Computes (m : Module) (v : Nat) (k : OpKey) : Prop := valueNumberMatches m v k = true

/-- `m'` is `m` with more in block `b`, and possibly more terminator arguments. -/
structure GrowsIn (b : Nat) (m m' : Module) : Prop where
  grows : Grows m m'
  blocks : m'.blocks.length = m.blocks.length
  other : ∀ c, c ≠ b → m'.blockRec c = m.blockRec c
  frozen : m'.frozen = m.frozen

section Grows

variable {m m' m'' : Module}

theorem Grows.trans (h : Grows m m') (h' : Grows m' m'') : Grows m m'' := by
  obtain ⟨ids, hids⟩ := h.termArgs
  obtain ⟨ids', hids'⟩ := h'.termArgs
  refine ⟨Nat.le_trans h.ops_le h'.ops_le, Nat.le_trans h.values_le h'.values_le, ?_, ?_,
    ids ++ ids', by rw [hids', hids, List.append_assoc]⟩
  · intro o ho
    rw [h'.opRec o (Nat.lt_of_lt_of_le ho h.ops_le), h.opRec o ho]
  · intro v hv
    rw [h'.valueRec v (Nat.lt_of_lt_of_le hv h.values_le), h.valueRec v hv]

theorem grows_sameCore (h : SameCore m m') : Grows m m' :=
  ⟨by rw [h.ops], by rw [h.values], fun o _ => h.opRec o, fun v _ => h.valueRec v, [],
    by rw [h.termArgs, List.append_nil]⟩

theorem Grows.valueOp (hwf : m.WF) (h : Grows m m') {v : Nat} (hv : v < m.values.length) :
    m'.valueOp v = m.valueOp v := by
  unfold Module.valueOp
  rw [h.valueRec v hv]
  cases hop : (m.valueRec v).op with
  | none => rfl
  | some o =>
    have ho := (hwf.value_op v hv o hop).1
    have hrec := h.opRec o ho
    unfold Module.opRec at hrec
    rw [List.getD_eq_getElem _ _ ho, List.getD_eq_getElem _ _ (Nat.lt_of_lt_of_le ho h.ops_le)]
      at hrec
    show m'.ops[o]? = m.ops[o]?
    rw [List.getElem?_eq_getElem ho, List.getElem?_eq_getElem (Nat.lt_of_lt_of_le ho h.ops_le),
      hrec]

theorem Grows.valueIsGlobalConst (hwf : m.WF) (h : Grows m m') {v : Nat}
    (hv : v < m.values.length) : m'.valueIsGlobalConst v = m.valueIsGlobalConst v := by
  unfold Module.valueIsGlobalConst
  have hv' : v < m'.values.length := Nat.lt_of_lt_of_le hv h.values_le
  simp only [Module.validValue, hv, hv', h.valueOp hwf hv]

/-- Available values stay available when more is. -/
theorem Grows.available (hwf : m.WF) (h : Grows m m') {av av' : ValueSet}
    (hav : ∀ v, av v = true → av' v = true) {v : Nat} (hv : m.valueIsAvailable av v = true) :
    m'.valueIsAvailable av' v = true := by
  rw [valueIsAvailable_iff] at hv ⊢
  obtain ⟨hlt, hv⟩ := hv
  refine ⟨Nat.lt_of_lt_of_le hlt h.values_le, hv.imp (hav v) fun hc => ?_⟩
  rw [h.valueIsGlobalConst hwf hlt]
  exact hc

theorem OpOk.grows (hwf : m.WF) (h : Grows m m') {av av' : ValueSet}
    (hav : ∀ v, av v = true → av' v = true) {b o : Nat} (hok : OpOk m b av o) :
    OpOk m' b av' o := by
  have hrec := h.opRec o hok.lt
  have hdst := h.valueRec _ hok.dst_lt
  have hsrc : ((m.opRec o).src.map m'.valueType) = (m.opRec o).src.map m.valueType := by
    refine List.map_congr_left fun s hs => ?_
    exact h.valueType (valueIsAvailable_iff.mp (hok.sources s hs)).1
  refine ⟨Nat.lt_of_lt_of_le hok.lt h.ops_le, ?_, ?_, ?_, ?_, ?_, ?_⟩ <;> rw [hrec]
  · exact Nat.lt_of_lt_of_le hok.dst_lt h.values_le
  · rw [hdst]; exact hok.dst_block
  · rw [hdst]; exact hok.dst_op
  · exact fun s hs => h.available hwf hav (hok.sources s hs)
  · rw [h.valueType hok.dst_lt]; exact hok.out_type
  · rw [h.valueType hok.dst_lt, hsrc]; exact hok.typed

theorem opsOk_grows (hwf : m.WF) (h : Grows m m') {b : Nat} (os : List Nat) {av av' : ValueSet}
    (hav : ∀ v, av v = true → av' v = true) (hok : OpsOk m b os av) : OpsOk m' b os av' := by
  induction os generalizing av av' with
  | nil => trivial
  | cons o os ih =>
    refine ⟨hok.1.grows hwf h hav, ih (fun v hv => ?_) hok.2⟩
    rw [h.opRec o hok.1.lt]
    simp only [ValueSet.mark_apply, Bool.or_eq_true] at hv ⊢
    exact hv.imp id (hav v)

theorem opsOk_concat {b o : Nat} (os : List Nat) {av : ValueSet} (h : OpsOk m b os av)
    (ho : OpOk m b (av.markAll (m.dsts os)) o) : OpsOk m b (os ++ [o]) av := by
  induction os generalizing av with
  | nil => exact ⟨ho, trivial⟩
  | cons p os ih => exact ⟨h.1, ih h.2 ho⟩

end Grows

namespace GrowsIn

variable {b : Nat} {m m' m'' : Module}

theorem refl (b : Nat) (m : Module) : GrowsIn b m m := ⟨.refl m, rfl, fun _ _ => rfl, rfl⟩

theorem trans (h : GrowsIn b m m') (h' : GrowsIn b m' m'') : GrowsIn b m m'' :=
  ⟨h.grows.trans h'.grows, h'.blocks.trans h.blocks,
    fun c hc => (h'.other c hc).trans (h.other c hc), h'.frozen.trans h.frozen⟩

end GrowsIn

/-! ### Usable values -/

section Usable

variable {m m' : Module} {b : Nat}

/-- A value can be used at the end of a block when it belongs to the block or is a
constant. -/
theorem usable_iff (hwf : m.WF) (hb : b < m.blocks.length) {v : Nat} : m.Usable b v ↔
    v < m.values.length ∧ ((m.valueRec v).block = b ∨ m.valueIsGlobalConst v = true) := by
  rw [Module.Usable, valueIsAvailable_iff]
  refine and_congr_right fun hv => or_congr_left ?_
  simp only [Module.availableAtEnd, ValueSet.markAll_apply, ValueSet.empty_apply, Bool.or_false,
    Bool.or_eq_true, decide_eq_true_eq, Module.dsts, List.mem_map]
  constructor
  · rintro (⟨o, ho, rfl⟩ | hp)
    · exact ((hwf.block_ops b hb o).mp ho).2
    · exact ((hwf.block_params b hb v).mp hp).2.2
  · intro hvb
    cases hop : (m.valueRec v).op with
    | none => exact .inr ((hwf.block_params b hb v).mpr ⟨hv, hop, hvb⟩)
    | some o =>
      obtain ⟨ho, hd⟩ := hwf.value_op v hv o hop
      exact .inl ⟨o, (hwf.block_ops b hb o).mpr ⟨ho, hd ▸ hvb⟩, hd⟩

theorem Module.Usable.lt {v : Nat} (h : m.Usable b v) : v < m.values.length :=
  (valueIsAvailable_iff.mp h).1

theorem Module.Usable.extends {v : Nat} (hu : m.Usable b v) (hwf : m.WF) (hwf' : m'.WF)
    (hb : b < m.blocks.length) (h : GrowsIn b m m') : m'.Usable b v := by
  obtain ⟨hv, hu⟩ := (usable_iff hwf hb).mp hu
  refine (usable_iff hwf' (h.blocks ▸ hb)).mpr ⟨Nat.lt_of_lt_of_le hv h.grows.values_le, ?_⟩
  rw [h.grows.valueRec v hv, h.grows.valueIsGlobalConst hwf hv]
  exact hu

theorem Module.Computes.lt (hwf : m.WF) {v : Nat} {k : OpKey} (h : m.Computes v k) :
    v < m.values.length := by
  obtain ⟨o, ho, rfl, -⟩ := (valueNumberMatches_iff hwf).mp h
  exact (hwf.op_dst o ho).1

theorem Module.Computes.type (hwf : m.WF) {v : Nat} {k : OpKey} (h : m.Computes v k) :
    m.valueType v = k.type := by
  obtain ⟨o, -, rfl, hs⟩ := (valueNumberMatches_iff hwf).mp h
  exact hs.type

/-- The result of an operation with a key of the block can be used in it. -/
theorem Module.Computes.usable (hwf : m.WF) (hb : b < m.blocks.length) {v : Nat} {k : OpKey}
    (h : m.Computes v k) (hk : k.block = b) : m.Usable b v := by
  refine (usable_iff hwf hb).mpr ⟨h.lt hwf, ?_⟩
  obtain ⟨o, ho, rfl, hs⟩ := (valueNumberMatches_iff hwf).mp h
  rcases hs.block with hc | hblock
  · refine .inr ?_
    have hcode : (m.opRec o).opcode = .constU64 := hc
    simp [Module.valueIsGlobalConst, Module.validValue, (hwf.op_dst o ho).1, hwf.valueOp_dst ho,
      hcode]
  · exact .inl (hblock.trans hk)

theorem Module.Computes.grows (hwf : m.WF) (hwf' : m'.WF) (h : Grows m m') {v : Nat} {k : OpKey}
    (hc : m.Computes v k) : m'.Computes v k := by
  obtain ⟨o, ho, rfl, hs⟩ := (valueNumberMatches_iff hwf).mp hc
  refine (valueNumberMatches_iff hwf').mpr ⟨o, Nat.lt_of_lt_of_le ho h.ops_le, ?_, ?_⟩
  · rw [h.opRec o ho]
  · have hkey : m'.opKey (m'.opRec o) = m.opKey (m.opRec o) := by
      rw [h.opRec o ho]
      exact opKey_congr (h.valueRec _ (hwf.op_dst o ho).1)
    rw [hkey]
    exact hs

end Usable

/-! ### Calls on a draft -/

section Calls

variable {m m' : Module} {b : Nat}

theorem availableAtEnd_iff {v : Nat} : m.availableAtEnd b v = true ↔
    v ∈ m.dsts (m.blockRec b).ops ∨ v ∈ (m.blockRec b).params := by
  simp [Module.availableAtEnd, ValueSet.markAll_apply]

theorem Draft.congr (h : Draft m b) (hc : SameCore m m') (hf : m'.frozen = false) :
    Draft m' b := by
  have hblock := hc.blockRec b
  refine ⟨h.wf.congr hc, hf, ?_, ?_⟩
  · rw [Module.OpenBlock, hc.blocks, hblock]
    exact h.isOpen
  · rw [Module.availableAtStart, hblock]
    exact opsOk_grows h.wf (grows_sameCore hc) _ (fun _ hv => hv) h.ops

theorem Draft.extends_congr (h : Draft m b) (hc : SameCore m m') (hf : m'.frozen = false) :
    GrowsIn b m m' :=
  ⟨grows_sameCore hc, by rw [hc.blocks], fun c _ => hc.blockRec c, by rw [hf, h.unfrozen]⟩

theorem extends_withParam (m : Module) (b : Nat) (t : Ty) (name : Name) :
    GrowsIn b m (m.withParam b t name) := by
  refine ⟨grows_withParam m b t name, by simp [Module.withParam], fun c hc => ?_, rfl⟩
  rw [m.blockRec_withParam, if_neg fun hbc => hc hbc.1.symm]

theorem extends_withOp (m : Module) (k : OpKey) (name : Name) :
    GrowsIn k.block m (m.withOp k name) := by
  refine ⟨grows_withOp m k name, by simp [Module.withOp], fun c hc => ?_, rfl⟩
  rw [m.blockRec_withOp, if_neg fun hbc => hc hbc.1.symm]

theorem Draft.withParam (h : Draft m b) {t : Ty} (ht : t.isValueType = true)
    (hlt : m.values.length < uint32Max) (name : Name) : Draft (m.withParam b t name) b := by
  have hb := h.isOpen.1
  have hrec : (m.withParam b t name).blockRec b = (m.blockRec b).appendParam m.values.length := by
    rw [m.blockRec_withParam, if_pos ⟨rfl, hb⟩]
  refine ⟨h.wf.withParam h.isOpen ht hlt name, h.unfrozen, ⟨?_, ?_⟩, ?_⟩
  · simpa [Module.withParam] using hb
  · rw [hrec]
    exact h.isOpen.2
  · rw [hrec]
    refine opsOk_grows h.wf (grows_withParam m b t name) _ (fun v hv => ?_) h.ops
    rw [availableAtStart_iff] at hv ⊢
    rw [hrec]
    exact List.mem_append_left _ hv

theorem Draft.withOp {k : OpKey} (h : Draft m k.block) (ht : k.type.isValueType = true)
    (hs : ∀ s ∈ k.srcs, m.Usable k.block s)
    (htyped : typeRule k.opcode k.type (k.srcs.map m.valueType) = true) (hl : k.srcs.length ≤ 3)
    (hops : m.ops.length < uint32Max) (hlt : m.values.length < uint32Max) (name : Name) :
    Draft (m.withOp k name) k.block := by
  have hb := h.isOpen.1
  have hgrows := grows_withOp m k name
  have hwf := h.wf.withOp h.isOpen ht (fun s hs' => (hs s hs').lt) hl hops hlt name
  have hrec : (m.withOp k name).blockRec k.block = (m.blockRec k.block).appendOp m.ops.length := by
    rw [m.blockRec_withOp, if_pos ⟨rfl, hb⟩]
  have hop : (m.withOp k name).opRec m.ops.length =
      ⟨k.opcode, m.values.length, k.srcs, k.endian, k.imm⟩ := by
    rw [Module.withOp_newOp]
  have hval : (m.withOp k name).valueRec m.values.length =
      ⟨k.type, k.block, some m.ops.length, name⟩ := by
    rw [Module.withOp_new]
  have hstart : (m.withOp k name).availableAtStart k.block = m.availableAtStart k.block := by
    rw [Module.availableAtStart, hrec]
    rfl
  have hdsts : (m.withOp k name).dsts (m.blockRec k.block).ops = m.dsts (m.blockRec k.block).ops :=
    List.map_congr_left fun o ho => by
      rw [hgrows.opRec o ((h.wf.block_ops _ hb o).mp ho).1]
  refine ⟨hwf, h.unfrozen, ⟨?_, ?_⟩, ?_⟩
  · simpa [Module.withOp] using hb
  · rw [hrec]
    exact h.isOpen.2
  · rw [hrec, hstart]
    refine opsOk_concat _ (opsOk_grows h.wf hgrows _ (fun _ hv => hv) h.ops) ?_
    refine ⟨by simp [Module.withOp], ?_, ?_, ?_, ?_, ?_, ?_⟩ <;> rw [hop]
    · simp [Module.withOp]
    · rw [hval]
    · rw [hval]
    · intro s hs'
      rw [hdsts]
      exact hgrows.available h.wf (fun _ hv => hv) (hs s hs')
    · rw [Module.valueType, hval]
      exact ht
    · have hsrc : k.srcs.map (m.withOp k name).valueType = k.srcs.map m.valueType :=
        List.map_congr_left fun s hs' => hgrows.valueType (hs s hs').lt
      rw [Module.valueType, hval, hsrc]
      exact htyped

/-- What adding a parameter to a draft gives. -/
structure ParamAdded (b : Nat) (t : Ty) (m : Module) (v : Nat) (m' : Module) : Prop where
  draft : Draft m' b
  extends_ : GrowsIn b m m'
  value : v = m.values.length
  change : ∃ name, m' = m.withParam b t name

/-- What adding an operation to a draft gives: a value that was there, or a new one. -/
structure OpAdded (k : OpKey) (m : Module) (v : Nat) (m' : Module) : Prop where
  draft : Draft m' k.block
  extends_ : GrowsIn k.block m m'
  computes : m'.Computes v k
  sources : ∀ s ∈ k.srcs, m.Usable k.block s
  typed : typeRule k.opcode k.type (k.srcs.map m.valueType) = true
  change : SameCore m m' ∨ (v = m.values.length ∧ ∃ name, SameCore (m.withOp k name) m')

theorem ParamAdded.usable {t : Ty} {v : Nat} (h : ParamAdded b t m v m') : m'.Usable b v := by
  obtain ⟨name, hm'⟩ := h.change
  refine (usable_iff h.draft.wf h.draft.isOpen.1).mpr ⟨?_, .inl ?_⟩
  · rw [h.value, hm']
    simp [Module.withParam]
  · rw [h.value, hm', Module.withParam_new]

theorem ParamAdded.type {t : Ty} {v : Nat} (h : ParamAdded b t m v m') : m'.valueType v = t := by
  obtain ⟨name, hm'⟩ := h.change
  rw [Module.valueType, h.value, hm', Module.withParam_new]

theorem OpAdded.usable {k : OpKey} {v : Nat} (h : OpAdded k m v m') : m'.Usable k.block v :=
  h.computes.usable h.draft.wf h.draft.isOpen.1 rfl

theorem OpAdded.type {k : OpKey} {v : Nat} (h : OpAdded k m v m') : m'.valueType v = k.type :=
  h.computes.type h.draft.wf

theorem OpAdded.values_le {k : OpKey} {v : Nat} (h : OpAdded k m v m') :
    m'.values.length ≤ m.values.length + 1 := by
  rcases h.change with hc | ⟨-, name, hc⟩
  · rw [hc.values]
    omega
  · rw [hc.values]
    simp [Module.withOp]

/-- The block after a parameter is added. -/
theorem ParamAdded.blockRec {t : Ty} {v : Nat} (hb : b < m.blocks.length)
    (h : ParamAdded b t m v m') : m'.blockRec b = (m.blockRec b).appendParam v := by
  obtain ⟨name, hm'⟩ := h.change
  rw [hm', h.value, m.blockRec_withParam, if_pos ⟨rfl, hb⟩]

/-- The block after an operation is added. -/
theorem OpAdded.blockRec {k : OpKey} {v : Nat} (hb : k.block < m.blocks.length)
    (h : OpAdded k m v m') : m'.blockRec k.block = m.blockRec k.block ∨
      (m'.blockRec k.block = (m.blockRec k.block).appendOp m.ops.length ∧
        m'.opRec m.ops.length = ⟨k.opcode, v, k.srcs, k.endian, k.imm⟩) := by
  rcases h.change with hc | ⟨hv, name, hc⟩
  · exact .inl (hc.blockRec _)
  · refine .inr ⟨?_, ?_⟩
    · rw [hc.blockRec, m.blockRec_withOp, if_pos ⟨rfl, hb⟩]
    · rw [hc.opRec, Module.withOp_newOp, hv]

/-- `xair_block_add_param` in one equation. -/
theorem blockAddParam_eq (m : Module) (b : Nat) (t : Ty) (name : Option Name) :
    blockAddParam m b t name =
      if m.isOpen b = true ∧ t.isValueType = true then
        if uint32Max ≤ m.values.length then (m, .error .errRange)
        else (m.withParam b t (copyName name [118] m.values.length), .ok m.values.length)
      else (m, .error .errBadArg) := by
  unfold blockAddParam addValue Module.isOpen
  by_cases hb : m.validBlock b = true
  · by_cases ht : t.isValueType = true
    · by_cases hk : (m.blockRec b).term.kind = .none
      · by_cases hf : m.frozen = true
        · simp [hb, ht, hk, hf]
        · by_cases hfull : uint32Max ≤ m.values.length
          · simp [hb, ht, hk, hf, hfull]
          · simp only [hb, ht, hk, hf, hfull, ne_eq, not_true_eq_false, if_false, Bool.not_true,
              Bool.or_self, Bool.false_eq_true, Bool.not_false, Bool.and_self, beq_self_eq_true,
              and_self, if_true, Module.withParam]
            rfl
      · simp [hb, ht, hk]
    · simp [ht]
  · simp [hb]

/-- A parameter is refused only for want of an id. -/
theorem blockAddParam_error (hf : m.frozen = false) (ho : m.OpenBlock b) {t : Ty}
    (ht : t.isValueType = true) {name : Option Name} {e : Status}
    (he : (blockAddParam m b t name).2 = .error e) : e = .errRange ∧ uint32Max ≤ m.values.length := by
  rw [blockAddParam_eq, if_pos ⟨isOpen_iff.mpr ⟨hf, ho⟩, ht⟩] at he
  split at he
  · next hfull =>
    cases he
    exact ⟨rfl, hfull⟩
  · cases he

theorem frozen_valueNumberLookup (m : Module) (hash : Word) (k : OpKey) :
    (valueNumberLookup m hash k).1.frozen = m.frozen := by
  unfold valueNumberLookup
  split
  · rfl
  · split <;> rfl

theorem frozen_valueNumberPrepareInsert (m : Module) :
    (valueNumberPrepareInsert m).frozen = m.frozen := by
  unfold valueNumberPrepareInsert
  split <;> rfl

/-- An operation is refused only for want of an id. -/
theorem addOp_error (hf : m.frozen = false) {k : OpKey} (ho : m.OpenBlock k.block)
    (ht : k.type.isValueType = true) (hl : k.srcs.length ≤ 3) {name : Option Name} {e : Status}
    (he : (addOp m k name).2 = .error e) :
    e = .errRange ∧ (uint32Max ≤ m.ops.length ∨ uint32Max ≤ m.values.length) := by
  obtain ⟨hb, hnone⟩ := ho
  unfold addOp at he
  rw [if_neg (by simp [hf, Module.validBlock, hb]; omega), if_neg (by simp [hnone])] at he
  split at he
  · next hops =>
    cases he
    exact ⟨rfl, .inl hops⟩
  · have hcore := sameCore_valueNumberLookup m (valueNumberHash k) k
    have hfr := frozen_valueNumberLookup m (valueNumberHash k) k
    split at he
    · cases he
    · next m₁ hl₁ =>
      rw [hl₁] at hcore hfr
      have hcore₂ := hcore.trans (sameCore_valueNumberPrepareInsert m₁)
      have hfr₂ : (valueNumberPrepareInsert m₁).frozen = false :=
        (frozen_valueNumberPrepareInsert m₁).trans (hfr.trans hf)
      unfold addValue at he
      rw [if_neg (by simp [hfr₂, Module.validBlock, hcore₂.blocks, hb, ht]), hcore₂.values] at he
      split at he
      · next hr =>
        split at hr
        · next hlt =>
          cases hr
          cases he
          exact ⟨rfl, .inr hlt⟩
        · cases hr
      · cases he

/-- There are as many values as ids when an id is wanted. -/
theorem values_full (hwf : m.WF) (h : uint32Max ≤ m.ops.length ∨ uint32Max ≤ m.values.length) :
    m.values.length = uint32Max := by
  have hcount := values_length hwf
  have hle := hwf.values_le
  omega

/-- **Adding a parameter to a draft.** -/
theorem blockAddParam_draft (h : Draft m b) {t : Ty} (ht : t.isValueType = true)
    (name : Option Name) :
    (∃ v m', blockAddParam m b t name = (m', .ok v) ∧ ParamAdded b t m v m') ∨
      (blockAddParam m b t name = (m, .error .errRange) ∧ m.values.length = uint32Max) := by
  rcases blockAddParam_cases m b t name with ⟨e, he⟩ | ⟨-, -, -, hlt, he⟩
  · have herr : (blockAddParam m b t name).2 = .error e := by rw [he]
    obtain ⟨rfl, hfull⟩ := blockAddParam_error h.unfrozen h.isOpen ht herr
    exact .inr ⟨he, values_full h.wf (.inr hfull)⟩
  · exact .inl ⟨_, _, he, h.withParam ht hlt _, extends_withParam m b t _, rfl, _, rfl⟩

/-- The frozen flag is left alone by `add_op`. -/
theorem frozen_addOp (m : Module) (k : OpKey) (name : Option Name) :
    (addOp m k name).1.frozen = m.frozen := by
  have hlookup := frozen_valueNumberLookup m (valueNumberHash k) k
  unfold addOp
  split
  · rfl
  · split
    · rfl
    · split
      · rfl
      · split
        · next hl => rw [hl] at hlookup; exact hlookup
        · next m₁ hl =>
          rw [hl] at hlookup
          rcases addValue_cases (valueNumberPrepareInsert m₁) k.block k.type name with
            ⟨e, he⟩ | ⟨-, -, -, -, he⟩
          · rw [he]
            exact (frozen_valueNumberPrepareInsert m₁).trans hlookup
          · rw [he]
            exact (frozen_valueNumberPrepareInsert m₁).trans hlookup

/-- The result of an operation that was appended. -/
theorem computes_withOp {m' : Module} (hwf : m'.WF) {k : OpKey} {name : Name}
    (hc : SameCore (m.withOp k name) m') : m'.Computes m.values.length k := by
  refine (valueNumberMatches_iff hwf).mpr ⟨m.ops.length, ?_, ?_, ?_⟩
  · rw [hc.ops]
    simp [Module.withOp]
  · rw [hc.opRec, Module.withOp_newOp]
  · rw [hc.opRec, Module.withOp_newOp, Module.opKey,
      Module.valueType, hc.valueRec, Module.withOp_new]
    exact .refl k

/-- The value that `add_op` hands out is the result of an operation with the key. -/
theorem addOp_computes (hwf : m.WF) {k : OpKey} (hs : ∀ s ∈ k.srcs, s < m.values.length)
    {name : Option Name} {v : Nat} (h : (addOp m k name).2 = .ok v) :
    (addOp m k name).1.WF ∧ Grows m (addOp m k name).1 ∧ (addOp m k name).1.Computes v k := by
  have hwf' : (addOp m k name).1.WF := wf_buildStep hwf (buildStep_addOp hs name)
  rcases addOp_numbered h with ⟨hc, hmatch⟩ | ⟨rfl, n, hc⟩
  · have hg := grows_sameCore hc
    exact ⟨hwf', hg, Module.Computes.grows hwf hwf' hg hmatch⟩
  · exact ⟨hwf', (grows_withOp m k n).trans (grows_sameCore hc), computes_withOp hwf' hc⟩

/-- **Adding an operation to a draft.**  The sources can be used and the type rule
holds; then a value with the key comes back, unless the ids have run out. -/
theorem addOp_draft (h : Draft m b) {k : OpKey} (hk : k.block = b) (ht : k.type.isValueType = true)
    (hs : ∀ s ∈ k.srcs, m.Usable b s)
    (htyped : typeRule k.opcode k.type (k.srcs.map m.valueType) = true) (hl : k.srcs.length ≤ 3)
    (name : Option Name) :
    (∃ v m', addOp m k name = (m', .ok v) ∧ OpAdded k m v m') ∨
      (∃ m', addOp m k name = (m', .error .errRange) ∧ m.values.length = uint32Max ∧
        Draft m' b ∧ SameCore m m') := by
  subst hk
  have hfr : (addOp m k name).1.frozen = false := (frozen_addOp m k name).trans h.unfrozen
  rcases addOp_cases m k name with
    ⟨hc, e, he⟩ | ⟨-, -, hc, v, he, hmatch, -⟩ | ⟨-, -, -, -, hops, hvals, -, hc, he⟩
  · obtain ⟨rfl, hfull⟩ := addOp_error h.unfrozen h.isOpen ht hl he
    exact .inr ⟨_, Prod.ext rfl he, values_full h.wf hfull, h.congr hc hfr, hc⟩
  · have hd := h.congr hc hfr
    exact .inl ⟨v, _, Prod.ext rfl he, hd, h.extends_congr hc hfr,
      Module.Computes.grows h.wf hd.wf (grows_sameCore hc) hmatch, hs, htyped, .inl hc⟩
  · have hw := h.withOp ht hs htyped hl hops hvals (copyName name [118] m.values.length)
    have hd := hw.congr hc hfr
    refine .inl ⟨_, _, Prod.ext rfl he, hd,
      (extends_withOp m k _).trans (hw.extends_congr hc hfr), ?_, hs, htyped, .inr ⟨rfl, _, hc⟩⟩
    exact computes_withOp hd.wf hc

end Calls

/-! ### Closing a block -/

section Close

variable {m m' : Module} {b : Nat}

/-- The terminator of block `c` goes to block `b`. -/
def Module.Targets (m : Module) (c b : Nat) : Prop :=
  let t := (m.blockRec c).term
  (t.kind = .jump ∧ t.trueTarget = b) ∨
    (t.kind = .cbranch ∧ (t.trueTarget = b ∨ t.falseTarget = b))

/-- Every other block is in order and none goes to `b`. -/
def Module.OthersOk (m : Module) (b : Nat) : Prop :=
  ∀ c < m.blocks.length, c ≠ b → BlockOk m c ∧ ¬ m.Targets c b

theorem EdgeOk.grows (hwf : m.WF) (hg : Grows m m') (hlen : m.blocks.length ≤ m'.blocks.length)
    {av av' : ValueSet} (hav : ∀ v, av v = true → av' v = true) {target : Nat} {args : List Nat}
    (hrec : (m'.blockRec target).params = (m.blockRec target).params)
    (hok : EdgeOk m av target args) : EdgeOk m' av' target args := by
  refine ⟨Nat.lt_of_lt_of_le hok.target_lt hlen, ?_⟩
  rw [hrec]
  have hall := List.forall₂_iff_get.mp hok.args_ok
  refine List.forall₂_iff_get.mpr ⟨hall.1, fun i h1 h2 => ?_⟩
  obtain ⟨ha, ht⟩ := hall.2 i h1 h2
  have hp : (m.blockRec target).params.get ⟨i, h2⟩ < m.values.length :=
    ((hwf.block_params target hok.target_lt _).mp (List.get_mem _ _)).1
  refine ⟨hg.available hwf hav ha, ?_⟩
  rw [hg.valueType (valueIsAvailable_iff.mp ha).1, hg.valueType hp]
  exact ht

/-- A block stays in order when the module grows elsewhere. -/
theorem BlockOk.grows (hwf : m.WF) (hg : Grows m m') (hlen : m.blocks.length ≤ m'.blocks.length)
    {c : Nat} (hc : c < m.blocks.length) (hrec : m'.blockRec c = m.blockRec c)
    (ht : ∀ t < m.blocks.length, m.Targets c t → (m'.blockRec t).params = (m.blockRec t).params)
    (hok : BlockOk m c) : BlockOk m' c := by
  have hstart : ∀ v, m.availableAtStart c v = true → m'.availableAtStart c v = true := by
    intro v hv
    rw [Module.availableAtStart, hrec]
    exact hv
  have hend : ∀ v, m.availableAtEnd c v = true → m'.availableAtEnd c v = true := by
    intro v hv
    rw [availableAtEnd_iff] at hv ⊢
    rw [hrec]
    refine hv.imp (fun hd => ?_) id
    obtain ⟨o, ho, rfl⟩ := List.mem_map.mp hd
    refine List.mem_map.mpr ⟨o, ho, ?_⟩
    rw [hg.opRec o ((hwf.block_ops c hc o).mp ho).1]
  refine ⟨?_, ?_, ?_⟩
  · intro v hv
    rw [hrec] at hv
    obtain ⟨h1, h2, h3⟩ := hok.params v hv
    rw [hg.valueType h1, hg.valueRec v h1]
    exact ⟨Nat.lt_of_lt_of_le h1 hg.values_le, h2, h3⟩
  · rw [hrec]
    exact opsOk_grows hwf hg _ hstart hok.ops
  · have hterm := hok.term
    have hargs : ∀ f, m'.termArgsConst (m.blockRec c).term f =
        m.termArgsConst (m.blockRec c).term f := hg.termArgsConst (hwf.term c hc)
    have hedge : ∀ {t args}, m.Targets c t → EdgeOk m (m.availableAtEnd c) t args →
        EdgeOk m' (m'.availableAtEnd c) t args := fun {t args} htar hok =>
      hok.grows hwf hg hlen hend (ht t hok.target_lt htar)
    unfold Module.Targets at hedge
    rw [hrec]
    unfold TermOk at hterm ⊢
    cases hk : (m.blockRec c).term.kind with
    | none => rw [hk] at hterm; exact hterm
    | jump =>
      simp only [hk] at hterm hedge ⊢
      rw [hargs]
      exact hedge (.inl ⟨trivial, rfl⟩) hterm
    | cbranch =>
      simp only [hk] at hterm hedge ⊢
      obtain ⟨h1, h2, h3, h4⟩ := hterm
      rw [hargs, hargs, hg.valueType (valueIsAvailable_iff.mp h1).1]
      exact ⟨hg.available hwf hend h1, h2, hedge (.inr ⟨trivial, .inl rfl⟩) h3,
        hedge (.inr ⟨trivial, .inr rfl⟩) h4⟩
    | ret =>
      simp only [hk] at hterm ⊢
      rw [hargs]
      exact fun v hv => hg.available hwf hend (hterm v hv)
    | trap => trivial
    | fault => trivial

/-- Writing a block leaves the others in order. -/
theorem BlockOk.extends (hwf : m.WF) (h : GrowsIn b m m') {c : Nat} (hc : c < m.blocks.length)
    (hne : c ≠ b) (hok : BlockOk m c) (ht : ¬ m.Targets c b) : BlockOk m' c := by
  refine hok.grows hwf h.grows (Nat.le_of_eq h.blocks.symm) hc (h.other c hne) fun t _ htar =>
    congrArg BlockRec.params (h.other t ?_)
  rintro rfl
  exact ht htar

theorem Module.OthersOk.extends (hwf : m.WF) (h : GrowsIn b m m') (hok : m.OthersOk b) :
    m'.OthersOk b := by
  intro c hc hne
  rw [h.blocks] at hc
  obtain ⟨h1, h2⟩ := hok c hc hne
  refine ⟨h1.extends hwf h hc hne h2, ?_⟩
  rw [Module.Targets, h.other c hne]
  exact h2

/-- The terminator that `setReturn` writes. -/
def Module.retTerm (m : Module) (vs : List Nat) : TermRec :=
  { TermRec.empty .ret with trueArgOffset := m.termArgs.length, trueArgCount := vs.length }

/-- The result of a return from a draft. -/
structure Returned (b : Nat) (vs : List Nat) (m m' : Module) : Prop where
  wf : m'.WF
  extends_ : GrowsIn b m m'
  params : (m'.blockRec b).params = (m.blockRec b).params
  ops : (m'.blockRec b).ops = (m.blockRec b).ops
  kind : (m'.blockRec b).term.kind = .ret
  count : (m'.blockRec b).term.trueArgCount = vs.length
  args : m'.termArgsConst (m'.blockRec b).term false = vs
  blockOk : BlockOk m' b

/-- **Closing a draft.**  A return of usable values succeeds, and the block passes. -/
theorem setReturn_draft (h : Draft m b) {vs : List Nat} (hvs : ∀ v ∈ vs, m.Usable b v) :
    ∃ m', setReturn m b (.array vs) = (m', .ok ()) ∧ Returned b vs m m' := by
  have hopen : m.isOpen b = true := isOpen_iff.mpr ⟨h.unfrozen, h.isOpen⟩
  have hstep := wf_buildStep h.wf (buildStep_setReturn m b (.array vs))
  have hres : setReturn m b (.array vs) = (m.withTerm b (m.retTerm vs) vs, .ok ()) := by
    rw [setReturn_eq]
    exact if_pos ⟨hopen, rfl⟩
  rw [hres] at hstep
  have hrec : (m.withTerm b (m.retTerm vs) vs).blockRec b =
      { m.blockRec b with term := m.retTerm vs } := by
    rw [m.blockRec_withTerm, if_pos ⟨rfl, h.isOpen.1⟩]
  have hgrows := grows_withTerm m b (m.retTerm vs) vs
  have hargs : (m.withTerm b (m.retTerm vs) vs).termArgsConst (m.retTerm vs) false = vs := by
    simp [Module.termArgsConst, Module.withTerm, Module.retTerm]
  have hext : GrowsIn b m (m.withTerm b (m.retTerm vs) vs) := by
    refine ⟨hgrows, by simp [Module.withTerm], fun c hc => ?_, rfl⟩
    rw [m.blockRec_withTerm, if_neg fun hbc => hc hbc.1.symm]
  refine ⟨_, hres, hstep, hext, by rw [hrec], by rw [hrec], by rw [hrec]; rfl, by rw [hrec]; rfl,
    by rw [hrec]; exact hargs, ?_, ?_, ?_⟩
  · intro v hv
    rw [hrec] at hv
    obtain ⟨h1, -, h3⟩ := (h.wf.block_params b h.isOpen.1 v).mp hv
    rw [hgrows.valueType h1, hgrows.valueRec v h1]
    exact ⟨h1, h3, h.wf.value_type v h1⟩
  · rw [Module.availableAtStart, hrec]
    exact opsOk_grows h.wf hgrows _ (fun _ hv => hv) h.ops
  · have hret : ∀ v ∈ vs, (m.withTerm b (m.retTerm vs) vs).Usable b v := fun v hv =>
      (hvs v hv).extends h.wf hstep h.isOpen.1 hext
    unfold TermOk
    rw [hrec]
    show ∀ v ∈ (m.withTerm b (m.retTerm vs) vs).termArgsConst (m.retTerm vs) false, _
    rw [hargs]
    exact hret

/-- A module with one draft whose other blocks are in order verifies when the draft is
closed. -/
theorem Returned.verified {vs : List Nat} (h : Returned b vs m m') (hwf : m.WF)
    (hok : m.OthersOk b) : m'.Verified := by
  refine verifyModule_ok_iff.mpr fun c hc => ?_
  by_cases hcb : c = b
  · rw [hcb]
    exact h.blockOk
  · exact ((hok.extends hwf h.extends_) c hc hcb).1

/-! ### A new block -/

/-- The targets of a block that passes are blocks. -/
theorem BlockOk.target_lt {c t : Nat} (hok : BlockOk m c) (ht : m.Targets c t) :
    t < m.blocks.length := by
  have hterm := hok.term
  unfold TermOk at hterm
  unfold Module.Targets at ht
  rcases ht with ⟨hk, rfl⟩ | ⟨hk, rfl | rfl⟩
  · rw [hk] at hterm
    exact hterm.target_lt
  · rw [hk] at hterm
    exact hterm.2.2.1.target_lt
  · rw [hk] at hterm
    exact hterm.2.2.2.target_lt

/-- The result of creating a block. -/
structure BlockCreated (m : Module) (b : Nat) (m' : Module) : Prop where
  draft : Draft m' b
  block : b = m.blocks.length
  change : ∃ name, m' = m.withBlock name

/-- **A new block is a draft**, unless the block ids have run out. -/
theorem blockCreate_draft (hwf : m.WF) (hf : m.frozen = false) (name : Option Name) :
    (∃ b m', blockCreate m name = (m', .ok b) ∧ BlockCreated m b m') ∨
      (blockCreate m name = (m, .error .errRange) ∧ m.blocks.length = uint32Max) := by
  by_cases hfull : uint32Max ≤ m.blocks.length
  · refine .inr ⟨?_, Nat.le_antisymm hwf.blocks_le hfull⟩
    rw [blockCreate, if_neg (by simp [hf]), if_pos hfull]
  · have hrun : blockCreate m name =
        (m.withBlock (copyName name [98, 98] m.blocks.length), .ok m.blocks.length) := by
      rw [blockCreate, if_neg (by simp [hf]), if_neg hfull]
      rfl
    generalize copyName name [98, 98] m.blocks.length = n at hrun
    have hrec : (m.withBlock n).blockRec m.blocks.length = ⟨n, [], [], TermRec.empty .none⟩ := by
      rw [m.blockRec_withBlock, if_neg (Nat.lt_irrefl _), if_pos rfl]
    refine .inl ⟨_, _, hrun, ⟨hwf.withBlock (Nat.not_le.mp hfull) n, hf, ⟨?_, ?_⟩, ?_⟩, rfl, n, rfl⟩
    · simp [Module.withBlock]
    · rw [hrec]
      rfl
    · rw [hrec]
      trivial

theorem BlockCreated.othersOk (hwf : m.WF) (hver : m.Verified) (h : BlockCreated m b m') :
    m'.OthersOk b := by
  obtain ⟨name, rfl⟩ := h.change
  have hlen : (m.withBlock name).blocks.length = m.blocks.length + 1 := by simp [Module.withBlock]
  have hold : ∀ c < m.blocks.length, (m.withBlock name).blockRec c = m.blockRec c := fun c hc => by
    rw [m.blockRec_withBlock, if_pos hc]
  intro c hc hne
  rw [hlen] at hc
  have hc' : c < m.blocks.length := by
    have := h.block
    omega
  have hok := verifyModule_ok_iff.mp hver c hc'
  refine ⟨hok.grows hwf (grows_withBlock m name) (by omega) hc' (hold c hc')
    fun t ht _ => congrArg BlockRec.params (hold t ht), fun htar => ?_⟩
  have htar' : m.Targets c b := by
    unfold Module.Targets at htar ⊢
    rw [hold c hc'] at htar
    exact htar
  exact Nat.lt_irrefl _ (h.block ▸ hok.target_lt htar')

end Close

end Xair
