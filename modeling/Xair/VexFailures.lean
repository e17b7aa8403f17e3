import Xair.VexReach

/-!
# Failing calls of an adapter

A call of the adapter that fails leaves the tables as they were (`VexCall.frames`), but two
kinds of calls can leave something behind in the module.  The emitting calls append their
operation before they refuse the temporary `0xffffffff`, and an exit makes its continuation
before the transfers and the branch can be refused.  Every other failure leaves everything
intact (`vexCall_intact_iff`).
-/

namespace Xair

open Effect

/-- What a call has left as it was: the arrays of the module, the current block and the
bindings.  A module that was accepted still is. -/
structure VexIntact (a a' : VexAdapter) : Prop where
  core : SameCore a.module a'.module
  tables : SameTables a a'
  verified : a.module.Verified → a'.module.Verified

/-- If `x` fails on `a`, it leaves everything intact. -/
def IntactOn {α : Type} (x : Vex α) (a : VexAdapter) : Prop :=
  ∀ e a', x a = (.error e, a') → VexIntact a a'

/-- The parts of a failing call. -/
def FailsSame {α : Type} (x : Vex α) (a : VexAdapter) : Prop :=
  Ensures x a (fun _ _ => True) fun _ a' => SameCore a.module a'.module

section Intact

variable {α β : Type} {x : Vex α} {a : VexAdapter}

theorem intactOn_iff (hx : Frames x) (hwf : a.module.WF) : IntactOn x a ↔ FailsSame x a := by
  rcases hrun : x a with ⟨r, a'⟩
  cases r with
  | ok v =>
    refine ⟨fun _ => ensures_of_ok hrun trivial, fun _ e a'' he => ?_⟩
    rw [hrun] at he
    cases he
  | error e =>
    constructor
    · intro h
      exact ensures_of_error hrun (h e a' hrun).core
    · intro h e' a'' he
      have hcore := h.error he
      have htables := hx.error a e' (by rw [he])
      rw [he] at htables
      exact ⟨hcore, htables, verified_congr hwf hcore⟩

theorem failsSame_returns {g : α → β} :
    FailsSame (x >>= fun v => pure (g v)) a ↔ FailsSame x a := by
  rcases hrun : x a with ⟨r, a'⟩
  cases r with
  | ok v =>
    have hbind : (x >>= fun v => pure (g v)) a = (.ok (g v), a') := bind_of_ok hrun _
    exact ⟨fun _ => ensures_of_ok hrun trivial, fun _ => ensures_of_ok hbind trivial⟩
  | error e =>
    have hbind : (x >>= fun v => pure (g v)) a = (.error e, a') := bind_of_error hrun _
    exact ⟨fun h => ensures_of_error hrun (h.error hbind),
      fun h => ensures_of_error hbind (h.error hrun)⟩

theorem failsSame_fail (e : VexStop) : FailsSame (throw e : Vex α) a :=
  ensures_throw (.refl a.module)

theorem failsSame_ok (v : α) : FailsSame (pure v : Vex α) a := ensures_pure trivial

theorem failsSame_modify (f : VexAdapter → VexAdapter) : FailsSame (modify f : Vex Unit) a :=
  ensures_of_ok rfl trivial

theorem failsSame_of_same {r : Except VexStop α} (h : x a = (r, a)) : FailsSame x a := by
  cases r with
  | ok v => exact ensures_of_ok h trivial
  | error e => exact ensures_of_error h (.refl a.module)

theorem failsSame_get {f : VexAdapter → Vex β} (h : FailsSame (f a) a) :
    FailsSame (Effect.get >>= f) a := h

/-- A building call that changes nothing when it is refused, before what cannot fail. -/
theorem failsSame_build {call : Module → Module × Except Status α} {f : α → Vex β}
    (h : ∀ e, (call a.module).2 = .error e → SameCore a.module (call a.module).1)
    (hf : ∀ v b, Ensures (f v) b (fun _ _ => True) fun _ _ => False) :
    FailsSame (vexBuild call >>= f) a := by
  rcases hc : call a.module with ⟨m, r⟩
  rw [hc] at h
  cases r with
  | error e => exact ensures_bind_of_error (by rw [vexBuild, hc]; rfl) (h e rfl)
  | ok v =>
    refine ensures_bind_of_ok (by rw [vexBuild, hc]; rfl) ((hf v _).mono (fun _ _ _ => trivial) ?_)
    exact fun _ _ => False.elim

end Intact

/-! ### Appending an operation -/

/-- `add_op` appends an operation with the key `k`. -/
structure Appends (m : Module) (k : OpKey) : Prop where
  unfrozen : m.frozen = false
  isOpen : m.OpenBlock k.block
  type : k.type.isValueType = true
  srcs : k.srcs.length ≤ 3
  ops_lt : m.ops.length < uint32Max
  values_lt : m.values.length < uint32Max
  unseen : (valueNumberLookup m (valueNumberHash k) k).2 = none

/-- What a building call for an operation does: it fails and changes nothing, or it hands out a
value, which is new if `P`. -/
structure Requests (call : Module → Module × Except Status Nat) (m : Module) (P : Prop) :
    Prop where
  error : ∀ e, (call m).2 = .error e → SameCore m (call m).1 ∧ ¬ P
  ok : ∀ v, (call m).2 = .ok v →
    v < (call m).1.values.length ∧ (SameCore m (call m).1 ↔ ¬ P)

section Append

variable {m : Module} {k : OpKey} {name : Option Name}

theorem requests_addOp (hwf : m.WF) (k : OpKey) (name : Option Name) :
    Requests (fun m => addOp m k name) m (Appends m k) := by
  rcases addOp_cases m k name with
    ⟨hc, e, he⟩ | ⟨-, -, hc, v, hv, hmatch, hfound⟩ |
    ⟨hf, ho, ht, hl, hops, hvals, hnone, hc, hv⟩
  · refine ⟨fun e' he' => ⟨hc, fun h => ?_⟩, fun v hv => ?_⟩
    · rcases (addOp_error h.unfrozen h.isOpen h.type h.srcs he).2 with hfull | hfull
      · exact Nat.not_lt.mpr hfull h.ops_lt
      · exact Nat.not_lt.mpr hfull h.values_lt
    · rw [he] at hv
      cases hv
  · refine ⟨fun e he => ?_, fun v' hv' => ?_⟩
    · rw [hv] at he
      cases he
    · rw [hv] at hv'
      cases hv'
      refine ⟨?_, fun _ h => ?_, fun _ => hc⟩
      · rw [hc.values]
        exact Module.Computes.lt hwf hmatch
      · rw [h.unseen] at hfound
        cases hfound
  · refine ⟨fun e he => ?_, fun v' hv' => ?_⟩
    · rw [hv] at he
      cases he
    · rw [hv] at hv'
      cases hv'
      refine ⟨by rw [hc.values]; simp [Module.withOp], fun hsame => ?_, fun h => ?_⟩
      · have hlen := congrArg List.length (hc.ops.symm.trans hsame.ops)
        simp [Module.withOp] at hlen
      · exact absurd ⟨hf, ho, ht, hl, hops, hvals, hnone⟩ h

/-- A building call checks the operands first. -/
theorem requests_guarded {refuse : Bool} {call : Module → Module × Except Status Nat}
    (hwf : m.WF) (h : call m = if refuse then (m, .error .errBadArg) else addOp m k name) :
    Requests call m (refuse = false ∧ Appends m k) := by
  cases refuse with
  | true =>
    rw [if_pos rfl] at h
    refine ⟨fun e _ => ?_, fun v hv => ?_⟩
    · rw [h]
      exact ⟨.refl m, fun hp => Bool.noConfusion hp.1⟩
    · rw [h] at hv
      cases hv
  | false =>
    rw [if_neg Bool.false_ne_true] at h
    have hreq := requests_addOp hwf k name
    constructor
    · intro e he
      rw [h] at he ⊢
      exact (hreq.error e he).imp_right fun hp => fun hq => hp hq.2
    · intro v hv
      rw [h] at hv ⊢
      rw [and_iff_right rfl]
      exact hreq.ok v hv

end Append

/-! ### Binding a temporary -/

section Bind

variable {a : VexAdapter} {tmp value : Nat}

/-- Doubling reaches what is needed within the rounds. -/
theorem exists_vexNextCount {need count rounds : Nat} (hneed : need ≤ 2 ^ 63)
    (hreach : need ≤ count * 2 ^ rounds) : ∃ n, vexNextCount need (rounds + 1) count = .ok n := by
  induction rounds generalizing count with
  | zero => exact ⟨count, by rw [vexNextCount, if_pos (by omega)]⟩
  | succ rounds ih =>
    rw [vexNextCount]
    split
    · exact ⟨count, rfl⟩
    · rw [if_neg (by omega)]
      refine ih ?_
      rw [Nat.pow_succ, Nat.mul_comm (2 ^ rounds)] at hreach
      rwa [Nat.mul_assoc]

/-- Every temporary but the last id has a slot. -/
theorem exists_vexDenseSet (map : VexDenseMap) (htmp : tmp < 2 ^ 32) (hne : tmp ≠ uint32Max) :
    ∃ map', vexDenseSet map tmp value = .ok map' := by
  have hreserve : ∃ map', vexDenseReserve map tmp = .ok map' := by
    rw [vexDenseReserve, if_neg hne]
    split
    · exact ⟨map, rfl⟩
    · have hpos : 1 ≤ if map.count = 0 then 16 else map.count := by
        split <;> omega
      have hreach := Nat.mul_le_mul_right (2 ^ 64) hpos
      obtain ⟨n, hn⟩ := @exists_vexNextCount (tmp + 1) _ 64 (by omega) (Nat.le_trans (by omega) hreach)
      rw [hn]
      exact ⟨_, rfl⟩
  obtain ⟨map', hmap⟩ := hreserve
  rw [vexDenseSet, hmap]
  exact ⟨_, rfl⟩

theorem vexDenseSet_last (map : VexDenseMap) (value : Nat) :
    vexDenseSet map uint32Max value = .error .errBadArg := by
  rw [vexDenseSet, vexDenseReserve, if_pos rfl]
  rfl

/-- The ids of values are the values that `vex_valid_value` accepts. -/
theorem vexValidValue_iff {m : Module} (hwf : m.WF) {v : Nat} :
    vexValidValue m v = true ↔ v < m.values.length := by
  constructor
  · intro h
    by_contra hge
    have hdefault : m.valueRec v = Module.defaultValue := List.getD_eq_default _ _ (not_lt.mp hge)
    rw [vexValidValue, Module.valueType, hdefault] at h
    simp [Module.defaultValue] at h
  · intro h
    have htype := hwf.value_type v h
    have hle := hwf.values_le
    have hid : v ≠ invalidId := by
      rw [invalidId]
      omega
    simp only [Ty.isValueType, Bool.and_eq_true] at htype
    simp [vexValidValue, hid, htype.1.1, bne_iff_ne.mp htype.2]

/-- `xair_vex_set_tmp` of a value is refused for the last id only. -/
theorem vexSetTmp_ensures (hwf : a.module.WF) (hv : value < a.module.values.length)
    (htmp : tmp < 2 ^ 32) : Ensures (vexSetTmp tmp value) a (fun _ _ => tmp ≠ uint32Max)
      fun _ a' => tmp = uint32Max ∧ a' = a := by
  refine ensures_get_bind ?_
  rw [(vexValidValue_iff hwf).mpr hv, Bool.not_true, if_neg Bool.false_ne_true]
  by_cases hlast : tmp = uint32Max
  · subst hlast
    rw [vexDenseSet_last]
    exact ensures_throw ⟨rfl, rfl⟩
  · obtain ⟨map', hmap⟩ := @exists_vexDenseSet _ value a.tmps htmp hlast
    rw [hmap]
    exact ensures_of_ok rfl hlast

/-- **The emitting calls.**  They fail after their operation was appended if the temporary has
the last id. -/
theorem failsSame_emit {call : Module → Module × Except Status Nat} {P : Prop}
    (hreq : Requests call a.module P) (hwf : (call a.module).1.WF) (htmp : tmp < 2 ^ 32) :
    FailsSame (vexBuild call >>= fun out => vexSetTmp tmp out) a ↔ ¬ (tmp = uint32Max ∧ P) := by
  rcases hc : call a.module with ⟨m, r⟩
  have herror := hreq.error
  have hok := hreq.ok
  rw [hc] at herror hok hwf
  cases r with
  | error e =>
    have hrun : vexBuild call a = (.error (.returns e), a.withModule m) := by
      rw [vexBuild, hc]
      rfl
    obtain ⟨hsame, hp⟩ := herror e rfl
    exact ⟨fun _ h => hp h.2, fun _ => ensures_bind_of_error hrun hsame⟩
  | ok v =>
    have hrun : vexBuild call a = (.ok v, a.withModule m) := by
      rw [vexBuild, hc]
      rfl
    obtain ⟨hv, hp⟩ := hok v rfl
    have hset := @vexSetTmp_ensures (a.withModule m) tmp v hwf hv htmp
    rcases hrest : vexSetTmp tmp v (a.withModule m) with ⟨r, a'⟩
    have hbind := (bind_of_ok hrun fun out => vexSetTmp tmp out).trans hrest
    cases r with
    | ok u =>
      have hne := hset.ok hrest
      exact ⟨fun _ h => hne h.1, fun _ => ensures_of_ok hbind trivial⟩
    | error e =>
      obtain ⟨hlast, rfl⟩ := hset.error hrest
      rw [and_iff_right hlast, ← hp]
      exact ⟨fun h => h.error hbind, fun hsame => ensures_of_error hbind hsame⟩

end Bind

/-! ### Transfers that succeed -/

/-- The ids can be handed over one after the other in a module with `count` values: each of them
names a value then, and there is an id for its parameter. -/
def HandsOut : Nat → List Nat → Prop
  | _, [] => True
  | count, v :: vs => v < count ∧ count < uint32Max ∧ HandsOut (count + 1) vs

/-- The values that are bound, in the order in which an exit hands them over. -/
def VexAdapter.bound (a : VexAdapter) : List Nat :=
  a.memory.toList ++ ((List.range a.tmps.count).filterMap a.tmps.slots ++
    ((List.range vexRegDirectSlots).filterMap a.regs ++ a.sparseRegs.map Prod.snd))

/-- The adapter is on a module that was made from `m` by adding parameters to block `c`; it has
`n` values. -/
structure Filling (m : Module) (c : Nat) (b : VexAdapter) (n : Nat) : Prop where
  draft : Draft b.module c
  blocks : b.module.blocks.length = m.blocks.length
  other : ∀ d, d ≠ c → b.module.blockRec d = m.blockRec d
  values : b.module.values.length = n

/-- While block `c` is filled, `x` adds a parameter for each of the ids `vs`, and it fails
exactly if they cannot be handed over. -/
def Hands (m : Module) (c : Nat) {α : Type} (x : Vex α) (vs : List Nat) : Prop :=
  ∀ b n, Filling m c b n → Ensures x b
    (fun _ b' => HandsOut n vs ∧ Filling m c b' (n + vs.length)) fun _ _ => ¬ HandsOut n vs

section Hands

variable {α β : Type} {m : Module} {c : Nat} {x : Vex α} {f : α → Vex β} {vs ws : List Nat}

theorem handsOut_append {n : Nat} :
    HandsOut n (vs ++ ws) ↔ HandsOut n vs ∧ HandsOut (n + vs.length) ws := by
  induction vs generalizing n with
  | nil => exact (iff_of_eq (true_and _)).symm
  | cons v vs ih =>
    rw [List.cons_append, HandsOut, HandsOut, ih, List.length_cons, Nat.add_comm vs.length 1,
      Nat.add_assoc, and_assoc, and_assoc]

theorem hands_pure (r : α) : Hands m c (pure r) [] := fun _ _ h => ensures_pure ⟨trivial, h⟩

theorem Hands.bind (hx : Hands m c x vs) (hf : ∀ r, Hands m c (f r) ws) :
    Hands m c (x >>= f) (vs ++ ws) := by
  intro b n h
  rcases hrun : x b with ⟨r, b'⟩
  cases r with
  | error e =>
    have hvs := (hx b n h).error hrun
    exact ensures_bind_of_error hrun fun hall => hvs (handsOut_append.mp hall).1
  | ok r =>
    obtain ⟨hvs, h'⟩ := (hx b n h).ok hrun
    refine ensures_bind_of_ok hrun ((hf r b' _ h').mono ?_ ?_)
    · rintro r' b'' ⟨hws, h''⟩
      rw [List.length_append, ← Nat.add_assoc]
      exact ⟨handsOut_append.mpr ⟨hvs, hws⟩, h''⟩
    · intro e b'' hws hall
      exact hws (handsOut_append.mp hall).2

/-- The type of an id that names no value is not a type of values. -/
theorem isValueType_iff {m : Module} (hwf : m.WF) {v : Nat} :
    (m.valueType v).isValueType = true ↔ v < m.values.length := by
  refine ⟨fun h => ?_, hwf.value_type v⟩
  by_contra hge
  have hdefault : m.valueRec v = Module.defaultValue := List.getD_eq_default _ _ (not_lt.mp hge)
  rw [Module.valueType, hdefault] at h
  exact absurd h (by decide)

theorem Filling.add {b : VexAdapter} {n v : Nat} {t : Ty} {m' : Module} (h : Filling m c b n)
    (hadd : ParamAdded c t b.module v m') : Filling m c (b.withModule m') (n + 1) := by
  refine ⟨hadd.draft, hadd.extends_.blocks.trans h.blocks, fun d hd => ?_, ?_⟩
  · exact (hadd.extends_.other d hd).trans (h.other d hd)
  · obtain ⟨name, rfl⟩ := hadd.change
    rw [← h.values]
    exact List.length_append

/-- A parameter for one id. -/
theorem hands_transferValue (m : Module) (c : Nat) (text : Name) (old : Nat) (args : List Nat) :
    Hands m c (vexTransferValueToContinuation c text old args) [old] := by
  intro b n h
  have hrun : ∀ {m' : Module} {r : Except Status Nat},
      blockAddParam b.module c (b.module.valueType old) (some text) = (m', r) →
      vexTransferValueToContinuation c text old args b =
        ((r.mapError VexStop.returns).map fun v => (v, args ++ [old]), b.withModule m') := by
    intro m' r he
    rw [vexTransferValueToContinuation, get_bind]
    cases r with
    | error e => exact bind_of_error (by rw [vexBuild, he]; rfl) _
    | ok v => exact bind_of_ok (by rw [vexBuild, he]; rfl) _
  have hvalues := h.values
  by_cases hold : old < n
  · have ht := h.draft.wf.value_type old (hvalues.symm ▸ hold)
    rcases blockAddParam_draft h.draft ht (some text) with ⟨v, m', he, hadd⟩ | ⟨he, hfull⟩
    · have h' := h.add hadd
      have hle := h'.draft.wf.values_le
      rw [h'.values] at hle
      exact ensures_of_ok (hrun he) ⟨⟨hold, hle, trivial⟩, h'⟩
    · refine ensures_of_error (hrun he) fun hall => ?_
      exact absurd hall.2.1 (by omega)
  · rcases blockAddParam_cases b.module c (b.module.valueType old) (some text) with
      ⟨e, he⟩ | ⟨-, -, ht, -, -⟩
    · exact ensures_of_error (hrun he) fun hall => hold hall.1
    · have hlt := (isValueType_iff h.draft.wf).mp ht
      exact absurd hlt (by omega)

theorem hands_transferMemory (m : Module) (c : Nat) (memory : Option Nat) :
    Hands m c (vexTransferMemory c memory) memory.toList := by
  cases memory with
  | none => exact hands_pure _
  | some old => exact hands_transferValue m c _ old []

/-- The transfer loops.  A null array is not written to when no slot is defined. -/
theorem hands_transferSlots (m : Module) (c : Nat) (name : Nat → Name) (slots : Nat → Option Nat)
    (is : List Nat) (next : Option (Nat → Nat))
    (hnull : ∀ i ∈ is, (slots i).isSome = true → next.isSome = true) (args : List Nat) :
    Hands m c (vexTransferSlots c name slots is next args) (is.filterMap slots) := by
  induction is generalizing next args with
  | nil => exact hands_pure _
  | cons i is ih =>
    cases hslot : slots i with
    | none =>
      rw [vexTransferSlots_skip hslot, List.filterMap_cons_none hslot]
      exact ih next (fun j hj => hnull j (List.mem_cons_of_mem i hj)) args
    | some old =>
      obtain ⟨next, rfl⟩ := Option.isSome_iff_exists.mp
        (hnull i List.mem_cons_self (by rw [hslot]; rfl))
      rw [vexTransferSlots_step hslot, List.filterMap_cons_some hslot]
      exact (hands_transferValue m c (name i) old args).bind
        fun r => ih _ (fun _ _ _ => rfl) r.2

theorem filterMap_range_getElem? {γ : Type} (l : List α) (g : α → γ) :
    (List.range l.length).filterMap (fun i => l[i]?.map g) = l.map g := by
  induction l with
  | nil => rfl
  | cons x l ih =>
    rw [List.length_cons, List.range_succ_eq_map, List.filterMap_cons, List.filterMap_map,
      List.map_cons, ← ih]
    rfl

/-- The first pass of an exit hands over every binding. -/
theorem hands_transferAll (m : Module) (c : Nat) {a : VexAdapter} (hok : a.Ok) :
    Hands m c (vexTransferAll c a) a.bound := by
  have htmps : ∀ i ∈ List.range a.tmps.count, (a.tmps.slots i).isSome = true →
      (vexScratch a.tmps.count).isSome = true := by
    intro i hi _
    exact isSome_vexScratch (Nat.ne_of_gt (Nat.zero_lt_of_lt (List.mem_range.mp hi)))
  have hsparse : ∀ i ∈ List.range a.sparseRegs.length,
      (a.sparseRegs[i]?.map Prod.snd).isSome = true →
      (vexScratch a.sparseRegs.length).isSome = true := by
    intro i hi _
    exact isSome_vexScratch (Nat.ne_of_gt (Nat.zero_lt_of_lt (List.mem_range.mp hi)))
  have hlast := filterMap_range_getElem? a.sparseRegs Prod.snd
  refine (hands_transferMemory m c a.memory).bind fun r => ?_
  refine (hands_transferSlots m c _ a.tmps.slots _ _ htmps r.2).bind fun r' => ?_
  refine (hands_transferSlots m c _ a.regs _ _ (fun i hi => hok.scratch hi) r'.2).bind fun r'' => ?_
  rw [← hlast, ← List.append_nil (List.filterMap _ _)]
  exact (hands_transferSlots m c _ _ _ _ hsparse r''.2).bind fun _ => hands_pure _

end Hands

/-! ### Exits -/

/-- What an exit needs once the continuation is there: an open block, an array for the
arguments, and bindings that can be handed over. -/
structure ExitCompletes (a : VexAdapter) (takenArgs : ArgArray) : Prop where
  isOpen : a.module.isOpen a.current = true
  given : takenArgs.ids.length = takenArgs.count
  hands : HandsOut a.module.values.length a.bound

section Exit

variable {m : Module} {a : VexAdapter} {condition taken c : Nat} {takenArgs : ArgArray}

/-- A branch is set when its checks hold. -/
theorem exists_setCbranch {b f : Nat} {args : List Nat} (hb : m.isOpen b = true)
    (hc : m.validValue condition = true) (ht : m.validBlock taken = true)
    (hf : m.validBlock f = true) (hargs : takenArgs.ids.length = takenArgs.count) :
    ∃ m', setCbranch m b condition taken takenArgs f (.array args) = (m', .ok ()) := by
  rw [setCbranch_eq, if_pos ⟨⟨hb, hc, ht, hf⟩, hargs⟩]
  exact ⟨_, if_pos rfl⟩

/-- What `xair_vex_emit_exit` does once the continuation is there. -/
theorem vexHandOver_ensures (ha : a.Ready) {b : VexAdapter} (hlen : c = a.module.blocks.length)
    (hfill : Filling m c b a.module.values.length)
    (hother : ∀ d < c, m.blockRec d = a.module.blockRec d) (hm : m.blocks.length = c + 1)
    (hunfrozen : a.module.frozen = false) (hcond : condition < a.module.values.length)
    (htaken : taken < c) : Ensures (do
      let r ← vexTransferAll c a
      vexBuild fun m => setCbranch m a.current condition taken takenArgs c (.array r.2)
      modify fun a => { a.rebind r.1 with current := c } : Vex Unit) b
      (fun _ _ => ExitCompletes a takenArgs) fun _ _ => ¬ ExitCompletes a takenArgs := by
  have hcurrent := ha.current_lt
  rcases hrun : vexTransferAll c a b with ⟨r, b'⟩
  have hall := hands_transferAll m c ha.ok b _ hfill
  cases r with
  | error e => exact ensures_bind_of_error hrun fun h => (hall.error hrun) h.hands
  | ok r =>
    obtain ⟨hhands, hfilled⟩ := hall.ok hrun
    refine ensures_bind_of_ok hrun ?_
    -- the block of the branch is as it was
    have hopen : b'.module.isOpen a.current = a.module.isOpen a.current := by
      have hrec : b'.module.blockRec a.current = a.module.blockRec a.current :=
        (hfilled.other _ (by omega)).trans (hother _ (by omega))
      simp only [Module.isOpen, Module.validBlock, hrec, hfilled.blocks, hfilled.draft.unfrozen,
        hunfrozen, hm, hcurrent, show a.current < c + 1 by omega]
    rcases hset : setCbranch b'.module a.current condition taken takenArgs c (.array r.2) with
      ⟨m', s⟩
    cases s with
    | error e =>
      refine ensures_bind_of_error (by rw [vexBuild, hset]; rfl) fun h => ?_
      obtain ⟨m'', hok⟩ := @exists_setCbranch b'.module condition taken takenArgs a.current c r.2
        (hopen.trans h.isOpen) (by simp [Module.validValue, hfilled.values]; omega)
        (by simp [Module.validBlock, hfilled.blocks, hm]; omega)
        (by simp [Module.validBlock, hfilled.blocks, hm]) h.given
      rw [hok] at hset
      cases hset
    | ok u =>
      refine ensures_bind_of_ok (by rw [vexBuild, hset]; rfl) (ensures_of_ok rfl ?_)
      obtain ⟨hisOpen, -⟩ := setCbranch_checks hset
      exact ⟨hopen ▸ hisOpen, (setCbranch_ok hset).2, hhands⟩

/-- From there on a failure leaves a block more than there was. -/
theorem vexHandOver_same (ha : a.Ready) {b : VexAdapter} (hlen : c = a.module.blocks.length)
    (hfill : Filling m c b a.module.values.length)
    (hother : ∀ d < c, m.blockRec d = a.module.blockRec d) (hm : m.blocks.length = c + 1)
    (hunfrozen : a.module.frozen = false) (hcond : condition < a.module.values.length)
    (htaken : taken < c) : Ensures (do
      let r ← vexTransferAll c a
      vexBuild fun m => setCbranch m a.current condition taken takenArgs c (.array r.2)
      modify fun a => { a.rebind r.1 with current := c } : Vex Unit) b
      (fun _ _ => True) (fun _ a' => SameCore a.module a'.module) ↔ ExitCompletes a takenArgs := by
  have hhand := @vexHandOver_ensures _ _ _ _ _ takenArgs ha _ hlen hfill hother hm hunfrozen hcond
    htaken
  have hlater := (@vexHandOver_frames a a.current condition taken c takenArgs).later b
  revert hhand hlater
  generalize (do
    let r ← vexTransferAll c a
    vexBuild fun m => setCbranch m a.current condition taken takenArgs c (.array r.2)
    modify fun a => { a.rebind r.1 with current := c } : Vex Unit) = x
  intro hhand hlater
  rcases hrest : x b with ⟨r, a'⟩
  cases r with
  | ok u => exact ⟨fun _ => hhand.ok hrest, fun _ => ensures_of_ok hrest trivial⟩
  | error e =>
    refine ⟨fun hsame => ?_, fun h => absurd h (hhand.error hrest)⟩
    rw [hrest] at hlater
    have hlt := (hlater.keepsBlock c).lt (by rw [hfill.blocks]; omega)
    rw [(hsame.error hrest).blocks] at hlt
    omega

/-- An exit passes its checks and makes the continuation, but it cannot be completed. -/
structure ExitStrands (a : VexAdapter) (condition taken : Nat) (takenArgs : ArgArray) : Prop where
  condition : vexValidValue a.module condition = true
  taken : a.module.validBlock taken = true
  unfrozen : a.module.frozen = false
  blocks_lt : a.module.blocks.length < uint32Max
  incomplete : ¬ ExitCompletes a takenArgs

/-- An exit that fails after its continuation was made leaves a block more. -/
theorem failsSame_exit (ha : a.Ready) (hwf : a.module.WF) (name : Option Name) :
    FailsSame (vexEmitExit condition taken takenArgs name) a ↔
      ¬ ExitStrands a condition taken takenArgs := by
  unfold vexEmitExit FailsSame
  rw [Ensures, get_bind, ← Ensures]
  split
  · next hguard =>
    refine ⟨fun _ h => ?_, fun _ => ensures_throw (.refl _)⟩
    rw [h.condition, h.taken] at hguard
    cases hguard
  · next hguard =>
    simp only [Bool.or_eq_true, Bool.not_eq_true', not_or, Bool.not_eq_false] at hguard
    obtain ⟨hcond, htaken⟩ := hguard
    obtain ⟨text, n, hname⟩ := vexContinuationName_run name a
    by_cases hroom : a.module.frozen = false ∧ a.module.blocks.length < uint32Max
    · obtain ⟨hf, hlt⟩ := hroom
      rcases blockCreate_draft hwf hf (some text) with ⟨c, m', hcreate, hnew⟩ | ⟨-, hfull⟩
      · obtain ⟨hdraft, rfl, text', rfl⟩ := hnew
        have hfill : Filling (a.module.withBlock text') a.module.blocks.length
            ({ a with continuationIndex := n }.withModule (a.module.withBlock text'))
            a.module.values.length :=
          ⟨hdraft, rfl, fun _ _ => rfl, rfl⟩
        have hother : ∀ d < a.module.blocks.length,
            (a.module.withBlock text').blockRec d = a.module.blockRec d := by
          intro d hd
          rw [a.module.blockRec_withBlock, if_pos hd]
        have hlen : (a.module.withBlock text').blocks.length = a.module.blocks.length + 1 := by
          simp [Module.withBlock]
        have hbuild := @vexBuild_run _ (fun m => blockCreate m (some text))
          { a with continuationIndex := n } _ _ hcreate
        rw [Ensures, bind_of_ok hname, bind_of_ok hbuild, ← Ensures]
        rw [vexHandOver_same ha rfl hfill hother hlen hf ((vexValidValue_iff hwf).mp hcond)
          (of_decide_eq_true htaken)]
        refine ⟨fun h hs => hs.incomplete h, fun h => ?_⟩
        by_contra hincomplete
        exact h ⟨hcond, htaken, hf, hlt, hincomplete⟩
      · exact absurd hlt (by omega)
    · have hcreate : ∃ e, blockCreate a.module (some text) = (a.module, .error e) := by
        rcases blockCreate_cases a.module (some text) with he | ⟨hf, hlt, -⟩
        · exact he
        · exact absurd ⟨hf, hlt⟩ hroom
      obtain ⟨e, he⟩ := hcreate
      have hbuild := @vexBuild_run _ (fun m => blockCreate m (some text))
        { a with continuationIndex := n } _ _ he
      refine ⟨fun _ h => hroom ⟨h.unfrozen, h.blocks_lt⟩, fun _ => ensures_bind_of_ok hname ?_⟩
      exact ensures_bind_of_error hbuild (.refl a.module)

end Exit

/-! ### Every call -/

/-- A call leaves something behind when it fails on `a`. -/
def VexCall.Strands (a : VexAdapter) : VexCall → Prop
  | .emitConst tmp type value _ => tmp = uint32Max ∧
    (type.kind = .int ∨ type.kind = .addr) ∧ type.bits ≤ 64 ∧
      Appends a.module ⟨a.current, .constU64, type, [], value, .le⟩
  | .emitUnop tmp irop src _ => tmp = uint32Max ∧ vexValidValue a.module src = true ∧
    ∃ opcode type, vexMapUnop irop (a.module.valueType src) = .ok (opcode, type) ∧
      Appends a.module ⟨a.current, opcode, type, [src], 0#64, .le⟩
  | .emitBinop tmp irop lhs rhs _ => tmp = uint32Max ∧ vexValidValue a.module lhs = true ∧
    vexValidValue a.module rhs = true ∧
    (a.module.valueType lhs = a.module.valueType rhs ∨ vexIsShift irop = true) ∧
    ∃ opcode type, vexMapBinop irop (a.module.valueType lhs) = .ok (opcode, type) ∧
      Appends a.module ⟨a.current, opcode, type, [lhs, rhs], 0#64, .le⟩
  | .emitLoad tmp type address endian _ => tmp = uint32Max ∧
    vexValidValue a.module address = true ∧
    ∃ memory, a.memory = some memory ∧ a.module.validValue memory = true ∧
      Appends a.module ⟨a.current, .load, type, [memory, address], 0#64, endian⟩
  | .emitExit condition taken takenArgs _ => ExitStrands a condition taken takenArgs
  | _ => False

/-- The temporary that an emitting call binds is a `uint32_t`. -/
def VexCall.TmpIsU32 : VexCall → Prop
  | .emitConst tmp _ _ _ | .emitUnop tmp _ _ _ | .emitBinop tmp _ _ _ _
  | .emitLoad tmp _ _ _ _ => tmp < 2 ^ 32
  | _ => True

section Calls

variable {a : VexAdapter}

theorem failsSame_setTmp (tmp value : Nat) : FailsSame (vexSetTmp tmp value) a := by
  refine failsSame_get ?_
  split
  · exact failsSame_fail _
  · split
    · exact failsSame_fail _
    · exact failsSame_modify _

theorem failsSame_getReg (offset : Nat) (type : Ty) (name : Option Name) :
    FailsSame (vexGetReg offset type name) a := by
  refine failsSame_get ?_
  split
  · exact failsSame_fail _
  · split
    · split
      · exact failsSame_fail _
      · exact failsSame_ok _
    · refine failsSame_build (fun e he => ?_) fun v b => ensures_of_ok rfl trivial
      rcases blockAddParam_cases a.module a.current type name with ⟨e', hrun⟩ | ⟨-, -, -, -, hrun⟩
      · rw [hrun]
        exact .refl a.module
      · rw [hrun] at he
        cases he

theorem failsSame_putReg (offset value : Nat) : FailsSame (vexPutReg offset value) a := by
  refine failsSame_get ?_
  split
  · exact failsSame_fail _
  · exact failsSame_modify _

theorem failsSame_setMemory (memory : Nat) : FailsSame (vexSetMemory memory) a := by
  refine failsSame_get ?_
  split
  · exact failsSame_fail _
  · split
    · exact failsSame_fail _
    · exact failsSame_modify _

theorem failsSame_currentMemory : FailsSame vexCurrentMemory a := by
  refine failsSame_get ?_
  split
  · exact failsSame_fail _
  · exact failsSame_ok _

theorem failsSame_emitStore (hwf : a.module.WF) (address data : Nat) (endian : Endian)
    (name : Option Name) : FailsSame (vexEmitStore address data endian name) a := by
  refine failsSame_get ?_
  split
  · exact failsSame_fail _
  · next memory _ =>
    split
    · exact failsSame_fail _
    · have hreq := @requests_guarded _ _ name _
        (fun m => buildStore m a.current memory address data endian name) hwf rfl
      exact failsSame_build (fun e he => (hreq.error e he).1) fun v b => ensures_of_ok rfl trivial

/-- A terminator that is refused changes nothing. -/
theorem failsSame_term {call : Module → Module × Except Status Unit}
    (h : ∀ e m', call a.module = (m', .error e) → m' = a.module) : FailsSame (vexBuild call) a := by
  rcases hc : call a.module with ⟨m', r⟩
  cases r with
  | ok u => exact ensures_of_ok (vexBuild_run hc) trivial
  | error e =>
    obtain rfl := h e m' hc
    exact ensures_of_error (vexBuild_run hc) (.refl _)

theorem failsSame_emitConst (hwf : a.module.WF) {tmp : Nat} (htmp : tmp < 2 ^ 32) (type : Ty)
    (value : Word) (name : Option Name) : FailsSame (vexEmitConst tmp type value name) a ↔
      ¬ (VexCall.emitConst tmp type value name).Strands a := by
  have hreq := @requests_guarded _ _ name _
    (fun m => buildConstU64 m a.current type value name) hwf rfl
  have hwf' := wf_call hwf (.buildConstU64 a.current type value name)
  refine (failsSame_emit hreq hwf' htmp).trans (not_congr (and_congr_right fun _ => ?_))
  simp only [Bool.or_eq_false_iff, Bool.not_eq_false', Bool.or_eq_true, beq_iff_eq,
    decide_eq_false_iff_not, not_lt, and_assoc]

theorem failsSame_emitUnop (hwf : a.module.WF) {tmp : Nat} (htmp : tmp < 2 ^ 32)
    (irop : Option Name) (src : Nat) (name : Option Name) :
    FailsSame (vexEmitUnop tmp irop src name) a ↔
      ¬ (VexCall.emitUnop tmp irop src name).Strands a := by
  unfold vexEmitUnop FailsSame
  rw [Ensures, get_bind, ← Ensures]
  split
  · next hsrc =>
    refine iff_of_true (failsSame_fail _) fun h => ?_
    rw [h.2.1] at hsrc
    cases hsrc
  · next hsrc =>
    have hsrc : vexValidValue a.module src = true := by simpa using hsrc
    have hlt := (vexValidValue_iff hwf).mp hsrc
    cases hmap : vexMapUnop irop (a.module.valueType src) with
    | error e =>
      refine iff_of_true (failsSame_fail _) ?_
      rintro ⟨-, -, opcode, type, hok, -⟩
      rw [hmap] at hok
      cases hok
    | ok p =>
      obtain ⟨opcode, type⟩ := p
      have hreq := @requests_guarded _ _ name _
        (fun m => buildUnary m a.current opcode type src name) hwf rfl
      have hwf' := wf_call hwf (.buildUnary a.current opcode type src name)
      refine (failsSame_emit hreq hwf' htmp).trans (not_congr (and_congr_right fun _ => ?_))
      simp [hsrc, hmap, Module.validValue, hlt]

theorem failsSame_emitBinop (hwf : a.module.WF) {tmp : Nat} (htmp : tmp < 2 ^ 32)
    (irop : Option Name) (lhs rhs : Nat) (name : Option Name) :
    FailsSame (vexEmitBinop tmp irop lhs rhs name) a ↔
      ¬ (VexCall.emitBinop tmp irop lhs rhs name).Strands a := by
  unfold vexEmitBinop FailsSame
  rw [Ensures, get_bind, ← Ensures]
  split
  · next hvalid =>
    refine iff_of_true (failsSame_fail _) fun h => ?_
    rw [h.2.1, h.2.2.1] at hvalid
    cases hvalid
  · next hvalid =>
    simp only [Bool.or_eq_true, Bool.not_eq_true', not_or, Bool.not_eq_false] at hvalid
    obtain ⟨hlhs, hrhs⟩ := hvalid
    have hl := (vexValidValue_iff hwf).mp hlhs
    have hr := (vexValidValue_iff hwf).mp hrhs
    split
    · next htypes =>
      refine iff_of_true (failsSame_fail _) fun h => ?_
      rcases h.2.2.2.1 with heq | hshift
      · exact htypes.1 heq
      · rw [hshift] at htypes
        cases htypes.2
    · next htypes =>
      have htypes : a.module.valueType lhs = a.module.valueType rhs ∨ vexIsShift irop = true := by
        rw [not_and_or, not_not, Bool.not_eq_true, Bool.not_eq_false'] at htypes
        exact htypes
      cases hmap : vexMapBinop irop (a.module.valueType lhs) with
      | error e =>
        refine iff_of_true (failsSame_fail _) ?_
        rintro ⟨-, -, -, -, opcode, type, hok, -⟩
        rw [hmap] at hok
        cases hok
      | ok p =>
        obtain ⟨opcode, type⟩ := p
        have hreq := @requests_guarded _ _ name _
          (fun m => buildBinary m a.current opcode type lhs rhs name) hwf rfl
        have hwf' := wf_call hwf (.buildBinary a.current opcode type lhs rhs name)
        refine (failsSame_emit hreq hwf' htmp).trans (not_congr (and_congr_right fun _ => ?_))
        simp [hlhs, hrhs, htypes, hmap, Module.validValue, hl, hr]

theorem failsSame_emitLoad (hwf : a.module.WF) {tmp : Nat} (htmp : tmp < 2 ^ 32) (type : Ty)
    (address : Nat) (endian : Endian) (name : Option Name) :
    FailsSame (vexEmitLoad tmp type address endian name) a ↔
      ¬ (VexCall.emitLoad tmp type address endian name).Strands a := by
  unfold vexEmitLoad FailsSame
  rw [Ensures, get_bind, ← Ensures]
  cases hmem : a.memory with
  | none =>
    refine iff_of_true (failsSame_fail _) ?_
    rintro ⟨-, -, memory, hsome, -⟩
    rw [hmem] at hsome
    cases hsome
  | some memory =>
    dsimp only
    split
    · next hvalid =>
      refine iff_of_true (failsSame_fail _) fun h => ?_
      rw [h.2.1] at hvalid
      cases hvalid
    · next hvalid =>
      have haddress : vexValidValue a.module address = true := by simpa using hvalid
      have hlt := (vexValidValue_iff hwf).mp haddress
      have hreq := @requests_guarded _ _ name _
        (fun m => buildLoad m a.current type memory address endian name) hwf rfl
      have hwf' := wf_call hwf (.buildLoad a.current type memory address endian name)
      refine (failsSame_emit hreq hwf' htmp).trans (not_congr (and_congr_right fun _ => ?_))
      simp [haddress, hmem, Module.validValue, hlt]

/-- **Failing calls.**  A call of a reachable adapter leaves everything intact when it fails,
unless its operation was appended for the last temporary, or its continuation was made for an
exit that cannot be completed. -/
theorem vexCall_intact_iff (ha : a.Reachable) (c : VexCall) (hc : c.TmpIsU32) :
    IntactOn c.run a ↔ ¬ c.Strands a := by
  have hwf := ha.wf
  rw [intactOn_iff c.frames hwf]
  cases c with
  | setTmp tmp value =>
    exact iff_of_true (failsSame_returns.mpr (failsSame_setTmp tmp value)) id
  | getTmp tmp => exact iff_of_true (failsSame_returns.mpr (failsSame_of_same (vexGetTmp_eq tmp))) id
  | getReg offset type name =>
    exact iff_of_true (failsSame_returns.mpr (failsSame_getReg offset type name)) id
  | putReg offset value =>
    exact iff_of_true (failsSame_returns.mpr (failsSame_putReg offset value)) id
  | peekReg offset =>
    exact iff_of_true (failsSame_returns.mpr (failsSame_of_same (vexPeekReg_eq offset))) id
  | setMemory memory =>
    exact iff_of_true (failsSame_returns.mpr (failsSame_setMemory memory)) id
  | currentMemory => exact iff_of_true (failsSame_returns.mpr failsSame_currentMemory) id
  | emitConst tmp type value name =>
    exact failsSame_returns.trans (failsSame_emitConst hwf hc type value name)
  | emitUnop tmp irop src name =>
    exact failsSame_returns.trans (failsSame_emitUnop hwf hc irop src name)
  | emitBinop tmp irop lhs rhs name =>
    exact failsSame_returns.trans (failsSame_emitBinop hwf hc irop lhs rhs name)
  | emitLoad tmp type address endian name =>
    exact failsSame_returns.trans (failsSame_emitLoad hwf hc type address endian name)
  | emitStore address data endian name =>
    exact iff_of_true (failsSame_returns.mpr (failsSame_emitStore hwf address data endian name)) id
  | emitExit condition taken takenArgs name =>
    exact failsSame_returns.trans (failsSame_exit ha.ready.1 hwf name)
  | finishJump target args =>
    have h : FailsSame (vexFinishJump target args) a :=
      failsSame_get (failsSame_term fun _ _ => setJump_error)
    exact iff_of_true (failsSame_returns.mpr h) id
  | finishReturn values =>
    have h : FailsSame (vexFinishReturn values) a :=
      failsSame_get (failsSame_term fun _ _ => setReturn_error)
    exact iff_of_true (failsSame_returns.mpr h) id

/-- A block that was closed. -/
def closedBlock : List Call :=
  [.blockCreate none, .blockAddParam 0 (typeI 1) none, .setReturn 0 (.array [])]

/-- The adapter that `xair_vex_adapter_create` makes for it. -/
def closedAdapter : VexAdapter :=
  ⟨runCalls Module.create closedBlock, 0, none, ⟨0, fun _ => none⟩, fun _ => none, 0, [], 0⟩

theorem closedAdapter_reachable : closedAdapter.Reachable :=
  @VexAdapter.Reachable.create _ 0 invalidId closedAdapter ⟨closedBlock, rfl⟩ rfl

theorem vexCall_intact_iff_closed :
    IntactOn (VexCall.emitExit 0 0 (.null 0) none).run closedAdapter ↔
      ¬ (VexCall.emitExit 0 0 (.null 0) none).Strands closedAdapter :=
  vexCall_intact_iff closedAdapter_reachable (.emitExit 0 0 (.null 0) none) trivial

/-- The adapter with the continuation that a refused exit has left. -/
def strandedAdapter : VexAdapter :=
  { closedAdapter with
    module := closedAdapter.module.withBlock (literalName "vex_cont_0")
    continuationIndex := 1 }

/-- An exit of a block that was closed: the module was accepted and is not any more. -/
theorem vexEmitExit_stranded : closedAdapter.Reachable ∧ closedAdapter.module.Verified ∧
    (VexCall.emitExit 0 0 (.null 0) none).run closedAdapter =
      (.error (.returns .errBadArg), strandedAdapter) ∧
    ¬ VexIntact closedAdapter strandedAdapter ∧ ¬ strandedAdapter.module.Verified := by
  have hrun : vexEmitExit 0 0 (.null 0) none closedAdapter =
      (.error (.returns .errBadArg), strandedAdapter) := by
    unfold vexEmitExit
    rw [Effect.get_bind]
    simp only [closedAdapter, vexTransferAll_fresh]
    rfl
  have hverified : closedAdapter.module.Verified := by decide
  have hrefused : ¬ strandedAdapter.module.Verified := by decide
  refine ⟨closedAdapter_reachable, hverified, bind_of_error hrun _, fun h => ?_, hrefused⟩
  exact hrefused (h.verified hverified)

end Calls

end Xair
