import Xair.PlainBuilder
import Xair.Vex

/-!
# The bindings of a VEX adapter

The dense table of temporaries, the direct slots and the list of sparse register offsets are
one finite map from keys to values (`VexAdapter.lookup`).  A binding is changed at its key
(`lookup_setTmp`, `lookup_setReg`), and an exit replaces each binding by the parameter of the
continuation that is named after the key (`vexEmitExit_ensures`).  So a read gives what the calls
so far have bound (`vexHistory_bindings`).
-/

namespace Xair

/-- A name that can be bound. -/
inductive VexKey
  | memory
  | tmp (tmp : Nat)
  | reg (offset : Nat)
  deriving DecidableEq, Repr

/-- What is bound to a key. -/
def VexAdapter.lookup (a : VexAdapter) : VexKey → Option Nat
  | .memory => a.memory
  | .tmp tmp => vexDenseGet a.tmps tmp
  | .reg offset => a.reg offset

/-- The adapter on another module. -/
def VexAdapter.withModule (a : VexAdapter) (m : Module) : VexAdapter := { a with module := m }

/-! ### The dense table -/

section Dense

variable {map map' : VexDenseMap} {key value : Nat}

theorem vexNextCount_ok {need rounds count n : Nat} (h : vexNextCount need rounds count = .ok n) :
    need ≤ n := by
  induction rounds generalizing count with
  | zero => cases h
  | succ rounds ih =>
    rw [vexNextCount] at h
    split at h
    · next hle =>
      cases h
      exact hle
    · split at h
      · cases h
      · exact ih h

/-- The table covers the key, and no key is read otherwise than before. -/
theorem vexDenseReserve_ok (h : vexDenseReserve map key = .ok map') :
    key < map'.count ∧ ∀ k, vexDenseGet map' k = vexDenseGet map k := by
  rw [vexDenseReserve] at h
  split at h
  · cases h
  · split at h
    · next hle =>
      cases h
      exact ⟨hle, fun k => rfl⟩
    · next hgt =>
      cases hn : vexNextCount (key + 1) 65 (if map.count = 0 then 16 else map.count) with
      | error e =>
        rw [hn] at h
        cases h
      | ok n =>
        rw [hn] at h
        cases h
        have hle := vexNextCount_ok hn
        refine ⟨hle, fun k => ?_⟩
        simp only [vexDenseGet]
        by_cases hk : map.count ≤ k
        · rw [if_pos hk, if_neg (by omega : ¬ k < map.count), ite_self]
        · rw [if_neg hk, if_neg (by omega), if_pos (by omega)]

theorem vexDenseSet_ok (h : vexDenseSet map key value = .ok map') (k : Nat) :
    vexDenseGet map' k = if k = key then some value else vexDenseGet map k := by
  rw [vexDenseSet] at h
  cases hr : vexDenseReserve map key with
  | error e =>
    rw [hr] at h
    cases h
  | ok grown =>
    rw [hr] at h
    cases h
    obtain ⟨hlt, hget⟩ := vexDenseReserve_ok hr
    rw [← hget k]
    simp only [vexDenseGet]
    by_cases hk : k = key
    · subst hk
      rw [if_neg (by omega), if_pos rfl, if_pos rfl]
    · rw [if_neg hk, if_neg hk]

end Dense

/-! ### The sparse list -/

theorem vexFindEntry_set (entries : List (Nat × Nat)) (key value k : Nat) :
    (vexFindEntry (vexSetEntry entries key value) k).map Prod.snd =
      if k = key then some value else (vexFindEntry entries k).map Prod.snd := by
  have hkey : Prod.fst (key, value) = key := rfl
  have hkeep : ∀ e : Nat × Nat, Prod.fst (e.1, value) = Prod.fst e := fun _ => rfl
  unfold vexFindEntry vexSetEntry
  split
  · next hk =>
    subst hk
    rw [KeyedList.lookup_update_self hkey hkeep]
    rfl
  · next hk => rw [KeyedList.lookup_update_ne hk hkey hkeep]

/-! ### Bindings at a key -/

section Lookup

variable {a a' : VexAdapter} {tmp offset value : Nat}

/-- `xair_vex_set_tmp` that succeeds. -/
theorem vexSetTmp_ok (h : vexSetTmp tmp value a = (.ok (), a')) :
    ∃ tmps, vexDenseSet a.tmps tmp value = .ok tmps ∧ a' = { a with tmps := tmps } := by
  rw [vexSetTmp, Effect.get_bind] at h
  split at h
  · cases h
  · cases hset : vexDenseSet a.tmps tmp value with
    | error e =>
      rw [hset] at h
      cases h
    | ok tmps =>
      rw [hset] at h
      cases h
      exact ⟨tmps, rfl, rfl⟩

theorem lookup_setTmp (h : vexSetTmp tmp value a = (.ok (), a')) :
    a'.lookup = Function.update a.lookup (.tmp tmp) (some value) := by
  obtain ⟨tmps, hset, rfl⟩ := vexSetTmp_ok h
  funext k
  cases k with
  | memory => rw [Function.update_of_ne (by simp)]; rfl
  | tmp t =>
    rw [VexAdapter.lookup, vexDenseSet_ok hset, Function.update_apply]
    simp only [VexKey.tmp.injEq]
    rfl
  | reg o => rw [Function.update_of_ne (by simp)]; rfl

theorem lookup_setReg :
    (a.setReg offset value).lookup = Function.update a.lookup (.reg offset) (some value) := by
  funext k
  cases k with
  | memory | tmp =>
    rw [Function.update_of_ne (by simp), VexAdapter.setReg]
    split <;> rfl
  | reg o =>
    rw [Function.update_apply]
    simp only [VexKey.reg.injEq, VexAdapter.lookup, VexAdapter.reg, VexAdapter.setReg]
    by_cases hoff : offset < vexRegDirectSlots
    · by_cases ho : o = offset
      · simp [ho, hoff]
      · simp [ho, hoff]
    · by_cases ho : o < vexRegDirectSlots
      · simp [ho, hoff, show o ≠ offset by omega]
      · simp [ho, hoff, vexFindEntry_set]

end Lookup

/-! ### Transfers to a continuation -/

/-- A binding that was handed over: its key, the old value and the parameter for it. -/
structure VexTransfer (κ : Type) where
  key : κ
  old : Nat
  new : Nat

/-- The transfers append their parameters to the continuation, each with the name of its key. -/
structure Transferred {κ : Type} (continuation : Nat) (name : κ → Name) (m m' : Module)
    (ts : List (VexTransfer κ)) : Prop where
  params : (m'.blockRec continuation).params =
    (m.blockRec continuation).params ++ ts.map VexTransfer.new
  named : ∀ t ∈ ts, t.new < m'.values.length ∧
    (m'.valueRec t.new).name = copyName (some (name t.key)) [118] t.new
  values_le : m.values.length ≤ m'.values.length
  valueRec : ∀ v < m.values.length, m'.valueRec v = m.valueRec v

section Transfer

variable {κ : Type} {continuation : Nat} {name : κ → Name} {m m' m'' : Module}
  {ts us : List (VexTransfer κ)}

theorem transferred_nil : Transferred continuation name m m [] :=
  ⟨by simp, fun _ ht => absurd ht List.not_mem_nil, Nat.le_refl _, fun _ _ => rfl⟩

theorem Transferred.append (h : Transferred continuation name m m' ts)
    (h' : Transferred continuation name m' m'' us) :
    Transferred continuation name m m'' (ts ++ us) where
  params := by rw [h'.params, h.params, List.map_append, List.append_assoc]
  named := by
    intro t ht
    rcases List.mem_append.mp ht with ht | ht
    · obtain ⟨hlt, hname⟩ := h.named t ht
      rw [h'.valueRec _ hlt]
      exact ⟨Nat.lt_of_lt_of_le hlt h'.values_le, hname⟩
    · exact h'.named t ht
  values_le := Nat.le_trans h.values_le h'.values_le
  valueRec := by
    intro v hv
    rw [h'.valueRec v (Nat.lt_of_lt_of_le hv h.values_le), h.valueRec v hv]

/-- A parameter for one binding. -/
theorem transferred_withParam (hc : continuation < m.blocks.length) (k : κ) (old : Nat) (t : Ty) :
    Transferred continuation name m
      (m.withParam continuation t (copyName (some (name k)) [118] m.values.length))
      [⟨k, old, m.values.length⟩] where
  params := by rw [m.blockRec_withParam, if_pos ⟨rfl, hc⟩]; rfl
  named := by
    intro u hu
    rw [List.mem_singleton] at hu
    subst hu
    dsimp only
    rw [Module.withParam_new]
    exact ⟨by simp [Module.withParam], rfl⟩
  values_le := by simp [Module.withParam]
  valueRec := by
    intro v hv
    rw [Module.withParam_old hv]

/-- The keys of transfers are names of their own. -/
theorem Transferred.map {κ' : Type} {name' : κ' → Name} {f : κ → κ'}
    (h : Transferred continuation name m m' ts) (hf : ∀ t ∈ ts, name' (f t.key) = name t.key) :
    Transferred continuation name' m m' (ts.map fun t => ⟨f t.key, t.old, t.new⟩) where
  params := by rw [h.params, List.map_map]; rfl
  named := by
    intro u hu
    obtain ⟨t, ht, rfl⟩ := List.mem_map.mp hu
    rw [hf t ht]
    exact h.named t ht
  values_le := h.values_le
  valueRec := h.valueRec

variable {a : VexAdapter} {args : List Nat} {old : Nat}

/-- A transfer is refused and changes nothing, or it makes the next parameter. -/
theorem vexTransferValue_cases (continuation : Nat) (text : Name) (old : Nat) (args : List Nat)
    (a : VexAdapter) :
    (∃ e, vexTransferValueToContinuation continuation text old args a = (.error (.returns e), a)) ∨
      continuation < a.module.blocks.length ∧ ∃ t,
        vexTransferValueToContinuation continuation text old args a =
          (.ok (a.module.values.length, args ++ [old]),
            a.withModule (a.module.withParam continuation t
              (copyName (some text) [118] a.module.values.length))) := by
  have hget : vexTransferValueToContinuation continuation text old args a =
      (vexBuild (fun m => blockAddParam m continuation (a.module.valueType old) (some text)) >>=
        fun newValue => pure (newValue, args ++ [old])) a := rfl
  rcases blockAddParam_cases a.module continuation (a.module.valueType old) (some text) with
    ⟨e, he⟩ | ⟨-, hopen, -, -, he⟩
  · have hb : vexBuild (fun m =>
        blockAddParam m continuation (a.module.valueType old) (some text)) a =
        (.error (.returns e), a) := by
      rw [vexBuild, he]
      rfl
    exact .inl ⟨e, by rw [hget, Effect.bind_of_error hb]⟩
  · refine .inr ⟨hopen.1, a.module.valueType old, ?_⟩
    rw [hget, Effect.bind_of_ok (by rw [vexBuild, he]; rfl)]
    rfl

end Transfer

/-- What a transfer loop over the slots `is` has done. -/
structure SlotsTransferred (continuation : Nat) (name : Nat → Name) (slots : Nat → Option Nat)
    (is : List Nat) (next : Option (Nat → Nat)) (args : List Nat) (a : VexAdapter)
    (next' : Option (Nat → Nat)) (args' : List Nat) (a' : VexAdapter)
    (ts : List (VexTransfer Nat)) : Prop where
  module : Transferred continuation name a.module a'.module ts
  frame : a' = a.withModule a'.module
  args : args' = args ++ ts.map VexTransfer.old
  entry : ∀ t ∈ ts, t.key ∈ is ∧ slots t.key = some t.old ∧ next'.elim invalidId (· t.key) = t.new
  all : ∀ i ∈ is, (slots i).isSome = true → ∃ t ∈ ts, t.key = i
  other : ∀ j, j ∉ is → next'.elim invalidId (· j) = next.elim invalidId (· j)

section TransferSlots

variable {continuation : Nat} {name : Nat → Name} {slots : Nat → Option Nat}

theorem vexTransferSlots_skip {i : Nat} (h : slots i = none) (is : List Nat)
    (next : Option (Nat → Nat)) (args : List Nat) :
    vexTransferSlots continuation name slots (i :: is) next args =
      vexTransferSlots continuation name slots is next args := by
  rw [vexTransferSlots.eq_def]
  simp only [h]

/-- A table without a binding is passed over. -/
theorem vexTransferSlots_none {is : List Nat} (h : ∀ i ∈ is, slots i = none)
    (next : Option (Nat → Nat)) (args : List Nat) :
    vexTransferSlots continuation name slots is next args = pure (next, args) := by
  induction is with
  | nil => rfl
  | cons i is ih =>
    rw [vexTransferSlots_skip (h i List.mem_cons_self)]
    exact ih fun j hj => h j (List.mem_cons_of_mem i hj)

theorem vexTransferSlots_step {i old : Nat} (h : slots i = some old) (is : List Nat)
    (next : Nat → Nat) (args : List Nat) :
    vexTransferSlots continuation name slots (i :: is) (some next) args =
      vexTransferValueToContinuation continuation (name i) old args >>= fun r =>
        vexTransferSlots continuation name slots is
          (some fun j => if j = i then r.1 else next j) r.2 := by
  rw [vexTransferSlots.eq_def]
  simp only [h]

/-- **The transfer loops.**  A null array is not written to when no slot is defined. -/
theorem vexTransferSlots_ensures (is : List Nat) (hnodup : is.Nodup) (next : Option (Nat → Nat))
    (hnull : ∀ i ∈ is, (slots i).isSome = true → next.isSome = true) (args : List Nat)
    (a : VexAdapter) :
    Effect.Ensures (vexTransferSlots continuation name slots is next args) a
      (fun r a' => ∃ ts, SlotsTransferred continuation name slots is next args a r.1 r.2 a' ts)
      (fun e _ => e ≠ .nullWrite) := by
  induction is generalizing next args a with
  | nil =>
    refine Effect.ensures_pure ⟨[], transferred_nil, rfl, by simp, ?_, ?_, fun _ _ => rfl⟩
    · exact fun _ ht => absurd ht List.not_mem_nil
    · exact fun _ hi => absurd hi List.not_mem_nil
  | cons i is ih =>
    obtain ⟨hi, hnodup⟩ := List.nodup_cons.mp hnodup
    cases hslot : slots i with
    | none =>
      rw [vexTransferSlots_skip hslot]
      refine (ih hnodup next (fun j hj => hnull j (List.mem_cons_of_mem i hj)) args a).mono ?_
        fun _ _ he => he
      rintro r a' ⟨ts, h⟩
      refine ⟨ts, h.module, h.frame, h.args, fun t ht => ?_, fun j hj hsome => ?_, fun j hj => ?_⟩
      · exact (h.entry t ht).imp_left (List.mem_cons_of_mem i)
      · rcases List.mem_cons.mp hj with rfl | hj
        · rw [hslot] at hsome
          cases hsome
        · exact h.all j hj hsome
      · exact h.other j fun hmem => hj (List.mem_cons_of_mem i hmem)
    | some old =>
      obtain ⟨next, rfl⟩ := Option.isSome_iff_exists.mp
        (hnull i List.mem_cons_self (by rw [hslot]; rfl))
      rw [vexTransferSlots_step hslot]
      rcases vexTransferValue_cases continuation (name i) old args a with ⟨e, he⟩ | ⟨hc, t, he⟩
      · exact Effect.ensures_bind_of_error he (by simp)
      · refine Effect.ensures_bind_of_ok he ?_
        have hone := @transferred_withParam _ _ name _ hc i old t
        refine (ih hnodup _ (fun _ _ _ => rfl) _ _).mono ?_ fun _ _ he => he
        rintro r a' ⟨ts, h⟩
        refine ⟨⟨i, old, a.module.values.length⟩ :: ts, hone.append h.module, h.frame,
          ?_, ?_, ?_, ?_⟩
        · rw [h.args, List.append_assoc]
          rfl
        · intro u hu
          rcases List.mem_cons.mp hu with rfl | hu
          · refine ⟨List.mem_cons_self, hslot, ?_⟩
            rw [h.other i hi]
            exact if_pos rfl
          · exact (h.entry u hu).imp_left (List.mem_cons_of_mem i)
        · intro j hj hsome
          rcases List.mem_cons.mp hj with rfl | hj
          · exact ⟨_, List.mem_cons_self, rfl⟩
          · obtain ⟨u, hu, hkey⟩ := h.all j hj hsome
            exact ⟨u, List.mem_cons_of_mem _ hu, hkey⟩
        · intro j hj
          rw [List.mem_cons, not_or] at hj
          rw [h.other j hj.2]
          exact if_neg hj.1

end TransferSlots

/-! ### Exits -/

/-- How many direct slots are defined. -/
def VexAdapter.definedRegs (a : VexAdapter) : Nat :=
  (List.range vexRegDirectSlots).countP fun i => (a.regs i).isSome

/-- The tables are in order. -/
structure VexAdapter.Ok (a : VexAdapter) : Prop where
  sparse_nodup : (a.sparseRegs.map Prod.fst).Nodup
  sparse_ge : ∀ key ∈ a.sparseRegs.map Prod.fst, vexRegDirectSlots ≤ key
  count : a.regCount = a.definedRegs

/-- The name of the parameter that stands for a key after an exit. -/
def VexKey.name : VexKey → Name
  | .memory => literalName "mem"
  | .tmp t => literalName "t" ++ decimal t
  | .reg o => literalName "r" ++ decimal o

/-- The arguments that the terminator of a block hands to its false target. -/
def Module.falseArgs (m : Module) (b : Nat) : List Nat :=
  m.termArgsConst (m.blockRec b).term true

/-- An exit hands over the bindings `ts`: the current block ends in a branch with their old
values, and the parameters of the continuation are bound instead. -/
structure VexExit (a a' : VexAdapter) (ts : List (VexTransfer VexKey)) : Prop where
  ok : a'.Ok
  kind : (a'.module.blockRec a.current).term.kind = .cbranch
  target : (a'.module.blockRec a.current).term.falseTarget = a'.current
  params : (a'.module.blockRec a'.current).params = ts.map VexTransfer.new
  args : a'.module.falseArgs a.current = ts.map VexTransfer.old
  named : ∀ t ∈ ts, (a'.module.valueRec t.new).name = copyName (some t.key.name) [118] t.new
  moved : ∀ t ∈ ts, a.lookup t.key = some t.old ∧ a'.lookup t.key = some t.new
  all : ∀ k, (a.lookup k).isSome = true → ∃ t ∈ ts, t.key = k
  unbound : ∀ k, a.lookup k = none → a'.lookup k = none

/-- An exit goes to block `taken` with the arguments of the caller, and else to a new block. -/
structure VexTaken (a a' : VexAdapter) (taken : Nat) (takenArgs : List Nat) : Prop where
  lt : taken < a.module.blocks.length
  current : a'.current = a.module.blocks.length
  current_lt : a.current < a'.module.blocks.length
  target : (a'.module.blockRec a.current).term.trueTarget = taken
  args : a'.module.termArgsConst (a'.module.blockRec a.current).term false = takenArgs

section Exit

variable {a a' : VexAdapter} {continuation : Nat}

section Rebind

variable {next : VexNext}

theorem rebind_keys : (a.rebind next).sparseRegs.map Prod.fst =
    a.sparseRegs.map Prod.fst := by
  exact List.ext_getElem (by simp [VexAdapter.rebind]) fun i _ _ => by simp [VexAdapter.rebind]

theorem rebind_tmp (t : Nat) : (a.rebind next).lookup (.tmp t) =
    (a.lookup (.tmp t)).map fun _ => next.tmps.elim invalidId (· t) := by
  simp only [VexAdapter.lookup, VexAdapter.rebind, vexDenseGet, vexRebindSlots]
  by_cases h : a.tmps.count ≤ t
  · simp [h]
  · simp [h, Nat.lt_of_not_le h]

theorem rebind_direct {o : Nat} (ho : o < vexRegDirectSlots) :
    (a.rebind next).lookup (.reg o) =
      (a.lookup (.reg o)).map fun _ => next.regs.elim invalidId (· o) := by
  simp only [VexAdapter.lookup, VexAdapter.reg, VexAdapter.rebind, vexRebindSlots, if_pos ho]

/-- A sparse offset is bound to the value of its entry. -/
theorem VexAdapter.Ok.lookup_entry (h : a.Ok) {e : Nat × Nat} (he : e ∈ a.sparseRegs) :
    a.lookup (.reg e.1) = some e.2 := by
  have hge := h.sparse_ge _ (List.mem_map_of_mem he)
  rw [VexAdapter.lookup, VexAdapter.reg, if_neg (by omega), vexFindEntry,
    KeyedList.lookup_of_mem h.sparse_nodup he]
  rfl

/-- A sparse offset that is bound has an entry. -/
theorem entry_of_lookup {o : Nat} (ho : ¬ o < vexRegDirectSlots)
    (h : (a.lookup (.reg o)).isSome = true) : ∃ (i v : Nat), a.sparseRegs[i]? = some (o, v) := by
  rw [VexAdapter.lookup, VexAdapter.reg, if_neg ho, Option.isSome_map] at h
  obtain ⟨e, he⟩ := Option.isSome_iff_exists.mp h
  obtain ⟨i, hi⟩ := List.mem_iff_getElem?.mp (List.mem_of_find?_eq_some he)
  rw [vexFindEntry, KeyedList.lookup] at he
  have hkey := List.find?_some he
  obtain rfl : e.1 = o := of_decide_eq_true hkey
  exact ⟨i, e.2, hi⟩

theorem rebind_ok (h : a.Ok) : (a.rebind next).Ok where
  sparse_nodup := by
    rw [rebind_keys]
    exact h.sparse_nodup
  sparse_ge := by
    rw [rebind_keys]
    exact h.sparse_ge
  count := by
    refine h.count.trans (List.countP_congr fun i hi => ?_)
    simp only [VexAdapter.rebind, vexRebindSlots, if_pos (List.mem_range.mp hi), Option.isSome_map]

end Rebind

/-- The bindings of the keys with `P` were handed over; `Bound` is what binds a key to its
parameter afterwards. -/
structure Handed (a : VexAdapter) (continuation : Nat) (P : VexKey → Prop)
    (Bound : VexKey → Nat → Prop) (m m' : Module) (args args' : List Nat)
    (ts : List (VexTransfer VexKey)) : Prop where
  module : Transferred continuation VexKey.name m m' ts
  args : args' = args ++ ts.map VexTransfer.old
  entry : ∀ t ∈ ts, a.lookup t.key = some t.old ∧ Bound t.key t.new
  all : ∀ k, P k → (a.lookup k).isSome = true → ∃ t ∈ ts, t.key = k

section Hand

variable {P Q : VexKey → Prop} {Bound Bound' : VexKey → Nat → Prop} {m m' m'' : Module}
  {args args' args'' : List Nat} {ts us : List (VexTransfer VexKey)}

theorem Handed.append (h : Handed a continuation P Bound m m' args args' ts)
    (h' : Handed a continuation Q Bound m' m'' args' args'' us) :
    Handed a continuation (fun k => P k ∨ Q k) Bound m m'' args args'' (ts ++ us) where
  module := h.module.append h'.module
  args := by rw [h'.args, h.args, List.map_append, List.append_assoc]
  entry := fun t ht => (List.mem_append.mp ht).elim (h.entry t) (h'.entry t)
  all := by
    rintro k (hp | hq) hsome
    · obtain ⟨t, ht, hkey⟩ := h.all k hp hsome
      exact ⟨t, List.mem_append_left us ht, hkey⟩
    · obtain ⟨t, ht, hkey⟩ := h'.all k hq hsome
      exact ⟨t, List.mem_append_right ts ht, hkey⟩

theorem Handed.mono (h : Handed a continuation P Bound m m' args args' ts)
    (hb : ∀ k v, Bound k v → Bound' k v) : Handed a continuation P Bound' m m' args args' ts where
  module := h.module
  args := h.args
  entry := fun t ht => (h.entry t ht).imp_right (hb _ _)
  all := h.all

/-- A transfer loop hands over the bindings of the keys of its slots. -/
theorem SlotsTransferred.handed {name : Nat → Name} {slots : Nat → Option Nat} {is : List Nat}
    {next next' : Option (Nat → Nat)} {b b' : VexAdapter} {ts : List (VexTransfer Nat)}
    (h : SlotsTransferred continuation name slots is next args b next' args' b' ts)
    {f : Nat → VexKey} (hname : ∀ i, (f i).name = name i)
    (hslot : ∀ i ∈ is, a.lookup (f i) = slots i)
    (hbound : ∀ i ∈ is, (slots i).isSome = true → Bound (f i) (next'.elim invalidId (· i))) :
    Handed a continuation (fun k => ∃ i ∈ is, k = f i) Bound b.module b'.module args args'
      (ts.map fun t => ⟨f t.key, t.old, t.new⟩) where
  module := h.module.map fun t _ => hname t.key
  args := by rw [h.args, List.map_map]; rfl
  entry := by
    intro u hu
    obtain ⟨t, ht, rfl⟩ := List.mem_map.mp hu
    obtain ⟨hi, hold, hnew⟩ := h.entry t ht
    refine ⟨(hslot _ hi).trans hold, ?_⟩
    rw [← hnew]
    exact hbound _ hi (by rw [hold]; rfl)
  all := by
    rintro k ⟨i, hi, rfl⟩ hsome
    rw [hslot i hi] at hsome
    obtain ⟨t, ht, rfl⟩ := h.all i hi hsome
    exact ⟨_, List.mem_map_of_mem ht, rfl⟩

theorem vexTransferMemory_ensures (a b : VexAdapter) :
    Effect.Ensures (vexTransferMemory continuation a.memory) b
      (fun r b' => b' = b.withModule b'.module ∧ ∃ ts, Handed a continuation (fun k => k = .memory)
        (fun k v => ∀ next : VexNext, next.memory = r.1 → (a.rebind next).lookup k = some v)
        b.module b'.module [] r.2 ts)
      (fun e _ => e ≠ .nullWrite) := by
  unfold vexTransferMemory
  cases hmem : a.memory with
  | none =>
    refine Effect.ensures_pure ⟨rfl, [], transferred_nil, rfl, ?_, ?_⟩
    · exact fun _ ht => absurd ht List.not_mem_nil
    · rintro k rfl hsome
      rw [VexAdapter.lookup, hmem] at hsome
      cases hsome
  | some old =>
    rcases vexTransferValue_cases continuation (literalName "mem") old [] b with
      ⟨e, he⟩ | ⟨hc, t, he⟩
    · exact Effect.ensures_of_error he (by simp)
    · refine Effect.ensures_of_ok he ⟨rfl, [⟨.memory, old, b.module.values.length⟩], ?_, rfl, ?_, ?_⟩
      · exact @transferred_withParam _ _ VexKey.name _ hc .memory old t
      · intro u hu
        rw [List.mem_singleton] at hu
        subst hu
        refine ⟨hmem, fun next hnext => ?_⟩
        simp only [VexAdapter.lookup, VexAdapter.rebind, hmem, Option.map_some, hnext]
      · rintro k rfl -
        exact ⟨_, List.mem_cons_self, rfl⟩

end Hand

/-- The terminator of a branch that was set. -/
theorem setCbranch_self {m m' : Module} {b c target ftarget : Nat} {targs : ArgArray}
    {args : List Nat} {u : Unit}
    (h : setCbranch m b c target targs ftarget (.array args) = (m', .ok u)) :
    b < m.blocks.length ∧ m'.blockRec b = { m.blockRec b with
      term := ⟨.cbranch, c, target, ftarget, m.termArgs.length, targs.count,
        m.termArgs.length + targs.count, args.length, 0⟩ } := by
  have hb : b < m.blocks.length := (isOpen_iff.mp (setCbranch_checks h).1).2.1
  obtain ⟨rfl, -⟩ := setCbranch_ok h
  rw [m.blockRec_withTerm, if_pos ⟨rfl, hb⟩]
  exact ⟨hb, rfl⟩

/-- A branch that was set. -/
theorem setCbranch_branch {m m' : Module} {b c target ftarget : Nat} {targs : ArgArray}
    {args : List Nat} {u : Unit}
    (h : setCbranch m b c target targs ftarget (.array args) = (m', .ok u)) :
    (m'.blockRec b).term.kind = .cbranch ∧ (m'.blockRec b).term.falseTarget = ftarget ∧
      m'.falseArgs b = args ∧ (∀ d, (m'.blockRec d).params = (m.blockRec d).params) ∧
      ∀ v, m'.valueRec v = m.valueRec v := by
  obtain ⟨-, hself⟩ := setCbranch_self h
  obtain ⟨rfl, hlen⟩ := setCbranch_ok h
  refine ⟨by rw [hself], by rw [hself], ?_, fun d => ?_, fun v => rfl⟩
  · rw [Module.falseArgs, hself]
    show ((m.termArgs ++ (targs.ids ++ args)).drop (m.termArgs.length + targs.count)).take
      args.length = args
    rw [← List.append_assoc, List.drop_left' (by rw [List.length_append, hlen]), List.take_length]
  · rw [m.blockRec_withTerm]
    split
    · next hd => rw [hd.1]
    · rfl

/-- The true edge of a branch that was set. -/
theorem setCbranch_taken {m m' : Module} {b c target ftarget : Nat} {targs : ArgArray}
    {args : List Nat} {u : Unit}
    (h : setCbranch m b c target targs ftarget (.array args) = (m', .ok u)) :
    (m'.blockRec b).term.trueTarget = target ∧
      m'.termArgsConst (m'.blockRec b).term false = targs.ids := by
  obtain ⟨-, hself⟩ := setCbranch_self h
  obtain ⟨rfl, hlen⟩ := setCbranch_ok h
  refine ⟨by rw [hself], ?_⟩
  rw [hself]
  show ((m.termArgs ++ (targs.ids ++ args)).drop m.termArgs.length).take targs.count = targs.ids
  rw [List.drop_left, ← hlen, List.take_left]

theorem vexContinuationName_run (name : Option Name) (a : VexAdapter) :
    ∃ text n, vexContinuationName name a = (.ok text, { a with continuationIndex := n }) := by
  cases name with
  | none => exact ⟨_, _, rfl⟩
  | some s =>
    cases s with
    | nil => exact ⟨_, _, rfl⟩
    | cons c s => exact ⟨c :: s, a.continuationIndex, rfl⟩

theorem vexContinuationName_ensures (name : Option Name) (a : VexAdapter) :
    Effect.Ensures (vexContinuationName name) a
      (fun _ b => ∃ n, b = { a with continuationIndex := n }) (fun e _ => e ≠ .nullWrite) := by
  obtain ⟨text, n, h⟩ := vexContinuationName_run name a
  exact Effect.ensures_of_ok h ⟨n, rfl⟩

theorem vexBuild_ensures {α : Type} {call : Module → Module × Except Status α} {b : VexAdapter}
    {Q : α → VexAdapter → Prop}
    (h : ∀ x, (call b.module).2 = .ok x → Q x (b.withModule (call b.module).1)) :
    Effect.Ensures (vexBuild call) b Q (fun e _ => e ≠ .nullWrite) := by
  rcases hc : call b.module with ⟨m, r⟩
  rw [hc] at h
  cases r with
  | error e => exact Effect.ensures_of_error (by rw [vexBuild, hc]; rfl) (by simp)
  | ok x => exact Effect.ensures_of_ok (by rw [vexBuild, hc]; rfl) (h x rfl)

theorem isSome_vexScratch {count : Nat} (h : count ≠ 0) : (vexScratch count).isSome = true := by
  rw [vexScratch, if_pos h]
  rfl

/-- The array for the direct slots is allocated when one of them is defined. -/
theorem VexAdapter.Ok.scratch (h : a.Ok) {i : Nat} (hi : i ∈ List.range vexRegDirectSlots)
    (hsome : (a.regs i).isSome = true) : (vexScratch a.regCount).isSome = true := by
  refine isSome_vexScratch ?_
  rw [h.count, VexAdapter.definedRegs]
  exact Nat.ne_of_gt (List.countP_pos_iff.mpr ⟨i, hi, hsome⟩)

section Loops

variable {b b' : VexAdapter} {args args' : List Nat} {next next' : Option (Nat → Nat)}
  {ts : List (VexTransfer Nat)}

theorem handed_tmps
    (h : SlotsTransferred continuation (fun i => literalName "t" ++ decimal i) a.tmps.slots
      (List.range a.tmps.count) next args b next' args' b' ts) :
    ∃ us, Handed a continuation (fun k => ∃ i ∈ List.range a.tmps.count, k = .tmp i)
      (fun k v => ∀ n : VexNext, n.tmps = next' → (a.rebind n).lookup k = some v)
      b.module b'.module args args' us := by
  have hslot : ∀ i ∈ List.range a.tmps.count, a.lookup (.tmp i) = a.tmps.slots i := by
    intro i hi
    have hlt := List.mem_range.mp hi
    rw [VexAdapter.lookup, vexDenseGet, if_neg (by omega)]
  refine ⟨_, h.handed (fun i => rfl) hslot fun i hi hsome n hn => ?_⟩
  obtain ⟨old, hold⟩ := Option.isSome_iff_exists.mp hsome
  rw [rebind_tmp, hslot i hi, hold, hn]
  rfl

theorem handed_direct
    (h : SlotsTransferred continuation (fun i => literalName "r" ++ decimal i) a.regs
      (List.range vexRegDirectSlots) next args b next' args' b' ts) :
    ∃ us, Handed a continuation (fun k => ∃ i ∈ List.range vexRegDirectSlots, k = .reg i)
      (fun k v => ∀ n : VexNext, n.regs = next' → (a.rebind n).lookup k = some v)
      b.module b'.module args args' us := by
  have hslot : ∀ i ∈ List.range vexRegDirectSlots, a.lookup (.reg i) = a.regs i := by
    intro i hi
    rw [VexAdapter.lookup, VexAdapter.reg, if_pos (List.mem_range.mp hi)]
  refine ⟨_, h.handed (fun i => rfl) hslot fun i hi hsome n hn => ?_⟩
  obtain ⟨old, hold⟩ := Option.isSome_iff_exists.mp hsome
  rw [rebind_direct (List.mem_range.mp hi), hslot i hi, hold, hn]
  rfl

theorem handed_sparse (hok : a.Ok)
    (h : SlotsTransferred continuation
      (fun i => literalName "r" ++ decimal (a.sparseRegs.getD i (0, 0)).1)
      (fun i => a.sparseRegs[i]?.map Prod.snd) (List.range a.sparseRegs.length) next args b next'
      args' b' ts) :
    ∃ us, Handed a continuation
      (fun k => ∃ i ∈ List.range a.sparseRegs.length, k = .reg (a.sparseRegs.getD i (0, 0)).1)
      (fun k v => ∀ n : VexNext, n.sparse = next' → (a.rebind n).lookup k = some v)
      b.module b'.module args args' us := by
  refine ⟨_, h.handed (fun i => rfl) (fun i hi => ?_) fun i hi hsome n hn => ?_⟩
  · have hlt := List.mem_range.mp hi
    rw [List.getD_eq_getElem _ _ hlt, hok.lookup_entry (List.getElem_mem hlt),
      List.getElem?_eq_getElem hlt]
    rfl
  · have hlt := List.mem_range.mp hi
    have hmem : ((a.sparseRegs[i]).1, next'.elim invalidId (· i)) ∈
        (a.rebind n).sparseRegs := by
      refine List.mem_mapIdx.mpr ⟨i, hlt, ?_⟩
      rw [hn]
    rw [List.getD_eq_getElem _ _ hlt]
    exact (rebind_ok hok).lookup_entry hmem

end Loops

/-- Nothing is bound afterwards that was not bound before. -/
theorem rebind_unbound (hok : a.Ok) {next : VexNext} {k : VexKey} (h : a.lookup k = none) :
    (a.rebind next).lookup k = none := by
  cases k with
  | memory =>
    rw [VexAdapter.lookup] at h
    rw [VexAdapter.lookup, VexAdapter.rebind, h]
    rfl
  | tmp t => rw [rebind_tmp, h]; rfl
  | reg o =>
    by_cases ho : o < vexRegDirectSlots
    · rw [rebind_direct ho, h]
      rfl
    · have hkey : o ∉ a.sparseRegs.map Prod.fst := by
        intro hmem
        obtain ⟨e, he, rfl⟩ := List.mem_map.mp hmem
        rw [hok.lookup_entry he] at h
        cases h
      rw [← @rebind_keys a next] at hkey
      rw [VexAdapter.lookup, VexAdapter.reg, if_neg ho, vexFindEntry, KeyedList.lookup_eq_none hkey]
      rfl

/-- Every key that is bound is one of those that an exit goes through. -/
theorem key_cases {k : VexKey} (h : (a.lookup k).isSome = true) :
    k = .memory ∨ (∃ i ∈ List.range a.tmps.count, k = .tmp i) ∨
      (∃ i ∈ List.range vexRegDirectSlots, k = .reg i) ∨
      ∃ i ∈ List.range a.sparseRegs.length, k = .reg (a.sparseRegs.getD i (0, 0)).1 := by
  cases k with
  | memory => exact .inl rfl
  | tmp t =>
    refine .inr (.inl ⟨t, List.mem_range.mpr ?_, rfl⟩)
    by_contra hge
    rw [VexAdapter.lookup, vexDenseGet, if_pos (by omega)] at h
    cases h
  | reg o =>
    by_cases ho : o < vexRegDirectSlots
    · exact .inr (.inr (.inl ⟨o, List.mem_range.mpr ho, rfl⟩))
    · obtain ⟨i, v, hi⟩ := entry_of_lookup ho h
      obtain ⟨hlt, hget⟩ := List.getElem?_eq_some_iff.mp hi
      refine .inr (.inr (.inr ⟨i, List.mem_range.mpr hlt, ?_⟩))
      rw [List.getD_eq_getElem _ _ hlt, hget]

/-- The first pass hands over every binding. -/
theorem vexTransferAll_ensures (hok : a.Ok) (b : VexAdapter) :
    Effect.Ensures (vexTransferAll continuation a) b
      (fun r b' => b' = b.withModule b'.module ∧ ∃ ts, Handed a continuation
        (fun k => (a.lookup k).isSome = true) (fun k v => (a.rebind r.1).lookup k = some v)
        b.module b'.module [] r.2 ts)
      (fun e _ => e ≠ .nullWrite) := by
  have hrange : ∀ {count i : Nat}, i ∈ List.range count → (vexScratch count).isSome = true :=
    fun hi => isSome_vexScratch (Nat.ne_of_gt (Nat.zero_lt_of_lt (List.mem_range.mp hi)))
  unfold vexTransferAll
  refine (vexTransferMemory_ensures a b).bind ?_
  rintro ⟨memory, args₁⟩ b₁ ⟨hf₁, ts₁, h₁⟩
  refine (vexTransferSlots_ensures (List.range a.tmps.count) List.nodup_range _
    (fun i hi _ => hrange hi) args₁ b₁).bind ?_
  rintro ⟨tmps, args₂⟩ b₂ ⟨ts₂, h₂⟩
  refine (vexTransferSlots_ensures (List.range vexRegDirectSlots) List.nodup_range _
    (fun i hi hsome => hok.scratch hi hsome) args₂ b₂).bind ?_
  rintro ⟨regs, args₃⟩ b₃ ⟨ts₃, h₃⟩
  refine (vexTransferSlots_ensures (List.range a.sparseRegs.length) List.nodup_range _
    (fun i hi _ => hrange hi) args₃ b₃).bind ?_
  rintro ⟨sparse, args₄⟩ b₄ ⟨ts₄, h₄⟩
  refine Effect.ensures_pure ⟨?_, ?_⟩
  · rw [h₄.frame, h₃.frame, h₂.frame, hf₁]
    rfl
  · obtain ⟨us₂, hh₂⟩ := handed_tmps h₂
    obtain ⟨us₃, hh₃⟩ := handed_direct h₃
    obtain ⟨us₄, hh₄⟩ := handed_sparse hok h₄
    have hall := (((h₁.mono fun k v h => h ⟨memory, tmps, regs, sparse⟩ rfl).append
      (hh₂.mono fun k v h => h ⟨memory, tmps, regs, sparse⟩ rfl)).append
      (hh₃.mono fun k v h => h ⟨memory, tmps, regs, sparse⟩ rfl)).append
      (hh₄.mono fun k v h => h ⟨memory, tmps, regs, sparse⟩ rfl)
    refine ⟨_, hall.module, hall.args, hall.entry, fun k hk hsome => hall.all k ?_ hsome⟩
    rcases key_cases hk with h | h | h | h
    · exact .inl (.inl (.inl h))
    · exact .inl (.inl (.inr h))
    · exact .inl (.inr h)
    · exact .inr h

/-- The adapter after the exit, with the module of the branch. -/
theorem vexExit_of_handed (hok : a.Ok) {m m' : Module} {nm : Name} {next : VexNext} {n : Nat}
    {condition taken : Nat} {takenArgs : ArgArray} {args : List Nat} {u : Unit}
    {ts : List (VexTransfer VexKey)}
    (h : Handed a a.module.blocks.length (fun k => (a.lookup k).isSome = true)
      (fun k v => (a.rebind next).lookup k = some v) (a.module.withBlock nm) m [] args ts)
    (hset : setCbranch m a.current condition taken takenArgs a.module.blocks.length (.array args) =
      (m', .ok u)) :
    VexExit a { a.rebind next with
      module := m', current := a.module.blocks.length, continuationIndex := n } ts := by
  obtain ⟨hkind, htarget, hargs, hparams, hvalues⟩ := setCbranch_branch hset
  have hnew : ((a.module.withBlock nm).blockRec a.module.blocks.length).params = [] := by
    rw [a.module.blockRec_withBlock, if_neg (Nat.lt_irrefl _), if_pos rfl]
  have hok' : (a.rebind next).Ok := rebind_ok hok
  refine ⟨⟨hok'.sparse_nodup, hok'.sparse_ge, hok'.count⟩, hkind, htarget, ?_, ?_, ?_, h.entry,
    fun k hk => h.all k hk hk, fun k hk => rebind_unbound hok hk⟩
  · rw [hparams, h.module.params, hnew, List.nil_append]
  · rw [hargs, h.args, List.nil_append]
  · intro t ht
    rw [hvalues]
    exact (h.module.named t ht).2

/-- **An exit.**  It never writes to a null array, and when it succeeds it has handed over every
binding. -/
theorem vexEmitExit_ensures (hok : a.Ok) (condition taken : Nat) (takenArgs : ArgArray)
    (name : Option Name) :
    Effect.Ensures (vexEmitExit condition taken takenArgs name) a
      (fun _ a' => ∃ ts, VexExit a a' ts ∧ VexTaken a a' taken takenArgs.ids)
      (fun e _ => e ≠ .nullWrite) := by
  unfold vexEmitExit
  refine Effect.ensures_get_bind (Effect.ensures_ite
    (fun _ => Effect.ensures_throw (by simp)) fun hguard => ?_)
  have htaken : taken < a.module.blocks.length := by
    simp only [Bool.or_eq_true, Bool.not_eq_true', not_or, Bool.not_eq_false, Module.validBlock,
      decide_eq_true_eq] at hguard
    exact hguard.2
  refine (vexContinuationName_ensures name a).bind ?_
  rintro text b₀ ⟨n, rfl⟩
  -- the continuation is a new block without parameters
  refine Effect.Ensures.bind (Q := fun c b => ∃ nm, c = a.module.blocks.length ∧
    b = VexAdapter.withModule { a with continuationIndex := n } (a.module.withBlock nm))
    (vexBuild_ensures fun c hc => ?_) ?_
  · rcases blockCreate_cases a.module (some text) with ⟨e, he⟩ | ⟨-, -, he⟩
    · rw [he] at hc
      cases hc
    · rw [he] at hc ⊢
      cases hc
      exact ⟨_, rfl, rfl⟩
  rintro c b₁ ⟨nm, rfl, rfl⟩
  refine (vexTransferAll_ensures hok _).bind ?_
  rintro ⟨next, args⟩ b₂ ⟨hf, ts, h⟩
  refine Effect.Ensures.bind (Q := fun _ b => ∃ m', b = b₂.withModule m' ∧ ∃ u,
    setCbranch b₂.module a.current condition taken takenArgs a.module.blocks.length (.array args) =
      (m', .ok u)) (vexBuild_ensures fun u hu => ⟨_, rfl, u, Prod.ext rfl hu⟩) ?_
  rintro - b₃ ⟨m', rfl, u, hset⟩
  obtain ⟨htarget, hargs⟩ := setCbranch_taken hset
  refine Effect.ensures_of_ok rfl ⟨ts, ?_, htaken, rfl, ?_, htarget, hargs⟩
  · rw [hf]
    exact vexExit_of_handed hok h hset
  · obtain ⟨hlt, -⟩ := setCbranch_self hset
    obtain ⟨rfl, -⟩ := setCbranch_ok hset
    exact Nat.lt_of_lt_of_eq hlt List.length_set.symm

end Exit

/-! ### The counter of defined slots -/

/-- One more element of a list without repetitions is counted. -/
theorem countP_insert {l : List Nat} (hl : l.Nodup) {o : Nat} (ho : o ∈ l) {p q : Nat → Bool}
    (hp : p o = false) (hq : ∀ i, q i = (decide (i = o) || p i)) :
    l.countP q = l.countP p + 1 := by
  induction l with
  | nil => cases ho
  | cons x l ih =>
    obtain ⟨hx, hl⟩ := List.nodup_cons.mp hl
    rw [List.countP_cons, List.countP_cons]
    by_cases hxo : x = o
    · subst hxo
      have hrest : l.countP q = l.countP p := by
        refine List.countP_congr fun i hi => ?_
        rw [hq i, decide_eq_false (fun he : i = x => hx (he ▸ hi)), Bool.false_or]
      rw [hrest, hq x, hp]
      simp
    · rw [ih hl ((List.mem_cons.mp ho).resolve_left fun he => hxo he.symm), hq x,
        decide_eq_false hxo, Bool.false_or]
      omega

section Order

variable {a : VexAdapter} {offset value : Nat}

theorem VexAdapter.Ok.setReg (h : a.Ok) : (a.setReg offset value).Ok := by
  unfold VexAdapter.setReg
  split
  · next hoff =>
    refine ⟨h.sparse_nodup, h.sparse_ge, ?_⟩
    simp only [VexAdapter.definedRegs]
    have hq : ∀ i, ((if i = offset then some value else a.regs i) : Option Nat).isSome =
        (decide (i = offset) || (a.regs i).isSome) := by
      intro i
      by_cases hi : i = offset <;> simp [hi]
    cases hsome : (a.regs offset).isSome with
    | true =>
      refine h.count.trans (List.countP_congr fun i _ => ?_)
      rw [hq i]
      by_cases hi : i = offset
      · simp [hi, hsome]
      · simp [hi]
    | false =>
      rw [countP_insert List.nodup_range (List.mem_range.mpr hoff) hsome hq]
      exact congrArg (· + 1) h.count
  · next hoff =>
    have hkey : Prod.fst (offset, value) = offset := rfl
    have hkeep : ∀ e : Nat × Nat, Prod.fst (e.1, value) = Prod.fst e := fun _ => rfl
    refine ⟨KeyedList.nodup_update hkey hkeep h.sparse_nodup, fun key hk => ?_, h.count⟩
    rw [vexSetEntry, KeyedList.map_key_update hkey hkeep, List.mem_append] at hk
    rcases hk with hk | hk
    · exact h.sparse_ge key hk
    · split at hk
      · cases hk
      · rw [List.mem_singleton.mp hk]
        omega

end Order

/-! ### Names of keys -/

/-- The key is a `uint32_t`. -/
def VexKey.IsU32 : VexKey → Prop
  | .memory => True
  | .tmp t => t < 2 ^ 32
  | .reg o => o < 2 ^ 32

theorem decimal_injective {m n : Nat} (h : decimal m = decimal n) : m = n := by
  have hback : ∀ k : Nat, (decimal k).map (fun u => Char.ofNat u.toNat) = Nat.toDigits 10 k := by
    intro k
    rw [decimal, List.map_map]
    refine (List.map_congr_left fun c hc => ?_).trans (List.map_id _)
    have hdigit := Nat.isDigit_of_mem_toDigits (by decide) (by decide) hc
    have hlt : c.toNat < 256 := by
      simp only [Char.isDigit, Bool.and_eq_true, decide_eq_true_eq] at hdigit
      have hle : c.toNat ≤ 57 := hdigit.2
      omega
    rw [Function.comp_apply, UInt8.toNat_ofNat', Nat.mod_eq_of_lt hlt, Char.ofNat_toNat, id]
  rw [← Nat.ofDigitChars_ten_toDigits (n := m), ← Nat.ofDigitChars_ten_toDigits (n := n), ← hback m,
    ← hback n, h]

theorem VexKey.name_tmp (t : Nat) : (VexKey.tmp t).name = 116 :: decimal t := rfl

theorem VexKey.name_reg (o : Nat) : (VexKey.reg o).name = 114 :: decimal o := rfl

theorem VexKey.name_memory : VexKey.memory.name = [109, 101, 109] := rfl

theorem VexKey.name_injective {k l : VexKey} (h : k.name = l.name) : k = l := by
  cases k <;> cases l <;>
    simp only [VexKey.name_memory, VexKey.name_tmp, VexKey.name_reg, List.cons.injEq] at h
  case memory.memory => rfl
  case tmp.tmp t u => rw [decimal_injective h.2]
  case reg.reg o p => rw [decimal_injective h.2]
  all_goals exact absurd h.1 (by decide)

/-- The name of a key is not cut. -/
theorem VexKey.copyName_name {k : VexKey} (h : k.IsU32) (n : Nat) :
    copyName (some k.name) [118] n = k.name := by
  have hdecimal : ∀ i < 2 ^ 32, (decimal i).length ≤ 30 := by
    intro i hi
    rw [decimal, List.length_map]
    exact (Nat.length_toDigits_le_iff (by decide) (by decide)).mpr (Nat.lt_trans hi (by decide))
  cases k with
  | memory => rfl
  | tmp t =>
    rw [VexKey.name_tmp]
    exact List.take_of_length_le (by rw [List.length_cons]; exact Nat.succ_le_succ (hdecimal t h))
  | reg o =>
    rw [VexKey.name_reg]
    exact List.take_of_length_le (by rw [List.length_cons]; exact Nat.succ_le_succ (hdecimal o h))

/-! ### Histories -/

/-- The parameter of block `b` with a name. -/
def Module.paramNamed (m : Module) (b : Nat) (name : Name) : Option Nat :=
  (m.blockRec b).params.find? fun p => (m.valueRec p).name == name

/-- An adapter after a history of successful calls, and what they have bound last to each key.
Between the calls the module may be changed through the builder API, and the adapter's memory
by `xair_vex_set_memory` and `xair_vex_emit_store`. -/
inductive VexHistory : VexAdapter → (VexKey → Option Nat) → Prop
  | create {m : Module} {entry memory : Nat} {a : VexAdapter} :
    vexAdapterCreate m entry memory = .ok a →
    VexHistory a (Function.update (fun _ => none) .memory
      (if memory = invalidId then none else some memory))
  | build {a : VexAdapter} {bound : VexKey → Option Nat} (c : Call) : VexHistory a bound →
    VexHistory (a.withModule (c.run a.module).1) bound
  | memory {a : VexAdapter} {bound : VexKey → Option Nat} (value : Nat) : VexHistory a bound →
    VexHistory { a with memory := some value } (Function.update bound .memory (some value))
  | setTmp {a a' : VexAdapter} {bound : VexKey → Option Nat} {t value : Nat} :
    VexHistory a bound → t < 2 ^ 32 → vexSetTmp t value a = (.ok (), a') →
    VexHistory a' (Function.update bound (.tmp t) (some value))
  | putReg {a a' : VexAdapter} {bound : VexKey → Option Nat} {o value : Nat} :
    VexHistory a bound → o < 2 ^ 32 → vexPutReg o value a = (.ok (), a') →
    VexHistory a' (Function.update bound (.reg o) (some value))
  | getReg {a a' : VexAdapter} {bound : VexKey → Option Nat} {o value : Nat} {type : Ty}
    {name : Option Name} : VexHistory a bound → o < 2 ^ 32 →
    vexGetReg o type name a = (.ok value, a') →
    VexHistory a' (Function.update bound (.reg o) (some ((bound (.reg o)).getD value)))
  | emitExit {a a' : VexAdapter} {bound : VexKey → Option Nat} {condition taken : Nat}
    {takenArgs : ArgArray} {name : Option Name} : VexHistory a bound →
    vexEmitExit condition taken takenArgs name a = (.ok (), a') →
    VexHistory a' fun k => (bound k).bind fun _ => a'.module.paramNamed a'.current k.name

/-- The tables are in order and hold `bound`, whose keys are `uint32_t`. -/
structure VexHolds (a : VexAdapter) (bound : VexKey → Option Nat) : Prop where
  ok : a.Ok
  lookup : a.lookup = bound
  small : ∀ k, (bound k).isSome = true → k.IsU32

section History

variable {a a' : VexAdapter} {bound : VexKey → Option Nat} {ts : List (VexTransfer VexKey)}

theorem find?_of_unique {α : Type} {l : List α} {p : α → Bool} {x : α} (hx : x ∈ l)
    (hp : p x = true) (h : ∀ y ∈ l, p y = true → y = x) : l.find? p = some x := by
  cases hf : l.find? p with
  | none => exact absurd hp (List.find?_eq_none.mp hf x hx)
  | some y => rw [h y (List.mem_of_find?_eq_some hf) (List.find?_some hf)]

/-- The parameter that stands for a key is the one with its name. -/
theorem VexExit.paramNamed (h : VexExit a a' ts)
    (hsmall : ∀ k, (a.lookup k).isSome = true → k.IsU32) {t : VexTransfer VexKey} (ht : t ∈ ts) :
    a'.module.paramNamed a'.current t.key.name = some t.new := by
  have hname : ∀ u ∈ ts, (a'.module.valueRec u.new).name = u.key.name := by
    intro u hu
    rw [h.named u hu]
    exact VexKey.copyName_name (hsmall u.key (by rw [(h.moved u hu).1]; rfl)) _
  rw [Module.paramNamed, h.params]
  refine find?_of_unique (List.mem_map_of_mem ht) (by rw [hname t ht]; exact beq_self_eq_true _) ?_
  intro p hp hpname
  obtain ⟨u, hu, rfl⟩ := List.mem_map.mp hp
  have hkey : u.key = t.key := by
    rw [hname u hu] at hpname
    exact VexKey.name_injective (eq_of_beq hpname)
  have hu' := (h.moved u hu).2
  rw [hkey, (h.moved t ht).2] at hu'
  exact (Option.some.inj hu').symm

theorem VexExit.holds (h : VexExit a a' ts) (hold : VexHolds a bound) :
    VexHolds a' fun k => (bound k).bind fun _ => a'.module.paramNamed a'.current k.name := by
  have hsmall : ∀ k, (a.lookup k).isSome = true → k.IsU32 := by
    rw [hold.lookup]
    exact hold.small
  refine ⟨h.ok, ?_, fun k hk => hold.small k ?_⟩
  · funext k
    rw [← hold.lookup]
    cases hk : a.lookup k with
    | none => exact h.unbound k hk
    | some v =>
      obtain ⟨t, ht, rfl⟩ := h.all k (by rw [hk]; rfl)
      rw [(h.moved t ht).2, Option.bind_some, h.paramNamed hsmall ht]
  · cases hb : bound k with
    | none =>
      rw [hb] at hk
      cases hk
    | some v => rfl

theorem VexAdapter.Ok.withModule (h : a.Ok) (m : Module) : (a.withModule m).Ok :=
  ⟨h.sparse_nodup, h.sparse_ge, h.count⟩

theorem VexHolds.withModule (h : VexHolds a bound) (m : Module) : VexHolds (a.withModule m) bound :=
  ⟨h.ok.withModule m, h.lookup, h.small⟩

/-- A binding that was changed at a key. -/
theorem VexHolds.update (h : VexHolds a bound) (hok : a'.Ok) {k : VexKey} {v : Nat}
    (hlookup : a'.lookup = Function.update a.lookup k (some v)) (hk : k.IsU32) :
    VexHolds a' (Function.update bound k (some v)) := by
  refine ⟨hok, by rw [hlookup, h.lookup], fun l hl => ?_⟩
  rw [Function.update_apply] at hl
  split at hl
  · next heq => rwa [heq]
  · exact h.small l hl

theorem vexAdapterCreate_ok {m : Module} {entry memory : Nat}
    (h : vexAdapterCreate m entry memory = .ok a) :
    a = ⟨m, entry, if memory = invalidId then none else some memory, ⟨0, fun _ => none⟩,
      fun _ => none, 0, [], 0⟩ := by
  rw [vexAdapterCreate] at h
  split at h
  · cases h
  · split at h
    · next hmem =>
      cases h
      rw [if_pos hmem]
    · next hmem =>
      split at h
      · cases h
      · cases h
        rw [if_neg hmem]

theorem vexAdapterCreate_tables {m : Module} {entry memory : Nat}
    (h : vexAdapterCreate m entry memory = .ok a) : a.Ok := by
  obtain rfl := vexAdapterCreate_ok h
  refine ⟨List.nodup_nil, fun key hk => (by cases hk), ?_⟩
  exact (List.countP_eq_zero.mpr fun i _ => Bool.false_ne_true).symm

theorem vexPutReg_ok {o value : Nat} (h : vexPutReg o value a = (.ok (), a')) :
    a' = a.setReg o value := by
  rw [vexPutReg, Effect.get_bind] at h
  split at h
  · cases h
  · cases h
    rfl

/-- `xair_vex_get_reg` that succeeds: what is bound, or a parameter that is bound then. -/
theorem vexGetReg_ok {o value : Nat} {type : Ty} {name : Option Name}
    (h : vexGetReg o type name a = (.ok value, a')) :
    (a.lookup (.reg o) = some value ∧ a' = a) ∨
      a.lookup (.reg o) = none ∧ ∃ m, a' = (a.withModule m).setReg o value := by
  rw [vexGetReg, Effect.get_bind] at h
  split at h
  · cases h
  · cases hreg : a.reg o with
    | some v =>
      simp only [hreg] at h
      split at h
      · cases h
      · cases h
        exact .inl ⟨hreg, rfl⟩
    | none =>
      simp only [hreg] at h
      obtain ⟨v, b, hb, hrest⟩ := Effect.bind_eq_ok.mp h
      have hb' : b = a.withModule (blockAddParam a.module a.current type name).1 :=
        (congrArg Prod.snd hb).symm
      cases hrest
      exact .inr ⟨hreg, _, by rw [hb']⟩

/-- The tables hold what the history has bound. -/
theorem vexHistory_holds (h : VexHistory a bound) : VexHolds a bound := by
  induction h with
  | @create m entry memory a h =>
    have hok := vexAdapterCreate_tables h
    obtain rfl := vexAdapterCreate_ok h
    refine ⟨hok, ?_, fun k hk => ?_⟩
    · funext k
      cases k with
      | memory => rfl
      | tmp t => exact (ite_self (c := 0 ≤ t) (none : Option Nat))
      | reg o => exact (ite_self (c := o < vexRegDirectSlots) (none : Option Nat))
    · cases k with
      | memory => trivial
      | tmp | reg => cases hk
  | build c _ ih => exact ih.withModule _
  | @memory a bound value _ ih =>
    have hlookup : ({ a with memory := some value } : VexAdapter).lookup =
        Function.update a.lookup .memory (some value) := by
      funext k
      cases k <;> rfl
    refine ih.update ?_ hlookup trivial
    exact ⟨ih.ok.sparse_nodup, ih.ok.sparse_ge, ih.ok.count⟩
  | setTmp _ ht h ih =>
    refine ih.update ?_ (lookup_setTmp h) ht
    obtain ⟨tmps, -, rfl⟩ := vexSetTmp_ok h
    exact ⟨ih.ok.sparse_nodup, ih.ok.sparse_ge, ih.ok.count⟩
  | putReg _ ho h ih =>
    rw [vexPutReg_ok h]
    exact ih.update ih.ok.setReg lookup_setReg ho
  | @getReg a a' bound o value type name _ ho h ih =>
    rcases vexGetReg_ok h with ⟨hbound, rfl⟩ | ⟨hunbound, m, rfl⟩
    · rw [ih.lookup] at hbound
      rw [hbound, Option.getD_some, ← hbound, Function.update_eq_self]
      exact ih
    · rw [ih.lookup] at hunbound
      rw [hunbound, Option.getD_none]
      exact (ih.withModule m).update (ih.withModule m).ok.setReg lookup_setReg ho
  | @emitExit a a' bound condition taken takenArgs name _ h ih =>
    obtain ⟨ts, hexit, -⟩ := (vexEmitExit_ensures ih.ok condition taken takenArgs name).ok h
    exact hexit.holds ih

/-- A read of a temporary. -/
theorem vexGetTmp_eq (t : Nat) : vexGetTmp t a =
    ((a.lookup (.tmp t)).elim (.error (.returns .errRange)) .ok, a) := by
  rw [vexGetTmp, Effect.get_bind, VexAdapter.lookup]
  cases vexDenseGet a.tmps t <;> rfl

/-- A read of a register offset. -/
theorem vexPeekReg_eq (o : Nat) : vexPeekReg o a =
    ((a.lookup (.reg o)).elim (.error (.returns .errRange)) .ok, a) := by
  rw [vexPeekReg, Effect.get_bind, VexAdapter.lookup]
  cases a.reg o <;> rfl

/-- **The binding tables are one finite map.**  After every history a read gives what was bound
last to the key and fails when nothing was; sparse keys are unique and the counter of the direct
slots is exact.  An exit does not write to a null array, and it hands every binding to the
parameter that is bound afterwards. -/
theorem vexHistory_bindings (h : VexHistory a bound) :
    (∀ t, vexGetTmp t a = ((bound (.tmp t)).elim (.error (.returns .errRange)) .ok, a)) ∧
    (∀ o, vexPeekReg o a = ((bound (.reg o)).elim (.error (.returns .errRange)) .ok, a)) ∧
    (∀ o type name value a', vexGetReg o type name a = (.ok value, a') →
      (∀ old, bound (.reg o) = some old → value = old ∧ a' = a) ∧
        vexPeekReg o a' = (.ok value, a')) ∧
    (a.sparseRegs.map Prod.fst).Nodup ∧
    a.regCount = (List.range vexRegDirectSlots).countP (fun i => (a.regs i).isSome) ∧
    ∀ condition taken takenArgs name,
      (vexEmitExit condition taken takenArgs name a).1 ≠ .error .nullWrite ∧
      ∀ a', vexEmitExit condition taken takenArgs name a = (.ok (), a') →
        (a'.module.blockRec a.current).term.falseTarget = a'.current ∧
        (∀ k, bound k = none → a'.lookup k = none) ∧
        ∀ k old, bound k = some old → ∃ j p : Nat,
          (a'.module.blockRec a'.current).params[j]? = some p ∧
          (a'.module.valueRec p).name = k.name ∧
          (a'.module.falseArgs a.current)[j]? = some old ∧ a'.lookup k = some p := by
  have hold := vexHistory_holds h
  have hsmall : ∀ k, (a.lookup k).isSome = true → k.IsU32 := by
    rw [hold.lookup]
    exact hold.small
  rw [← hold.lookup]
  refine ⟨vexGetTmp_eq, vexPeekReg_eq, fun o type name value a' hget => ?_, hold.ok.sparse_nodup,
    hold.ok.count, fun condition taken takenArgs name => ?_⟩
  · rw [vexPeekReg_eq]
    rcases vexGetReg_ok hget with ⟨hbound, rfl⟩ | ⟨hunbound, m, rfl⟩
    · refine ⟨fun old hsome => ?_, by rw [hbound]; rfl⟩
      rw [hbound] at hsome
      exact ⟨Option.some.inj hsome, rfl⟩
    · refine ⟨fun old hsome => ?_, by rw [lookup_setReg, Function.update_self]; rfl⟩
      rw [hunbound] at hsome
      cases hsome
  · have hexit := vexEmitExit_ensures hold.ok condition taken takenArgs name
    refine ⟨fun hnull => ?_, fun a' hok => ?_⟩
    · have hrun : vexEmitExit condition taken takenArgs name a =
          (.error .nullWrite, (vexEmitExit condition taken takenArgs name a).2) :=
        Prod.ext hnull rfl
      exact hexit.error hrun rfl
    · obtain ⟨ts, hts, -⟩ := hexit.ok hok
      refine ⟨hts.target, hts.unbound, fun k old hk => ?_⟩
      obtain ⟨t, ht, rfl⟩ := hts.all k (by rw [hk]; rfl)
      obtain ⟨hbefore, hafter⟩ := hts.moved t ht
      obtain rfl := Option.some.inj (hk.symm.trans hbefore)
      obtain ⟨j, hj⟩ := List.mem_iff_getElem?.mp ht
      refine ⟨j, t.new, ?_, ?_, ?_, hafter⟩
      · rw [hts.params, List.getElem?_map, hj]
        rfl
      · rw [hts.named t ht]
        exact VexKey.copyName_name (hsmall t.key (by rw [hbefore]; rfl)) _
      · rw [hts.args, List.getElem?_map, hj]
        rfl

/-- The only value is bound to a temporary above the first 16 slots. -/
theorem vexHistory_bindings_tmp : ∃ a, vexGetTmp 20 a = (.ok 0, a) ∧
    vexGetTmp 3 a = (.error (.returns .errRange), a) := by
  have hcreate := @VexHistory.create
    (runCalls Module.create [.blockCreate none, .blockAddParam 0 (typeI 64) none]) 0 invalidId _ rfl
  have hget := (vexHistory_bindings (@VexHistory.setTmp _ _ _ 20 0 hcreate (by decide) rfl)).1
  exact ⟨_, hget 20, hget 3⟩

end History

end Xair
