import Xair.Closing
import Xair.PartialRun
import Xair.VexNames
import Xair.VexReach

/-!
# Sessions with a VEX adapter

A session is an adapter together with what its caller may rely on: the values that the adapter
has handed out since the last exit, and the blocks that it has written.  `Fits` is what the
caller owes a call: operands that were handed out, with the types that the operation asks for.
A call that succeeds does one of a few things (`VexStep`): it reads a binding, it binds a key to
an operand, it adds a parameter for a register that is not bound, it appends one operation to
the current block, or it closes the current block.
-/

namespace Xair

/-- A scalar type of whole bytes. -/
def Ty.isByteScalar (t : Ty) : Bool := (t.isInt || t.isAddr) && t.bits % 8 == 0

/-- The address has the width of the memory that is bound. -/
def VexAdapter.Addresses (a : VexAdapter) (address : Nat) : Prop :=
  (a.module.valueType address).isAddr = true ∧
    ∀ memory ∈ a.memory, (a.module.valueType memory).bits = (a.module.valueType address).bits

instance (a : VexAdapter) (address : Nat) : Decidable (a.Addresses address) :=
  inferInstanceAs (Decidable (_ ∧ _))

/-- The values that the caller of a call passes. -/
def VexCall.operands : VexCall → List Nat
  | .setTmp _ value | .putReg _ value | .setMemory value => [value]
  | .emitUnop _ _ src _ => [src]
  | .emitBinop _ _ lhs rhs _ => [lhs, rhs]
  | .emitLoad _ _ address _ _ => [address]
  | .emitStore address data _ _ => [address, data]
  | .emitExit condition _ takenArgs _ => condition :: takenArgs.ids
  | .finishJump _ args => args.ids
  | .finishReturn values => values.ids
  | .getTmp _ | .getReg _ _ _ | .peekReg _ | .currentMemory | .emitConst _ _ _ _ => []

/-- The types that a call asks for. -/
def VexCall.Typed (a : VexAdapter) : VexCall → Prop
  | .emitUnop _ _ src _ => (a.module.valueType src).isInt = true
  | .emitBinop _ _ lhs rhs _ =>
    (a.module.valueType lhs).isInt = true ∧ (a.module.valueType rhs).isInt = true
  | .emitLoad _ type address _ _ => type.isByteScalar = true ∧ a.Addresses address
  | .emitStore address data _ _ =>
    a.Addresses address ∧ (a.module.valueType data).isByteScalar = true
  | .emitExit condition taken takenArgs _ =>
    (a.module.valueType condition).isI1 = true ∧ a.module.Accepts taken takenArgs.ids
  | .finishJump target args => a.module.Accepts target args.ids
  | _ => True

instance (a : VexAdapter) (c : VexCall) : Decidable (c.Typed a) := by
  cases c <;> unfold VexCall.Typed <;> infer_instance

/-- The call closes the last block. -/
def VexCall.finishes : VexCall → Bool
  | .finishJump _ _ | .finishReturn _ => true
  | _ => false

/-- The call reads a register that is not bound. -/
def VexCall.readsFirst (a : VexAdapter) : VexCall → Bool
  | .getReg offset _ _ => (a.reg offset).isNone
  | _ => false

/-- An adapter, the values that it has handed out since the last exit, and the blocks that it
has written, the current one first. -/
structure VexSession where
  adapter : VexAdapter
  obtained : List Nat
  written : List Nat

namespace VexSession

/-- The session after a call that has handed out `id` and left the adapter `a`. -/
def next (s : VexSession) (c : VexCall) (id : Option Nat) (a : VexAdapter) : VexSession :=
  match c with
  | .emitExit _ _ _ _ => ⟨a, [], a.current :: s.written⟩
  | _ => ⟨a, id.toList ++ s.obtained, s.written⟩

/-- A call of the session, if it succeeds. -/
def step (s : VexSession) (c : VexCall) : Option VexSession :=
  match c.run s.adapter with
  | (.ok id, a) => some (s.next c id a)
  | (.error _, _) => none

/-- The session with a new adapter. -/
def start (a : VexAdapter) : VexSession := ⟨a, [], [a.current]⟩

/-- What the caller owes a call. -/
structure Fits (s : VexSession) (c : VexCall) : Prop where
  operands : ∀ v ∈ c.operands, v ∈ s.obtained
  typed : c.Typed s.adapter

instance (s : VexSession) (c : VexCall) : Decidable (s.Fits c) :=
  decidable_of_iff ((∀ v ∈ c.operands, v ∈ s.obtained) ∧ c.Typed s.adapter)
    ⟨fun h => ⟨h.1, h.2⟩, fun h => ⟨h.operands, h.typed⟩⟩

/-- The call reads a register for the first time, and that after an exit. -/
def ReadsLate (s : VexSession) (c : VexCall) : Prop :=
  1 < s.written.length ∧ c.readsFirst s.adapter = true

instance (s : VexSession) (c : VexCall) : Decidable (s.ReadsLate c) :=
  inferInstanceAs (Decidable (_ ∧ _))

end VexSession

/-! ### What a call can do -/

/-- What a call that succeeds can do to a session. -/
inductive VexStep (s : VexSession) (c : VexCall) : VexSession → Prop
  | read (k : VexKey) (v : Nat) : s.adapter.lookup k = some v →
    VexStep s c { s with obtained := v :: s.obtained }
  | bind (k : VexKey) (v : Nat) (a : VexAdapter) : v ∈ c.operands →
    a.module = s.adapter.module → a.current = s.adapter.current →
    a.lookup = Function.update s.adapter.lookup k (some v) →
    (k = .memory → (s.adapter.module.valueType v).kind = .mem) → VexStep s c { s with adapter := a }
  | param (offset : Nat) (type : Ty) (name : Option Name) (v : Nat) (m : Module) :
    c.readsFirst s.adapter = true →
    blockAddParam s.adapter.module s.adapter.current type name = (m, .ok v) →
    VexStep s c ⟨(s.adapter.withModule m).setReg offset v, v :: s.obtained, s.written⟩
  | op (k : OpKey) (name : Option Name) (key : VexKey) (v : Nat) (a : VexAdapter) :
    addOp s.adapter.module k name = (a.module, .ok v) → k.block = s.adapter.current →
    (∀ w ∈ k.srcs, w ∈ c.operands ∨ s.adapter.lookup .memory = some w) →
    (c.Typed s.adapter →
      (∀ w, s.adapter.lookup .memory = some w → (s.adapter.module.valueType w).isMem = true) →
      k.type.isValueType = true →
      typeRule k.opcode k.type (k.srcs.map s.adapter.module.valueType) = true) →
    a.current = s.adapter.current → a.lookup = Function.update s.adapter.lookup key (some v) →
    (key = .memory → ∃ w, s.adapter.lookup .memory = some w ∧
      k.type = s.adapter.module.valueType w) →
    VexStep s c { s with adapter := a }
  | exit (condition taken : Nat) (takenArgs : ArgArray) (name : Option Name) (a : VexAdapter) :
    c = .emitExit condition taken takenArgs name →
    vexEmitExit condition taken takenArgs name s.adapter = (.ok (), a) →
    VexStep s c ⟨a, [], a.current :: s.written⟩
  | jump (target : Nat) (args : ArgArray) (m : Module) : c = .finishJump target args →
    setJump s.adapter.module s.adapter.current target args = (m, .ok ()) →
    VexStep s c { s with adapter := s.adapter.withModule m }
  | ret (values : ArgArray) (m : Module) : c = .finishReturn values →
    setReturn s.adapter.module s.adapter.current values = (m, .ok ()) →
    VexStep s c { s with adapter := s.adapter.withModule m }

section Inversion

variable {s s' : VexSession} {a a' : VexAdapter} {c : VexCall} {tmp : Nat} {u : Unit}

theorem vexBuild_inv {α : Type} {call : Module → Module × Except Status α} {v : α}
    (h : vexBuild call a = (.ok v, a')) :
    ∃ m, call a.module = (m, .ok v) ∧ a' = a.withModule m := by
  have hcall := vexBuild_ok h
  refine ⟨a'.module, hcall, ?_⟩
  have ha := congrArg Prod.snd h
  rw [vexBuild, hcall] at ha
  exact ha.symm

theorem lookup_withModule (a : VexAdapter) (m : Module) : (a.withModule m).lookup = a.lookup := by
  funext k
  cases k <;> rfl

/-- An operation that is built and bound to a temporary. -/
theorem emit_inv {call : Module → Module × Except Status Nat}
    (h : (vexBuild call >>= fun out => vexSetTmp tmp out) a = (.ok u, a')) :
    ∃ v, call a.module = (a'.module, .ok v) ∧ a'.current = a.current ∧
      a'.lookup = Function.update a.lookup (.tmp tmp) (some v) := by
  obtain ⟨v, b, hb, hset⟩ := Effect.bind_eq_ok.mp h
  obtain ⟨m, hcall, rfl⟩ := vexBuild_inv hb
  have hlookup := lookup_setTmp hset
  obtain ⟨tmps, -, rfl⟩ := vexSetTmp_ok hset
  exact ⟨v, hcall, rfl, by rw [hlookup, lookup_withModule]⟩

theorem isValueType_of_vexValidValue {m : Module} {v : Nat} (h : vexValidValue m v = true)
    (hs : (m.valueType v).isByteScalar = true) : (m.valueType v).isValueType = true := by
  simp only [vexValidValue, Bool.and_eq_true] at h
  simp only [Ty.isByteScalar, Ty.isInt, Ty.isAddr, Bool.and_eq_true, Bool.or_eq_true,
    beq_iff_eq] at hs
  rcases hs.1 with hk | hk <;> simp [Ty.isValueType, h.2, hk]

theorem isMem_of_isByteScalar {t : Ty} (h : t.isByteScalar = true) : t.isMem = false := by
  simp only [Ty.isByteScalar, Ty.isInt, Ty.isAddr, Bool.and_eq_true, Bool.or_eq_true,
    beq_iff_eq] at h
  rcases h.1 with hk | hk <;> simp [Ty.isMem, hk]

theorem step_some (h : s.step c = some s') :
    ∃ id a, c.run s.adapter = (.ok id, a) ∧ s' = s.next c id a := by
  unfold VexSession.step at h
  split at h
  · next id a hrun =>
    cases h
    exact ⟨id, a, hrun, rfl⟩
  · cases h

/-- The value that is handed out. -/
theorem returns_inv {α β : Type} {x : Vex α} {g : α → β} {b : β}
    (h : (x >>= fun v => pure (g v)) a = (.ok b, a')) : ∃ v, x a = (.ok v, a') ∧ b = g v := by
  obtain ⟨v, a₁, hx, hpure⟩ := Effect.bind_eq_ok.mp h
  cases hpure
  exact ⟨v, hx, rfl⟩

/-- A binding that is read. -/
theorem read_inv {k : VexKey} {e : VexStop} {x : Vex Nat} {v : Nat}
    (hx : x a = ((a.lookup k).elim (.error e) .ok, a)) (h : x a = (.ok v, a')) :
    a.lookup k = some v ∧ a' = a := by
  rw [hx] at h
  cases hk : a.lookup k with
  | none =>
    rw [hk] at h
    cases h
  | some w =>
    rw [hk] at h
    cases h
    exact ⟨rfl, rfl⟩

theorem vexCurrentMemory_eq (a : VexAdapter) : vexCurrentMemory a =
    ((a.lookup .memory).elim (.error (.returns .errBadArg)) .ok, a) := by
  rw [vexCurrentMemory, Effect.get_bind, VexAdapter.lookup]
  cases a.memory <;> rfl

theorem setReg_current (a : VexAdapter) (offset value : Nat) :
    (a.setReg offset value).current = a.current := by
  unfold VexAdapter.setReg
  split <;> rfl

theorem vexSetMemory_inv {memory : Nat} (h : vexSetMemory memory a = (.ok u, a')) :
    (a.module.valueType memory).kind = .mem ∧ a' = { a with memory := some memory } := by
  rw [vexSetMemory, Effect.get_bind] at h
  split at h
  · cases h
  · split at h
    · cases h
    · next hkind =>
      cases h
      exact ⟨not_not.mp hkind, rfl⟩

theorem lookup_setMemory (a : VexAdapter) (memory : Nat) :
    ({ a with memory := some memory } : VexAdapter).lookup =
      Function.update a.lookup .memory (some memory) := by
  funext k
  cases k <;> rfl

/-- `xair_vex_get_reg` of a register that is not bound. -/
theorem vexGetReg_param {offset v : Nat} {type : Ty} {name : Option Name}
    (h : vexGetReg offset type name a = (.ok v, a')) (hnone : a.reg offset = none) :
    ∃ m, blockAddParam a.module a.current type name = (m, .ok v) ∧
      a' = (a.withModule m).setReg offset v := by
  rw [vexGetReg, Effect.get_bind] at h
  split at h
  · cases h
  · simp only [hnone] at h
    obtain ⟨w, b, hb, hrest⟩ := Effect.bind_eq_ok.mp h
    obtain ⟨m, hparam, rfl⟩ := vexBuild_inv hb
    cases hrest
    exact ⟨m, hparam, rfl⟩

theorem vexStep_getReg {offset : Nat} {type : Ty} {name : Option Name}
    (h : s.step (.getReg offset type name) = some s') :
    VexStep s (.getReg offset type name) s' := by
  obtain ⟨id, a, hrun, rfl⟩ := step_some h
  obtain ⟨v, hget, rfl⟩ := returns_inv hrun
  cases hreg : s.adapter.reg offset with
  | some w =>
    rcases vexGetReg_ok hget with ⟨hbound, rfl⟩ | ⟨hunbound, -⟩
    · exact .read (.reg offset) v hbound
    · rw [VexAdapter.lookup, hreg] at hunbound
      cases hunbound
  | none =>
    obtain ⟨m, hparam, rfl⟩ := vexGetReg_param hget hreg
    exact .param offset type name v m (by rw [VexCall.readsFirst, hreg]; rfl) hparam

theorem vexStep_emitConst {type : Ty} {value : Word} {name : Option Name}
    (h : s.step (.emitConst tmp type value name) = some s') :
    VexStep s (.emitConst tmp type value name) s' := by
  obtain ⟨id, a, hrun, rfl⟩ := step_some h
  obtain ⟨⟨⟩, hemit, rfl⟩ := returns_inv hrun
  rw [vexEmitConst, Effect.get_bind] at hemit
  obtain ⟨v, hbuild, hcurrent, hlookup⟩ := emit_inv hemit
  rw [buildConstU64] at hbuild
  split at hbuild
  · cases congrArg Prod.snd hbuild
  · next hguard =>
    refine .op _ name (.tmp tmp) v a hbuild rfl (fun w hw => (by cases hw)) (fun _ _ _ => ?_)
      hcurrent hlookup (fun h => by cases h)
    simp only [Bool.or_eq_true, Bool.not_eq_true', Bool.or_eq_false_iff, beq_eq_false_iff_ne,
      decide_eq_true_eq, not_or, not_and, not_not, not_lt] at hguard
    simp only [typeRule, List.map_nil, Ty.isInt, Ty.isAddr, Bool.and_eq_true, Bool.or_eq_true,
      beq_iff_eq, decide_eq_true_eq]
    refine ⟨?_, hguard.2⟩
    by_cases hk : type.kind = .int
    · exact .inl hk
    · exact .inr (hguard.1 hk)

theorem vexStep_emitUnop {irop : Option Name} {src : Nat} {name : Option Name}
    (h : s.step (.emitUnop tmp irop src name) = some s') :
    VexStep s (.emitUnop tmp irop src name) s' := by
  obtain ⟨id, a, hrun, rfl⟩ := step_some h
  obtain ⟨⟨⟩, hemit, rfl⟩ := returns_inv hrun
  rw [vexEmitUnop, Effect.get_bind] at hemit
  split at hemit
  · cases hemit
  · cases hmap : vexMapUnop irop (s.adapter.module.valueType src) with
    | error e =>
      rw [hmap] at hemit
      cases hemit
    | ok r =>
      rw [hmap] at hemit
      obtain ⟨v, hbuild, hcurrent, hlookup⟩ := emit_inv hemit
      rw [buildUnary] at hbuild
      split at hbuild
      · cases congrArg Prod.snd hbuild
      · refine .op _ name (.tmp tmp) v a hbuild rfl (fun w hw => .inl hw) (fun _ _ _ => ?_)
          hcurrent hlookup (fun h => by cases h)
        cases irop with
        | none => cases hmap
        | some text =>
          obtain ⟨hkind, n, hname, htype⟩ := vexMapUnop_ok_iff.mp hmap
          rw [show r.2 = typeI n from htype]
          exact typeRule_unop hname hkind

theorem vexStep_emitBinop {irop : Option Name} {lhs rhs : Nat} {name : Option Name}
    (h : s.step (.emitBinop tmp irop lhs rhs name) = some s') :
    VexStep s (.emitBinop tmp irop lhs rhs name) s' := by
  obtain ⟨id, a, hrun, rfl⟩ := step_some h
  obtain ⟨⟨⟩, hemit, rfl⟩ := returns_inv hrun
  rw [vexEmitBinop, Effect.get_bind] at hemit
  split at hemit
  · cases hemit
  · split at hemit
    · cases hemit
    · next htypes =>
      cases hmap : vexMapBinop irop (s.adapter.module.valueType lhs) with
      | error e =>
        rw [hmap] at hemit
        cases hemit
      | ok r =>
        rw [hmap] at hemit
        obtain ⟨v, hbuild, hcurrent, hlookup⟩ := emit_inv hemit
        rw [buildBinary] at hbuild
        split at hbuild
        · cases congrArg Prod.snd hbuild
        · refine .op _ name (.tmp tmp) v a hbuild rfl (fun w hw => .inl hw) (fun ht _ _ => ?_)
            hcurrent hlookup (fun h => by cases h)
          cases irop with
          | none => cases hmap
          | some text =>
            obtain ⟨hname, htype⟩ := vexMapBinop_ok_iff.mp hmap
            rw [show r.2 = binopType r.1 (s.adapter.module.valueType lhs) from htype]
            refine typeRule_binop hname ht.1 ht.2 fun hne => ?_
            by_contra hno
            exact htypes ⟨hne, by simpa using hno⟩

theorem vexStep_emitLoad {type : Ty} {address : Nat} {endian : Endian} {name : Option Name}
    (h : s.step (.emitLoad tmp type address endian name) = some s') :
    VexStep s (.emitLoad tmp type address endian name) s' := by
  obtain ⟨id, a, hrun, rfl⟩ := step_some h
  obtain ⟨⟨⟩, hemit, rfl⟩ := returns_inv hrun
  rw [vexEmitLoad, Effect.get_bind] at hemit
  cases hmem : s.adapter.memory with
  | none =>
    rw [hmem] at hemit
    cases hemit
  | some memory =>
    simp only [hmem] at hemit
    split at hemit
    · cases hemit
    · obtain ⟨v, hbuild, hcurrent, hlookup⟩ := emit_inv hemit
      rw [buildLoad] at hbuild
      split at hbuild
      · cases congrArg Prod.snd hbuild
      · refine .op _ name (.tmp tmp) v a hbuild rfl (fun w hw => ?_) (fun ht hkind hvalue => ?_)
          hcurrent hlookup (fun h => by cases h)
        · rcases List.mem_cons.mp hw with rfl | hw
          · exact .inr hmem
          · exact .inl hw
        · obtain ⟨hscalar, haddr, hbits⟩ := ht
          simp only [List.map_cons, List.map_nil, typeRule, Bool.and_eq_true, beq_iff_eq,
            Bool.not_eq_true']
          exact ⟨⟨⟨hkind memory hmem, haddr⟩, hbits memory hmem⟩, hvalue,
            isMem_of_isByteScalar hscalar⟩

theorem vexStep_emitStore {address data : Nat} {endian : Endian} {name : Option Name}
    (h : s.step (.emitStore address data endian name) = some s') :
    VexStep s (.emitStore address data endian name) s' := by
  obtain ⟨id, a, hrun, rfl⟩ := step_some h
  obtain ⟨⟨⟩, hemit, rfl⟩ := returns_inv hrun
  rw [vexEmitStore, Effect.get_bind] at hemit
  cases hmem : s.adapter.memory with
  | none =>
    rw [hmem] at hemit
    cases hemit
  | some memory =>
    simp only [hmem] at hemit
    split at hemit
    · cases hemit
    · next hvalid =>
      obtain ⟨v, b, hb, hset⟩ := Effect.bind_eq_ok.mp hemit
      obtain ⟨m, hbuild, rfl⟩ := vexBuild_inv hb
      cases hset
      rw [buildStore] at hbuild
      split at hbuild
      · cases hbuild
      · refine .op _ name .memory v _ hbuild rfl (fun w hw => ?_) (fun ht hkind _ => ?_) rfl ?_
          fun _ => ⟨memory, hmem, rfl⟩
        · rcases List.mem_cons.mp hw with rfl | hw
          · exact .inr hmem
          · exact .inl hw
        · obtain ⟨⟨haddr, hbits⟩, hscalar⟩ := ht
          have hdata : vexValidValue s.adapter.module data = true := by
            simp only [Bool.or_eq_true, Bool.not_eq_true', not_or, Bool.not_eq_false] at hvalid
            exact hvalid.2
          simp only [List.map_cons, List.map_nil, typeRule, Bool.and_eq_true, beq_iff_eq,
            Bool.not_eq_true']
          exact ⟨⟨⟨hkind memory hmem, haddr⟩, hbits memory hmem⟩,
            ⟨trivial, isValueType_of_vexValidValue hdata hscalar⟩, isMem_of_isByteScalar hscalar⟩
        · rw [← lookup_withModule s.adapter m]
          exact lookup_setMemory (s.adapter.withModule m) v

/-- **What a call can do.** -/
theorem vexStep (h : s.step c = some s') : VexStep s c s' := by
  cases c with
  | setTmp tmp value =>
    obtain ⟨id, a, hrun, rfl⟩ := step_some h
    obtain ⟨⟨⟩, hset, rfl⟩ := returns_inv hrun
    have hlookup := lookup_setTmp hset
    obtain ⟨tmps, -, rfl⟩ := vexSetTmp_ok hset
    exact .bind (.tmp tmp) value _ List.mem_cons_self rfl rfl hlookup (fun h => by cases h)
  | getTmp tmp =>
    obtain ⟨id, a, hrun, rfl⟩ := step_some h
    obtain ⟨v, hget, rfl⟩ := returns_inv hrun
    obtain ⟨hk, rfl⟩ := read_inv (vexGetTmp_eq tmp) hget
    exact .read (.tmp tmp) v hk
  | getReg offset type name => exact vexStep_getReg h
  | putReg offset value =>
    obtain ⟨id, a, hrun, rfl⟩ := step_some h
    obtain ⟨⟨⟩, hput, rfl⟩ := returns_inv hrun
    obtain rfl := vexPutReg_ok hput
    exact .bind (.reg offset) value _ List.mem_cons_self (setReg_module _ _ _)
      (setReg_current _ _ _) lookup_setReg (fun h => by cases h)
  | peekReg offset =>
    obtain ⟨id, a, hrun, rfl⟩ := step_some h
    obtain ⟨v, hpeek, rfl⟩ := returns_inv hrun
    obtain ⟨hk, rfl⟩ := read_inv (vexPeekReg_eq offset) hpeek
    exact .read (.reg offset) v hk
  | setMemory memory =>
    obtain ⟨id, a, hrun, rfl⟩ := step_some h
    obtain ⟨⟨⟩, hset, rfl⟩ := returns_inv hrun
    obtain ⟨hkind, rfl⟩ := vexSetMemory_inv hset
    exact .bind .memory memory _ List.mem_cons_self rfl rfl (lookup_setMemory _ _) fun _ => hkind
  | currentMemory =>
    obtain ⟨id, a, hrun, rfl⟩ := step_some h
    obtain ⟨v, hget, rfl⟩ := returns_inv hrun
    obtain ⟨hk, rfl⟩ := read_inv (vexCurrentMemory_eq _) hget
    exact .read .memory v hk
  | emitConst tmp type value name => exact vexStep_emitConst h
  | emitUnop tmp irop src name => exact vexStep_emitUnop h
  | emitBinop tmp irop lhs rhs name => exact vexStep_emitBinop h
  | emitLoad tmp type address endian name => exact vexStep_emitLoad h
  | emitStore address data endian name => exact vexStep_emitStore h
  | emitExit condition taken takenArgs name =>
    obtain ⟨id, a, hrun, rfl⟩ := step_some h
    obtain ⟨⟨⟩, hexit, rfl⟩ := returns_inv hrun
    exact .exit condition taken takenArgs name a rfl hexit
  | finishJump target args =>
    obtain ⟨id, a, hrun, rfl⟩ := step_some h
    obtain ⟨⟨⟩, hfinish, rfl⟩ := returns_inv hrun
    rw [vexFinishJump, Effect.get_bind] at hfinish
    obtain ⟨m, hset, rfl⟩ := vexBuild_inv hfinish
    exact .jump target args m rfl hset
  | finishReturn values =>
    obtain ⟨id, a, hrun, rfl⟩ := step_some h
    obtain ⟨⟨⟩, hfinish, rfl⟩ := returns_inv hrun
    rw [vexFinishReturn, Effect.get_bind] at hfinish
    obtain ⟨m, hset, rfl⟩ := vexBuild_inv hfinish
    exact .ret values m rfl hset

end Inversion

end Xair
