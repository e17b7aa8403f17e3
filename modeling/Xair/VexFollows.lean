import Xair.VexWritten

/-!
# A call does what it means

The machine and the adapter agree when every id that is bound or was handed out stands for the
value that the machine has in its place, and the current token for its memory (`VexAgrees`).  An
operation that the adapter builds gets an id that stands for its result, whether value numbering
makes a new one or answers with an old one (`VexWritten.addScalar`, `VexAgrees.addLoad`,
`VexAgrees.addStore`).
-/

namespace Xair

/-- What the machine keeps under a key. -/
def VexMachine.holds (M : VexMachine) : VexKey → Option ExecValue
  | .memory => some M.token
  | .tmp tmp => M.tmps tmp
  | .reg offset => some (M.regs offset)

/-- The id `v` stands for `x` after the operations of the current block so far. -/
def VexSession.Holds (s : VexSession) (F : Module) (L : Meaning) (v : Nat) (x : ExecValue) : Prop :=
  Stands F s.adapter.current s.ops (s.meaning F L) v x

/-- The machine `M` is where the session is, in a block that starts with the byte map `g` and in
which a register is `guest` as long as it is not read. -/
structure VexAgrees (F : Module) (L : Meaning) (tok : Option Nat) (g : ByteMap)
    (guest : Nat → ExecValue) (s : VexSession) (M : VexMachine) : Prop where
  written : VexWritten F L tok s
  bound : ∀ k v, s.adapter.lookup k = some v → ∃ x, M.holds k = some x ∧ s.Holds F L v x
  given : ∀ v x, M.given v = some x → s.Holds F L v x
  unread : ∀ o, s.adapter.lookup (.reg o) = none → M.regs o = guest o
  memory : ((s.meaning F L).reading F).current g s.adapter.memory = M.memory

section Frames

variable {F : Module} {L : Meaning} {tok : Option Nat} {g : ByteMap} {guest : Nat → ExecValue}
  {s s' : VexSession} {M M' : VexMachine} {v : Nat} {x : ExecValue}

theorem VexMachine.holds_setTmp (M : VexMachine) (tmp : Nat) (x : ExecValue) :
    (M.setTmp tmp x).holds = Function.update M.holds (.tmp tmp) (some x) := by
  funext k
  rw [Function.update_apply]
  cases k <;> simp [VexMachine.holds, VexMachine.setTmp, Function.update_apply]

theorem VexMachine.holds_setReg (M : VexMachine) (offset : Nat) (x : ExecValue) :
    (M.setReg offset x).holds = Function.update M.holds (.reg offset) (some x) := by
  funext k
  rw [Function.update_apply]
  cases k with
  | memory => simp [VexMachine.holds, VexMachine.setReg]
  | tmp t => simp [VexMachine.holds, VexMachine.setReg]
  | reg o =>
    simp only [VexMachine.holds, VexMachine.setReg, Function.update_apply, VexKey.reg.injEq]
    split <;> rfl

theorem VexWritten.frame (h : VexWritten F L tok s) (hready : s'.adapter.Ready)
    (hwf : s'.adapter.module.WF) (hl : s'.adapter.module.Later F)
    (hcurrent : s'.adapter.current = s.adapter.current) (hops : s'.ops = s.ops)
    (hmemory : s'.adapter.memory = s.adapter.memory) : VexWritten F L tok s' := by
  have hmeaning : s'.meaning F L = s.meaning F L := by rw [VexSession.meaning, hops]; rfl
  refine ⟨hready, hwf, hl, ?_, ?_, ?_, ?_, ?_⟩
  · rw [hcurrent, hops, hmeaning]
    exact h.means
  · rw [hops, hmeaning]
    exact h.inBounds
  · rw [hops]
    exact h.tokens
  · rw [hops, hmemory]
    exact h.taken
  · rw [hops, hmemory]
    exact h.token

theorem VexSession.Holds.frame (h : s.Holds F L v x)
    (hcurrent : s'.adapter.current = s.adapter.current) (hops : s'.ops = s.ops) :
    s'.Holds F L v x := by
  have hmeaning : s'.meaning F L = s.meaning F L := by rw [VexSession.meaning, hops]; rfl
  unfold VexSession.Holds
  rw [hcurrent, hops, hmeaning]
  exact h

theorem VexBuilds.keeps {k : OpKey} (h : VexBuilds F L tok s s' k v)
    (hcurrent : s'.adapter.current = s.adapter.current) {u : Nat} {y : ExecValue}
    (hu : s.Holds F L u y) : s'.Holds F L u y := by
  unfold VexSession.Holds
  rw [hcurrent]
  exact hu.agree h.mono h.agree

theorem VexAgrees.token (h : VexAgrees F L tok g guest s M) (hv : s.adapter.memory = some v) :
    s.Holds F L v M.token := by
  obtain ⟨x, hx, hv⟩ := h.bound .memory v hv
  cases hx
  exact hv

/-- The machine after a call. -/
theorem VexAgrees.next (h : VexAgrees F L tok g guest s M) (hw : VexWritten F L tok s')
    (hkeep : ∀ u y, s.Holds F L u y → s'.Holds F L u y)
    (hbound : ∀ k v, s'.adapter.lookup k = some v →
      s.adapter.lookup k = some v ∧ M'.holds k = M.holds k ∨
        ∃ x, M'.holds k = some x ∧ s'.Holds F L v x)
    (hgiven : ∀ v x, M'.given v = some x → M.given v = some x ∨ s'.Holds F L v x)
    (hunread : ∀ o, s'.adapter.lookup (.reg o) = none →
      s.adapter.lookup (.reg o) = none ∧ M'.regs o = M.regs o)
    (hmemory : ((s'.meaning F L).reading F).current g s'.adapter.memory = M'.memory) :
    VexAgrees F L tok g guest s' M' := by
  refine ⟨hw, fun k v hk => ?_, fun v x hv => ?_, fun o ho => ?_, hmemory⟩
  · rcases hbound k v hk with ⟨hold, hM⟩ | hnew
    · obtain ⟨x, hx, hv⟩ := h.bound k v hold
      exact ⟨x, hM.trans hx, hkeep v x hv⟩
    · exact hnew
  · exact (hgiven v x hv).elim (fun hold => hkeep v x (h.given v x hold)) id
  · obtain ⟨hold, hM⟩ := hunread o ho
    exact hM.trans (h.unread o hold)

theorem VexAgrees.bind (h : VexAgrees F L tok g guest s M) (hw : VexWritten F L tok s')
    (hkeep : ∀ u y, s.Holds F L u y → s'.Holds F L u y) {key : VexKey} {v : Nat} {x : ExecValue}
    (hlookup : s'.adapter.lookup = Function.update s.adapter.lookup key (some v))
    (hholds : M'.holds = Function.update M.holds key (some x)) (hgiven : M'.given = M.given)
    (hv : s'.Holds F L v x)
    (hmemory : ((s'.meaning F L).reading F).current g s'.adapter.memory = M'.memory) :
    VexAgrees F L tok g guest s' M' := by
  have hat : ∀ k, k ≠ key → s'.adapter.lookup k = s.adapter.lookup k ∧ M'.holds k = M.holds k :=
    fun k hk =>
      ⟨by rw [hlookup, Function.update_of_ne hk], by rw [hholds, Function.update_of_ne hk]⟩
  refine h.next hw hkeep (fun k u hk => ?_) (fun u y hu => .inl (hgiven ▸ hu)) (fun o ho => ?_)
    hmemory
  · by_cases hkey : k = key
    · subst hkey
      rw [hlookup, Function.update_self] at hk
      cases hk
      exact .inr ⟨x, by rw [hholds, Function.update_self], hv⟩
    · obtain ⟨h1, h2⟩ := hat k hkey
      exact .inl ⟨h1.symm.trans hk, h2⟩
  · by_cases hkey : VexKey.reg o = key
    · subst hkey
      rw [hlookup, Function.update_self] at ho
      cases ho
    · obtain ⟨h1, h2⟩ := hat _ hkey
      exact ⟨h1.symm.trans ho, Option.some.inj h2⟩

theorem VexAgrees.give (h : VexAgrees F L tok g guest s M) (hadapter : s'.adapter = s.adapter)
    (hv : s.Holds F L v x) : VexAgrees F L tok g guest s' (M.give v x) := by
  have hops : s'.ops = s.ops := by rw [VexSession.ops, hadapter]; rfl
  have hcurrent : s'.adapter.current = s.adapter.current := by rw [hadapter]
  have hkeep : ∀ u y, s.Holds F L u y → s'.Holds F L u y := fun u y hu => hu.frame hcurrent hops
  have hw := h.written
  refine h.next (hw.frame (hadapter ▸ hw.ready) (hadapter ▸ hw.wf) (hadapter ▸ hw.later) hcurrent
    hops (by rw [hadapter])) hkeep (fun k u hk => .inl ⟨hadapter ▸ hk, ?_⟩) (fun u y hu => ?_)
    (fun o ho => ⟨hadapter ▸ ho, rfl⟩) ?_
  · cases k <;> rfl
  · change Function.update M.given v (some x) u = some y at hu
    by_cases huv : u = v
    · subst huv
      rw [Function.update_self] at hu
      cases hu
      exact .inr (hkeep u x hv)
    · rw [Function.update_of_ne huv] at hu
      exact .inl hu
  · rw [VexSession.meaning, hops, hadapter]
    exact h.memory

/-- The memory of the machine is the map of the token that was there before. -/
theorem VexAgrees.sameMemory (h : VexAgrees F L tok g guest s M)
    (hmemory : s'.adapter.memory = s.adapter.memory)
    (hagree : AgreeOn F (F.availableAfter s.adapter.current s.ops) (s.meaning F L)
      (s'.meaning F L)) :
    ((s'.meaning F L).reading F).current g s'.adapter.memory = M.memory := by
  rw [hmemory, ← h.memory]
  cases hm : s.adapter.memory with
  | none => rfl
  | some v => exact (hagree v (h.token hm).available).2

end Frames

/-! ### The value of an operation -/

section Values

variable {F : Module} {L : Meaning} {tok : Option Nat} {s s' : VexSession} {k : OpKey} {v : Nat}
  {x y : ExecValue}

theorem VexWritten.read (h : VexWritten F L tok s)
    (hv : F.valueIsAvailable (F.availableAfter s.adapter.current s.ops) v = true) :
    refRead F (s.meaning F L).env v = .ok (((s.meaning F L).reading F).value v) ∧
      (((s.meaning F L).reading F).value v).type = F.valueType v := by
  obtain ⟨z, hz, ht⟩ := h.means.ready v hv
  have hread : ((s.meaning F L).reading F).value v = z := readValue_eq hz
  rw [hread]
  exact ⟨hz, ht⟩

theorem VexSession.Holds.value (h : s.Holds F L v x) (hx : x.type.kind ≠ .mem) :
    ((s.meaning F L).reading F).value v = x :=
  readValue_eq (h.read hx)

theorem VexBuilds.holds (h : VexBuilds F L tok s s' k v)
    (hcurrent : s'.adapter.current = s.adapter.current)
    (hx : ValEq (((s'.meaning F L).reading F).value v) x) (hr : x.InRange) : s'.Holds F L v x := by
  have hav := h.available
  rw [← hcurrent] at hav
  exact ⟨hav, ⟨_, (h.written.read hav).1, hx⟩, hr⟩

theorem VexAdds.typed (h : VexAdds s s' k v) (hwf : s.adapter.module.WF)
    (hl : s'.adapter.module.Later F) (hver : F.Verified) :
    F.WF ∧ F.Computes v k ∧ F.valueType v = k.type ∧
      typeRule k.opcode k.type (k.srcs.map F.valueType) = true := by
  obtain ⟨hwf', -, hc⟩ := h.computes hwf
  have hF := hl.wf hwf'
  have hcF := hc.grows hwf' hF hl.grows
  refine ⟨hF, hcF, hcF.type hF, ?_⟩
  obtain ⟨o, ho, rfl, hs⟩ := (valueNumberMatches_iff hF).mp hcF
  have htyped := typed_of_verified hF hver o ho
  have h1 : (F.opRec o).opcode = k.opcode := hs.opcode
  have h2 : (F.opRec o).src = k.srcs := hs.srcs
  rw [h1, h2, hcF.type hF] at htyped
  exact htyped

theorem VexWritten.addConst (hver : F.Verified) (h : VexWritten F L tok s)
    (ha : VexAdds s s' k v) (hl : s'.adapter.module.Later F) (hk : k.opcode = .constU64) :
    VexBuilds F L tok s s' k v ∧ s'.Holds F L v (execValueMake k.type k.imm 0#64) := by
  have hmem : ¬ k.opcode.isMemoryOp := by
    rw [hk]
    decide
  obtain ⟨hF, hcF, htype, -⟩ := ha.typed h.wf hl hver
  have hb := h.build hver ha hl (fun _ => ?_) (fun hm => absurd hm hmem) ?_
  · refine ⟨hb, hb.holds ha.current ?_ (execValueMake_inRange _ _ _)⟩
    obtain ⟨o, ho, rfl, hs⟩ := (valueNumberMatches_iff hF).mp hcF
    have hop := hF.valueOp_dst ho
    have hcode : (F.opRec o).opcode = .constU64 := hs.opcode.trans hk
    have himm : (F.opRec o).imm = k.imm := hs.imm
    have hconst : F.valueIsGlobalConst (F.opRec o).dst = true := by
      simp [Module.valueIsGlobalConst, Module.validValue, (hF.op_dst o ho).1, hop, hcode]
    have hval : ((s'.meaning F L).reading F).value (F.opRec o).dst =
        execValueMake k.type k.imm 0#64 := by
      refine (readValue_eq (refRead_const hconst _)).trans ?_
      rw [Module.constValue, hop, ← htype, ← himm]
    rw [hval]
    exact .refl _
  · have hcode : (k.record v).opcode = .constU64 := hk
    simp [execOpValue, hcode]
  · unfold Denotation.InBounds
    have hcode : (k.record v).opcode = .constU64 := hk
    rw [hcode]
    trivial

/-- An operation on scalars. -/
theorem VexWritten.addScalar (hver : F.Verified) (h : VexWritten F L tok s)
    (ha : VexAdds s s' k v) (hl : s'.adapter.module.Later F) (hmem : ¬ k.opcode.isMemoryOp)
    (hconst : k.opcode ≠ .constU64)
    (hsrcs : ∀ u ∈ k.srcs, ∃ x, s.Holds F L u x ∧ x.type.kind ≠ .mem)
    (hval : ∀ mem, execOpValue k.type (refRead F (s.meaning F L).env) mem (k.record v) =
      .ok (y, mem)) (hy : y.InRange) :
    VexBuilds F L tok s s' k v ∧ s'.Holds F L v y := by
  obtain ⟨hF, hcF, htype, -⟩ := ha.typed h.wf hl hver
  have hb := h.build hver ha hl (fun _ => ?_) (fun hm => absurd hm hmem) ?_
  · refine ⟨hb, hb.holds ha.current ?_ hy⟩
    have hfit : ∀ mem, execOpValue (F.valueType v)
        (fun u => .ok (((s'.meaning F L).reading F).value u)) mem (k.record v) =
        .ok (((s'.meaning F L).reading F).value v, mem) := by
      have hfit := hb.fits hconst
      unfold Denotation.Fits at hfit
      split at hfit
      · next hop => exact absurd (.inl hop) hmem
      · next hop => exact absurd (.inr hop) hmem
      · exact hfit
    have hsame : execOpValue (F.valueType v)
        (fun u => .ok (((s'.meaning F L).reading F).value u)) (s.meaning F L).env.mem
        (k.record v) = .ok (y, (s.meaning F L).env.mem) := by
      rw [htype, ← hval (s.meaning F L).env.mem]
      have harity : (k.record v).ArityOk :=
        ⟨fun hop => absurd (.inl hop) hmem, fun hop => absurd (.inr hop) hmem⟩
      refine execOpValue_congr harity (.refl _) fun u hu => ?_
      obtain ⟨x, hx, hkind⟩ := hsrcs u hu
      rw [(hb.keeps ha.current hx).value hkind]
      exact (hx.read hkind).symm
    rw [hfit] at hsame
    have hy : ((s'.meaning F L).reading F).value v = y :=
      congrArg Prod.fst (Except.ok.inj hsame)
    rw [hy]
    exact .refl _
  · rw [show F.valueType (k.record v).dst = k.type from htype, hval]
    exact fun hno => by cases hno
  · unfold Denotation.InBounds
    split
    · next hop => exact absurd (.inl hop) hmem
    · next hop => exact absurd (.inr hop) hmem
    · trivial

theorem VexSession.Holds.type (h : s.Holds F L v x) (hw : VexWritten F L tok s) :
    x.type = F.valueType v :=
  Stands.type h hw.means.ready

theorem Ty.kind_of_isAddr {t : Ty} (h : t.isAddr = true) : t.kind ≠ .mem := by
  simp only [Ty.isAddr, beq_iff_eq] at h
  rw [h]
  decide

section Memory

variable {g : ByteMap} {guest : Nat → ExecValue} {M : VexMachine} {memory address size : Nat}
  {endian : Endian} {a : ExecValue}

/-- The current token stands for the memory of the machine. -/
theorem VexAgrees.map (h : VexAgrees F L tok g guest s M) (hmem : s.adapter.memory = some memory) :
    ((s.meaning F L).reading F).memory memory = M.memory := by
  rw [← h.memory, hmem]
  rfl

theorem VexAgrees.addLoad (hver : F.Verified) (h : VexAgrees F L tok g guest s M) {type : Ty}
    {w : Word} (hk : k = ⟨s.adapter.current, .load, type, [memory, address], 0#64, endian⟩)
    (ha : VexAdds s s' k v) (hl : s'.adapter.module.Later F) (hmem : s.adapter.memory = some memory)
    (haddr : s.Holds F L address a) (hsize : execByteSizedScalar type = some size)
    (hwrap : ¬ FlatMemory.Wraps a.lo size) (hload : M.memory.loadU64 a.lo size endian = some w) :
    VexBuilds F L tok s s' k v ∧ s'.Holds F L v (execValueMake type w 0#64) := by
  obtain ⟨-, -, htype, htyped⟩ := ha.typed h.written.wf hl hver
  subst hk
  obtain ⟨tm, ta, hs, -, hta, -⟩ := typeRule_load htyped
  obtain ⟨-, htail⟩ := List.cons.inj hs
  obtain ⟨htaddr, -⟩ := List.cons.inj htail
  have hkind : a.type.kind ≠ .mem := by
    rw [haddr.type h.written]
    exact Ty.kind_of_isAddr (htaddr ▸ hta)
  have hb := h.written.build hver ha hl (fun hn => absurd (.inl rfl) hn) (fun _ => hmem)
    ⟨size, w, ?_, ?_, ?_⟩
  · refine ⟨hb, hb.holds ha.current ?_ (execValueMake_inRange _ _ _)⟩
    have hfit : ((s'.meaning F L).reading F).value v = execValueMake (F.valueType v) w 0#64 := by
      refine hb.fits (fun hno => by cases hno) size w (htype ▸ hsize) ?_
      show (((s'.meaning F L).reading F).memory memory).loadU64
        (((s'.meaning F L).reading F).value address).lo size endian = some w
      have hmap : ((s'.meaning F L).reading F).memory memory = M.memory :=
        (hb.agree memory (h.token hmem).available).2.trans (h.map hmem)
      rw [hmap, (hb.keeps ha.current haddr).value hkind]
      exact hload
    rw [hfit, htype]
    exact .refl _
  · exact htype ▸ hsize
  · show ¬ FlatMemory.Wraps (((s.meaning F L).reading F).value address).lo size
    rw [haddr.value hkind]
    exact hwrap
  · show (((s.meaning F L).reading F).memory memory).loadU64
      (((s.meaning F L).reading F).value address).lo size endian = some w
    rw [h.map hmem, haddr.value hkind]
    exact hload

/-- A store to the current memory. -/
theorem VexAgrees.addStore (hver : F.Verified) (h : VexAgrees F L tok g guest s M) {data : Nat}
    {d : ExecValue} (hk : k = ⟨s.adapter.current, .store, s.adapter.module.valueType memory,
      [memory, address, data], 0#64, endian⟩)
    (ha : VexAdds s s' k v) (hl : s'.adapter.module.Later F) (hmem : s.adapter.memory = some memory)
    (haddr : s.Holds F L address a) (hdata : s.Holds F L data d)
    (hsize : execByteSizedScalar d.type = some size) (hwrap : ¬ FlatMemory.Wraps a.lo size) :
    VexBuilds F L tok s s' k v ∧ s'.Holds F L v M.token ∧
      ((s'.meaning F L).reading F).memory v = M.memory.storeU64 a.lo d.lo size endian := by
  obtain ⟨-, -, htype, htyped⟩ := ha.typed h.written.wf hl hver
  have htoken := h.token hmem
  subst hk
  obtain ⟨tm, ta, td, hs, htm, hta, hout, htd⟩ := typeRule_store htyped
  obtain ⟨htmem, htail⟩ := List.cons.inj hs
  obtain ⟨htaddr, htail⟩ := List.cons.inj htail
  obtain ⟨htdata, -⟩ := List.cons.inj htail
  have hkind : a.type.kind ≠ .mem := by
    rw [haddr.type h.written]
    exact Ty.kind_of_isAddr (htaddr ▸ hta)
  have hkindd : d.type.kind ≠ .mem := by
    rw [hdata.type h.written, htdata]
    simpa [Ty.isMem] using htd
  have hb := h.written.build hver ha hl (fun hn => absurd (.inr rfl) hn) (fun _ => hmem)
    ⟨size, ?_, ?_⟩
  · have hav := hb.available
    rw [← ha.current] at hav
    have hnew := (hb.written.read hav).2
    have htok : M.token.type = F.valueType v := by
      rw [htoken.type h.written, htype]
      exact htmem.trans hout.symm
    have hmemkind : M.token.type.kind = .mem := by
      rw [htok, htype]
      have := hout ▸ htm
      simpa [Ty.isMem] using this
    refine ⟨hb, hb.holds ha.current ⟨hnew.trans htok.symm, fun hno => ?_⟩ htoken.inRange, ?_⟩
    · rw [hnew, ← htok] at hno
      exact absurd hmemkind hno
    · have hmap : ((s'.meaning F L).reading F).memory memory = M.memory :=
        (hb.agree memory htoken.available).2.trans (h.map hmem)
      have ha' := (hb.keeps ha.current haddr).value hkind
      have hd' := (hb.keeps ha.current hdata).value hkindd
      have hfit : ((s'.meaning F L).reading F).memory v =
          (((s'.meaning F L).reading F).memory memory).storeU64
            (((s'.meaning F L).reading F).value address).lo
            (((s'.meaning F L).reading F).value data).lo size endian := by
        refine hb.fits (fun hno => by cases hno) size ?_
        show execByteSizedScalar (((s'.meaning F L).reading F).value data).type = some size
        rw [hd']
        exact hsize
      rw [hfit, hmap, ha', hd']
  · show execByteSizedScalar (((s.meaning F L).reading F).value data).type = some size
    rw [hdata.value hkindd]
    exact hsize
  · show ¬ FlatMemory.Wraps (((s.meaning F L).reading F).value address).lo size
    rw [haddr.value hkind]
    exact hwrap

end Memory

end Values

end Xair
