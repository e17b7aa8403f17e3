import Xair.VexFollows

/-!
# The calls of a VEX adapter

Each call that stays in its block keeps the adapter and the machine together
(`VexAgrees.call`).  The operator of a name is the one that the machine computes, because a name
has one meaning at the width of its operand (`vexMapUnop_ok_iff`, `vexMapBinop_ok_iff`), and the
executor computes it exactly.
-/

namespace Xair


section Calls

variable {F : Module} {L : Meaning} {tok : Option Nat} {g : ByteMap} {guest : Nat → ExecValue}
  {s s' : VexSession} {M M' : VexMachine} {v : Nat} {x y : ExecValue} {a : VexAdapter} {k : OpKey}
  {tmp : Nat} {name : Option Name} {u : Unit}

/-- An operation that was appended and bound to a key. -/
theorem vexAdds_of {key : VexKey} (hadd : addOp s.adapter.module k name = (s'.adapter.module, .ok v))
    (hsrcs : ∀ u ∈ k.srcs, s.adapter.module.validValue u = true)
    (hblock : k.block = s.adapter.current) (hready : s'.adapter.Ready)
    (hcurrent : s'.adapter.current = s.adapter.current)
    (hlookup : s'.adapter.lookup = Function.update s.adapter.lookup key (some v))
    (hkey : key = .memory ↔ k.opcode = .store) : VexAdds s s' k v := by
  refine ⟨⟨name, hadd⟩, fun u hu => by simpa [Module.validValue] using hsrcs u hu, hblock, hready,
    hcurrent, ?_⟩
  have hmem : s'.adapter.memory = Function.update s.adapter.lookup key (some v) .memory :=
    congrFun hlookup .memory
  rw [hmem, Function.update_apply]
  by_cases hk : k.opcode = .store
  · rw [if_pos hk, if_pos (hkey.mpr hk).symm]
  · rw [if_neg hk, if_neg fun heq => hk (hkey.mp heq.symm)]
    rfl

/-- A temporary is bound to the value that was built. -/
theorem VexAgrees.setTmp (h : VexAgrees F L tok g guest s M) (ha : VexAdds s s' k v)
    (hk : k.opcode ≠ .store) (hb : VexBuilds F L tok s s' k v) (hx : s'.Holds F L v x)
    (hlookup : s'.adapter.lookup = Function.update s.adapter.lookup (.tmp tmp) (some v)) :
    VexAgrees F L tok g guest s' (M.setTmp tmp x) := by
  refine h.bind hb.written (fun _ _ hu => hb.keeps ha.current hu) hlookup (M.holds_setTmp tmp x) rfl
    hx ?_
  refine h.sameMemory ?_ hb.agree
  rw [ha.memory, if_neg hk]

theorem VexAgrees.emitConst (hver : F.Verified) (h : VexAgrees F L tok g guest s M) {type : Ty}
    {value : Word} (hemit : vexEmitConst tmp type value name s.adapter = (.ok u, s'.adapter))
    (hready : s'.adapter.Ready) (hl : s'.adapter.module.Later F) :
    VexAgrees F L tok g guest s' (M.setTmp tmp (wordValue type (value.setWidth type.bits))) := by
  rw [vexEmitConst, Effect.get_bind] at hemit
  obtain ⟨v, hbuild, hcurrent, hlookup⟩ := emit_inv hemit
  rw [buildConstU64] at hbuild
  split at hbuild
  · cases congrArg Prod.snd hbuild
  · next hguard =>
    have ha := vexAdds_of hbuild (fun w hw => (by cases hw)) rfl hready hcurrent hlookup
      ⟨fun h => (by cases h), fun h => (by cases h)⟩
    obtain ⟨hb, hx⟩ := h.written.addConst hver ha hl rfl
    simp only [Bool.or_eq_true, Bool.not_eq_true', Bool.or_eq_false_iff, beq_eq_false_iff_ne,
      decide_eq_true_eq, not_or, not_and, not_not, not_lt] at hguard
    have hkind : type.kind = .int ∨ type.kind = .addr := by
      by_cases hk : type.kind = .int
      · exact .inl hk
      · exact .inr (hguard.1 hk)
    rw [← execValueMake_word hkind rfl hguard.2]
    exact h.setTmp ha (fun h => by cases h) hb hx hlookup

theorem wordValue_inRange {t : Ty} {n : Nat} (ht : t.bits = n) (z : BitVec n) :
    (wordValue t z).InRange := by
  intro hs
  have hn : n ≤ 64 := ht ▸ (execScalarU64Type_iff.mp hs).2
  show (z.setWidth 64).toNat < 2 ^ t.bits
  rw [toNat_setWidth_64 hn, ht]
  exact z.isLt

theorem kind_of_scalar {t : Ty} (h : t.Scalar) : t.kind ≠ .mem := by
  rcases h.kind with hk | hk <;> rw [hk] <;> decide

theorem binopType_scalar {opcode : Opcode} {t : Ty} (h : t.Scalar) :
    (binopType opcode t).Scalar := by
  have hbool : (typeI 1).Scalar := ⟨by decide, by decide⟩
  cases opcode <;> first | exact hbool | exact h

theorem scalar_of_namesBinop {irop : Name} {n : Nat} {opcode : Opcode}
    (h : NamesBinop irop n opcode) : opcode.isScalarBinary = true := by
  have hall : ∀ e ∈ binopNames, e.2.2.isScalarBinary = true := by decide
  obtain ⟨pre, suf, digits, hmem, -⟩ := h
  exact hall _ hmem

theorem scalar_of_namesUnop {irop : Name} {n k : Nat} {opcode : Opcode}
    (h : NamesUnop irop n k opcode) : opcode.isScalarUnary = true := by
  have hall : ∀ e ∈ unopNames, e.2.1.isScalarUnary = true := by decide
  obtain ⟨sep, widens, digits, digits', hmem, -⟩ := h
  exact hall _ hmem

theorem not_memoryOp_of_scalar {opcode : Opcode}
    (h : opcode.isScalarBinary = true ∨ opcode.isScalarUnary = true) :
    ¬ opcode.isMemoryOp ∧ opcode ≠ .constU64 := by
  revert h
  cases opcode <;> decide

theorem arity_of_scalarUnary {opcode : Opcode} (h : opcode.isScalarUnary = true) :
    opcode.arity = 1 := by
  revert h
  cases opcode <;> decide

theorem arity_of_scalarBinary {opcode : Opcode} (h : opcode.isScalarBinary = true) :
    opcode.arity = 2 := by
  revert h
  cases opcode <;> decide

theorem VexAgrees.emitUnop (hver : F.Verified) (h : VexAgrees F L tok g guest s M) {src : Nat}
    {irop : Name} (hx : s.Holds F L src x) (hm : UnopMeans irop x y)
    (hemit : vexEmitUnop tmp (some irop) src name s.adapter = (.ok u, s'.adapter))
    (hready : s'.adapter.Ready) (hl : s'.adapter.module.Later F) :
    VexAgrees F L tok g guest s' (M.setTmp tmp y) := by
  rw [vexEmitUnop, Effect.get_bind] at hemit
  split at hemit
  · cases hemit
  · next hvalid =>
    cases hmap : vexMapUnop (some irop) (s.adapter.module.valueType src) with
    | error e =>
      rw [hmap] at hemit
      cases hemit
    | ok r =>
      rw [hmap] at hemit
      obtain ⟨v, hbuild, hcurrent, hlookup⟩ := emit_inv hemit
      rw [buildUnary] at hbuild
      split at hbuild
      · cases congrArg Prod.snd hbuild
      · next hsrc =>
        obtain @⟨opcode, n, hscalar, hout, hname⟩ := hm
        have hsrc' : s.adapter.module.validValue src = true := by simpa using hsrc
        have hlt : src < s.adapter.module.values.length := by
          simpa [Module.validValue] using hsrc'
        -- the name has one meaning at this width
        have htype : x.type = s.adapter.module.valueType src :=
          (hx.type h.written).trans (h.written.later.grows.valueType hlt)
        obtain ⟨hint, -⟩ := vexMapUnop_ok_iff.mp hmap
        have hsame := (vexMapUnop_ok_iff (t := s.adapter.module.valueType src)).mpr
          ⟨hint, n, htype ▸ hname, rfl⟩
        rw [hmap] at hsame
        cases hsame
        have hop := scalar_of_namesUnop hname
        obtain ⟨hmem, hconst⟩ := not_memoryOp_of_scalar (.inr hop)
        have hkind := kind_of_scalar hscalar
        have ha := vexAdds_of hbuild (fun w hw => by rwa [List.mem_singleton.mp hw]) rfl hready
          hcurrent hlookup ⟨fun h => (by cases h), fun h => absurd (.inr h) hmem⟩
        obtain ⟨-, hexact⟩ := execUnaryOp_exact hop hscalar hx.inRange hout
        have hval : ∀ mem, execOpValue (typeI n) (refRead F (s.meaning F L).env) mem
            ⟨opcode, v, [src], .le, 0#64⟩ =
            .ok (wordValue (typeI n) (unaryBits opcode n x.bits), mem) := fun mem => by
          have hread : refRead F (s.meaning F L).env
              (OpRec.srcAt ⟨opcode, v, [src], .le, 0#64⟩ 0) = .ok x := hx.read hkind
          rw [execOpValue_unary (arity_of_scalarUnary hop) rfl hread, hexact]
          rfl
        obtain ⟨hb, hy⟩ := h.written.addScalar hver ha hl hmem hconst
          (fun w hw => ⟨x, by rwa [List.mem_singleton.mp hw], hkind⟩) hval (wordValue_inRange rfl _)
        exact h.setTmp ha (fun h => hmem (.inr h)) hb hy hlookup

theorem VexAgrees.emitBinop (hver : F.Verified) (h : VexAgrees F L tok g guest s M)
    {lhs rhs : Nat} {irop : Name} {l r : ExecValue} (hl' : s.Holds F L lhs l)
    (hr' : s.Holds F L rhs r) (hm : BinopMeans irop l r y)
    (hemit : vexEmitBinop tmp (some irop) lhs rhs name s.adapter = (.ok u, s'.adapter))
    (hready : s'.adapter.Ready) (hl : s'.adapter.module.Later F) :
    VexAgrees F L tok g guest s' (M.setTmp tmp y) := by
  rw [vexEmitBinop, Effect.get_bind] at hemit
  split at hemit
  · cases hemit
  · split at hemit
    · cases hemit
    · cases hmap : vexMapBinop (some irop) (s.adapter.module.valueType lhs) with
      | error e =>
        rw [hmap] at hemit
        cases hemit
      | ok p =>
        rw [hmap] at hemit
        obtain ⟨v, hbuild, hcurrent, hlookup⟩ := emit_inv hemit
        rw [buildBinary] at hbuild
        split at hbuild
        · cases congrArg Prod.snd hbuild
        · next hsrc =>
          obtain @⟨opcode, w, z, hls, hrs, hname, hbits⟩ := hm
          simp only [Bool.or_eq_true, Bool.not_eq_true', not_or, Bool.not_eq_false] at hsrc
          have hlt : lhs < s.adapter.module.values.length := by
            simpa [Module.validValue] using hsrc.1
          -- the name has one meaning at this width
          have htype : l.type = s.adapter.module.valueType lhs :=
            (hl'.type h.written).trans (h.written.later.grows.valueType hlt)
          have hsame := (vexMapBinop_ok_iff (t := s.adapter.module.valueType lhs)).mpr
            ⟨htype ▸ hname, rfl⟩
          rw [hmap] at hsame
          cases hsame
          have hop := scalar_of_namesBinop hname
          obtain ⟨hmem, hconst⟩ := not_memoryOp_of_scalar (.inl hop)
          have hkind := kind_of_scalar hls
          have hkind' := kind_of_scalar hrs
          have hvalid : ∀ w ∈ [lhs, rhs], s.adapter.module.validValue w = true := by
            simp only [List.mem_cons, List.not_mem_nil, or_false]
            rintro w (rfl | rfl)
            · exact hsrc.1
            · exact hsrc.2
          have hsrcs : ∀ w ∈ [lhs, rhs], ∃ x, s.Holds F L w x ∧ x.type.kind ≠ .mem := by
            simp only [List.mem_cons, List.not_mem_nil, or_false]
            rintro w (rfl | rfl)
            · exact ⟨l, hl', hkind⟩
            · exact ⟨r, hr', hkind'⟩
          have ha := vexAdds_of hbuild hvalid rfl hready hcurrent hlookup
            ⟨fun h => (by cases h), fun h => absurd (.inr h) hmem⟩
          obtain ⟨-, -, -, hrule⟩ := ha.typed h.written.wf hl hver
          simp only [List.map_cons, List.map_nil, ← hl'.type h.written, ← hr'.type h.written,
            ← htype] at hrule
          have hexact := execBinaryOp_exact hop hrule hls hrs (binopType_scalar hls)
          rw [hbits] at hexact
          obtain ⟨hw, hexact⟩ := hexact
          have hval : ∀ mem, execOpValue (binopType opcode (s.adapter.module.valueType lhs))
              (refRead F (s.meaning F L).env) mem ⟨opcode, v, [lhs, rhs], .le, 0#64⟩ =
              .ok (wordValue (binopType opcode l.type) z, mem) := fun mem => by
            have hread : refRead F (s.meaning F L).env
                (OpRec.srcAt ⟨opcode, v, [lhs, rhs], .le, 0#64⟩ 0) = .ok l := hl'.read hkind
            have hread' : refRead F (s.meaning F L).env
                (OpRec.srcAt ⟨opcode, v, [lhs, rhs], .le, 0#64⟩ 1) = .ok r := hr'.read hkind'
            rw [execOpValue_binary (arity_of_scalarBinary hop) (fun h => hmem (.inl h)) rfl hread
              hread', ← htype, hexact]
            rfl
          obtain ⟨hb, hy⟩ := h.written.addScalar hver ha hl hmem hconst hsrcs hval
            (wordValue_inRange hw _)
          exact h.setTmp ha (fun h => hmem (.inr h)) hb hy hlookup

theorem VexAgrees.emitLoad (hver : F.Verified) (h : VexAgrees F L tok g guest s M)
    {address size : Nat} {type : Ty} {endian : Endian} {w : Word} (hx : s.Holds F L address x)
    (hsize : execByteSizedScalar type = some size) (hwrap : ¬ FlatMemory.Wraps x.lo size)
    (hload : M.memory.loadU64 x.lo size endian = some w)
    (hemit : vexEmitLoad tmp type address endian name s.adapter = (.ok u, s'.adapter))
    (hready : s'.adapter.Ready) (hl : s'.adapter.module.Later F) :
    VexAgrees F L tok g guest s' (M.setTmp tmp (wordValue type (w.setWidth type.bits))) := by
  rw [vexEmitLoad, Effect.get_bind] at hemit
  cases hmem : s.adapter.memory with
  | none =>
    rw [hmem] at hemit
    cases hemit
  | some memory =>
    simp only [hmem] at hemit
    split at hemit
    · cases hemit
    · obtain ⟨v, hbuild, hcurrent, hlookup⟩ := emit_inv hemit
      rw [buildLoad] at hbuild
      split at hbuild
      · cases congrArg Prod.snd hbuild
      · next hsrc =>
        simp only [Bool.or_eq_true, Bool.not_eq_true', not_or, Bool.not_eq_false] at hsrc
        have hvalid : ∀ w ∈ [memory, address], s.adapter.module.validValue w = true := by
          simp only [List.mem_cons, List.not_mem_nil, or_false]
          rintro w (rfl | rfl)
          · exact hsrc.1
          · exact hsrc.2
        have ha := vexAdds_of hbuild hvalid rfl hready hcurrent hlookup
          ⟨fun h => (by cases h), fun h => (by cases h)⟩
        obtain ⟨hb, hy⟩ := h.addLoad hver rfl ha hl hmem hx hsize hwrap hload
        have hscalar : execScalarU64Type type = true := by
          unfold execByteSizedScalar at hsize
          split at hsize
          · cases hsize
          · next hc =>
            simp only [Bool.or_eq_true, Bool.not_eq_true', not_or, Bool.not_eq_false] at hc
            exact hc.1.1
        obtain ⟨hkind, hbits⟩ := execScalarU64Type_iff.mp hscalar
        rw [← execValueMake_word hkind rfl hbits]
        exact h.setTmp ha (fun h => by cases h) hb hy hlookup

theorem VexAgrees.emitStore (hver : F.Verified) (h : VexAgrees F L tok g guest s M)
    {address data size : Nat} {endian : Endian} {d : ExecValue} (hx : s.Holds F L address x)
    (hd : s.Holds F L data d) (hsize : execByteSizedScalar d.type = some size)
    (hwrap : ¬ FlatMemory.Wraps x.lo size)
    (hemit : vexEmitStore address data endian name s.adapter = (.ok u, s'.adapter))
    (hready : s'.adapter.Ready) (hl : s'.adapter.module.Later F) :
    VexAgrees F L tok g guest s'
      { M with memory := M.memory.storeU64 x.lo d.lo size endian } := by
  rw [vexEmitStore, Effect.get_bind] at hemit
  cases hmem : s.adapter.memory with
  | none =>
    rw [hmem] at hemit
    cases hemit
  | some memory =>
    simp only [hmem] at hemit
    split at hemit
    · cases hemit
    · obtain ⟨v, b, hb, hset⟩ := Effect.bind_eq_ok.mp hemit
      obtain ⟨m, hbuild, rfl⟩ := vexBuild_inv hb
      rw [buildStore] at hbuild
      split at hbuild
      · cases hbuild
      · next hsrc =>
        simp only [Bool.or_eq_true, Bool.not_eq_true', not_or, Bool.not_eq_false] at hsrc
        have hvalid : ∀ w ∈ [memory, address, data], s.adapter.module.validValue w = true := by
          simp only [List.mem_cons, List.not_mem_nil, or_false]
          rintro w (rfl | rfl | rfl)
          · exact hsrc.1.1
          · exact hsrc.1.2
          · exact hsrc.2
        have hs' : s'.adapter = { s.adapter.withModule m with memory := some v } :=
          (congrArg Prod.snd hset).symm
        have hlookup : s'.adapter.lookup = Function.update s.adapter.lookup .memory (some v) := by
          rw [hs', lookup_setMemory, lookup_withModule]
        have hadd : addOp s.adapter.module ⟨s.adapter.current, .store,
            s.adapter.module.valueType memory, [memory, address, data], 0#64, endian⟩ name =
            (s'.adapter.module, .ok v) := by
          rw [hs']
          exact hbuild
        have ha := vexAdds_of hadd hvalid rfl hready (by rw [hs']; rfl) hlookup
          ⟨fun _ => rfl, fun _ => rfl⟩
        obtain ⟨hb, hv, hmap⟩ := h.addStore hver rfl ha hl hmem hx hd hsize hwrap
        refine h.bind hb.written (fun _ _ hu => hb.keeps ha.current hu) hlookup ?_ rfl hv ?_
        · have htoken : M.holds .memory = some M.token := rfl
          rw [← htoken, Function.update_eq_self]
          funext k
          cases k <;> rfl
        · rw [ha.memory, if_pos rfl]
          exact hmap

/-- A key is bound to an id that was handed out. -/
theorem VexAgrees.rebind (h : VexAgrees F L tok g guest s M) {key : VexKey}
    (hmodule : s'.adapter.module = s.adapter.module)
    (hcurrent : s'.adapter.current = s.adapter.current)
    (hlookup : s'.adapter.lookup = Function.update s.adapter.lookup key (some v))
    (hkey : key ≠ .memory) (hready : s'.adapter.Ready)
    (hholds : M'.holds = Function.update M.holds key (some x)) (hgiven : M'.given = M.given)
    (hmemory : M'.memory = M.memory) (hv : s.Holds F L v x) : VexAgrees F L tok g guest s' M' := by
  have hops : s'.ops = s.ops := by rw [VexSession.ops, hmodule, hcurrent]; rfl
  have hmem : s'.adapter.memory = s.adapter.memory := by
    have h := congrFun hlookup .memory
    rw [Function.update_of_ne hkey.symm] at h
    exact h
  have hw := h.written
  refine h.bind (hw.frame hready (hmodule ▸ hw.wf) (hmodule ▸ hw.later) hcurrent hops hmem)
    (fun _ _ hu => hu.frame hcurrent hops) hlookup hholds hgiven (hv.frame hcurrent hops) ?_
  rw [hmemory, VexSession.meaning, hops, hmem]
  exact h.memory

/-- A register that is read for the first time is a parameter. -/
theorem VexAgrees.param (h : VexAgrees F L tok g guest s M) {offset : Nat} {type : Ty} {m : Module}
    (hs' : s'.adapter = (s.adapter.withModule m).setReg offset v)
    (hparam : blockAddParam s.adapter.module s.adapter.current type name = (m, .ok v))
    (hnone : s.adapter.reg offset = none) (hready : s'.adapter.Ready)
    (hl : s'.adapter.module.Later F)
    (hin : Stands F s.adapter.current [] L v (guest offset)) :
    VexAgrees F L tok g guest s' (M.give v (M.regs offset)) := by
  have hmodule : s'.adapter.module = m := by
    rw [hs', setReg_module]
    rfl
  have hcurrent : s'.adapter.current = s.adapter.current := by rw [hs', setReg_current]; rfl
  have hlookup : s'.adapter.lookup = Function.update s.adapter.lookup (.reg offset) (some v) := by
    rw [hs', lookup_setReg, lookup_withModule]
  have hmem : s'.adapter.memory = s.adapter.memory := by
    have h := congrFun hlookup .memory
    rw [Function.update_of_ne (by simp)] at h
    exact h
  have hops : s'.ops = s.ops := by
    rw [VexSession.ops, hmodule, hcurrent]
    rcases blockAddParam_cases s.adapter.module s.adapter.current type name with
      ⟨e, he⟩ | ⟨-, hopen, -, -, he⟩
    · rw [hparam] at he
      cases he
    · rw [hparam] at he
      cases he
      rw [Module.blockRec_withParam, if_pos ⟨rfl, hopen.1⟩]
      rfl
  have hwf : s'.adapter.module.WF := by
    have hstep := wf_buildStep h.written.wf (Call.buildStep s.adapter.module
      (.blockAddParam s.adapter.current type name) fun h => by cases h)
    rw [Call.run, hparam] at hstep
    rw [hmodule]
    exact hstep
  have hw := h.written
  have hkeep : ∀ u y, s.Holds F L u y → s'.Holds F L u y := fun _ _ hu => hu.frame hcurrent hops
  have hguest : M.regs offset = guest offset := h.unread offset hnone
  have hv : s'.Holds F L v (M.regs offset) := by
    rw [hguest]
    refine VexSession.Holds.frame ?_ hcurrent hops
    exact hin.agree (fun u hu => availableAtStart_after s.ops hu) hw.means.agree
  refine h.next (hw.frame hready hwf hl hcurrent hops hmem) hkeep (fun k u hk => ?_)
    (fun u y hu => ?_) (fun o ho => ?_) ?_
  · rw [hlookup] at hk
    by_cases hkey : k = .reg offset
    · subst hkey
      rw [Function.update_self] at hk
      cases hk
      exact .inr ⟨M.regs offset, rfl, hv⟩
    · rw [Function.update_of_ne hkey] at hk
      refine .inl ⟨hk, ?_⟩
      cases k <;> rfl
  · change Function.update M.given v (some (M.regs offset)) u = some y at hu
    by_cases huv : u = v
    · subst huv
      rw [Function.update_self] at hu
      cases hu
      exact .inr hv
    · rw [Function.update_of_ne huv] at hu
      exact .inl hu
  · rw [hlookup] at ho
    by_cases hoff : VexKey.reg o = .reg offset
    · rw [hoff, Function.update_self] at ho
      cases ho
    · rw [Function.update_of_ne hoff] at ho
      exact ⟨ho, rfl⟩
  · rw [VexSession.meaning, hops, hmem]
    exact h.memory

/-- The call emits an exit. -/
def VexCall.exits : VexCall → Bool
  | .emitExit _ _ _ _ => true
  | _ => false

/-- **One call of the adapter** that stays in the block does what it means. -/
theorem VexAgrees.call (hver : F.Verified) (h : VexAgrees F L tok g guest s M) {c : VexCall}
    {id : Option Nat} (hrun : c.run s.adapter = (.ok id, a)) (hm : VexMeans M c id M')
    (hexit : c.exits = false) (hl : a.module.Later F)
    (hin : ∀ p ∈ s.input c id, Stands F s.adapter.current [] L p.2 (guest p.1)) :
    VexAgrees F L tok g guest (s.next c id a) M' := by
  have hready : a.Ready := by
    have hr := c.frames.ready s.adapter h.written.ready
    rwa [hrun] at hr
  cases hm with
  | @setTmp tmp v x hv =>
    obtain ⟨u, hset, -⟩ := returns_inv hrun
    have hlookup := lookup_setTmp hset
    obtain ⟨tmps, -, rfl⟩ := vexSetTmp_ok hset
    exact h.rebind rfl rfl hlookup (fun h => by cases h) hready (M.holds_setTmp _ _) rfl rfl
      (h.given v x hv)
  | @putReg offset v x hv =>
    obtain ⟨u, hput, -⟩ := returns_inv hrun
    obtain rfl := vexPutReg_ok hput
    exact h.rebind (setReg_module _ _ _) (setReg_current _ _ _) lookup_setReg (fun h => by cases h)
      hready (M.holds_setReg _ _) rfl rfl (h.given v x hv)
  | @getTmp tmp v x hx =>
    obtain ⟨w, hget, hid⟩ := returns_inv hrun
    cases hid
    obtain ⟨hk, rfl⟩ := read_inv (vexGetTmp_eq tmp) hget
    obtain ⟨y, hy, hv⟩ := h.bound (.tmp tmp) v hk
    cases hx.symm.trans hy
    exact h.give rfl hv
  | @peekReg offset v =>
    obtain ⟨w, hget, hid⟩ := returns_inv hrun
    cases hid
    obtain ⟨hk, rfl⟩ := read_inv (vexPeekReg_eq offset) hget
    obtain ⟨y, hy, hv⟩ := h.bound (.reg offset) v hk
    cases hy
    exact h.give rfl hv
  | @currentMemory v =>
    obtain ⟨w, hget, hid⟩ := returns_inv hrun
    cases hid
    obtain ⟨hk, rfl⟩ := read_inv (vexCurrentMemory_eq _) hget
    exact h.give rfl (h.token hk)
  | @getReg offset v type name =>
    obtain ⟨w, hget, hid⟩ := returns_inv hrun
    cases hid
    cases hreg : s.adapter.reg offset with
    | some w =>
      rcases vexGetReg_ok hget with ⟨hbound, rfl⟩ | ⟨hunbound, -⟩
      · obtain ⟨y, hy, hv⟩ := h.bound (.reg offset) v hbound
        cases hy
        exact h.give rfl hv
      · rw [VexAdapter.lookup, hreg] at hunbound
        cases hunbound
    | none =>
      obtain ⟨m, hparam, rfl⟩ := vexGetReg_param hget hreg
      refine h.param rfl hparam hreg hready hl (hin (offset, v) ?_)
      simp [VexSession.input, hreg]
  | emitConst =>
    obtain ⟨u, hemit, -⟩ := returns_inv hrun
    exact h.emitConst hver hemit hready hl
  | @emitUnop tmp src irop name x y hx hmean =>
    obtain ⟨u, hemit, -⟩ := returns_inv hrun
    exact h.emitUnop hver (h.given src x hx) hmean hemit hready hl
  | @emitBinop tmp lhs rhs irop name l r y hx hy hmean =>
    obtain ⟨u, hemit, -⟩ := returns_inv hrun
    exact h.emitBinop hver (h.given lhs l hx) (h.given rhs r hy) hmean hemit hready hl
  | @emitLoad tmp address size type endian name x w hx hsize hwrap hload =>
    obtain ⟨u, hemit, -⟩ := returns_inv hrun
    exact h.emitLoad hver (h.given address x hx) hsize hwrap hload hemit hready hl
  | @emitStore address data size endian name x d hx hd hsize hwrap =>
    obtain ⟨u, hemit, -⟩ := returns_inv hrun
    exact h.emitStore hver (h.given address x hx) (h.given data d hd) hsize hwrap hemit hready hl
  | exitNotTaken => cases hexit

end Calls

end Xair
