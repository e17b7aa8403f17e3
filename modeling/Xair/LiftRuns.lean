import Xair.LiftVerified
import Xair.BlockRun
import Xair.Threading

/-!
# Running a lifted block

A block that a lift fills from empty can be run: its parameters are the input
registers and the memory, no operation is unsupported on values of the right types,
and its memory tokens are threaded (`Runnable`).
-/

namespace Xair

/-- The operation is never unsupported when its sources have their types. -/
def OpRuns (m : Module) (op : OpRec) : Prop :=
  ∀ (read : Nat → Except Status ExecValue) (mem : ExecMemory),
    (∀ s ∈ op.src, ∃ x, read s = .ok x ∧ x.type = m.valueType s) →
    execOpValue (m.valueType op.dst) read mem op ≠ .error .errUnsupported

/-- A block that the lift fills from empty. -/
structure Runnable (s : LiftState) : Prop where
  params : ∀ v ∈ (s.module.blockRec s.block).params,
    (∃ p ∈ s.result.inputRegs, p.2 = v) ∨ s.result.memoryIn = some v
  inputs : ∀ p ∈ s.result.inputRegs, p.2 ∈ (s.module.blockRec s.block).params
  memoryIn : ∀ v, s.result.memoryIn = some v → v ∈ (s.module.blockRec s.block).params
  runs : ∀ o ∈ (s.module.blockRec s.block).ops, OpRuns s.module (s.module.opRec o)
  tokens : s.module.TokensOk s.result.memoryIn (s.module.blockRec s.block).ops
  current : ∀ o ∈ (s.module.blockRec s.block).ops, (s.module.opRec o).opcode = .store →
    s.memory ≠ some ((s.module.opRec o).srcAt 0)
  token : s.module.tokenAfter s.result.memoryIn (s.module.blockRec s.block).ops = s.memory

/-! ### Growing -/

section Grow

variable {m m' : Module}

theorem OpRuns.grows (hwf : m.WF) (h : Grows m m') {o : Nat} (ho : o < m.ops.length)
    (hr : OpRuns m (m.opRec o)) : OpRuns m' (m'.opRec o) := by
  intro read mem hread
  rw [h.opRec o ho] at hread ⊢
  rw [h.valueType (hwf.op_dst o ho).1]
  refine hr read mem fun s hs => ?_
  rw [← h.valueType (hwf.op_src o ho s hs)]
  exact hread s hs

theorem nextToken_grows (hwf : m.WF) (h : Grows m m') {o : Nat} (ho : o < m.ops.length)
    (tok : Option Nat) : m'.nextToken tok o = m.nextToken tok o := by
  rw [Module.nextToken, Module.nextToken, h.opRec o ho, h.valueType (hwf.op_dst o ho).1]

theorem tokenAfter_grows (hwf : m.WF) (h : Grows m m') {os : List Nat}
    (hos : ∀ o ∈ os, o < m.ops.length) (tok : Option Nat) :
    m'.tokenAfter tok os = m.tokenAfter tok os := by
  induction os generalizing tok with
  | nil => rfl
  | cons o os ih =>
    show m'.tokenAfter (m'.nextToken tok o) os = m.tokenAfter (m.nextToken tok o) os
    rw [nextToken_grows hwf h (hos o (by simp))]
    exact ih (fun p hp => hos p (by simp [hp])) _

theorem tokensOk_grows (hwf : m.WF) (h : Grows m m') {os : List Nat}
    (hos : ∀ o ∈ os, o < m.ops.length) {tok : Option Nat} (hok : m.TokensOk tok os) :
    m'.TokensOk tok os := by
  induction os generalizing tok with
  | nil => trivial
  | cons o os ih =>
    have ho := hos o (by simp)
    refine ⟨?_, ?_⟩
    · rw [h.opRec o ho]
      exact hok.1
    · rw [nextToken_grows hwf h ho]
      exact ih (fun p hp => hos p (by simp [hp])) hok.2

theorem tokensOk_snoc {os : List Nat} {tok : Option Nat} {o : Nat} (h : m.TokensOk tok os)
    (ho : (m.opRec o).opcode.isMemoryOp → m.tokenAfter tok os = some ((m.opRec o).srcAt 0)) :
    m.TokensOk tok (os ++ [o]) := by
  induction os generalizing tok with
  | nil => exact ⟨ho, trivial⟩
  | cons p os ih => exact ⟨h.1, ih h.2 ho⟩

theorem tokenAfter_append (tok : Option Nat) (os : List Nat) (o : Nat) :
    m.tokenAfter tok (os ++ [o]) = m.nextToken (m.tokenAfter tok os) o := by
  rw [Module.tokenAfter, List.foldl_append]
  rfl

/-- There is always a token once there is one. -/
theorem tokenAfter_isSome {tok : Option Nat} (h : tok.isSome = true) (os : List Nat) :
    (m.tokenAfter tok os).isSome = true := by
  induction os generalizing tok with
  | nil => exact h
  | cons o os ih =>
    refine ih ?_
    unfold Module.nextToken
    split
    · rfl
    · exact h

/-- Without a token no memory has been used, so the block could have started with one. -/
theorem tokens_of_none {os : List Nat} (h : m.TokensOk none os) (hn : m.tokenAfter none os = none)
    (v : Nat) : m.TokensOk (some v) os ∧ m.tokenAfter (some v) os = some v := by
  induction os with
  | nil => exact ⟨trivial, rfl⟩
  | cons o os ih =>
    obtain ⟨hop, hos⟩ := h
    have hmem : (m.valueType (m.opRec o).dst).isMem = false := by
      by_contra hc
      rw [Bool.not_eq_false] at hc
      have hsome : (m.nextToken none o).isSome = true := by rw [Module.nextToken, if_pos hc]; rfl
      have := tokenAfter_isSome (m := m) hsome os
      change m.tokenAfter (m.nextToken none o) os = none at hn
      rw [hn] at this
      cases this
    have hnext : ∀ tok, m.nextToken tok o = tok := fun tok => by
      rw [Module.nextToken, if_neg (by simp [hmem])]
    change m.tokenAfter (m.nextToken none o) os = none at hn
    rw [hnext] at hos hn
    obtain ⟨h1, h2⟩ := ih hos hn
    refine ⟨⟨fun hm => absurd (hop hm) (by simp), ?_⟩, ?_⟩
    · rw [hnext]
      exact h1
    · show m.tokenAfter (m.nextToken (some v) o) os = some v
      rw [hnext]
      exact h2

end Grow

/-! ### Every step keeps the block runnable -/

section Steps

variable {s s' : LiftState} {n : Nat}

theorem KeyRuns.opRuns {k : OpKey} {v : Nat} {m' : Module}
    (ha : OpAdded k s.module v m') (hruns : KeyRuns s.module k) :
    OpRuns m' ⟨k.opcode, v, k.srcs, k.endian, k.imm⟩ := by
  intro read mem hread
  dsimp only at hread ⊢
  rw [ha.type]
  refine hruns v read mem fun src hsrc => ?_
  rw [← ha.extends_.grows.valueType (ha.sources src hsrc).lt]
  exact hread src hsrc

/-- What the block looks like after an operation that runs is added. -/
structure Added (s : LiftState) (m' : Module) : Prop where
  params : (m'.blockRec s.block).params = (s.module.blockRec s.block).params
  runs : ∀ o ∈ (m'.blockRec s.block).ops, OpRuns m' (m'.opRec o)
  tokens : m'.TokensOk s.result.memoryIn (m'.blockRec s.block).ops

/-- An operation that runs is added to the block, or was there. -/
theorem Runnable.add (h : Runnable s) (hi : LiftInv s) {k : OpKey} {v : Nat} {m' : Module}
    (hb : k.block = s.block) (ha : OpAdded k s.module v m') (hruns : KeyRuns s.module k)
    (hmem : k.opcode.isMemoryOp → s.memory = some (k.srcs.getD 0 invalidId)) :
    Added s m' ∧ ((m'.blockRec s.block).ops = (s.module.blockRec s.block).ops ∧
        m'.tokenAfter s.result.memoryIn (m'.blockRec s.block).ops = s.memory ∨
      (∃ o, (m'.blockRec s.block).ops = (s.module.blockRec s.block).ops ++ [o] ∧
        m'.opRec o = ⟨k.opcode, v, k.srcs, k.endian, k.imm⟩) ∧
        m'.tokenAfter s.result.memoryIn (m'.blockRec s.block).ops =
          if k.type.isMem then some v else s.memory) := by
  have hlt := hi.draft.isOpen.1
  have hwf := hi.draft.wf
  have hg := ha.extends_.grows
  have hold : ∀ o ∈ (s.module.blockRec s.block).ops, o < s.module.ops.length := fun o ho =>
    hwf.mem_ops_lt hlt ho
  have hruns₀ : ∀ o ∈ (s.module.blockRec s.block).ops, OpRuns m' (m'.opRec o) := fun o ho =>
    (h.runs o ho).grows hwf hg (hold o ho)
  have htok₀ := tokensOk_grows hwf hg hold h.tokens
  have hafter₀ := (tokenAfter_grows hwf hg hold s.result.memoryIn).trans h.token
  have hrec := ha.blockRec (hb ▸ hlt)
  rw [hb] at hrec
  rcases hrec with hrec | ⟨hrec, hop⟩
  · rw [hrec]
    refine ⟨⟨by rw [hrec], ?_, ?_⟩, .inl ⟨rfl, hafter₀⟩⟩ <;> rw [hrec]
    · exact hruns₀
    · exact htok₀
  · have hops : (m'.blockRec s.block).ops =
        (s.module.blockRec s.block).ops ++ [s.module.ops.length] := by rw [hrec]; rfl
    rw [hops]
    refine ⟨⟨by rw [hrec]; rfl, ?_, ?_⟩, .inr ⟨⟨_, rfl, hop⟩, ?_⟩⟩
    · rw [hops]
      intro o ho
      rcases List.mem_append.mp ho with ho | ho
      · exact hruns₀ o ho
      · rw [List.mem_singleton] at ho
        rw [ho, hop]
        exact hruns.opRuns ha
    · rw [hops]
      refine tokensOk_snoc htok₀ fun hm => ?_
      rw [hop] at hm ⊢
      rw [hafter₀]
      exact hmem hm
    · rw [tokenAfter_append, hafter₀, Module.nextToken, hop]
      dsimp only
      rw [ha.type]

/-- Only a store defines a token. -/
theorem OpAdded.not_isMem {k : OpKey} {m : Module} {v : Nat} {m' : Module} (ha : OpAdded k m v m')
    (hk : k.opcode ≠ .store) : k.type.isMem = false := by
  by_contra hc
  rw [Bool.not_eq_false] at hc
  exact hk (typeRule_mem ha.typed hc)

/-- An operation that is no store. -/
theorem Runnable.addOp (h : Runnable s) (hi : LiftInv s) {k : OpKey} {v : Nat} {m' : Module}
    (hb : k.block = s.block) (hk : k.opcode ≠ .store) (ha : OpAdded k s.module v m')
    (hruns : KeyRuns s.module k)
    (hmem : k.opcode.isMemoryOp → s.memory = some (k.srcs.getD 0 invalidId)) :
    Runnable { s with module := m' } := by
  obtain ⟨hadd, hcases⟩ := h.add hi hb ha hruns hmem
  have hg := ha.extends_.grows
  have hcur : ∀ o ∈ (s.module.blockRec s.block).ops, (m'.opRec o).opcode = .store →
      s.memory ≠ some ((m'.opRec o).srcAt 0) := by
    intro o ho
    rw [hg.opRec o (hi.draft.wf.mem_ops_lt hi.draft.isOpen.1 ho)]
    exact h.current o ho
  refine ⟨?_, ?_, ?_, hadd.runs, hadd.tokens, ?_, ?_⟩
  · show ∀ v ∈ (m'.blockRec s.block).params, _
    rw [hadd.params]
    exact h.params
  · show ∀ p ∈ s.result.inputRegs, p.2 ∈ (m'.blockRec s.block).params
    rw [hadd.params]
    exact h.inputs
  · show ∀ v, s.result.memoryIn = some v → v ∈ (m'.blockRec s.block).params
    rw [hadd.params]
    exact h.memoryIn
  · show ∀ o ∈ (m'.blockRec s.block).ops, _
    rcases hcases with ⟨hops, -⟩ | ⟨⟨o', hops, hop⟩, -⟩ <;> rw [hops]
    · exact hcur
    · intro o ho hst
      rcases List.mem_append.mp ho with ho | ho
      · exact hcur o ho hst
      · rw [List.mem_singleton] at ho
        change (m'.opRec o).opcode = .store at hst
        rw [ho, hop] at hst
        exact absurd hst hk
  · rcases hcases with ⟨-, htok⟩ | ⟨-, htok⟩
    · exact htok
    · rw [ha.not_isMem hk] at htok
      exact htok

/-- A store, which never was there before. -/
theorem Runnable.addStore (h : Runnable s) (hi : LiftInv s) {k : OpKey} {v : Nat} {m' : Module}
    (hb : k.block = s.block) (hk : k.opcode = .store) (ht : k.type.isMem = true)
    (ha : OpAdded k s.module v m') (hruns : KeyRuns s.module k)
    (hmem : s.memory = some (k.srcs.getD 0 invalidId)) (r : LiftResult)
    (hr : r.inputRegs = s.result.inputRegs ∧ r.memoryIn = s.result.memoryIn) :
    Runnable { s with module := m', memory := some v, result := r } := by
  obtain ⟨hadd, hcases⟩ := h.add hi hb ha hruns fun _ => hmem
  have hwf := hi.draft.wf
  have hlt := hi.draft.isOpen.1
  have hg := ha.extends_.grows
  have holt : ∀ o ∈ (s.module.blockRec s.block).ops, o < s.module.ops.length := fun o ho =>
    hwf.mem_ops_lt hlt ho
  -- a store with this key would have taken the token that is still current
  have hnew : (m'.blockRec s.block).ops ≠ (s.module.blockRec s.block).ops := by
    intro hops
    obtain ⟨o, ho, hdst, hsame⟩ := (valueNumberMatches_iff ha.draft.wf).mp ha.computes
    have hblock : (m'.valueRec (m'.opRec o).dst).block = s.block := by
      rcases hsame.block with hc | hblk
      · have hcode : k.opcode = .constU64 := hsame.opcode.symm.trans hc
        rw [hk] at hcode
        cases hcode
      · exact hblk.trans hb
    have hlt' : s.block < m'.blocks.length := hb ▸ ha.extends_.blocks ▸ hb.symm ▸ hlt
    have hmem' := (ha.draft.wf.block_ops s.block hlt' o).mpr ⟨ho, hblock⟩
    rw [hops] at hmem'
    have hrec := hg.opRec o (holt o hmem')
    have hcode : (m'.opRec o).opcode = .store := hsame.opcode.trans hk
    have hsrcs : (m'.opRec o).src = k.srcs := hsame.srcs
    refine h.current o hmem' (by rw [← hrec]; exact hcode) ?_
    rw [← hrec, OpRec.srcAt, hsrcs]
    exact hmem
  have hv : v = s.module.values.length := by
    rcases ha.change with hc | ⟨hv, -⟩
    · exact absurd (by rw [hc.blockRec]) hnew
    · exact hv
  rcases hcases with ⟨hops, -⟩ | ⟨⟨o', hops, hop⟩, htok⟩
  · exact absurd hops hnew
  refine ⟨?_, ?_, ?_, hadd.runs, ?_, ?_, ?_⟩
  · show ∀ v ∈ (m'.blockRec s.block).params, (∃ p ∈ r.inputRegs, p.2 = v) ∨ r.memoryIn = some v
    rw [hadd.params, hr.1, hr.2]
    exact h.params
  · show ∀ p ∈ r.inputRegs, p.2 ∈ (m'.blockRec s.block).params
    rw [hadd.params, hr.1]
    exact h.inputs
  · show ∀ v, r.memoryIn = some v → v ∈ (m'.blockRec s.block).params
    rw [hadd.params, hr.2]
    exact h.memoryIn
  · show m'.TokensOk r.memoryIn (m'.blockRec s.block).ops
    rw [hr.2]
    exact hadd.tokens
  · show ∀ o ∈ (m'.blockRec s.block).ops, (m'.opRec o).opcode = .store →
      some v ≠ some ((m'.opRec o).srcAt 0)
    intro o ho hst heq
    rw [Option.some.injEq, hv] at heq
    rw [hops] at ho
    rcases List.mem_append.mp ho with ho | ho
    · -- the tokens that the stores before took are older
      have hsrc : (m'.opRec o).srcAt 0 < s.module.values.length := by
        obtain ⟨av, hok⟩ := opsOk_mem hi.draft.ops ho
        rw [hg.opRec o (holt o ho)] at hst ⊢
        have harity := (arityOk_of_typeRule hok.typed).2 hst
        exact hwf.op_src o (holt o ho) _ (OpRec.srcAt_mem (by omega))
      omega
    · rw [List.mem_singleton] at ho
      rw [ho, hop] at heq
      have hcur := hi.memory _ hmem
      have := hcur.usable.lt
      change s.module.values.length = k.srcs.getD 0 invalidId at heq
      omega
  · show m'.tokenAfter r.memoryIn (m'.blockRec s.block).ops = some v
    rw [hr.2, htok, if_pos ht]

/-- A parameter is added to the block. -/
theorem Runnable.addParam (h : Runnable s) (hi : LiftInv s) {t : Ty} {v : Nat} {m' : Module}
    (ha : ParamAdded s.block t s.module v m') :
    (m'.blockRec s.block).params = (s.module.blockRec s.block).params ++ [v] ∧
      (m'.blockRec s.block).ops = (s.module.blockRec s.block).ops ∧
      (∀ o ∈ (m'.blockRec s.block).ops, OpRuns m' (m'.opRec o)) ∧
      (∀ tok, s.module.TokensOk tok (s.module.blockRec s.block).ops →
        m'.TokensOk tok (m'.blockRec s.block).ops) ∧
      (∀ tok, m'.tokenAfter tok (m'.blockRec s.block).ops =
        s.module.tokenAfter tok (s.module.blockRec s.block).ops) ∧
      ∀ o ∈ (m'.blockRec s.block).ops, m'.opRec o = s.module.opRec o ∧
        o < s.module.ops.length := by
  have hwf := hi.draft.wf
  have hlt := hi.draft.isOpen.1
  have hg := ha.extends_.grows
  have holt : ∀ o ∈ (s.module.blockRec s.block).ops, o < s.module.ops.length := fun o ho =>
    hwf.mem_ops_lt hlt ho
  have hrec := ha.blockRec hlt
  have hops : (m'.blockRec s.block).ops = (s.module.blockRec s.block).ops := by rw [hrec]; rfl
  rw [hops]
  exact ⟨by rw [hrec]; rfl, rfl, fun o ho => (h.runs o ho).grows hwf hg (holt o ho),
    fun tok => tokensOk_grows hwf hg holt, fun tok => tokenAfter_grows hwf hg holt tok,
    fun o ho => ⟨hg.opRec o (holt o ho), holt o ho⟩⟩

/-- A register becomes a parameter. -/
theorem Runnable.regParam (h : Runnable s) (hi : LiftInv s) {reg : X86Reg} {v : Nat} {m' : Module}
    {t : Ty} (ha : ParamAdded s.block t s.module v m') :
    Runnable { s with
      module := m'
      regs := fun r => if r = reg then some v else s.regs r
      result := { s.result with inputRegs := s.result.inputRegs ++ [(reg, v)] } } := by
  obtain ⟨hp, hops, hruns, htok, hafter, hrec⟩ := h.addParam hi ha
  refine ⟨?_, ?_, ?_, hruns, htok _ h.tokens, ?_, (hafter _).trans h.token⟩
  · show ∀ u ∈ (m'.blockRec s.block).params,
      (∃ p ∈ s.result.inputRegs ++ [(reg, v)], p.2 = u) ∨ s.result.memoryIn = some u
    intro u hu
    rw [hp] at hu
    rcases List.mem_append.mp hu with hu | hu
    · exact (h.params u hu).imp (fun ⟨p, hp, he⟩ => ⟨p, List.mem_append_left _ hp, he⟩) id
    · rw [List.mem_singleton] at hu
      exact .inl ⟨(reg, v), by simp, hu.symm⟩
  · show ∀ p ∈ s.result.inputRegs ++ [(reg, v)], p.2 ∈ (m'.blockRec s.block).params
    rw [hp]
    intro p hmem
    rcases List.mem_append.mp hmem with hmem | hmem
    · exact List.mem_append_left _ (h.inputs p hmem)
    · rw [List.mem_singleton] at hmem
      rw [hmem]
      simp
  · show ∀ u, s.result.memoryIn = some u → u ∈ (m'.blockRec s.block).params
    rw [hp]
    exact fun u hu => List.mem_append_left _ (h.memoryIn u hu)
  · show ∀ o ∈ (m'.blockRec s.block).ops, (m'.opRec o).opcode = .store →
      s.memory ≠ some ((m'.opRec o).srcAt 0)
    intro o ho
    rw [(hrec o ho).1]
    exact h.current o (hops ▸ ho)

/-- Memory becomes a parameter: so far no operation has a token. -/
theorem Runnable.memParam (h : Runnable s) (hi : LiftInv s) {v : Nat} {m' : Module}
    (hnone : s.memory = none) {t : Ty} (ha : ParamAdded s.block t s.module v m') :
    Runnable { s with
      module := m', memory := some v, result := { s.result with memoryIn := some v } } := by
  obtain ⟨hp, hops, hruns, htok, hafter, hrec⟩ := h.addParam hi ha
  have hin := hi.memoryIn hnone
  have htokens := h.tokens
  have htoken := h.token
  rw [hin] at htokens htoken
  rw [hnone] at htoken
  obtain ⟨h1, h2⟩ := tokens_of_none htokens htoken v
  refine ⟨?_, ?_, ?_, hruns, htok _ h1, ?_, (hafter _).trans h2⟩
  · show ∀ u ∈ (m'.blockRec s.block).params, (∃ p ∈ s.result.inputRegs, p.2 = u) ∨ some v = some u
    intro u hu
    rw [hp] at hu
    rcases List.mem_append.mp hu with hu | hu
    · refine (h.params u hu).imp id fun hm => ?_
      rw [hin] at hm
      cases hm
    · rw [List.mem_singleton] at hu
      exact .inr (by rw [hu])
  · show ∀ p ∈ s.result.inputRegs, p.2 ∈ (m'.blockRec s.block).params
    rw [hp]
    exact fun p hmem => List.mem_append_left _ (h.inputs p hmem)
  · show ∀ u, some v = some u → u ∈ (m'.blockRec s.block).params
    rintro u ⟨⟩
    rw [hp]
    simp
  · show ∀ o ∈ (m'.blockRec s.block).ops, (m'.opRec o).opcode = .store →
      some v ≠ some ((m'.opRec o).srcAt 0)
    intro o ho hst heq
    obtain ⟨hr, hlt⟩ := hrec o ho
    rw [hr] at hst heq
    obtain ⟨av, hok⟩ := opsOk_mem hi.draft.ops (hops ▸ ho)
    have harity := (arityOk_of_typeRule hok.typed).2 hst
    have hsrc := hi.draft.wf.op_src o hlt _ (OpRec.srcAt_mem (i := 0) (by omega))
    rw [Option.some.injEq, ha.value] at heq
    omega

theorem Runnable.sameCore (h : Runnable s) (hi : LiftInv s) {m' : Module}
    (hc : SameCore s.module m') : Runnable { s with module := m' } := by
  have hwf := hi.draft.wf
  have hg := grows_sameCore hc
  have holt : ∀ o ∈ (s.module.blockRec s.block).ops, o < s.module.ops.length := fun o ho =>
    hwf.mem_ops_lt hi.draft.isOpen.1 ho
  have hrec : m'.blockRec s.block = s.module.blockRec s.block := hc.blockRec _
  refine ⟨?_, ?_, ?_, ?_, ?_, ?_, ?_⟩
  · show ∀ u ∈ (m'.blockRec s.block).params, _
    rw [hrec]
    exact h.params
  · show ∀ p ∈ s.result.inputRegs, p.2 ∈ (m'.blockRec s.block).params
    rw [hrec]
    exact h.inputs
  · show ∀ u, s.result.memoryIn = some u → u ∈ (m'.blockRec s.block).params
    rw [hrec]
    exact h.memoryIn
  · show ∀ o ∈ (m'.blockRec s.block).ops, _
    rw [hrec]
    exact fun o ho => (h.runs o ho).grows hwf hg (holt o ho)
  · show m'.TokensOk s.result.memoryIn (m'.blockRec s.block).ops
    rw [hrec]
    exact tokensOk_grows hwf hg holt h.tokens
  · show ∀ o ∈ (m'.blockRec s.block).ops, (m'.opRec o).opcode = .store →
      s.memory ≠ some ((m'.opRec o).srcAt 0)
    rw [hrec]
    intro o ho
    rw [hc.opRec]
    exact h.current o ho
  · show m'.tokenAfter s.result.memoryIn (m'.blockRec s.block).ops = s.memory
    rw [hrec, tokenAfter_grows hwf hg holt]
    exact h.token

theorem QuietStep.runnable (hi : LiftInv s) (hs : QuietStep s s') (h : Runnable s) :
    Runnable s' := by
  cases hs with
  | param _ _ ha => exact h.regParam hi ha
  | memParam hnone ha => exact h.memParam hi hnone ha
  | op hb hop hruns ha =>
    exact h.addOp hi hb (fun hst => hop (.inr hst)) ha hruns fun hm => absurd hm hop
  | same hc _ => exact h.sameCore hi hc

theorem LiftStep.runnable (hi : LiftInv s) (hs : LiftStep s s') (h : Runnable s) :
    Runnable s' := by
  cases hs with
  | quiet hs => exact hs.runnable hi h
  | load hs =>
    cases hs with
    | load hb hk hm hruns ha => exact h.addOp hi hb (by rw [hk]; decide) ha hruns fun _ => hm
  | store hs =>
    cases hs with
    | store hb hk ht hm hruns ha =>
      refine h.addStore hi hb hk ?_ ha hruns hm _ ⟨rfl, rfl⟩
      rw [ht]
      rfl
  | note hs =>
    cases hs <;>
      exact ⟨h.params, h.inputs, h.memoryIn, h.runs, h.tokens, h.current, h.token⟩

theorem LiftSteps.runnable (hi : LiftInv s) (hs : LiftSteps n s s') (h : Runnable s) :
    Runnable s' := by
  have hboth := hs.induct (P := fun t => LiftInv t ∧ Runnable t)
    (fun a c ⟨ha, hra⟩ hac => ⟨hac.inv ha, hac.runnable ha hra⟩) ⟨hi, h⟩
  exact hboth.2

end Steps

end Xair
