import Xair.ThreadedRun
import Xair.VexMachine

/-!
# What a session has written of its block

A session writes into a module `F` that verifies in the end.  The operations that it has written
into its current block so far are the first ones of that block in `F`; they are evaluated from
what the block starts with (`VexWritten`).  An operation that the adapter builds is one of them
afterwards, also when value numbering hands out a value that was there (`VexWritten.build`), and
what stood for a value before still does.
-/

namespace Xair

/-! ### Operations of later modules -/

section Later

variable {m m' : Module} {b : Nat}

/-- A builder call only appends operations to a block. -/
theorem BuildStep.ops_prefix (h : BuildStep m m') (b : Nat) :
    (m.blockRec b).ops <+: (m'.blockRec b).ops := by
  have hsame : ∀ {m₁ : Module}, SameCore m₁ m' → (m.blockRec b).ops <+: (m₁.blockRec b).ops →
      (m.blockRec b).ops <+: (m'.blockRec b).ops := fun hc h => by rwa [hc.blockRec b]
  cases h with
  | same hc => exact hsame hc (List.prefix_refl _)
  | block name _ hc =>
    refine hsame hc ?_
    rw [m.blockRec_withBlock]
    split
    · exact List.prefix_refl _
    · next hb =>
      have hdefault : m.blockRec b = Module.defaultBlock := List.getD_eq_default _ _ (by omega)
      rw [hdefault]
      exact List.nil_prefix
  | param c t name ho _ _ hc =>
    exact hsame hc (prefix_of_eq (Module.withParam_ops b).symm)
  | op k name ho _ _ _ _ _ hc =>
    refine hsame hc ?_
    rw [m.blockRec_withOp]
    split
    · next hcb =>
      rw [hcb.1]
      exact List.prefix_append _ _
    · exact List.prefix_refl _
  | args ids hc => exact hsame hc (List.prefix_refl _)
  | term c t ids ho _ hc =>
    refine hsame hc (prefix_of_eq ?_)
    rw [m.blockRec_withTerm]
    split
    · next hcb => rw [hcb.1]
    · rfl

theorem Module.Later.ops_prefix (h : m.Later m') (b : Nat) :
    (m.blockRec b).ops <+: (m'.blockRec b).ops :=
  h.keeps (R := fun m m' => (m.blockRec b).ops <+: (m'.blockRec b).ops)
    (fun _ => List.prefix_refl _) (fun _ _ _ => List.IsPrefix.trans) fun _ _ hs => hs.ops_prefix b

end Later

/-! ### The operations written so far -/

/-- The operations of the current block. -/
def VexSession.ops (s : VexSession) : List Nat :=
  (s.adapter.module.blockRec s.adapter.current).ops

/-- What the operations of the current block mean, evaluated from `L`. -/
def VexSession.meaning (s : VexSession) (F : Module) (L : Meaning) : Meaning := L.ops F s.ops

/-- The value `v` stands for `x` once the operations `pre` of block `b` are evaluated to `N`. -/
structure Stands (F : Module) (b : Nat) (pre : List Nat) (N : Meaning) (v : Nat) (x : ExecValue) :
    Prop where
  available : F.valueIsAvailable (F.availableAfter b pre) v = true
  reads : ∃ y, refRead F N.env v = .ok y ∧ ValEq y x
  inRange : x.InRange

/-- The session has written the first operations of its block in `F`, which take the memory tokens
in a row from `tok` on. -/
structure VexWritten (F : Module) (L : Meaning) (tok : Option Nat) (s : VexSession) : Prop where
  ready : s.adapter.Ready
  wf : s.adapter.module.WF
  later : s.adapter.module.Later F
  means : MeansUpto F s.adapter.current L s.ops (s.meaning F L)
  inBounds : ∀ o ∈ s.ops, ((s.meaning F L).reading F).InBounds F (F.opRec o)
  tokens : F.TokensOk tok s.ops
  taken : ∀ o ∈ s.ops, (F.opRec o).opcode = .store →
    s.adapter.memory ≠ some ((F.opRec o).srcAt 0)
  token : F.tokenAfter tok s.ops = s.adapter.memory

section Stands

variable {F : Module} {b : Nat} {pre : List Nat} {N N' : Meaning} {v : Nat} {x y : ExecValue}

theorem Stands.agree {pre' : List Nat} (h : Stands F b pre N v x)
    (hav : ∀ u, F.valueIsAvailable (F.availableAfter b pre) u = true →
      F.valueIsAvailable (F.availableAfter b pre') u = true)
    (ha : AgreeOn F (F.availableAfter b pre) N N') : Stands F b pre' N' v x := by
  obtain ⟨y, hy, hval⟩ := h.reads
  exact ⟨hav v h.available, ⟨y, (ha v h.available).1.trans hy, hval⟩, h.inRange⟩

theorem Stands.type (h : Stands F b pre N v x)
    (hr : Ready F (refRead F N.env) (F.availableAfter b pre)) : x.type = F.valueType v := by
  obtain ⟨y, hy, hval⟩ := h.reads
  obtain ⟨z, hz, ht⟩ := hr v h.available
  rw [hy] at hz
  cases hz
  rw [← hval.1, ht]

/-- A value that is no token is read. -/
theorem Stands.read (h : Stands F b pre N v x) (hx : x.type.kind ≠ .mem) :
    refRead F N.env v = .ok x := by
  obtain ⟨y, hy, hval⟩ := h.reads
  rw [hy, hval.eq (by rw [hval.1]; exact hx)]

end Stands

/-- Being in bounds depends on the sources and the result. -/
theorem inBounds_congr {F : Module} {ρ ρ' : Denotation} {op : OpRec} (ha : op.ArityOk)
    (hv : ∀ v ∈ op.src, ρ'.value v = ρ.value v ∧ ρ'.memory v = ρ.memory v)
    (h : ρ.InBounds F op) : ρ'.InBounds F op := by
  have hsrc : ∀ i < op.src.length, ρ'.value (op.srcAt i) = ρ.value (op.srcAt i) ∧
      ρ'.memory (op.srcAt i) = ρ.memory (op.srcAt i) := fun i hi => hv _ (OpRec.srcAt_mem hi)
  unfold Denotation.InBounds at h ⊢
  split
  · next hop =>
    have hlen := ha.1 hop
    rw [hop] at h
    dsimp only at h
    rw [(hsrc 0 (by omega)).2, (hsrc 1 (by omega)).1]
    exact h
  · next hop =>
    have hlen := ha.2 hop
    rw [hop] at h
    dsimp only at h
    rw [(hsrc 1 (by omega)).1, (hsrc 2 (by omega)).1]
    exact h
  · trivial

/-- The adapter has built an operation with the key `k` and got the value `v` for it. -/
structure VexAdds (s s' : VexSession) (k : OpKey) (v : Nat) : Prop where
  added : ∃ name, addOp s.adapter.module k name = (s'.adapter.module, .ok v)
  sources : ∀ u ∈ k.srcs, u < s.adapter.module.values.length
  block : k.block = s.adapter.current
  ready : s'.adapter.Ready
  current : s'.adapter.current = s.adapter.current
  memory : s'.adapter.memory = if k.opcode = .store then some v else s.adapter.memory

/-- The operation with the key `k` whose result is `v`. -/
def OpKey.record (k : OpKey) (v : Nat) : OpRec := ⟨k.opcode, v, k.srcs, k.endian, k.imm⟩

section Build

variable {F : Module} {L : Meaning} {tok : Option Nat} {s s' : VexSession} {k : OpKey} {v : Nat}

theorem VexAdds.computes (h : VexAdds s s' k v) (hwf : s.adapter.module.WF) :
    s'.adapter.module.WF ∧ Grows s.adapter.module s'.adapter.module ∧
      s'.adapter.module.Computes v k := by
  obtain ⟨name, hadd⟩ := h.added
  have hres : (addOp s.adapter.module k name).2 = .ok v := by rw [hadd]
  have hall := addOp_computes hwf h.sources hres
  rwa [hadd] at hall

/-- The operation is the last one of the block now, or nothing has changed. -/
theorem VexAdds.ops (h : VexAdds s s' k v) (hr : s.adapter.Ready) :
    s'.ops = s.ops ∨ v = s.adapter.module.values.length ∧
      s'.ops = s.ops ++ [s.adapter.module.ops.length] ∧
      s'.adapter.module.opRec s.adapter.module.ops.length = k.record v := by
  obtain ⟨name, hadd⟩ := h.added
  have hres : (addOp s.adapter.module k name).2 = .ok v := by rw [hadd]
  have hnum := addOp_numbered hres
  rw [hadd] at hnum
  rw [VexSession.ops, h.current]
  rcases hnum with ⟨hc, -⟩ | ⟨hv, n, hc⟩
  · exact .inl (congrArg BlockRec.ops (hc.blockRec _))
  · refine .inr ⟨hv, ?_, ?_⟩
    · rw [hc.blockRec, Module.blockRec_withOp, if_pos ⟨h.block, h.block ▸ hr.current_lt⟩]
      rw [h.block]
      rfl
    · rw [hc.opRec, Module.withOp_newOp, hv]
      rfl

/-- A value of the block is the result of one of its operations. -/
theorem mem_ops_of_computes {m : Module} (hwf : m.WF) {b : Nat} (hb : b < m.blocks.length)
    (hc : m.Computes v k) (hk : k.opcode ≠ .constU64) (hblock : k.block = b) :
    ∃ o ∈ (m.blockRec b).ops, m.opRec o = k.record v := by
  obtain ⟨o, ho, rfl, hs⟩ := (valueNumberMatches_iff hwf).mp hc
  have hopb : (m.valueRec (m.opRec o).dst).block = b := by
    rcases hs.block with hconst | hblk
    · exact absurd (hs.opcode.symm.trans hconst) hk
    · exact hblk.trans hblock
  refine ⟨o, (hwf.block_ops b hb o).mpr ⟨ho, hopb⟩, ?_⟩
  have h1 : (m.opRec o).opcode = k.opcode := hs.opcode
  have h2 : (m.opRec o).src = k.srcs := hs.srcs
  have h3 : (m.opRec o).endian = k.endian := hs.endian
  have h4 : (m.opRec o).imm = k.imm := hs.imm
  rw [OpKey.record, ← h1, ← h2, ← h3, ← h4]

theorem VexWritten.current_lt (h : VexWritten F L tok s) : s.adapter.current < F.blocks.length :=
  (h.later.keepsBlock _).lt h.ready.current_lt

theorem VexWritten.opRec (h : VexWritten F L tok s) {o : Nat} (ho : o ∈ s.ops) :
    F.opRec o = s.adapter.module.opRec o :=
  h.later.grows.opRec o (h.wf.mem_ops_lt h.ready.current_lt ho)

theorem VexSession.meaning_snoc {o : Nat} (hops : s'.ops = s.ops ++ [o]) :
    s'.meaning F L = (s.meaning F L).op F (F.opRec o) := by
  rw [VexSession.meaning, hops, Meaning.ops, List.foldl_append]
  rfl

/-- What is known of the values before and of the new one when an operation was built. -/
structure VexBuilds (F : Module) (L : Meaning) (tok : Option Nat) (s s' : VexSession) (k : OpKey)
    (v : Nat) : Prop where
  written : VexWritten F L tok s'
  agree : AgreeOn F (F.availableAfter s.adapter.current s.ops) (s.meaning F L) (s'.meaning F L)
  mono : ∀ u, F.valueIsAvailable (F.availableAfter s.adapter.current s.ops) u = true →
    F.valueIsAvailable (F.availableAfter s.adapter.current s'.ops) u = true
  available : F.valueIsAvailable (F.availableAfter s.adapter.current s'.ops) v = true
  type : F.valueType v = k.type
  fits : k.opcode ≠ .constU64 → ((s'.meaning F L).reading F).Fits F (k.record v)

/-- The result can be used afterwards. -/
theorem VexWritten.builds (h : VexWritten F L tok s') (hb : k.block = s'.adapter.current)
    (hc : s'.adapter.module.Computes v k)
    (hcur : s'.adapter.current = s.adapter.current)
    (hagree : AgreeOn F (F.availableAfter s.adapter.current s.ops) (s.meaning F L) (s'.meaning F L))
    (hmono : ∀ u, F.valueIsAvailable (F.availableAfter s.adapter.current s.ops) u = true →
      F.valueIsAvailable (F.availableAfter s.adapter.current s'.ops) u = true) :
    VexBuilds F L tok s s' k v := by
  have hF := h.later.wf h.wf
  have hcF := hc.grows h.wf hF h.later.grows
  refine ⟨h, hagree, hmono, ?_, hcF.type hF, fun hk => ?_⟩
  · by_cases hk : k.opcode = .constU64
    · obtain ⟨o, ho, rfl, hs⟩ := (valueNumberMatches_iff hF).mp hcF
      refine valueIsAvailable_iff.mpr ⟨(hF.op_dst o ho).1, .inr ?_⟩
      have hcode : (F.opRec o).opcode = .constU64 := hs.opcode.trans hk
      simp [Module.valueIsGlobalConst, Module.validValue, (hF.op_dst o ho).1, hF.valueOp_dst ho,
        hcode]
    · obtain ⟨o, ho, hrec⟩ := mem_ops_of_computes h.wf h.ready.current_lt hc hk hb
      have hdst : (F.opRec o).dst = v := by
        rw [h.opRec ho, hrec]
        rfl
      rw [← hdst, ← hcur]
      exact available_dst ho (hdst ▸ hcF.lt hF)
  · obtain ⟨o, ho, hrec⟩ := mem_ops_of_computes h.wf h.ready.current_lt hc hk hb
    have hfit := h.means.fits o ho
    rw [h.opRec ho, hrec] at hfit
    exact hfit

/-- The operations with a token for a result are the stores. -/
theorem Module.Computes.isMem_iff (hF : F.WF) (hver : F.Verified) (hc : F.Computes v k) :
    (F.valueType v).isMem = true ↔ k.opcode = .store := by
  obtain ⟨o, ho, rfl, hs⟩ := (valueNumberMatches_iff hF).mp hc
  have htyped := typed_of_verified hF hver o ho
  have hcode : (F.opRec o).opcode = k.opcode := hs.opcode
  rw [hcode] at htyped
  refine ⟨fun hm => typeRule_mem htyped hm, fun hk => ?_⟩
  rw [hk] at htyped
  obtain ⟨tm, ta, td, -, htm, -, hout, -⟩ := typeRule_store htyped
  rw [hout]
  exact htm

/-- Value numbering hands out no store, since none takes the current token. -/
theorem VexWritten.reused_memory (h : VexWritten F L tok s) (ha : VexAdds s s' k v)
    (hmem : k.opcode.isMemoryOp → s.adapter.memory = some (k.srcs.getD 0 invalidId))
    (hops : s'.ops = s.ops) : s'.adapter.memory = s.adapter.memory := by
  obtain ⟨hwf', hg, hc⟩ := ha.computes h.wf
  rw [ha.memory]
  split
  · next hk =>
    obtain ⟨o, ho, hrec⟩ := mem_ops_of_computes hwf' ha.ready.current_lt hc (by rw [hk]; decide)
      (ha.block.trans ha.current.symm)
    change o ∈ s'.ops at ho
    rw [hops] at ho
    have hrecF : F.opRec o = k.record v := by
      rw [h.opRec ho, ← hrec, hg.opRec o (h.wf.mem_ops_lt h.ready.current_lt ho)]
    refine absurd (hmem (.inr hk)) ?_
    have htaken := h.taken o ho (by rw [hrecF]; exact hk)
    rw [hrecF] at htaken
    exact htaken
  · rfl

/-- **A value that was there.** -/
theorem VexWritten.reuse (h : VexWritten F L tok s) (ha : VexAdds s s' k v)
    (hl : s'.adapter.module.Later F)
    (hmem : k.opcode.isMemoryOp → s.adapter.memory = some (k.srcs.getD 0 invalidId))
    (hops : s'.ops = s.ops) : VexBuilds F L tok s s' k v := by
  obtain ⟨hwf', -, hc⟩ := ha.computes h.wf
  have hmemory := h.reused_memory ha hmem hops
  have hmeaning : s'.meaning F L = s.meaning F L := by rw [VexSession.meaning, hops]; rfl
  have hw : VexWritten F L tok s' := by
    refine ⟨ha.ready, hwf', hl, ?_, ?_, ?_, ?_, ?_⟩
    · rw [ha.current, hops, hmeaning]
      exact h.means
    · rw [hops, hmeaning]
      exact h.inBounds
    · rw [hops]
      exact h.tokens
    · rw [hops, hmemory]
      exact h.taken
    · rw [hops, hmemory]
      exact h.token
  refine hw.builds (ha.block.trans ha.current.symm) hc ha.current ?_ fun u hu => by rwa [hops]
  rw [hmeaning]
  exact .refl _ _ _

/-- The operation that was built is the next one of the block, also in `F`. -/
structure VexAppends (F : Module) (s s' : VexSession) (k : OpKey) (v : Nat) : Prop where
  ops : s'.ops = s.ops ++ [s.adapter.module.ops.length]
  split : ∃ post, (F.blockRec s.adapter.current).ops =
    s.ops ++ s.adapter.module.ops.length :: post
  record : F.opRec s.adapter.module.ops.length = k.record v

theorem VexAdds.appends (h : VexWritten F L tok s) (ha : VexAdds s s' k v)
    (hl : s'.adapter.module.Later F) (hops : s'.ops = s.ops ++ [s.adapter.module.ops.length])
    (hrec : s'.adapter.module.opRec s.adapter.module.ops.length = k.record v) :
    VexAppends F s s' k v := by
  obtain ⟨hwf', -, -⟩ := ha.computes h.wf
  refine ⟨hops, ?_, ?_⟩
  · obtain ⟨post, hpost⟩ := hl.ops_prefix s.adapter.current
    refine ⟨post, ?_⟩
    rw [← hpost, ← ha.current]
    change s'.ops ++ post = _
    rw [hops, List.append_assoc]
    rfl
  · have hlast : s.adapter.module.ops.length ∈ s'.ops := by
      rw [hops]
      simp
    rw [← hrec]
    exact hl.grows.opRec _ (hwf'.mem_ops_lt ha.ready.current_lt hlast)

namespace VexAppends

theorem ok (hp : VexAppends F s s' k v) (hver : F.Verified) (h : VexWritten F L tok s) :
    OpOk F s.adapter.current (F.availableAfter s.adapter.current s.ops)
      s.adapter.module.ops.length := by
  obtain ⟨post, hsplit⟩ := hp.split
  exact opOk_at hver h.current_lt hsplit

/-- What stood for a value before still does. -/
theorem agree (hp : VexAppends F s s' k v) (hver : F.Verified) (h : VexWritten F L tok s)
    (hruns : (s.meaning F L).Runs F (k.record v)) :
    AgreeOn F (F.availableAfter s.adapter.current s.ops) (s.meaning F L) (s'.meaning F L) := by
  obtain ⟨post, hsplit⟩ := hp.split
  obtain ⟨x, f, heq, -, hmeans⟩ := Meaning.op_eq (hp.ok hver h) h.means.ready
    (by rwa [hp.record])
  have hagree := hmeans.agree (h.later.wf h.wf) h.current_lt hsplit
  rw [← heq, ← VexSession.meaning_snoc hp.ops] at hagree
  exact hagree

theorem value_eq (hp : VexAppends F s s' k v) (hver : F.Verified) (h : VexWritten F L tok s)
    (hruns : (s.meaning F L).Runs F (k.record v)) {u : Nat}
    (hu : F.valueIsAvailable (F.availableAfter s.adapter.current s.ops) u = true) :
    ((s'.meaning F L).reading F).value u = ((s.meaning F L).reading F).value u ∧
      ((s'.meaning F L).reading F).memory u = ((s.meaning F L).reading F).memory u := by
  obtain ⟨h1, h2⟩ := hp.agree hver h hruns u hu
  exact ⟨show readValue F _ u = readValue F _ u by rw [readValue, readValue, h1], h2⟩

theorem means (hp : VexAppends F s s' k v) (hver : F.Verified) (h : VexWritten F L tok s)
    (hruns : (s.meaning F L).Runs F (k.record v)) :
    MeansUpto F s.adapter.current L s'.ops (s'.meaning F L) := by
  obtain ⟨post, hsplit⟩ := hp.split
  rw [VexSession.meaning_snoc hp.ops, hp.ops]
  exact h.means.snoc (h.later.wf h.wf) h.current_lt hsplit (hp.ok hver h) (by rwa [hp.record])

theorem inBounds (hp : VexAppends F s s' k v) (hver : F.Verified) (h : VexWritten F L tok s)
    (hruns : (s.meaning F L).Runs F (k.record v))
    (hin : ((s.meaning F L).reading F).InBounds F (k.record v)) :
    ∀ o ∈ s'.ops, ((s'.meaning F L).reading F).InBounds F (F.opRec o) := by
  intro o ho
  rw [hp.ops] at ho
  rcases List.mem_append.mp ho with ho | ho
  · obtain ⟨harity, hav⟩ := h.means.sources o ho
    exact inBounds_congr harity (fun u hu => hp.value_eq hver h hruns (hav u (.inr hu)))
      (h.inBounds o ho)
  · have hok := hp.ok hver h
    rw [List.mem_singleton.mp ho]
    refine inBounds_congr (arityOk_of_typeRule hok.typed)
      (fun u hu => hp.value_eq hver h hruns (hok.sources u hu)) ?_
    rw [hp.record]
    exact hin

theorem tokens (hp : VexAppends F s s' k v) (h : VexWritten F L tok s)
    (hmem : k.opcode.isMemoryOp → s.adapter.memory = some (k.srcs.getD 0 invalidId)) :
    F.TokensOk tok s'.ops := by
  have htoken : F.tokenAfter tok s.ops = s.adapter.memory := h.token
  rw [hp.ops]
  refine tokensOk_snoc h.tokens fun hm => ?_
  rw [hp.record] at hm ⊢
  rw [htoken]
  exact hmem hm

/-- Every token that a store took is older than the current one. -/
theorem taken (hp : VexAppends F s s' k v) (hver : F.Verified) (h : VexWritten F L tok s)
    (ha : VexAdds s s' k v) (hv : v = s.adapter.module.values.length) :
    ∀ o ∈ s'.ops, (F.opRec o).opcode = .store →
      s'.adapter.memory ≠ some ((F.opRec o).srcAt 0) := by
  intro o ho hst
  rw [ha.memory]
  rw [hp.ops] at ho
  rcases List.mem_append.mp ho with ho | ho
  · split
    · intro heq
      have harity := (h.means.sources o ho).1
      rw [h.opRec ho] at hst harity heq
      have hsrc := h.wf.op_src o (h.wf.mem_ops_lt h.ready.current_lt ho) _
        (OpRec.srcAt_mem (i := 0) (by rw [harity.2 hst]; decide))
      rw [Option.some.injEq] at heq
      omega
    · exact h.taken o ho hst
  · have harity := arityOk_of_typeRule (hp.ok hver h).typed
    rw [List.mem_singleton.mp ho] at hst ⊢
    rw [hp.record] at hst harity ⊢
    have hk : k.opcode = .store := hst
    rw [if_pos hk]
    intro heq
    have hlen : k.srcs.length = 3 := harity.2 hst
    have hsrc := ha.sources _ (show (k.record v).srcAt 0 ∈ (k.record v).src from
      OpRec.srcAt_mem (by show 0 < k.srcs.length; omega))
    rw [Option.some.injEq] at heq
    omega

theorem token (hp : VexAppends F s s' k v) (h : VexWritten F L tok s) (ha : VexAdds s s' k v)
    (hmem : (F.valueType v).isMem = true ↔ k.opcode = .store) :
    F.tokenAfter tok s'.ops = s'.adapter.memory := by
  have htoken : F.tokenAfter tok s.ops = s.adapter.memory := h.token
  rw [hp.ops, tokenAfter_append, Module.nextToken, hp.record, htoken, ha.memory]
  by_cases hk : k.opcode = .store
  · rw [if_pos hk]
    exact if_pos (hmem.mpr hk)
  · rw [if_neg hk]
    exact if_neg fun hm => hk (hmem.mp hm)

end VexAppends

/-- **An operation that the adapter builds.** -/
theorem VexWritten.build (hver : F.Verified) (h : VexWritten F L tok s) (ha : VexAdds s s' k v)
    (hl : s'.adapter.module.Later F)
    (hruns : (s.meaning F L).Runs F (k.record v))
    (hmem : k.opcode.isMemoryOp → s.adapter.memory = some (k.srcs.getD 0 invalidId))
    (hin : ((s.meaning F L).reading F).InBounds F (k.record v)) : VexBuilds F L tok s s' k v := by
  have hF := h.later.wf h.wf
  obtain ⟨hwf', -, hc⟩ := ha.computes h.wf
  rcases ha.ops h.ready with hops | ⟨hv, hops, hrec⟩
  · exact h.reuse ha hl hmem hops
  · have hp := ha.appends h hl hops hrec
    have hkmem := (hc.grows hwf' hF hl.grows).isMem_iff hF hver
    have hw : VexWritten F L tok s' :=
      ⟨ha.ready, hwf', hl, ha.current ▸ hp.means hver h hruns, hp.inBounds hver h hruns hin,
        hp.tokens h hmem, hp.taken hver h ha hv, hp.token h ha hkmem⟩
    refine hw.builds (ha.block.trans ha.current.symm) hc ha.current (hp.agree hver h hruns) ?_
    intro u hu
    rw [hops, availableAfter_snoc]
    exact valueIsAvailable_mark_of hu

end Build

end Xair
