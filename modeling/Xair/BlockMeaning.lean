import Xair.LiftRuns

/-!
# The meaning of a block

A block whose operations are never unsupported has a denotation for any inputs
(`denotes_meaning`).  The operations are evaluated in order, a store on the map of the
token that it takes, and a load of bytes that its map lacks gives zero, so that none
fails.
-/

namespace Xair

/-- What a value is read as. -/
def readValue (m : Module) (r : RefState) (v : Nat) : ExecValue :=
  match refRead m r v with
  | .ok x => x
  | .error _ => execValueMake (m.valueType v) 0#64 0#64

theorem readValue_eq {m : Module} {r : RefState} {v : Nat} {x : ExecValue}
    (h : refRead m r v = .ok x) : readValue m r v = x := by
  rw [readValue, h]

/-- An environment, and the map of every token. -/
structure Meaning where
  env : RefState
  memory : Nat → ByteMap

namespace Meaning

/-- What each value stands for. -/
def reading (M : Meaning) (m : Module) : Denotation := ⟨readValue m M.env, M.memory⟩

/-- The value `v` becomes `x`, and as a token the map `f`. -/
def define (M : Meaning) (v : Nat) (x : ExecValue) (f : ByteMap) : Meaning :=
  ⟨M.env.define v x M.env.mem, fun u => if u = v then f else M.memory u⟩

/-- Evaluate an operation. -/
def op (M : Meaning) (m : Module) (op : OpRec) : Meaning :=
  let ρ := M.reading m
  let out := m.valueType op.dst
  match op.opcode with
  | .load =>
    let w := (execByteSizedScalar out).bind fun size =>
      (ρ.memory (op.srcAt 0)).loadU64 (ρ.value (op.srcAt 1)).lo size op.endian
    M.define op.dst (execValueMake out (w.getD 0#64) 0#64) (M.memory op.dst)
  | .store =>
    let f := match execByteSizedScalar (ρ.value (op.srcAt 2)).type with
      | some size => (ρ.memory (op.srcAt 0)).storeU64 (ρ.value (op.srcAt 1)).lo
        (ρ.value (op.srcAt 2)).lo size op.endian
      | none => ρ.memory (op.srcAt 0)
    M.define op.dst (execValueMake out 0#64 0#64) f
  | _ =>
    match execOpValue out (refRead m M.env) M.env.mem op with
    | .ok (x, _) => M.define op.dst x (M.memory op.dst)
    | .error _ => M

/-- Evaluate a list of operations. -/
def ops (M : Meaning) (m : Module) (os : List Nat) : Meaning :=
  os.foldl (fun M o => M.op m (m.opRec o)) M

end Meaning

section Step

variable {m : Module} {b o : Nat} {av : ValueSet} {M : Meaning}

/-- What an operation defines: `x`, and the map `f`. -/
def OpMeans (M : Meaning) (m : Module) (op : OpRec) (x : ExecValue) (f : ByteMap) : Prop :=
  match op.opcode with
  | .load => f = M.memory op.dst ∧ ∀ size w, execByteSizedScalar (m.valueType op.dst) = some size →
      (M.memory (op.srcAt 0)).loadU64 (readValue m M.env (op.srcAt 1)).lo size op.endian = some w →
      x = execValueMake (m.valueType op.dst) w 0#64
  | .store => ∀ size, execByteSizedScalar (readValue m M.env (op.srcAt 2)).type = some size →
      f = (M.memory (op.srcAt 0)).storeU64 (readValue m M.env (op.srcAt 1)).lo
        (readValue m M.env (op.srcAt 2)).lo size op.endian
  | _ => f = M.memory op.dst ∧ ∀ mem, execOpValue (m.valueType op.dst) (refRead m M.env) mem op =
      .ok (x, mem)

/-- The operation is not unsupported on the values that its sources have. -/
def Meaning.Runs (M : Meaning) (m : Module) (op : OpRec) : Prop :=
  ¬ op.opcode.isMemoryOp →
    execOpValue (m.valueType op.dst) (refRead m M.env) M.env.mem op ≠ .error .errUnsupported

theorem OpOk.runs (hok : OpOk m b av o) (hr : Ready m (refRead m M.env) av)
    (hruns : OpRuns m (m.opRec o)) : M.Runs m (m.opRec o) := fun _ =>
  hruns _ M.env.mem fun v hv => hr v (hok.sources v hv)

/-- What evaluating an operation does. -/
theorem Meaning.op_eq (hok : OpOk m b av o) (hr : Ready m (refRead m M.env) av)
    (hruns : M.Runs m (m.opRec o)) :
    ∃ x f, M.op m (m.opRec o) = M.define (m.opRec o).dst x f ∧
      x.type = m.valueType (m.opRec o).dst ∧ OpMeans M m (m.opRec o) x f := by
  have hquiet : ∀ {x : ExecValue} {mem : ExecMemory}, ¬ (m.opRec o).opcode.isMemoryOp →
      execOpValue (m.valueType (m.opRec o).dst) (refRead m M.env) M.env.mem (m.opRec o) =
        .ok (x, mem) → x.type = m.valueType (m.opRec o).dst ∧ ∀ mem,
        execOpValue (m.valueType (m.opRec o).dst) (refRead m M.env) mem (m.opRec o) =
          .ok (x, mem) := fun hop hx => ⟨(hok.value_type hr hx).1, execOpValue_quiet hop hx⟩
  by_cases hmem : (m.opRec o).opcode.isMemoryOp
  · rcases hmem with hop | hop
    · refine ⟨_, _, by rw [Meaning.op, hop], rfl, ?_⟩
      rw [OpMeans, hop]
      refine ⟨rfl, fun size w hsize hw => ?_⟩
      have hbind : ((execByteSizedScalar (m.valueType (m.opRec o).dst)).bind fun size =>
          ((M.reading m).memory ((m.opRec o).srcAt 0)).loadU64
            ((M.reading m).value ((m.opRec o).srcAt 1)).lo size (m.opRec o).endian) = some w := by
        rw [hsize]
        exact hw
      rw [hbind]
      rfl
    · refine ⟨_, _, by rw [Meaning.op, hop], rfl, ?_⟩
      rw [OpMeans, hop]
      intro size hsize
      have hsize' : execByteSizedScalar
          ((M.reading m).value ((m.opRec o).srcAt 2)).type = some size := hsize
      rw [hsize']
      rfl
  · have hout := hok.outcome hr M.env.mem
    have hne := hruns hmem
    have hrun : ∃ x mem, execOpValue (m.valueType (m.opRec o).dst) (refRead m M.env) M.env.mem
        (m.opRec o) = .ok (x, mem) := by
      generalize execOpValue (m.valueType (m.opRec o).dst) (refRead m M.env) M.env.mem
        (m.opRec o) = e at hout hne
      cases hout with
      | ok _ _ => exact ⟨_, _, rfl⟩
      | unsupported => exact absurd rfl hne
      | wraps hw =>
        obtain ⟨_, size, -, hsize, -⟩ := hw
        exact absurd (accessSize_memoryOp hsize) hmem
      | undefinedByte hu => exact absurd (.inl hu.1) hmem
    obtain ⟨x, mem, hx⟩ := hrun
    obtain ⟨ht, hall⟩ := hquiet hmem hx
    refine ⟨x, M.memory (m.opRec o).dst, ?_, ht, ?_⟩
    · unfold Meaning.op
      split
      · next hop => exact absurd (.inl hop) hmem
      · next hop => exact absurd (.inr hop) hmem
      · simp only [hx]
    · unfold OpMeans
      split
      · next hop => exact absurd (.inl hop) hmem
      · next hop => exact absurd (.inr hop) hmem
      · exact ⟨rfl, hall⟩

end Step

/-! ### The run of a block -/

/-- The two give the values of `av` the same meaning. -/
def AgreeOn (m : Module) (av : ValueSet) (M N : Meaning) : Prop :=
  ∀ v, m.valueIsAvailable av v = true → refRead m N.env v = refRead m M.env v ∧
    N.memory v = M.memory v

section Run

variable {m : Module} {b o : Nat} {M N : Meaning}

/-- Fitting depends on the sources and the result. -/
theorem fits_congr {ρ ρ' : Denotation} {op : OpRec} (ha : op.ArityOk)
    (hv : ∀ v, v = op.dst ∨ v ∈ op.src → ρ'.value v = ρ.value v ∧ ρ'.memory v = ρ.memory v)
    (h : ρ.Fits m op) : ρ'.Fits m op := by
  have hsrc : ∀ i < op.src.length, ρ'.value (op.srcAt i) = ρ.value (op.srcAt i) ∧
      ρ'.memory (op.srcAt i) = ρ.memory (op.srcAt i) := fun i hi =>
    hv _ (.inr (OpRec.srcAt_mem hi))
  obtain ⟨hd, hdm⟩ := hv op.dst (.inl rfl)
  unfold Denotation.Fits at h ⊢
  split
  · next hop =>
    have hlen := ha.1 hop
    rw [hop] at h
    dsimp only at h
    rw [(hsrc 0 (by omega)).2, (hsrc 1 (by omega)).1, hd]
    exact h
  · next hop =>
    have hlen := ha.2 hop
    rw [hop] at h
    dsimp only at h
    rw [hdm, (hsrc 0 (by omega)).2, (hsrc 1 (by omega)).1, (hsrc 2 (by omega)).1]
    exact h
  · next h1 h2 =>
    have hfit : ∀ mem, execOpValue (m.valueType op.dst) (fun v => .ok (ρ.value v)) mem op =
        .ok (ρ.value op.dst, mem) := by
      split at h
      · next hop => exact absurd hop h1
      · next hop => exact absurd hop h2
      · exact h
    intro mem
    rw [hd, ← hfit mem]
    exact execOpValue_congr ha (.refl _) fun s hs => by rw [(hv s (.inr hs)).1]

theorem AgreeOn.refl (m : Module) (av : ValueSet) (M : Meaning) : AgreeOn m av M M :=
  fun _ _ => ⟨rfl, rfl⟩

theorem AgreeOn.trans {av : ValueSet} {L : Meaning} (h : AgreeOn m av L M) (h' : AgreeOn m av M N) :
    AgreeOn m av L N := fun v hv =>
  ⟨(h' v hv).1.trans (h v hv).1, (h' v hv).2.trans (h v hv).2⟩

theorem valueIsAvailable_mark_of {av : ValueSet} {d v : Nat}
    (h : m.valueIsAvailable av v = true) : m.valueIsAvailable (av.mark d) v = true := by
  rw [valueIsAvailable_iff] at h ⊢
  exact ⟨h.1, h.2.imp (fun h => by simp [h]) id⟩

theorem availableAtStart_after {v : Nat} (pre : List Nat)
    (h : m.valueIsAvailable (m.availableAtStart b) v = true) :
    m.valueIsAvailable (m.availableAfter b pre) v = true := by
  rw [valueIsAvailable_iff] at h ⊢
  refine ⟨h.1, h.2.imp (fun h => ?_) id⟩
  rw [Module.availableAfter, ValueSet.markAll_apply, h, Bool.or_true]

/-- Only a constant has a constant result. -/
theorem opcode_of_const {o : Nat} (hwf : m.WF) (ho : o < m.ops.length)
    (hc : m.valueIsGlobalConst (m.opRec o).dst = true) : (m.opRec o).opcode = .constU64 := by
  rw [Module.valueIsGlobalConst, hwf.valueOp_dst ho] at hc
  simpa [Module.validValue] using (Bool.and_eq_true_iff.mp hc).2

/-- An operation gives the values before it no other meaning. -/
theorem OpMeans.agree (hwf : m.WF) (hb : b < m.blocks.length) {pre post : List Nat}
    (hsplit : (m.blockRec b).ops = pre ++ o :: post) {x : ExecValue} {f : ByteMap}
    (h : OpMeans M m (m.opRec o) x f) :
    AgreeOn m (m.availableAfter b pre) M (M.define (m.opRec o).dst x f) := by
  intro v hv
  refine ⟨refRead_after hwf hb hsplit M.env x M.env.mem hv, ?_⟩
  show (if v = (m.opRec o).dst then f else M.memory v) = M.memory v
  by_cases hvd : v = (m.opRec o).dst
  · -- then it is a constant
    have ho := hwf.mem_ops_lt hb (o := o) (by rw [hsplit]; simp)
    have hop := opcode_of_const hwf ho (const_of_available hwf hb hsplit (hvd ▸ hv))
    rw [OpMeans, hop] at h
    rw [if_pos hvd, hvd, h.1]
  · rw [if_neg hvd]

/-- The result of the operation fits it. -/
theorem OpMeans.fits (hwf : m.WF) (hb : b < m.blocks.length) {pre post : List Nat}
    (hsplit : (m.blockRec b).ops = pre ++ o :: post) (hok : OpOk m b (m.availableAfter b pre) o)
    (hr : Ready m (refRead m M.env) (m.availableAfter b pre)) {x : ExecValue} {f : ByteMap}
    (h : OpMeans M m (m.opRec o) x f) :
    ((M.define (m.opRec o).dst x f).reading m).Fits m (m.opRec o) := by
  have ho := hwf.mem_ops_lt hb (o := o) (by rw [hsplit]; simp)
  have hagree := h.agree hwf hb hsplit
  have hsrc : ∀ s ∈ (m.opRec o).src,
      readValue m (M.define (m.opRec o).dst x f).env s = readValue m M.env s ∧
        (M.define (m.opRec o).dst x f).memory s = M.memory s := fun s hs => by
    obtain ⟨h1, h2⟩ := hagree s (hok.sources s hs)
    exact ⟨by rw [readValue, readValue, h1], h2⟩
  have hat : ∀ i < (m.opRec o).src.length, _ := fun i hi => hsrc _ (OpRec.srcAt_mem hi)
  have harity := arityOk_of_typeRule hok.typed
  have hdst : m.valueIsGlobalConst (m.opRec o).dst = false →
      readValue m (M.define (m.opRec o).dst x f).env (m.opRec o).dst = x := fun hc =>
    readValue_eq (refRead_env hc (by simp [Meaning.define, RefState.define]))
  have hnc : (m.opRec o).opcode ≠ .constU64 → m.valueIsGlobalConst (m.opRec o).dst = false :=
    fun hop => by
      by_contra hc
      rw [Bool.not_eq_false] at hc
      exact hop (opcode_of_const hwf ho hc)
  have hmap : (M.define (m.opRec o).dst x f).memory (m.opRec o).dst = f := if_pos rfl
  unfold Denotation.Fits
  unfold OpMeans at h
  show match (m.opRec o).opcode with | .load => _ | .store => _ | _ => _
  split
  · next hop =>
    rw [hop] at h
    have hlen := harity.1 hop
    intro size w hsize hw
    refine (hdst (hnc (by rw [hop]; decide))).trans (h.2 size w hsize ?_)
    rw [← (hat 0 (by omega)).2, ← (hat 1 (by omega)).1]
    exact hw
  · next hop =>
    rw [hop] at h
    have hlen := harity.2 hop
    intro size hsize
    refine hmap.trans ?_
    show f = ((M.define (m.opRec o).dst x f).memory ((m.opRec o).srcAt 0)).storeU64
      (readValue m (M.define (m.opRec o).dst x f).env ((m.opRec o).srcAt 1)).lo
      (readValue m (M.define (m.opRec o).dst x f).env ((m.opRec o).srcAt 2)).lo size
        (m.opRec o).endian
    rw [(hat 0 (by omega)).2, (hat 1 (by omega)).1, (hat 2 (by omega)).1]
    refine h size ?_
    rw [← (hat 2 (by omega)).1]
    exact hsize
  · next h1 h2 =>
    have hop : ∀ mem, execOpValue (m.valueType (m.opRec o).dst) (refRead m M.env) mem (m.opRec o) =
        .ok (x, mem) := by
      split at h
      · next hop => exact absurd hop h1
      · next hop => exact absurd hop h2
      · exact h.2
    intro mem
    show execOpValue _ (fun v => .ok (readValue m (M.define (m.opRec o).dst x f).env v)) mem _ =
      .ok (readValue m (M.define (m.opRec o).dst x f).env (m.opRec o).dst, mem)
    have heq : execOpValue (m.valueType (m.opRec o).dst)
        (fun v => .ok (readValue m (M.define (m.opRec o).dst x f).env v)) mem (m.opRec o) =
        .ok (x, mem) := by
      rw [← hop mem]
      refine execOpValue_congr harity (.refl _) fun s hs => ?_
      obtain ⟨y, hy, -⟩ := hr s (hok.sources s hs)
      rw [(hsrc s hs).1, readValue_eq hy]
      exact hy.symm
    rw [heq]
    cases hc : m.valueIsGlobalConst (m.opRec o).dst with
    | false => rw [hdst hc]
    | true =>
      rw [execOpValue_const ho (hwf.op_dst o ho).2 hc] at heq
      cases heq
      rw [readValue_eq (refRead_const hc _)]

/-- After the operations `pre`, evaluated from `L`. -/
structure MeansUpto (m : Module) (b : Nat) (L : Meaning) (pre : List Nat) (M : Meaning) :
    Prop where
  ready : Ready m (refRead m M.env) (m.availableAfter b pre)
  fits : ∀ p ∈ pre, (M.reading m).Fits m (m.opRec p)
  sources : ∀ p ∈ pre, (m.opRec p).ArityOk ∧ ∀ v, v = (m.opRec p).dst ∨ v ∈ (m.opRec p).src →
    m.valueIsAvailable (m.availableAfter b pre) v = true
  agree : AgreeOn m (m.availableAtStart b) L M

theorem MeansUpto.snoc (hwf : m.WF) (hb : b < m.blocks.length) {L : Meaning}
    {pre post : List Nat} (hsplit : (m.blockRec b).ops = pre ++ o :: post)
    (hok : OpOk m b (m.availableAfter b pre) o) (hruns : M.Runs m (m.opRec o))
    (h : MeansUpto m b L pre M) : MeansUpto m b L (pre ++ [o]) (M.op m (m.opRec o)) := by
  obtain ⟨x, f, heq, ht, hmeans⟩ := Meaning.op_eq hok h.ready hruns
  have hagree := hmeans.agree hwf hb hsplit
  rw [heq]
  refine ⟨?_, ?_, ?_, h.agree.trans fun v hv => hagree v (availableAtStart_after pre hv)⟩
  · rw [availableAfter_snoc]
    exact h.ready.define ht M.env.mem
  · intro p hp
    rcases List.mem_append.mp hp with hp | hp
    · refine fits_congr (h.sources p hp).1 (fun v hv => ?_) (h.fits p hp)
      obtain ⟨h1, h2⟩ := hagree v ((h.sources p hp).2 v hv)
      exact ⟨show readValue m _ v = readValue m _ v by rw [readValue, readValue, h1], h2⟩
    · rw [List.mem_singleton] at hp
      rw [hp]
      exact hmeans.fits hwf hb hsplit hok h.ready
  · rw [availableAfter_snoc]
    intro p hp
    rcases List.mem_append.mp hp with hp | hp
    · exact ⟨(h.sources p hp).1, fun v hv => valueIsAvailable_mark_of ((h.sources p hp).2 v hv)⟩
    · rw [List.mem_singleton] at hp
      subst hp
      refine ⟨arityOk_of_typeRule hok.typed, fun v hv => ?_⟩
      rcases hv with rfl | hv
      · exact valueIsAvailable_iff.mpr ⟨hok.dst_lt, .inl (by simp)⟩
      · exact valueIsAvailable_mark_of (hok.sources v hv)

theorem MeansUpto.run (hwf : m.WF) (hb : b < m.blocks.length)
    (hops : OpsOk m b (m.blockRec b).ops (m.availableAtStart b))
    (hruns : ∀ o ∈ (m.blockRec b).ops, OpRuns m (m.opRec o)) {L : Meaning} (post : List Nat)
    {pre : List Nat} (hsplit : (m.blockRec b).ops = pre ++ post) (h : MeansUpto m b L pre M) :
    MeansUpto m b L (m.blockRec b).ops (M.ops m post) := by
  induction post generalizing pre M with
  | nil =>
    rw [List.append_nil] at hsplit
    rw [hsplit]
    exact h
  | cons o post ih =>
    have hok : OpOk m b (m.availableAfter b pre) o := by
      rw [hsplit] at hops
      exact (opsOk_split pre hops).1
    refine ih ?_ (h.snoc hwf hb hsplit hok (hok.runs h.ready (hruns o (by rw [hsplit]; simp))))
    rw [hsplit, List.append_assoc]
    rfl

/-- **A block whose operations run has a denotation**, whatever its inputs stand for. -/
theorem denotes_meaning (hwf : m.WF) (hb : b < m.blocks.length)
    (hops : OpsOk m b (m.blockRec b).ops (m.availableAtStart b))
    (hruns : ∀ o ∈ (m.blockRec b).ops, OpRuns m (m.opRec o)) {L : Meaning}
    (hready : Ready m (refRead m L.env) (m.availableAtStart b)) :
    Denotes m b ((L.ops m (m.blockRec b).ops).reading m) ∧
      AgreeOn m (m.availableAtStart b) L (L.ops m (m.blockRec b).ops) := by
  have hstart : MeansUpto m b L [] L :=
    ⟨hready, fun p hp => absurd hp (by simp), fun p hp => absurd hp (by simp), .refl _ _ _⟩
  have hrun := hstart.run hwf hb hops hruns _ (List.nil_append _).symm
  exact ⟨⟨hrun.fits, fun v hv => readValue_eq (refRead_const hv _)⟩, hrun.agree⟩

end Run

end Xair
