import Xair.Invariant
import Xair.Reference
import Xair.Simulation

/-!
# The executor follows the reference interpreter

The executor keeps one slot for every value for the whole life of a state, and
nothing ever clears a slot.  `Mirrors m s r` relates such a state to one of the
reference interpreter: whatever the environment of the current activation binds
is in its slot, and a constant's slot holds the constant if it holds anything.
Values that earlier activations or earlier runs left behind are in slots that
the environment does not bind, and the verifier lets no operation read those.

`mirrors_run` is the simulation over whole runs.
-/

namespace Xair

/-- What holds of every executor state of a module: a defined slot has the
declared type, and a constant's slot holds the constant. -/
structure ExecState.Ok (m : Module) (s : ExecState) : Prop where
  count : s.valueCount = m.values.length
  typed : ∀ v < m.values.length, s.defined v = true → (s.values v).type = m.valueType v
  const : ∀ v < m.values.length, s.defined v = true → m.valueIsGlobalConst v = true →
    s.values v = m.constValue v

section State

variable {m : Module} {s : ExecState}

theorem ExecState.Ok.slot (h : s.Ok m) {v : Nat} (hv : v < m.values.length) :
    execSlotOk m s v = true := by
  simp [execSlotOk, h.count, hv]

/-- A write of a well-typed value to a valid slot succeeds. -/
theorem execDefineValue_ok (h : s.Ok m) {v : Nat} (hv : v < m.values.length) {x : ExecValue}
    (hx : x.type = m.valueType v) : execDefineValue m s v x =
      (.ok, { s with
        values := fun u => if u = v then x else s.values u
        defined := fun u => if u = v then true else s.defined u }) := by
  simp [execDefineValue, h.slot hv, hx]

/-- Writes keep the state in order, as long as a constant's slot gets the constant. -/
theorem ExecState.Ok.define (h : s.Ok m) {v : Nat} {x : ExecValue}
    (hc : m.valueIsGlobalConst v = true → x = m.constValue v) : (execDefineValue m s v x).2.Ok m := by
  unfold execDefineValue
  split
  · exact h
  · split
    · exact h
    · next ht =>
      have ht : m.valueType v = x.type := not_not.mp ht
      refine ⟨h.count, fun u hu hd => ?_, fun u hu hd hcu => ?_⟩
      · by_cases huv : u = v
        · subst huv; simp [ht]
        · simp only [huv, if_false] at hd ⊢
          exact h.typed u hu hd
      · by_cases huv : u = v
        · subst huv; simpa using hc hcu
        · simp only [huv, if_false] at hd ⊢
          exact h.const u hu hd hcu

theorem ExecState.Ok.withMem (h : s.Ok m) (mem : ExecMemory) :
    ({ s with mem := mem } : ExecState).Ok m := ⟨h.count, h.typed, h.const⟩

/-- The operation that defines a constant computes the constant. -/
theorem execOpValue_const {o : Nat} (ho : o < m.ops.length)
    (hd : (m.valueRec (m.opRec o).dst).op = some o)
    (hc : m.valueIsGlobalConst (m.opRec o).dst = true) (read : Nat → Except Status ExecValue)
    (mem : ExecMemory) : execOpValue (m.valueType (m.opRec o).dst) read mem (m.opRec o) =
      .ok (m.constValue (m.opRec o).dst, mem) := by
  have hop : m.valueOp (m.opRec o).dst = some (m.opRec o) := by
    rw [Module.valueOp, hd, Module.opRec, List.getD_eq_getElem _ _ ho]
    exact List.getElem?_eq_getElem ho
  have hcode : (m.opRec o).opcode = .constU64 := by
    simp only [Module.valueIsGlobalConst, hop, Bool.and_eq_true, beq_iff_eq] at hc
    exact hc.2
  simp [execOpValue, hcode, Module.constValue, hop]

/-- An operation of the module keeps the state in order, whether it succeeds or not. -/
theorem ExecState.Ok.execOp (h : s.Ok m) {o : Nat} (ho : o < m.ops.length)
    (hd : (m.valueRec (m.opRec o).dst).op = some o) : (execOp m s (m.opRec o)).2.Ok m := by
  unfold Xair.execOp
  split
  · exact h
  · next x mem hx =>
    refine (h.withMem mem).define fun hc => ?_
    rw [execOpValue_const ho hd hc] at hx
    cases hx
    rfl

theorem ExecState.Ok.defineAll (h : s.Ok m) (vs : List Nat) (xs : List ExecValue)
    (hvs : ∀ v ∈ vs, m.valueIsGlobalConst v = false) : (execDefineAll m s vs xs).2.Ok m := by
  induction vs generalizing s xs with
  | nil => exact h
  | cons v vs ih =>
    cases xs with
    | nil => exact h
    | cons x xs =>
      have hdef : (execDefineValue m s v x).2.Ok m :=
        h.define fun hc => by rw [hvs v (by simp)] at hc; cases hc
      rw [execDefineAll]
      split
      · next s' hs =>
        rw [hs] at hdef
        exact ih hdef xs fun u hu => hvs u (by simp [hu])
      · next e s' _ hs =>
        rw [hs] at hdef
        exact hdef

theorem Module.WF.param_not_const (hwf : m.WF) {b v : Nat} (hb : b < m.blocks.length)
    (hv : v ∈ (m.blockRec b).params) : m.valueIsGlobalConst v = false := by
  have := ((hwf.block_params b hb v).mp hv).2.1
  simp [Module.valueIsGlobalConst, Module.valueOp, this]

theorem ExecState.Ok.transfer (hwf : m.WF) (h : s.Ok m) (target : Nat) (args : List Nat) :
    (execTransferArgs m s target args).2.Ok m := by
  unfold execTransferArgs
  split
  · exact h
  · next hb =>
    have hb : target < m.blocks.length := by simpa [Module.validBlock] using hb
    split
    · exact h
    · split
      · exact h
      · exact h.defineAll _ _ fun v hv => hwf.param_not_const hb hv

/-- The transfer of an accepted edge writes all parameters at once. -/
theorem execDefineAll_ok (h : s.Ok m) {vs : List Nat} {xs : List ExecValue}
    (hvs : List.Forall₂ (fun v x => v < m.values.length ∧ m.valueIsGlobalConst v = false ∧
      x.type = m.valueType v) vs xs) (hnd : vs.Nodup) :
    execDefineAll m s vs xs = (.ok, { s with
      values := fun u => (bindParams vs xs u).getD (s.values u)
      defined := fun u => (bindParams vs xs u).isSome || s.defined u }) := by
  induction hvs generalizing s with
  | nil => rfl
  | @cons v x vs xs hvx _ ih =>
    obtain ⟨hv, hc, ht⟩ := hvx
    obtain ⟨hnv, hnd⟩ := List.nodup_cons.mp hnd
    have hok := h.define (v := v) (x := x) fun hc' => by rw [hc] at hc'; cases hc'
    rw [execDefineValue_ok h hv ht] at hok
    rw [execDefineAll, execDefineValue_ok h hv ht]
    simp only [ih hok hnd, bindParams]
    refine Prod.ext rfl (congrArg₂ (fun a b => ExecState.mk s.valueCount a b s.mem) ?_ ?_)
    · funext u
      by_cases huv : u = v
      · subst huv; simp [bindParams_none hnv]
      · simp [huv]
    · funext u
      by_cases huv : u = v
      · subst huv; simp
      · simp [huv]

end State

/-! ### The relation -/

/-- The state `s` holds what the environment of `r` binds. -/
structure Mirrors (m : Module) (s : ExecState) (r : RefState) : Prop where
  ok : s.Ok m
  env : ∀ v x, r.env v = some x → s.defined v = true ∧ s.values v = x
  mem : s.mem = r.mem

section Relation

variable {m : Module} {s : ExecState} {r : RefState}

/-- What the reference can read, the executor reads as well. -/
theorem Mirrors.read (h : Mirrors m s r) {v : Nat} (hv : v < m.values.length) {x : ExecValue}
    (hx : refRead m r v = .ok x) : execReadValue m s v = .ok x := by
  unfold execReadValue
  simp only [h.ok.slot hv, Bool.not_true, Bool.false_eq_true, if_false]
  cases hc : m.valueIsGlobalConst v with
  | true =>
    rw [refRead_const hc] at hx
    cases hx
    cases hd : s.defined v with
    | true => simp [h.ok.const v hv hd hc]
    | false => simp
  | false =>
    cases he : r.env v with
    | none => simp [refRead, hc, he] at hx
    | some y =>
      rw [refRead_env hc he] at hx
      cases hx
      simp [h.env v x he]

theorem Mirrors.ready (h : Mirrors m s r) {av : ValueSet} (hr : Ready m (refRead m r) av) :
    Ready m (execReadValue m s) av := by
  intro v hv
  obtain ⟨x, hx, ht⟩ := hr v hv
  have hlt : v < m.values.length := by
    simp only [Module.valueIsAvailable, Module.validValue, Bool.and_eq_true,
      decide_eq_true_eq] at hv
    exact hv.1
  exact ⟨x, h.read hlt hx, ht⟩

theorem Mirrors.read_eq (h : Mirrors m s r) {av : ValueSet} (hr : Ready m (refRead m r) av)
    {v : Nat} (hv : m.valueIsAvailable av v = true) : execReadValue m s v = refRead m r v := by
  obtain ⟨x, hx, -⟩ := hr v hv
  have hlt : v < m.values.length := by
    simp only [Module.valueIsAvailable, Module.validValue, Bool.and_eq_true,
      decide_eq_true_eq] at hv
    exact hv.1
  rw [hx, h.read hlt hx]

theorem Mirrors.opValue (h : Mirrors m s r) {b o : Nat} {av : ValueSet} (hok : OpOk m b av o)
    (hr : Ready m (refRead m r) av) :
    execOpValue (m.valueType (m.opRec o).dst) (execReadValue m s) s.mem (m.opRec o) =
      execOpValue (m.valueType (m.opRec o).dst) (refRead m r) r.mem (m.opRec o) := by
  rw [h.mem]
  exact execOpValue_congr (arityOk_of_typeRule hok.typed) (.refl _)
    fun v hv => h.read_eq hr (hok.sources v hv)

theorem Mirrors.op (h : Mirrors m s r) {b o : Nat} {av : ValueSet} (hok : OpOk m b av o)
    (hr : Ready m (refRead m r) av) (R : ExecState → RefState → Prop)
    (hR : ∀ s' r', refOp m r (m.opRec o) = (.ok, r') → Mirrors m s' r' → R s' r') :
    OpRel R (fun s r => s.mem = r.mem) (m.opRec o).opcode (m.opRec o).opcode
      (execOp m s (m.opRec o)) (refOp m r (m.opRec o)) := by
  have heq := h.opValue hok hr
  have hkeep := h.ok.execOp hok.lt hok.dst_op
  unfold Xair.execOp at hkeep ⊢
  unfold refOp at hR ⊢
  rw [heq] at hkeep ⊢
  have hout := hok.outcome hr r.mem
  cases hx : execOpValue (m.valueType (m.opRec o).dst) (refRead m r) r.mem (m.opRec o) with
  | error e =>
    rw [hx] at hout
    refine .fail ?_ rfl h.mem
    cases hout <;> exact fun hh => by cases hh
  | ok p =>
    obtain ⟨x, mem⟩ := p
    have ht := (hok.value_type hr hx).1
    simp only [hx] at hkeep hR ⊢
    rw [execDefineValue_ok (h.ok.withMem mem) hok.dst_lt ht] at hkeep ⊢
    refine .ok (hR _ _ rfl ⟨hkeep, ?_, rfl⟩)
    intro v y hy
    by_cases hv : v = (m.opRec o).dst
    · subst hv
      simp only [RefState.define, if_true, Option.some.injEq] at hy
      simp [hy]
    · simp only [RefState.define, hv, if_false] at hy ⊢
      exact h.env v y hy

theorem Mirrors.transfer (hwf : m.WF) (h : Mirrors m s r) {av : ValueSet} {target : Nat}
    {args : List Nat} (hok : EdgeOk m av target args) (hr : Ready m (refRead m r) av) :
    ∃ s' r', execTransferArgs m s target args = (.ok, s') ∧
      refTransfer m r target args = (.ok, r') ∧ Mirrors m s' r' ∧ StartsAt m target r' := by
  obtain ⟨xs, hxs, hty, ht⟩ := refTransfer_ok hok hr
  have hread : readAll (execReadValue m s) args = .ok xs := by
    rw [← hxs]
    refine readAll_congr args fun v hv => h.read_eq hr ?_
    obtain ⟨i, hi, rfl⟩ := List.mem_iff_getElem.mp hv
    have hall := List.forall₂_iff_get.mp hok.args_ok
    exact (hall.2 i hi (by rw [← hall.1]; exact hi)).1
  have hps : List.Forall₂ (fun v x => v < m.values.length ∧ m.valueIsGlobalConst v = false ∧
      x.type = m.valueType v) (m.blockRec target).params xs := by
    have hty' := List.forall₂_iff_get.mp hty
    refine List.forall₂_iff_get.mpr ⟨hty'.1, fun i h1 h2 => ?_⟩
    have hmem := List.get_mem (m.blockRec target).params ⟨i, h1⟩
    exact ⟨((hwf.block_params target hok.target_lt _).mp hmem).1,
      hwf.param_not_const hok.target_lt hmem, hty'.2 i h1 h2⟩
  have hex : execTransferArgs m s target args =
      execDefineAll m s (m.blockRec target).params xs := by
    simp [execTransferArgs, Module.validBlock, hok.target_lt, hok.args_ok.length_eq, hread]
  have hkeep := h.ok.transfer hwf target args
  rw [hex, execDefineAll_ok h.ok hps (hwf.params_nodup target hok.target_lt)] at hkeep
  refine ⟨_, _, by rw [hex, execDefineAll_ok h.ok hps (hwf.params_nodup target hok.target_lt)],
    ht, ⟨hkeep, ?_, h.mem⟩, hok.target_lt, ready_bindParams hty r.mem⟩
  intro v x hx
  simp only at hx ⊢
  simp [hx]

end Relation

/-! ### Runs -/

/-- A property of reference states that the operations and edges of `m` keep. -/
structure RefInvariant (m : Module) (P : RefState → Prop) : Prop where
  op : ∀ b o av r r', OpOk m b av o → Ready m (refRead m r) av → P r →
    refOp m r (m.opRec o) = (.ok, r') → P r'
  transfer : ∀ av target args r r', EdgeOk m av target args → Ready m (refRead m r) av → P r →
    refTransfer m r target args = (.ok, r') → P r'

/-- The relation at the start of block `b`. -/
def MirrorsStart (m : Module) (P : RefState → Prop) (b : Nat) (s : ExecState) (r : RefState) :
    Prop :=
  Mirrors m s r ∧ StartsAt m b r ∧ P r

/-- The relation in front of the operations `os` of block `b`. -/
def MirrorsAt (m : Module) (P : RefState → Prop) (b : Nat) (os : List Nat) (s : ExecState)
    (r : RefState) : Prop :=
  ∃ av, OpsOk m b os av ∧ av.markAll (m.dsts os) = m.availableAtEnd b ∧
    TermOk m (m.blockRec b).term (m.availableAtEnd b) ∧ Mirrors m s r ∧
    Ready m (refRead m r) av ∧ P r

section Runs

variable {m : Module} {P : RefState → Prop}

/-- A terminator of a verified block keeps the executor and the reference in step. -/
theorem mirrors_term (hwf : m.WF) (hP : RefInvariant m P) {b : Nat} {s : ExecState}
    {r : RefState} (hat : MirrorsAt m P b [] s r) :
    TermRel (execInterp m) (refInterp m) m m (MirrorsStart m P) Eq
      (fun s r => s.mem = r.mem) s r (m.blockRec b).term (m.blockRec b).term := by
  obtain ⟨av, -, hav, hterm, hm, hr, hp⟩ := hat
  change av = m.availableAtEnd b at hav
  subst hav
  have hedge : ∀ {target args}, EdgeOk m (m.availableAtEnd b) target args →
      EdgeRel (execInterp m) (refInterp m) (MirrorsStart m P) s r target args args := by
    intro target args hok
    obtain ⟨s', r', h1, h2, h3, h4⟩ := hm.transfer hwf hok hr
    exact ⟨s', r', h1, h2, h3, h4, hP.transfer _ _ _ _ _ hok hr hp h2⟩
  unfold TermOk at hterm
  cases hk : (m.blockRec b).term.kind with
  | none => rw [hk] at hterm; exact hterm.elim
  | jump =>
    rw [hk] at hterm
    exact .jump hk hk rfl (hedge hterm)
  | cbranch =>
    rw [hk] at hterm
    obtain ⟨hc, hi, ht, hf⟩ := hterm
    obtain ⟨c, hc', hct⟩ := hr _ hc
    have hcs : (execInterp m).read s (m.blockRec b).term.condition = .ok c := by
      show execReadValue m s _ = _
      rw [hm.read_eq hr hc, hc']
    exact .cbranch hk hk rfl rfl hcs hc' (by rw [hct]; exact hi) (by rw [hct]; exact hi) rfl
      (hedge ht) (hedge hf)
  | ret =>
    rw [hk] at hterm
    obtain ⟨xs, hxs, -⟩ := readAll_ok (P := fun _ _ => True)
      (m.termArgsConst (m.blockRec b).term false) (fun v hv => by
        obtain ⟨x, hx, -⟩ := hr v (hterm v hv)
        exact ⟨x, hx, trivial⟩)
    have hxs' : readAll ((execInterp m).read s) (m.termArgsConst (m.blockRec b).term false) =
        .ok xs := by
      rw [← hxs]
      exact readAll_congr _ fun v hv => hm.read_eq hr (hterm v hv)
    exact .ret hk hk rfl hxs' hxs (List.forall₂_same.mpr fun _ _ => rfl) hm.mem
  | trap => exact .stop (.inl hk) rfl rfl hm.mem
  | fault => exact .stop (.inr hk) rfl rfl hm.mem

/-- **Simulation.**  On a verified module the executor and the reference
interpreter stay in step. -/
theorem mirrors_blockSim (hwf : m.WF) (hver : m.Verified) (hP : RefInvariant m P) :
    BlockSim (execInterp m) (refInterp m) m m (MirrorsStart m P) (MirrorsAt m P) some Eq
      (fun s r => s.mem = r.mem) (fun _ => False) where
  start b s r h := by
    obtain ⟨hm, ⟨hb, hr⟩, hp⟩ := h
    have hblk := verifyModule_ok_iff.mp hver b hb
    exact ⟨by simp, m.availableAtStart b, hblk.ops, rfl, hblk.term, hm, hr, hp⟩
  keep b o o' os s r ho hat := by
    cases ho
    obtain ⟨av, ⟨hok, hos⟩, hav, hterm, hm, hr, hp⟩ := hat
    exact hm.op hok hr _ fun s' r' hop hm' =>
      ⟨_, hos, hav, hterm, hm', ready_refOp hok hr hop, hP.op _ _ _ _ _ hok hr hp hop⟩
  skip b o os s r ho := by cases ho
  term b s r hat := mirrors_term hwf hP hat
  final b s r h := h.1.mem

theorem refInvariant_true (m : Module) : RefInvariant m fun _ => True :=
  ⟨fun _ _ _ _ _ _ _ _ _ => trivial, fun _ _ _ _ _ _ _ _ _ => trivial⟩

/-- Runs of the executor and of the reference interpreter from mirrored states
have the same result and leave the same memory. -/
theorem mirrors_run (hwf : m.WF) (hver : m.Verified) {entry : Nat} {s : ExecState}
    {r : RefState} (hm : Mirrors m s r) (hr : StartsAt m entry r) (limit : Nat) :
    (interpRun (execInterp m) m limit entry s).1 = (interpRun (refInterp m) m limit entry r).1 ∧
    (interpRun (execInterp m) m limit entry s).2.mem =
      (interpRun (refInterp m) m limit entry r).2.mem := by
  rcases (mirrors_blockSim hwf hver (refInvariant_true m)).run limit ⟨hm, hr, trivial⟩ with
    hf | ⟨h1, h2⟩
  · exact hf.elim
  · exact ⟨resultRel_eq h1, h2⟩

end Runs

end Xair
