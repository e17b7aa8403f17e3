import Xair.StaleValues
import Xair.Positions

/-!
# Running one block

A run that enters a block with a return.  The executor mirrors the reference
interpreter operation by operation, as long as none fails; `Carries` is the part of
the argument that depends on the block, an invariant on the environments.  Then the
run halts at the return, unless more values are returned than the result can hold.
-/

namespace Xair

variable {m : Module} {b : Nat} {s : ExecState} {r : RefState}

/-- No operation of block `b` fails in a state reached from `s`, and every one keeps the
invariant `P`. -/
def Carries (m : Module) (b : Nat) (s : ExecState) (P : List Nat → RefState → Prop) : Prop :=
  ∀ pre o post t r', (m.blockRec b).ops = pre ++ o :: post →
    runOps (execInterp m) m b pre s = .ok t → Mirrors m t r' →
    Ready m (refRead m r') (m.availableAfter b pre) → P pre r' →
    ∃ x mem, execOpValue (m.valueType (m.opRec o).dst) (refRead m r') r'.mem (m.opRec o) =
      .ok (x, mem) ∧ P (pre ++ [o]) (r'.define (m.opRec o).dst x mem)

theorem runOps_snoc {σ : Type} {I : Interp σ} {m : Module} {b o : Nat} (pre : List Nat)
    {s t : σ} (h : runOps I m b pre s = .ok t) :
    runOps I m b (pre ++ [o]) s = runOps I m b [o] t := by
  induction pre generalizing s with
  | nil =>
    cases h
    rfl
  | cons p pre ih =>
    obtain ⟨s', hp, h⟩ := runOps_cons_inv h
    rw [List.cons_append, runOps_cons_ok hp]
    exact ih h

/-- The executor evaluates an operation that the reference can evaluate. -/
theorem Mirrors.step (hm : Mirrors m s r) {o : Nat} {av : ValueSet} (hok : OpOk m b av o)
    (hr : Ready m (refRead m r) av) {x : ExecValue} {mem : ExecMemory}
    (hx : execOpValue (m.valueType (m.opRec o).dst) (refRead m r) r.mem (m.opRec o) =
      .ok (x, mem)) :
    ∃ t, execOp m s (m.opRec o) = (.ok, t) ∧ Mirrors m t (r.define (m.opRec o).dst x mem) := by
  have hrel := hm.op hok hr (fun s' r' => Mirrors m s' r' ∧ r' = r.define (m.opRec o).dst x mem)
    fun s' r' hop hm' => ⟨hm', by
      unfold refOp at hop
      rw [hx] at hop
      cases hop
      rfl⟩
  have href : refOp m r (m.opRec o) = (.ok, r.define (m.opRec o).dst x mem) := by
    unfold refOp
    rw [hx]
  rw [href] at hrel
  generalize execOp m s (m.opRec o) = out at hrel
  cases hrel with
  | ok h => exact ⟨_, rfl, h.1⟩
  | fail he _ _ => exact absurd rfl he

/-- **The operations of a block** run to the end. -/
theorem runOps_mirrors {P : List Nat → RefState → Prop} (hops : OpsOk m b (m.blockRec b).ops
    (m.availableAtStart b)) (hgo : Carries m b s P) (post : List Nat) {pre : List Nat}
    {t : ExecState} (hsplit : (m.blockRec b).ops = pre ++ post)
    (hpre : runOps (execInterp m) m b pre s = .ok t) (hm : Mirrors m t r)
    (hr : Ready m (refRead m r) (m.availableAfter b pre)) (hp : P pre r) :
    ∃ t' r', runOps (execInterp m) m b (m.blockRec b).ops s = .ok t' ∧ Mirrors m t' r' ∧
      Ready m (refRead m r') (m.availableAtEnd b) ∧ P (m.blockRec b).ops r' := by
  induction post generalizing pre t r with
  | nil =>
    rw [List.append_nil] at hsplit
    subst hsplit
    exact ⟨t, r, hpre, hm, hr, hp⟩
  | cons o post ih =>
    have hok : OpOk m b (m.availableAfter b pre) o := by
      rw [hsplit] at hops
      exact (opsOk_split pre hops).1
    obtain ⟨x, mem, hx, hp'⟩ := hgo pre o post t r hsplit hpre hm hr hp
    obtain ⟨t', ht', hm'⟩ := hm.step hok hr hx
    have hrun : runOps (execInterp m) m b (pre ++ [o]) s = .ok t' := by
      rw [runOps_snoc pre hpre, runOps_cons_ok (I := execInterp m) ht']
      rfl
    refine ih ?_ hrun hm' ?_ hp'
    · rw [hsplit, List.append_assoc]
      rfl
    · rw [availableAfter_snoc]
      exact hr.define (hok.value_type hr hx).1 mem

/-- The run `out` gets to the return of block `b`, and ends there. -/
def RunReturns (m : Module) (b : Nat) (P : List Nat → RefState → Prop)
    (out : RunResult × ExecState) : Prop :=
  ∃ r' values, Mirrors m out.2 r' ∧ Ready m (refRead m r') (m.availableAtEnd b) ∧
    P (m.blockRec b).ops r' ∧
    List.Forall₂ (fun v x => refRead m r' v = .ok x)
      (m.termArgsConst (m.blockRec b).term false) values ∧
    out.1 = if execMaxReturns < (m.blockRec b).term.trueArgCount then .error .errRange
      else .ok ⟨.ret, b, 0, values⟩

/-- **A run of a block that returns.** -/
theorem execRun_returns (hwf : m.WF) (hb : b < m.blocks.length) (hblk : BlockOk m b)
    (hret : (m.blockRec b).term.kind = .ret) (hs : s.Ok m)
    (hset : ∀ v ∈ (m.blockRec b).params, s.defined v = true)
    {P : List Nat → RefState → Prop}
    (hp : P [] (refStart m b ((m.blockRec b).params.map s.values) s.mem))
    (hgo : Carries m b s P) {limit : Nat} (hlimit : 1 ≤ limit) :
    RunReturns m b P (execRun m b s limit) := by
  obtain ⟨hm, -, hr⟩ := mirrors_start hwf hs hb hset
  obtain ⟨t, r', hops, hm', hr', hp'⟩ :=
    runOps_mirrors hblk.ops hgo _ (List.nil_append _).symm rfl hm hr hp
  have hterm := hblk.term
  unfold TermOk at hterm
  rw [hret] at hterm
  obtain ⟨values, hvalues, -⟩ := readAll_ok (P := fun _ _ => True)
    (m.termArgsConst (m.blockRec b).term false) (fun v hv => by
      obtain ⟨x, hx, -⟩ := hr' v (hterm v hv)
      exact ⟨x, hx, trivial⟩)
  have hread : readAll ((execInterp m).read t) (m.termArgsConst (m.blockRec b).term false) =
      .ok values := by
    rw [← hvalues]
    exact readAll_congr _ fun v hv => hm'.read_eq hr' (hterm v hv)
  have hblock : runBlock (execInterp m) m (b, s) = .halt
      (if execMaxReturns < (m.blockRec b).term.trueArgCount then .error .errRange
        else .ok ⟨.ret, b, 0, values⟩) (b, t) := by
    unfold runBlock runTerm
    simp only [hops, hret, hread]
    split <;> rfl
  have hrun : execRun m b s limit =
      ((if execMaxReturns < (m.blockRec b).term.trueArgCount then .error .errRange
        else .ok ⟨.ret, b, 0, values⟩), t) := by
    obtain ⟨n, rfl⟩ : ∃ n, limit = n + 1 := ⟨limit - 1, by omega⟩
    rw [execRun, if_neg (by simp [hs.count, Module.validBlock, hb]), interpRun,
      BoundedRun.run_succ_halt hblock]
  rw [hrun]
  exact ⟨r', values, hm', hr', hp', readAll_eq_ok hvalues, rfl⟩

end Xair
