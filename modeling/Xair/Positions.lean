import Xair.Renaming

/-!
# Positions in a block

What holds right before one operation of a verified block.  The operations of a block
are listed in the order of their ids, so the ones before have smaller ids; and a value
that is available there is a constant, a parameter of the block, or the result of an
operation before.
-/

namespace Xair

section Position

variable {m : Module}

/-- The operations listed in a block of a well-formed module are valid. -/
theorem Module.WF.mem_ops_lt (h : m.WF) {b o : Nat} (hb : b < m.blocks.length)
    (ho : o ∈ (m.blockRec b).ops) : o < m.ops.length := ((h.block_ops b hb o).mp ho).1

theorem mem_pre_of_lt (hwf : m.WF) {b : Nat} (hb : b < m.blocks.length)
    {pre post : List Nat} {o p : Nat} (hsplit : (m.blockRec b).ops = pre ++ o :: post)
    (hp : p ∈ (m.blockRec b).ops) (hlt : p < o) : p ∈ pre := by
  have hs := hwf.ops_sorted b hb
  rw [hsplit] at hp hs
  rcases List.mem_append.mp hp with hp | hp
  · exact hp
  · rcases List.mem_cons.mp hp with rfl | hp
    · exact absurd hlt (Nat.lt_irrefl _)
    · have := (List.pairwise_cons.mp (List.pairwise_append.mp hs).2.1).1 p hp
      omega

theorem lt_of_mem_pre (hwf : m.WF) {b : Nat} (hb : b < m.blocks.length)
    {pre post : List Nat} {o p : Nat} (hsplit : (m.blockRec b).ops = pre ++ o :: post)
    (hp : p ∈ pre) : p < o := by
  have hs := hwf.ops_sorted b hb
  rw [hsplit] at hs
  exact (List.pairwise_append.mp hs).2.2 p hp o (by simp)

/-- The values available after the operations `pre` of block `b`. -/
def Module.availableAfter (m : Module) (b : Nat) (pre : List Nat) : ValueSet :=
  (m.availableAtStart b).markAll (m.dsts pre)

theorem availableAfter_snoc (b : Nat) (pre : List Nat) (o : Nat) :
    m.availableAfter b (pre ++ [o]) = (m.availableAfter b pre).mark (m.opRec o).dst := by
  rw [Module.availableAfter, Module.dsts, List.map_append, ValueSet.markAll_append]
  rfl

theorem opsOk_split {b : Nat} (pre : List Nat) {os : List Nat} {av : ValueSet}
    (h : OpsOk m b (pre ++ os) av) : OpsOk m b os (av.markAll (m.dsts pre)) := by
  induction pre generalizing av with
  | nil => exact h
  | cons p pre ih => exact ih h.2

theorem opOk_at (hver : m.Verified) {b : Nat} (hb : b < m.blocks.length) {pre os : List Nat}
    {o : Nat} (hsplit : (m.blockRec b).ops = pre ++ o :: os) :
    OpOk m b (m.availableAfter b pre) o := by
  have hops := (verifyModule_ok_iff.mp hver b hb).ops
  rw [hsplit] at hops
  exact (opsOk_split pre hops).1

theorem available_dst {b : Nat} {pre : List Nat} {o : Nat} (ho : o ∈ pre)
    (hlt : (m.opRec o).dst < m.values.length) :
    m.valueIsAvailable (m.availableAfter b pre) (m.opRec o).dst = true := by
  refine valueIsAvailable_iff.mpr ⟨hlt, .inl ?_⟩
  rw [Module.availableAfter, ValueSet.markAll_apply, Bool.or_eq_true, decide_eq_true_eq]
  exact .inl (List.mem_map_of_mem ho)

/-- An available value is a constant, a parameter, or defined before. -/
theorem available_cases {b : Nat} {pre : List Nat} {v : Nat}
    (hv : m.valueIsAvailable (m.availableAfter b pre) v = true) :
    m.valueIsGlobalConst v = true ∨ v ∈ (m.blockRec b).params ∨ ∃ p ∈ pre, (m.opRec p).dst = v := by
  obtain ⟨-, hav | hc⟩ := valueIsAvailable_iff.mp hv
  · rw [Module.availableAfter, ValueSet.markAll_apply, Bool.or_eq_true, decide_eq_true_eq,
      availableAtStart_iff] at hav
    rcases hav with hav | hav
    · obtain ⟨p, hp, rfl⟩ := List.mem_map.mp hav
      exact .inr (.inr ⟨p, hp, rfl⟩)
    · exact .inr (.inl hav)
  · exact .inl hc

/-- Only a constant is available before its operation. -/
theorem const_of_available (hwf : m.WF) {b : Nat} (hb : b < m.blocks.length) {pre os : List Nat}
    {o : Nat} (hsplit : (m.blockRec b).ops = pre ++ o :: os)
    (hv : m.valueIsAvailable (m.availableAfter b pre) (m.opRec o).dst = true) :
    m.valueIsGlobalConst (m.opRec o).dst = true := by
  have ho : o < m.ops.length := hwf.mem_ops_lt hb (by rw [hsplit]; simp)
  have hdst := (hwf.op_dst o ho).2
  rcases available_cases hv with hc | hp | ⟨p, hp, hd⟩
  · exact hc
  · have := ((hwf.block_params b hb _).mp hp).2.1
    rw [hdst] at this
    cases this
  · have hplt := lt_of_mem_pre hwf hb hsplit hp
    have := (hwf.op_dst p (Nat.lt_trans hplt ho)).2
    rw [hd, hdst, Option.some.injEq] at this
    omega

/-- The values available before an operation read the same after it. -/
theorem refRead_after (hwf : m.WF) {b : Nat} (hb : b < m.blocks.length) {pre os : List Nat}
    {o : Nat} (hsplit : (m.blockRec b).ops = pre ++ o :: os) (r : RefState) (x : ExecValue)
    (mem : ExecMemory) {v : Nat} (hv : m.valueIsAvailable (m.availableAfter b pre) v = true) :
    refRead m (r.define (m.opRec o).dst x mem) v = refRead m r v := by
  by_cases hvd : v = (m.opRec o).dst
  · have hc := const_of_available hwf hb hsplit (hvd ▸ hv)
    rw [hvd, refRead_const hc, refRead_const hc]
  · exact refRead_define hvd

/-- So operations whose sources are available before it evaluate the same. -/
theorem execOpValue_after (hwf : m.WF) {b : Nat} (hb : b < m.blocks.length) {pre os : List Nat}
    {o : Nat} (hsplit : (m.blockRec b).ops = pre ++ o :: os) (r : RefState) (x : ExecValue)
    (mem : ExecMemory) {p : Nat} (hp : OpOk m b (m.availableAfter b pre) p) (mem' : ExecMemory) :
    execOpValue (m.valueType (m.opRec p).dst) (refRead m (r.define (m.opRec o).dst x mem)) mem'
        (m.opRec p) =
      execOpValue (m.valueType (m.opRec p).dst) (refRead m r) mem' (m.opRec p) :=
  execOpValue_congr (arityOk_of_typeRule hp.typed) (.refl _) fun s hs =>
    refRead_after hwf hb hsplit r x mem (hp.sources s hs)

end Position

end Xair
