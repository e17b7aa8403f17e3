import Xair.DeadValues
import Xair.Entry

/-!
# Canonicalization preserves execution

The local pass preserves runs exactly (`LocalSound.lean`) and dead-value removal
preserves those that finish (`DeadValues.lean`); together they give the theorem
about `xair_canonicalize_module` as it is called.
-/

namespace Xair

section Runs

variable {m : Module}

/-- Reference runs of the canonical module. -/
theorem refRun_canonicalizedModule (hwf : m.WF) (hver : m.Verified) (hthr : m.Threaded)
    (entry : Nat) {args : List ExecValue}
    (hargs : List.Forall₂ (fun p x => x.type = m.valueType p) (m.blockRec entry).params args)
    (mem : ExecMemory) (limit : Nat) :
    Unfinished (refRun m entry args mem limit).1 ∨
      ResultRel ValEq (refRun m entry args mem limit).1
        (refRun (canonicalizedModule m) entry args mem limit).1 := by
  obtain ⟨σ, ω, hc, -⟩ := compaction_canonicalizedModule hwf hver
  rw [(refRun_foldedModule hwf hver entry hargs mem limit).1]
  refine refRun_compaction hc (wf_foldedModule hwf) (verified_foldedModule hwf hver)
    (threaded_foldedModule hthr) entry ?_ mem limit
  rw [foldedModule_blockRec]
  refine hargs.imp fun p x hx => ?_
  rw [hx, Module.valueType, Module.valueType, foldedModule_valueRec]

/-- The parameters of the canonical module have the types of the original ones. -/
theorem types_canonicalizedModule (hwf : m.WF) (hver : m.Verified) {entry : Nat}
    (hb : entry < m.blocks.length) {args : List ExecValue}
    (hargs : List.Forall₂ (fun p x => x.type = m.valueType p) (m.blockRec entry).params args) :
    List.Forall₂ (fun p x => x.type = (canonicalizedModule m).valueType p)
      ((canonicalizedModule m).blockRec entry).params args := by
  obtain ⟨σ, ω, hc, -⟩ := compaction_canonicalizedModule hwf hver
  have hm := hc.moduleMap (wf_foldedModule hwf)
  have hb' : entry < (foldedModule m).blocks.length := by
    rw [(foldedModule_core m).2.2.1]; exact hb
  have hps := List.forall₂_iff_get.mp (hm.params entry hb')
  rw [foldedModule_blockRec] at hps
  have hall := List.forall₂_iff_get.mp hargs
  refine List.forall₂_iff_get.mpr ⟨by omega, fun i h1 h2 => ?_⟩
  have hi : i < (m.blockRec entry).params.length := by omega
  have hσ := hps.2 i hi h1
  have hlt := hm.param_lt entry hb' _ (by
    rw [foldedModule_blockRec]
    exact List.get_mem (m.blockRec entry).params ⟨i, hi⟩)
  rw [(hm.type _ _ hσ hlt).2, Module.valueType, foldedModule_valueRec]
  exact hall.2 i hi h2

end Runs

/-- **Canonicalization preserves execution.**  When the run of a verified, threaded
module returns, traps, faults or reaches the step limit, the run of the module
after `xair_canonicalize_module`, entered with the same parameters and pages, ends
in the same way with the same returned values. -/
theorem canonicalizeModule_execRun {m : Module} (h : m.Reachable) (hver : m.Verified)
    (hthr : m.Threaded) {entry : Nat} {pages : List ExecPage} {args : List ExecValue}
    (hlen : (m.blockRec entry).params.length = args.length) {s : ExecState}
    (hset : execEnter m entry pages args = (.ok, s)) {limit : Nat} {x : ExecResult}
    (hrun : (execRun m entry s limit).1 = .ok x) (hkind : x.kind ≠ .unsupported) :
    ∃ s' x', execEnter (canonicalizeModule m).1 entry pages args = (.ok, s') ∧
      (execRun (canonicalizeModule m).1 entry s' limit).1 = .ok x' ∧
      x'.kind = x.kind ∧ x'.block = x.block ∧ x'.code = x.code ∧
      List.Forall₂ ValEq x.returns x'.returns := by
  have hwf := wf_reachable h
  rcases canonicalizeModule_cases hwf with he | ⟨-, -, he⟩
  · rw [he]
    exact ⟨s, x, hset, hrun, rfl, rfl, rfl, List.forall₂_same.mpr fun y _ => ValEq.refl y⟩
  · rw [he]
    have hargs := execEnter_types hwf hlen hset
    have href := (execRun_enter hwf hver hlen hset limit).1
    have hb : entry < m.blocks.length := by
      by_contra hn
      simp [execRun, Module.validBlock, hn] at hrun
    have hargs' := types_canonicalizedModule hwf hver hb hargs
    have hwf' := wf_canonicalizedModule hwf hver
    have hb' : entry < (canonicalizedModule m).blocks.length := by
      obtain ⟨σ, ω, hc, -⟩ := compaction_canonicalizedModule hwf hver
      rw [hc.blocks, (foldedModule_core m).2.2.1]
      exact hb
    have hset' := execEnter_ok hwf' hb' hargs' pages
    have href' := (execRun_enter hwf' (verified_canonicalizedModule hwf hver)
      hargs'.length_eq hset' limit).1
    rw [hrun] at href
    rcases refRun_canonicalizedModule hwf hver hthr entry hargs ⟨pages, 0#64⟩ limit with hf | hrel
    · exact absurd (hf x href.symm) hkind
    · rw [← href, ← href'] at hrel
      generalize hr : (execRun (canonicalizedModule m) entry _ limit).1 = r' at hrel
      cases r' with
      | ok x' =>
        obtain ⟨h1, h2, h3, h4⟩ := hrel
        exact ⟨_, x', hset', hr, h1.symm, h2.symm, h3.symm, h4⟩
      | error e => exact hrel.elim

/-- A block that stores, loads the value back and returns it with a folded constant;
a second store is dead. -/
def storeSample : List Call :=
  [.blockCreate none, .blockAddParam 0 (typeMem 0 64) none, .blockAddParam 0 (typeAddr 64) none,
    .blockAddParam 0 (typeI 8) none, .buildStore 0 0 1 2 .le none,
    .buildLoad 0 (typeI 8) 3 1 .le none, .buildConstU64 0 (typeI 8) 2#64 none,
    .buildConstU64 0 (typeI 8) 3#64 none, .buildBinary 0 .add (typeI 8) 5 6 none,
    .buildStore 0 3 1 7 .le none, .setReturn 0 (.array [4, 7])]

/-- The arguments for `storeSample`. -/
def storeArgs : List ExecValue := [execMem 0 64, execAddr 64 16#64, execI 8 9#64]

theorem canonicalizeModule_execRun_storeSample :
    ∃ s' x', execEnter (canonicalizeModule (runCalls Module.create storeSample)).1 0 [] storeArgs =
        (.ok, s') ∧
      (execRun (canonicalizeModule (runCalls Module.create storeSample)).1 0 s' 3).1 = .ok x' ∧
      x'.kind = .ret ∧ x'.block = 0 ∧ x'.code = 0 ∧
      List.Forall₂ ValEq [execI 8 9#64, execI 8 5#64] x'.returns :=
  canonicalizeModule_execRun (m := runCalls Module.create storeSample) ⟨storeSample, rfl⟩
    (by decide +kernel) (by decide +kernel) (by decide +kernel)
    (execEnter_eq (by decide +kernel)) (x := ⟨.ret, 0, 0, [execI 8 9#64, execI 8 5#64]⟩)
    (by decide +kernel) (by decide)

end Xair
