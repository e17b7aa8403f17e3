import Xair.StaleValues

/-!
# Entering a block

How a caller starts a run: create a state, load the pages, set the parameters of
the entry block one by one with `xair_exec_set_param`, run.  The parameters are
given by position, so that modules with different ids can be entered alike.
`execRun_enter` says that such a run is the reference run with these arguments.
-/

namespace Xair

/-- Set parameters in order with `xair_exec_set_param`, up to the first failure. -/
def execSetParams (m : Module) (s : ExecState) : List Nat → List ExecValue → Status × ExecState
  | v :: vs, x :: xs =>
    match execSetParam m s v x with
    | (.ok, s) => execSetParams m s vs xs
    | (e, s) => (e, s)
  | _, _ => (.ok, s)

/-- A fresh state with the given pages and the parameters of `entry` set. -/
def execEnter (m : Module) (entry : Nat) (pages : List ExecPage) (args : List ExecValue) :
    Status × ExecState :=
  execSetParams m { freshState m with mem := ⟨pages, 0#64⟩ } (m.blockRec entry).params args

section Enter

variable {m : Module} {entry : Nat} {pages : List ExecPage} {args : List ExecValue}

theorem execEnter_eq (h : (execEnter m entry pages args).1 = .ok) :
    execEnter m entry pages args = (.ok, (execEnter m entry pages args).2) := by
  rw [← h]

theorem execSetParams_eq {s : ExecState} {vs : List Nat} (xs : List ExecValue)
    (hvs : ∀ v ∈ vs, (m.valueRec v).op = none) :
    execSetParams m s vs xs = execDefineAll m s vs xs := by
  induction vs generalizing s xs with
  | nil => rfl
  | cons v vs ih =>
    cases xs with
    | nil => rfl
    | cons x xs =>
      have hset : execSetParam m s v x = execDefineValue m s v x := by
        unfold execSetParam execDefineValue
        by_cases hslot : execSlotOk m s v = true
        · simp [hslot, hvs v (by simp)]
        · simp [hslot]
      rw [execSetParams, execDefineAll, hset]
      cases execDefineValue m s v x with
      | mk e s' =>
        cases e with
        | ok => exact ih xs fun u hu => hvs u (by simp [hu])
        | _ => rfl

/-- Writes that all succeed are writes of well-typed values. -/
theorem execDefineAll_types {s s' : ExecState} {vs : List Nat} {xs : List ExecValue}
    (hlen : vs.length = xs.length) (h : execDefineAll m s vs xs = (.ok, s')) :
    List.Forall₂ (fun v x => x.type = m.valueType v) vs xs := by
  induction vs generalizing s xs with
  | nil =>
    cases xs with
    | nil => exact .nil
    | cons x xs => cases hlen
  | cons v vs ih =>
    cases xs with
    | nil => cases hlen
    | cons x xs =>
      rw [execDefineAll] at h
      cases hd : execDefineValue m s v x with
      | mk e s₁ =>
        rw [hd] at h
        cases e <;> simp only [Prod.mk.injEq, reduceCtorEq, false_and] at h
        refine .cons ?_ (ih (by simpa using hlen) h)
        unfold execDefineValue at hd
        split at hd
        · cases hd
        · split at hd
          · cases hd
          · next ht => exact (not_not.mp ht).symm

theorem map_bindParams {vs : List Nat} {xs : List ExecValue} (hnd : vs.Nodup)
    (hlen : vs.length = xs.length) (d : Nat → ExecValue) :
    vs.map (fun v => (bindParams vs xs v).getD (d v)) = xs := by
  induction vs generalizing xs with
  | nil =>
    cases xs with
    | nil => rfl
    | cons x xs => cases hlen
  | cons v vs ih =>
    cases xs with
    | nil => cases hlen
    | cons x xs =>
      obtain ⟨hnv, hnd⟩ := List.nodup_cons.mp hnd
      rw [List.map_cons]
      simp only [bindParams, if_true, Option.getD_some, List.cons.injEq, true_and]
      refine (List.map_congr_left fun u hu => ?_).trans (ih hnd (by simpa using hlen))
      have hne : u ≠ v := fun h => hnv (h ▸ hu)
      rw [if_neg hne]

/-- The arguments of an entry that succeeds have the types of the parameters. -/
theorem execEnter_types (hwf : m.WF) {s : ExecState}
    (hlen : (m.blockRec entry).params.length = args.length)
    (h : execEnter m entry pages args = (.ok, s)) :
    List.Forall₂ (fun p x => x.type = m.valueType p) (m.blockRec entry).params args := by
  by_cases hb : entry < m.blocks.length
  · rw [execEnter, execSetParams_eq args fun v hv => ((hwf.block_params entry hb v).mp hv).2.1] at h
    exact execDefineAll_types hlen h
  · have hnone : (m.blockRec entry).params = [] := by
      rw [Module.blockRec, List.getD_eq_default _ _ (by omega)]; rfl
    rw [hnone] at hlen ⊢
    rw [List.length_eq_zero_iff.mp hlen.symm]
    exact .nil

theorem execEnter_ok (hwf : m.WF) (hb : entry < m.blocks.length)
    (hargs : List.Forall₂ (fun p x => x.type = m.valueType p) (m.blockRec entry).params args)
    (pages : List ExecPage) : execEnter m entry pages args = (.ok,
      { freshState m with
        mem := ⟨pages, 0#64⟩
        values := fun u => (bindParams (m.blockRec entry).params args u).getD
          ((freshState m).values u)
        defined := fun u => (bindParams (m.blockRec entry).params args u).isSome ||
          (freshState m).defined u }) := by
  have hparam := fun v hv => (hwf.block_params entry hb v).mp hv
  rw [execEnter, execSetParams_eq args fun v hv => (hparam v hv).2.1]
  refine execDefineAll_ok ((ok_freshState m).withMem _) ?_ (hwf.params_nodup entry hb)
  have hall := List.forall₂_iff_get.mp hargs
  refine List.forall₂_iff_get.mpr ⟨hall.1, fun i h1 h2 => ?_⟩
  have hmem := List.get_mem (m.blockRec entry).params ⟨i, h1⟩
  exact ⟨(hparam _ hmem).1, hwf.param_not_const hb hmem, hall.2 i h1 h2⟩

theorem ok_execEnter (hwf : m.WF) (hb : entry < m.blocks.length) (pages : List ExecPage)
    (args : List ExecValue) : (execEnter m entry pages args).2.Ok m := by
  rw [execEnter, execSetParams_eq args fun v hv => ((hwf.block_params entry hb v).mp hv).2.1]
  exact ((ok_freshState m).withMem _).defineAll _ _ fun v hv => hwf.param_not_const hb hv

/-- **A run that a caller starts** is the reference run with the same arguments. -/
theorem execRun_enter (hwf : m.WF) (hver : m.Verified) {s : ExecState}
    (hlen : (m.blockRec entry).params.length = args.length)
    (h : execEnter m entry pages args = (.ok, s)) (limit : Nat) :
    (execRun m entry s limit).1 = (refRun m entry args ⟨pages, 0#64⟩ limit).1 ∧
      (execRun m entry s limit).2.mem = (refRun m entry args ⟨pages, 0#64⟩ limit).2.mem := by
  have hargs := execEnter_types hwf hlen h
  by_cases hb : entry < m.blocks.length
  · have hok := ok_execEnter hwf hb pages args
    rw [h] at hok
    rw [execEnter_ok hwf hb hargs] at h
    cases h
    have hrun := execRun_eq_refRun hwf hver hok entry limit fun v hv => by
      obtain ⟨x, hx, -⟩ := bindParams_some hargs hv
      simp [hx]
    rw [map_bindParams (hwf.params_nodup entry hb) hlen] at hrun
    exact hrun
  · have hvb : m.validBlock entry = false := by simpa [Module.validBlock] using hb
    have hcore : s.mem = ⟨pages, 0#64⟩ := by
      have hnone : (m.blockRec entry).params = [] := by
        rw [Module.blockRec, List.getD_eq_default _ _ (by omega)]; rfl
      rw [execEnter, hnone] at h
      cases h
      rfl
    rw [execRun, refRun, if_pos (.inr hvb), if_pos hvb]
    exact ⟨rfl, hcore⟩

end Enter

end Xair
