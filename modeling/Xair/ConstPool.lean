import Xair.HashCons
import Xair.Draft

/-!
# The pool of constants

Constants are pooled over all blocks by `value_number_matches`, which compares the stored
immediates; the executor and the folder truncate them to the type.  So two constants of one
type share a value exactly if they were built from the same word
(`constBuilt_pooled`), which is not the same as being the same constant
(`buildConstU64_pooled`).
-/

namespace Xair

/-- `v` and `w` are the same constant of type `t`. -/
def SameConst (t : Ty) (v w : Word) : Prop := v.toNat % 2 ^ t.bits = w.toNat % 2 ^ t.bits

instance (t : Ty) (v w : Word) : Decidable (SameConst t v w) := inferInstanceAs (Decidable (_ = _))

/-! ### Histories -/

theorem BuildStep.grows {m m' : Module} (h : BuildStep m m') : Grows m m' := by
  cases h with
  | same hc => exact grows_sameCore hc
  | block name _ hc => exact (grows_withBlock m name).trans (grows_sameCore hc)
  | param b t name _ _ _ hc => exact (grows_withParam m b t name).trans (grows_sameCore hc)
  | op k name _ _ _ _ _ _ hc => exact (grows_withOp m k name).trans (grows_sameCore hc)
  | args ids hc =>
    refine Grows.trans ?_ (grows_sameCore hc)
    exact ⟨Nat.le_refl _, Nat.le_refl _, fun _ _ => rfl, fun _ _ => rfl, ids, rfl⟩
  | term b t ids _ _ hc => exact (grows_withTerm m b t ids).trans (grows_sameCore hc)

theorem built_runCalls (calls : List Call) {m : Module} (hb : ∀ c ∈ calls, c.Builds) (hwf : m.WF)
    (hn : Numbered m) :
    (runCalls m calls).WF ∧ Numbered (runCalls m calls) ∧ Grows m (runCalls m calls) := by
  induction calls generalizing m with
  | nil => exact ⟨hwf, hn, .refl m⟩
  | cons c calls ih =>
    have hc := hb c (by simp)
    obtain ⟨h1, h2, h3⟩ := ih (fun d hd => hb d (by simp [hd])) (wf_call hwf c)
      (numbered_call hwf hn hc)
    exact ⟨h1, h2, (Call.buildStep m c hc.1).grows.trans h3⟩

/-! ### Constants -/

/-- Value `i` is a constant of type `t` with the immediate `w`. -/
structure ConstBuilt (m : Module) (t : Ty) (w : Word) (i : Nat) : Prop where
  lt : i < m.values.length
  type : m.valueType i = t
  op : ∃ o < m.ops.length, (m.opRec o).dst = i ∧
    SameOp (m.opKey (m.opRec o)) ⟨(m.valueRec i).block, .constU64, t, [], w, .le⟩

section Const

variable {m m' : Module} {t : Ty} {v w : Word} {i j : Nat}

theorem ConstBuilt.grows (hwf : m.WF) (h : ConstBuilt m t w i) (hg : Grows m m') :
    ConstBuilt m' t w i := by
  obtain ⟨o, ho, hd, hs⟩ := h.op
  refine ⟨Nat.lt_of_lt_of_le h.lt hg.values_le, (hg.valueType h.lt).trans h.type, o,
    Nat.lt_of_lt_of_le ho hg.ops_le, by rw [hg.opRec o ho]; exact hd, ?_⟩
  rw [hg.opRec o ho, opKey_congr (hg.valueRec _ (hwf.op_dst o ho).1), hg.valueRec i h.lt]
  exact hs

theorem builds_buildConstU64 (b : Nat) (t : Ty) (w : Word) (name : Option Name) :
    (Call.buildConstU64 b t w name).Builds := ⟨by simp, by simp⟩

theorem constBuilt_of_call (hwf : m.WF) (hn : Numbered m) {b : Nat} {name : Option Name}
    (h : ((Call.buildConstU64 b t w name).run m).2 = .ok (some i)) :
    ConstBuilt ((Call.buildConstU64 b t w name).run m).1 t w i := by
  have hg := (Call.buildStep m _ (builds_buildConstU64 b t w name).1).grows
  rcases buildResult_call hwf hn rfl h with ⟨o, ho, hs, rfl, -, -⟩ | ⟨-, rfl, hlen, hops, -, hd, hk⟩
  · have hc : ConstBuilt m t w (m.opRec o).dst :=
      ⟨(hwf.op_dst o ho).1, hs.type, o, ho, rfl, hs.opcode, hs.type, hs.srcs, hs.imm, hs.endian,
        .inl hs.opcode⟩
    exact hc.grows hwf hg
  · refine ⟨by omega, ?_, m.ops.length, by omega, hd, ?_⟩
    · have ht := congrArg OpKey.type hk
      rw [Module.opKey, hd] at ht
      exact ht
    · rw [hk]
      exact ⟨rfl, rfl, rfl, rfl, rfl, .inl rfl⟩

/-- **Constants are pooled by the word that is stored.** -/
theorem constBuilt_pooled (hwf : m.WF) (hn : Numbered m) (hv : ConstBuilt m t v i)
    (hw : ConstBuilt m t w j) : i = j ↔ v = w := by
  obtain ⟨o, ho, hdo, hso⟩ := hv.op
  obtain ⟨p, hp, hdp, hsp⟩ := hw.op
  constructor
  · rintro rfl
    have hov := hwf.valueOp_dst ho
    have hpv := hwf.valueOp_dst hp
    rw [hdo] at hov
    rw [hdp, hov, Option.some.injEq] at hpv
    calc v = (m.opRec o).imm := hso.imm.symm
      _ = (m.opRec p).imm := by rw [hpv]
      _ = w := hsp.imm
  · rintro rfl
    have hop : o = p := hn.unique o ho p hp
      ⟨hso.opcode.trans hsp.opcode.symm, hso.type.trans hsp.type.symm,
        hso.srcs.trans hsp.srcs.symm, hso.imm.trans hsp.imm.symm,
        hso.endian.trans hsp.endian.symm, .inl hso.opcode⟩
    rw [← hdo, ← hdp, hop]

theorem pooled_of_call (hwf : m.WF) (hn : Numbered m) (hv : ConstBuilt m t v i) {b : Nat}
    {name : Option Name} (h : ((Call.buildConstU64 b t w name).run m).2 = .ok (some j)) :
    i = j ↔ v = w := by
  have hb := builds_buildConstU64 b t w name
  have hv' := hv.grows hwf (Call.buildStep m _ hb.1).grows
  exact constBuilt_pooled (wf_call hwf _) (numbered_call hwf hn hb) hv' (constBuilt_of_call hwf hn h)

end Const

/-- **Two constants of a history.**  `pre` is built before the first of them and `mid` between
them.  They are pooled by value exactly when they are not two spellings of one constant. -/
theorem buildConstU64_pooled (pre mid : List Call) (hpre : ∀ c ∈ pre, c.Builds)
    (hmid : ∀ c ∈ mid, c.Builds) (t : Ty) (b b' : Nat) (v w : Word) (name name' : Option Name)
    (i j : Nat)
    (hi : ((Call.buildConstU64 b t v name).run (runCalls Module.create pre)).2 = .ok (some i))
    (hj : ((Call.buildConstU64 b' t w name').run
      (runCalls Module.create (pre ++ .buildConstU64 b t v name :: mid))).2 = .ok (some j)) :
    (i = j ↔ SameConst t v w) ↔ (SameConst t v w → v = w) := by
  have hsame : v = w → SameConst t v w := by
    rintro rfl
    rfl
  obtain ⟨hwf₁, hn₁, -⟩ := built_runCalls pre hpre wf_create numbered_create
  rw [runCalls, List.foldl_append, List.foldl_cons] at hj
  have hv := constBuilt_of_call hwf₁ hn₁ hi
  obtain ⟨hwf₂, hn₂, hg₂⟩ := built_runCalls mid hmid (wf_call hwf₁ (.buildConstU64 b t v name))
    (numbered_call hwf₁ hn₁ (builds_buildConstU64 b t v name))
  rw [pooled_of_call hwf₂ hn₂ (hv.grows (wf_call hwf₁ _) hg₂) hj]
  exact ⟨fun h => h.mpr, fun h => ⟨hsame, h⟩⟩

/-- The byte `0x03`, built in two blocks. -/
theorem buildConstU64_pooled_twoBlocks :
    (0 = 0 ↔ SameConst (typeI 8) 3#64 3#64) ↔ (SameConst (typeI 8) 3#64 3#64 → 3#64 = 3#64) :=
  buildConstU64_pooled [.blockCreate none, .blockCreate none] [] (by decide) (by decide) (typeI 8)
    0 1 3#64 3#64 none none 0 0 (by decide) (by decide)

/-- The byte `0xff`, zero-extended and sign-extended to the word. -/
theorem buildConstU64_notPooled :
    let m := (Call.blockCreate none).run Module.create
    let first := Call.buildConstU64 0 (typeI 8) 0xff#64 none
    let second := Call.buildConstU64 0 (typeI 8) 0xffffffffffffffff#64 none
    (first.run m.1).2 = .ok (some 0) ∧ (second.run (first.run m.1).1).2 = .ok (some 1) ∧
      SameConst (typeI 8) 0xff#64 0xffffffffffffffff#64 := by
  decide

end Xair
