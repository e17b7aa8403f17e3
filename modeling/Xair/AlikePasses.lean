import Xair.Alike
import Xair.Fingerprint
import Xair.Format

/-!
# Passes over modules that look alike

The verifier, the printer and the fingerprint read the same of two modules that are alike
(`verifyModule_alike`, `formatModule_alike`, `fingerprintWords_alike`).  Canonicalization has the
same outcome on both and leaves modules that are alike (`alike_canonicalizeModule`), and so does
every other call (`alike_call`).
-/

namespace Xair

/-! ### Loops over the blocks -/

section Blocks

variable {m m' : Module} (h : ArraysAlike m m')

include h

theorem ArraysAlike.forall₂ : List.Forall₂ (BlockAlike m m') m.blocks m'.blocks := by
  refine List.forall₂_iff_get.mpr ⟨h.blocks.symm, fun b hb hb' => ?_⟩
  rw [List.get_eq_getElem, List.get_eq_getElem, blockRec_getElem hb, blockRec_getElem hb']
  exact h.block b hb

/-- Loops whose rounds do the same on blocks that are alike. -/
theorem ArraysAlike.foldl {α : Type} {f g : α → BlockRec → α}
    (hfg : ∀ a bb bb', BlockAlike m m' bb bb' → g a bb' = f a bb) (a : α) :
    m'.blocks.foldl g a = m.blocks.foldl f a := by
  have hblocks := h.forall₂
  generalize m.blocks = bs at hblocks
  generalize m'.blocks = bs' at hblocks
  induction hblocks generalizing a with
  | nil => rfl
  | cons hbb _ ih => rw [List.foldl_cons, List.foldl_cons, hfg a _ _ hbb, ih]

end Blocks

/-! ### The verifier -/

section Verify

variable {m m' : Module} (h : ArraysAlike m m')

include h

theorem valueIsAvailable_alike : m'.valueIsAvailable = m.valueIsAvailable := by
  funext av v
  rw [Module.valueIsAvailable, Module.valueIsAvailable, h.validValue, h.valueIsGlobalConst]

theorem verifyParams_alike (b : Nat) (vs : List Nat) (av : ValueSet) :
    verifyParams m' b vs av = verifyParams m b vs av := by
  induction vs generalizing av with
  | nil => rfl
  | cons v vs ih => rw [verifyParams, verifyParams, h.validValue, h.valueRec, h.valueType, ih]

theorem verifySources_alike (b : Nat) (av : ValueSet) (ss : List Nat) :
    verifySources m' b av ss = verifySources m b av ss := by
  induction ss with
  | nil => rfl
  | cons s ss ih => rw [verifySources, verifySources, valueIsAvailable_alike h, ih]

theorem verifyOp_alike (op : OpRec) (b : Nat) : verifyOp m' op b = verifyOp m op b := by
  have hunary : verifyUnaryOp m' op b = verifyUnaryOp m op b := by
    rw [verifyUnaryOp, verifyUnaryOp, h.valueType]
  have hbinary : verifyBinaryOp m' op b = verifyBinaryOp m op b := by
    rw [verifyBinaryOp, verifyBinaryOp, h.valueType]
  have hmemory : verifyMemoryOp m' op b = verifyMemoryOp m op b := by
    rw [verifyMemoryOp, verifyMemoryOp, h.valueType]
  rw [verifyOp, verifyOp, h.validValue, h.valueType, hunary, hbinary, hmemory]

theorem verifyOps_alike (b : Nat) (os : List Nat) (av : ValueSet) :
    verifyOps m' b os av = verifyOps m b os av := by
  induction os generalizing av with
  | nil => rfl
  | cons o os ih =>
    simp only [verifyOps, h.ops, h.opRec, h.validValue, h.valueRec, verifySources_alike h,
      verifyOp_alike h, ih]

theorem verifyArgs_alike (b : Nat) (av : ValueSet) (args params : List Nat) :
    verifyArgs m' b av args params = verifyArgs m b av args params := by
  induction args generalizing params with
  | nil => rfl
  | cons arg args ih =>
    cases params with
    | nil => rfl
    | cons param params =>
      rw [verifyArgs, verifyArgs, valueIsAvailable_alike h, h.valueType, ih]

theorem verifyTargetArgs_alike (b : Nat) (av : ValueSet) (target : Nat) (args : List Nat) :
    verifyTargetArgs m' b av target args = verifyTargetArgs m b av target args := by
  rw [verifyTargetArgs, verifyTargetArgs, h.validBlock, (h.blockRec target).params,
    verifyArgs_alike h]

theorem verifyTerm_alike (b : Nat) (av : ValueSet) : verifyTerm m' b av = verifyTerm m b av := by
  have ht := (h.blockRec b).term
  unfold verifyTerm
  simp only [ht.kind, ht.condition, ht.trueTarget, ht.falseTarget, ht.args, h.valueType,
    valueIsAvailable_alike h, verifyTargetArgs_alike h]
  have hreturn : ∀ vs, verifyReturnValues m' b av vs = verifyReturnValues m b av vs := by
    intro vs
    induction vs with
    | nil => rfl
    | cons v vs ih => rw [verifyReturnValues, verifyReturnValues, valueIsAvailable_alike h, ih]
  rw [hreturn]

theorem verifyBlocks_alike (n b : Nat) : verifyBlocks m' n b = verifyBlocks m n b := by
  induction n generalizing b with
  | zero => rfl
  | succ n ih =>
    have hblock : verifyBlock m' b = verifyBlock m b := by
      simp only [verifyBlock, (h.blockRec b).params, (h.blockRec b).ops, verifyParams_alike h,
        verifyOps_alike h, verifyTerm_alike h]
    rw [verifyBlocks, verifyBlocks, hblock, ih]

/-- The verifier gives the same verdict, with the same error. -/
theorem verifyModule_alike : verifyModule m' = verifyModule m := by
  rw [verifyModule, verifyModule, h.blocks, verifyBlocks_alike h]

end Verify

/-! ### Text and fingerprint -/

section Text

variable {m m' : Module} (h : ArraysAlike m m')

include h

theorem printValueRef_alike : printValueRef m' = printValueRef m := by
  funext v p
  rw [printValueRef, printValueRef, h.validValue, h.valueRec]

theorem printBlockRef_alike (b : Nat) (p : Printer) : printBlockRef m' b p = printBlockRef m b p := by
  rw [printBlockRef, printBlockRef, h.validBlock, (h.blockRec b).name]

theorem printOp_alike (op : OpRec) (p : Printer) : printOp m' op p = printOp m op p := by
  rw [printOp, printOp, h.valueType, printValueRef_alike h]

theorem printArgs_alike (args : List Nat) (p : Printer) : printArgs m' args p = printArgs m args p := by
  rw [printArgs, printArgs, printValueRef_alike h]

theorem printTerm_alike {t t' : TermRec} (ht : TermAlike m m' t t') (p : Printer) :
    printTerm m' t' p = printTerm m t p := by
  have hcount : t'.trueArgCount = t.trueArgCount := ht.count false
  unfold printTerm
  simp only [ht.kind, ht.condition, ht.trueTarget, ht.falseTarget, ht.code, ht.args, hcount,
    printValueRef_alike h, printBlockRef_alike h, printArgs_alike h]

theorem printBlock_alike {bb bb' : BlockRec} (hbb : BlockAlike m m' bb bb') (p : Printer) :
    printBlock m' bb' p = printBlock m bb p := by
  have hparam : printParam m' = printParam m := by
    funext v p
    rw [printParam, printParam, h.valueType, printValueRef_alike h]
  simp only [printBlock, hbb.name, hbb.params, hbb.ops, hparam, h.opRec, printOp_alike h,
    printTerm_alike h hbb.term]

/-- The printer writes the same text. -/
theorem formatModule_alike (buffer : Nat → UInt8) (n : Nat) :
    formatModule m' buffer n = formatModule m buffer n := by
  simp only [formatModule, h.foldl fun p bb bb' hbb => printBlock_alike h hbb p]

/-- The fingerprint mixes the same words. -/
theorem fingerprintWords_alike : fingerprintWords m' = fingerprintWords m := by
  have hblocks : m'.blocks.mapIdx (fingerprintBlock m') = m.blocks.mapIdx (fingerprintBlock m) := by
    refine List.ext_getElem (by simp [h.blocks]) fun b hb' hb => ?_
    have hlt : b < m.blocks.length := by simpa using hb
    have hlt' : b < m'.blocks.length := by simpa using hb'
    obtain ⟨-, hparams, hops, ht⟩ := h.block b hlt
    have htrue : (m'.blockRec b).term.trueArgCount = (m.blockRec b).term.trueArgCount :=
      ht.count false
    have hfalse : (m'.blockRec b).term.falseArgCount = (m.blockRec b).term.falseArgCount :=
      ht.count true
    rw [List.getElem_mapIdx, List.getElem_mapIdx, blockRec_getElem hlt, blockRec_getElem hlt']
    simp only [fingerprintBlock, hparams, hops, ht.kind, ht.condition, ht.trueTarget,
      ht.falseTarget, ht.code, ht.args, htrue, hfalse]
  rw [fingerprintWords, fingerprintWords, fingerprintNumbers, fingerprintNumbers, h.values, h.ops,
    h.blocks, hblocks]

end Text

/-! ### The local pass -/

section Local

variable {m m' : Module} (h : ArraysAlike m m')

include h

theorem ArraysAlike.setOp (o : Nat) (op : OpRec) : ArraysAlike (m.setOp o op) (m'.setOp o op) := by
  refine ⟨h.values, congrArg (·.set o op) h.ops, h.blocks, fun b hb => ?_⟩
  obtain ⟨hname, hparams, hops, ht⟩ := h.block b hb
  exact ⟨hname, hparams, hops, ht.kind, ht.condition, ht.trueTarget, ht.falseTarget, ht.code,
    ht.count, ht.args, ht.unused⟩

theorem constU64Value_alike : constU64Value m' = constU64Value m := by
  funext v
  rw [constU64Value, constU64Value, h.validValue, h.valueType, h.valueOp]

theorem foldConstantOp_alike (op : OpRec) : foldConstantOp m' op = foldConstantOp m op := by
  have hpair : constPair m' op = constPair m op := by
    rw [constPair, constPair, constU64Value_alike h]
  have hflag : ∀ extract v, computeFlagExtract m' extract v = computeFlagExtract m extract v := by
    intro extract v
    rw [computeFlagExtract, computeFlagExtract, h.validValue, h.valueOp, h.valueType,
      constU64Value_alike h]
  unfold foldConstantOp
  rw [h.valueType, hpair, constU64Value_alike h, hflag]

theorem reorderOperands_alike (op : OpRec) : reorderOperands m' op = reorderOperands m op := by
  have horder : compareValueOrder m' = compareValueOrder m := by
    funext l r
    rw [compareValueOrder, compareValueOrder, constU64Value_alike h, h.valueType, h.valueRec]
  rw [reorderOperands, reorderOperands, horder]

/-- One round of the local pass. -/
theorem canonicalizeLocalOp_alike (o : Nat) (stats : LocalStats) :
    ArraysAlike (canonicalizeLocalOp m o stats).1 (canonicalizeLocalOp m' o stats).1 ∧
      (canonicalizeLocalOp m' o stats).2 = (canonicalizeLocalOp m o stats).2 := by
  have hfold : ArraysAlike (foldLocalOp m o stats).1 (foldLocalOp m' o stats).1 ∧
      (foldLocalOp m' o stats).2 = (foldLocalOp m o stats).2 := by
    unfold foldLocalOp
    rw [h.opRec, foldConstantOp_alike h]
    split
    · exact ⟨h.setOp o _, rfl⟩
    · exact ⟨h, rfl⟩
  obtain ⟨h₁, hstats⟩ := hfold
  unfold canonicalizeLocalOp reorderLocalOp
  rw [h₁.opRec, reorderOperands_alike h₁, hstats]
  split
  · exact ⟨h₁.setOp o _, rfl⟩
  · exact ⟨h₁, rfl⟩

theorem canonicalizeLocalOps_alike :
    ArraysAlike (canonicalizeLocalOps m).1 (canonicalizeLocalOps m').1 ∧
      (canonicalizeLocalOps m').2 = (canonicalizeLocalOps m).2 := by
  have key : ∀ (n o : Nat) (m m' : Module) (stats : LocalStats), ArraysAlike m m' →
      ArraysAlike (canonicalizeLocalOpsFrom n o m stats).1
          (canonicalizeLocalOpsFrom n o m' stats).1 ∧
        (canonicalizeLocalOpsFrom n o m' stats).2 = (canonicalizeLocalOpsFrom n o m stats).2 := by
    intro n
    induction n with
    | zero => exact fun _ _ _ _ h => ⟨h, rfl⟩
    | succ n ih =>
      intro o m m' stats h
      obtain ⟨h₁, hstats⟩ := canonicalizeLocalOp_alike h o stats
      rw [canonicalizeLocalOpsFrom, canonicalizeLocalOpsFrom, hstats]
      exact ih _ _ _ _ h₁
  rw [canonicalizeLocalOps, canonicalizeLocalOps, h.ops]
  exact key _ 0 m m' _ h

theorem foldedModule_alike : ArraysAlike (foldedModule m) (foldedModule m') :=
  (canonicalizeLocalOps_alike
    (h.congr (sameCore_valueNumberClear m) (sameCore_valueNumberClear m'))).1

end Local

/-! ### Liveness and numbering -/

section Numbering

variable {m m' : Module} (h : ArraysAlike m m')

include h

theorem markLiveValue_alike (fuel : Nat) : markLiveValue m' fuel = markLiveValue m fuel := by
  induction fuel with
  | zero => rfl
  | succ fuel ih =>
    funext live v
    rw [markLiveValue, markLiveValue, h.validValue, h.valueOp, ih]

theorem liveValues_alike : liveValues m' = liveValues m := by
  have hmark : markLiveValues m' = markLiveValues m := by
    funext live vs
    rw [markLiveValues, markLiveValues, h.values, markLiveValue_alike h]
  have huses : ∀ {t t'}, TermAlike m m' t t' → m'.termUses t' = m.termUses t := by
    intro t t' ht
    unfold Module.termUses
    rw [ht.kind, ht.condition, ht.args, ht.args]
  exact h.foldl (fun live bb bb' hbb => by rw [hmark, hbb.params, huses hbb.term]) _

theorem compactMaps_alike (live : ValueSet) : compactMaps m' live = compactMaps m live := by
  have hadd : CompactMaps.addOp m' live = CompactMaps.addOp m live := by
    funext maps o
    rw [CompactMaps.addOp, CompactMaps.addOp, h.opRec]
  exact h.foldl (fun maps bb bb' hbb => by rw [hadd, hbb.params, hbb.ops]) _

/-- The new arrays. -/
theorem compactArrays_alike (maps : CompactMaps) :
    m'.blocks.foldl (fun a bb => bb.ops.foldl (compactOp m' maps) a) (copyValues m' maps) =
      m.blocks.foldl (fun a bb => bb.ops.foldl (compactOp m maps) a) (copyValues m maps) := by
  have hop : compactOp m' maps = compactOp m maps := by
    funext arrays o
    rw [compactOp, compactOp, h.opRec]
  have hcopy : copyValues m' maps = copyValues m maps := by
    rw [copyValues, copyValues, h.values, h.valueRec]
  rw [hcopy]
  exact h.foldl (fun a bb bb' hbb => by rw [hop, hbb.ops]) _

end Numbering

/-! ### Removal -/

section Removal

variable {m m' : Module}

/-- The terminators after renumbering. -/
theorem termAlike_renumbered (h : ArraysAlike m m') (hwf : m.WF) (hwf' : m'.WF)
    (maps : CompactMaps) {b : Nat} (hb : b < m.blocks.length) :
    TermAlike (renumberedModule m maps) (renumberedModule m' maps)
      (remapTerm maps (m.blockRec b).term) (remapTerm maps (m'.blockRec b).term) := by
  have ht := (h.block b hb).term
  have hargs : ∀ f, (renumberedModule m' maps).termArgsConst (m'.blockRec b).term f =
      (renumberedModule m maps).termArgsConst (m.blockRec b).term f := by
    intro f
    by_cases hf : (m.blockRec b).term.Uses f
    · have hf' : (m'.blockRec b).term.Uses f := by
        rw [TermRec.Uses, ht.kind]
        exact hf
      rw [termArgsConst_remap hwf' maps rfl (h.blocks ▸ hb) hf',
        termArgsConst_remap hwf maps rfl hb hf, ht.args]
    · rw [termArgsConst_nil _ (ht.unused f hf),
        termArgsConst_nil _ ((ht.count f).trans (ht.unused f hf))]
  -- renumbering changes the condition of a branch and nothing else
  have hterm : ∀ (n : Module) (t : TermRec), (remapTerm maps t).kind = t.kind ∧
      (remapTerm maps t).trueTarget = t.trueTarget ∧
      (remapTerm maps t).falseTarget = t.falseTarget ∧ (remapTerm maps t).code = t.code ∧
      (∀ f, (remapTerm maps t).argCount f = t.argCount f) ∧
      ∀ f, n.termArgsConst (remapTerm maps t) f = n.termArgsConst t f := by
    intro n t
    unfold remapTerm
    split <;> exact ⟨rfl, rfl, rfl, rfl, fun _ => rfl, fun _ => rfl⟩
  obtain ⟨hk, htrue, hfalse, hcode, hcount, hconst⟩ :=
    hterm (renumberedModule m maps) (m.blockRec b).term
  obtain ⟨hk', htrue', hfalse', hcode', hcount', hconst'⟩ :=
    hterm (renumberedModule m' maps) (m'.blockRec b).term
  refine ⟨by rw [hk', hk, ht.kind], ?_, by rw [htrue', htrue, ht.trueTarget],
    by rw [hfalse', hfalse, ht.falseTarget], by rw [hcode', hcode, ht.code],
    fun f => by rw [hcount', hcount, ht.count], fun f => by rw [hconst', hconst, hargs],
    fun f hf => ?_⟩
  · unfold remapTerm
    rw [ht.kind, ht.condition]
    split
    · rfl
    · exact ht.condition
  · rw [TermRec.Uses, hk] at hf
    rw [hcount]
    exact ht.unused f hf

theorem renumberedModule_alike (h : ArraysAlike m m') (hwf : m.WF) (hwf' : m'.WF)
    (maps : CompactMaps) : ArraysAlike (renumberedModule m maps) (renumberedModule m' maps) := by
  have harrays := compactArrays_alike h maps
  refine ⟨?_, ?_, ?_, fun b hb => ?_⟩
  · rw [renumberedModule, renumberedModule, harrays]
  · rw [renumberedModule, renumberedModule, harrays]
  · simp [renumberedModule, h.blocks]
  · have hb : b < m.blocks.length := by simpa [renumberedModule] using hb
    obtain ⟨hname, hparams, hops, -⟩ := h.block b hb
    have hterm := termAlike_renumbered h hwf hwf' maps hb
    rw [blockRec_renumberedModule m maps hb, blockRec_renumberedModule m' maps (h.blocks ▸ hb)]
    exact ⟨hname, congrArg (List.map maps.value) hparams,
      congrArg (List.filterMap maps.opMap) hops, hterm⟩

/-- Dead-value removal counts the same and leaves arrays that are alike. -/
theorem eliminateDeadValues_alike (h : ArraysAlike m m') (hwf : m.WF) (hwf' : m'.WF) :
    ArraysAlike (eliminateDeadValues m).1 (eliminateDeadValues m').1 ∧
      (eliminateDeadValues m').2 = (eliminateDeadValues m).2 := by
  rw [eliminateDeadValues, eliminateDeadValues, liveValues_alike h, compactLiveValues_eq,
    compactLiveValues_eq, compactMaps_alike h, h.values, h.ops]
  split
  · exact ⟨h, rfl⟩
  · exact ⟨renumberedModule_alike h hwf hwf' _, rfl⟩

end Removal

/-! ### Every call -/

section Calls

variable {m m' : Module}

theorem Alike.verified (h : Alike m m') (hver : m.Verified) : m'.Verified :=
  (verifyModule_alike h.arrays).trans hver

theorem Alike.canonicalizedModule (h : Alike m m') (hver : m.Verified) :
    Alike (canonicalizedModule m) (canonicalizedModule m') := by
  have hver' := h.verified hver
  obtain ⟨hn, hc⟩ := table_canonicalizedModule m
  obtain ⟨hn', hc'⟩ := table_canonicalizedModule m'
  refine ⟨wf_canonicalizedModule h.wf hver, wf_canonicalizedModule h.wf' hver', ?_, ?_, [],
    tabled_nil hn hc, tabled_nil hn' hc'⟩
  · exact (eliminateDeadValues_alike (foldedModule_alike h.arrays) (wf_foldedModule h.wf)
      (wf_foldedModule h.wf')).1
  · rw [frozen_canonicalizedModule h.wf hver, frozen_canonicalizedModule h.wf' hver', h.frozen]

theorem canonicalizeStats_alike (h : Alike m m') (hver : m.Verified) :
    canonicalizeStats m' = canonicalizeStats m := by
  have hcanon := h.canonicalizedModule hver
  have hlocal := (canonicalizeLocalOps_alike
    (h.arrays.congr (sameCore_valueNumberClear m) (sameCore_valueNumberClear m'))).2
  have hdead := (eliminateDeadValues_alike (foldedModule_alike h.arrays) (wf_foldedModule h.wf)
    (wf_foldedModule h.wf')).2
  have hentries : ∀ {n n' : Module}, Alike n n' → n'.valueNumberCount = n.valueNumberCount := by
    rintro n n' ⟨-, -, -, -, os, ht, ht'⟩
    rw [ht.table.count_eq, ht'.table.count_eq, List.length_map, List.length_map]
  rw [canonicalizeStats, canonicalizeStats, h.arrays.values, h.arrays.ops, hcanon.arrays.values,
    hcanon.arrays.ops, hentries h, hentries hcanon, hlocal, hdead]

theorem alike_canonicalizeModule (h : Alike m m') :
    RunsAlike (canonicalizeModule m) (canonicalizeModule m') := by
  by_cases hf : m.frozen = true
  · rw [canonicalizeModule, canonicalizeModule, h.frozen, if_pos hf, if_pos hf]
    exact h.refused _
  · have hf : m.frozen = false := by simpa using hf
    cases hv : verifyModule m with
    | error e =>
      have hv' := (verifyModule_alike h.arrays).trans hv
      rw [canonicalizeModule, canonicalizeModule, h.frozen, hf, hv, hv']
      exact h.refused _
    | ok _ =>
      have hver : m.Verified := hv
      rw [canonicalizeModule_ok h.wf hf hver,
        canonicalizeModule_ok h.wf' (h.frozen.trans hf) (h.verified hver)]
      exact ⟨congrArg Except.ok (canonicalizeStats_alike h hver), h.canonicalizedModule hver⟩

theorem RunsAlike.map {α β : Type} {r r' : Module × Except Status α} (h : RunsAlike r r')
    (f : α → β) : RunsAlike (r.1, r.2.map f) (r'.1, r'.2.map f) :=
  ⟨congrArg (Except.map f) h.1, h.2⟩

/-- **Every call** has the same outcome on modules that are alike and leaves modules that are
alike. -/
theorem alike_call (h : Alike m m') (c : Call) : RunsAlike (c.run m) (c.run m') := by
  cases c with
  | blockCreate name => exact (alike_blockCreate h name).map some
  | blockAddParam b t name => exact (alike_blockAddParam h b t name).map some
  | buildConstU64 b t w name => exact (alike_buildConstU64 h b t w name).map some
  | buildUnary b op t s name => exact (alike_buildUnary h b op t s name).map some
  | buildBinary b op t l r name => exact (alike_buildBinary h b op t l r name).map some
  | buildLoad b t mem a e name => exact (alike_buildLoad h b t mem a e name).map some
  | buildStore b mem a d e name => exact (alike_buildStore h b mem a d e name).map some
  | setJump b t args => exact (alike_setJump h b t args).map _
  | setCbranch b c t ta f fa => exact (alike_setCbranch h b c t ta f fa).map _
  | setReturn b vs => exact (alike_setReturn h b vs).map _
  | setTrap b code => exact (alike_setTrap h b code).map _
  | setFault b code => exact (alike_setFault h b code).map _
  | canonicalize => exact (alike_canonicalizeModule h).map _
  | freeze => exact (alike_moduleFreeze h).map _

theorem alike_create : Alike Module.create Module.create :=
  ⟨wf_create, wf_create, ⟨rfl, rfl, rfl, fun b hb => absurd hb (Nat.not_lt_zero b)⟩, rfl, [],
    tabled_nil rfl rfl, tabled_nil rfl rfl⟩

/-- A module that the API builds is alike to itself. -/
theorem alike_of_reachable (h : m.Reachable) : Alike m m :=
  reachable_induct (P := fun n => Alike n n) alike_create (fun _ c hm => (alike_call hm c).2) h

end Calls

end Xair
