import Xair.LocalSound

/-!
# Threaded memory tokens

The discipline under which one mutable memory behaves like versioned memory: each
block has at most one memory parameter, every load and store takes the most recent
token of its block, and so does every memory argument of a terminator.  It is the
shape that the lifter emits.

`TokensOk` walks through the operations of a block like the verifier's `OpsOk`, with
the most recent token in place of the set of available values.
-/

namespace Xair

namespace Module

variable (m : Module)

/-- The memory parameters of a block. -/
def memParams (b : Nat) : List Nat :=
  (m.blockRec b).params.filter fun v => (m.valueType v).isMem

/-- The most recent token after operation `o`. -/
def nextToken (tok : Option Nat) (o : Nat) : Option Nat :=
  if (m.valueType (m.opRec o).dst).isMem then some (m.opRec o).dst else tok

/-- The most recent token after a list of operations. -/
def tokenAfter (tok : Option Nat) (os : List Nat) : Option Nat := os.foldl m.nextToken tok

/-- The token a block starts with. -/
def startToken (b : Nat) : Option Nat := (m.memParams b).head?

/-- The token a block ends with. -/
def endToken (b : Nat) : Option Nat := m.tokenAfter (m.startToken b) (m.blockRec b).ops

/-- Every memory operation of the list takes the most recent token. -/
def TokensOk : Option Nat → List Nat → Prop
  | _, [] => True
  | tok, o :: os =>
    ((m.opRec o).opcode.isMemoryOp → tok = some ((m.opRec o).srcAt 0)) ∧
      TokensOk (m.nextToken tok o) os

instance decidableTokensOk : ∀ (tok : Option Nat) (os : List Nat), Decidable (m.TokensOk tok os)
  | _, [] => isTrue trivial
  | tok, o :: os =>
    have := decidableTokensOk (m.nextToken tok o) os
    inferInstanceAs (Decidable (_ ∧ _))

/-- The tokens of a block are threaded. -/
def BlockThreaded (b : Nat) : Prop :=
  (m.memParams b).length ≤ 1 ∧ m.TokensOk (m.startToken b) (m.blockRec b).ops ∧
    ∀ a ∈ m.termUses (m.blockRec b).term, (m.valueType a).isMem = true → m.endToken b = some a

/-- The tokens of a module are threaded. -/
def Threaded : Prop := ∀ b < m.blocks.length, m.BlockThreaded b

instance : Decidable m.Threaded :=
  have (b : Nat) : Decidable (m.BlockThreaded b) := inferInstanceAs (Decidable (_ ∧ _ ∧ _))
  inferInstanceAs (Decidable (∀ b < _, _))

end Module

section Rules

variable {m m' : Module}

theorem typeRule_mem {opcode : Opcode} {out : Ty} {srcs : List Ty}
    (h : typeRule opcode out srcs = true) (hm : out.isMem = true) : opcode = .store := by
  simp only [Ty.isMem, beq_iff_eq] at hm
  rcases srcs with _ | ⟨l, _ | ⟨r, _ | ⟨x, _ | ⟨y, rest⟩⟩⟩⟩
  · cases opcode <;> simp_all [typeRule, Ty.isInt, Ty.isAddr]
  · cases opcode <;> simp_all [typeRule, Ty.isInt, Ty.isAddr, Ty.isFlags, Ty.isI1]
  · cases opcode <;>
      simp only [typeRule, Ty.isInt, Ty.isAddr, Ty.isMem, Ty.isFlags, Ty.isI1, Bool.and_eq_true,
        Bool.or_eq_true, Bool.not_eq_true', beq_iff_eq, beq_eq_false_iff_ne, Bool.false_eq_true]
        at h <;>
      grind
  · cases opcode <;> simp_all [typeRule]
  · cases opcode <;> simp [typeRule] at h

/-- Threading depends on the types, the memory operations and the terminators. -/
theorem threaded_congr (hb : m'.blocks.length = m.blocks.length)
    (hblock : ∀ b, m'.blockRec b = m.blockRec b) (htype : ∀ v, m'.valueType v = m.valueType v)
    (hargs : ∀ t f, m'.termArgsConst t f = m.termArgsConst t f)
    (hdst : ∀ o, (m'.opRec o).dst = (m.opRec o).dst)
    (hop : ∀ o, (m'.opRec o).opcode.isMemoryOp → m'.opRec o = m.opRec o) (h : m.Threaded) :
    m'.Threaded := by
  have htok : ∀ tok o, m'.nextToken tok o = m.nextToken tok o := fun tok o => by
    rw [Module.nextToken, Module.nextToken, hdst, htype]
  have hafter : ∀ tok os, m'.tokenAfter tok os = m.tokenAfter tok os := fun tok os => by
    rw [Module.tokenAfter, Module.tokenAfter, funext₂ htok]
  have hmem : ∀ b, m'.memParams b = m.memParams b := fun b => by
    rw [Module.memParams, Module.memParams, hblock]
    simp only [htype]
  have hstart : ∀ b, m'.startToken b = m.startToken b := fun b => by
    rw [Module.startToken, Module.startToken, hmem]
  have hops : ∀ os tok, m.TokensOk tok os → m'.TokensOk tok os := by
    intro os
    induction os with
    | nil => intro tok _; trivial
    | cons o os ih =>
      intro tok hok
      refine ⟨fun hm => ?_, ?_⟩
      · have heq := hop o hm
        rw [heq] at hm ⊢
        exact hok.1 hm
      · rw [htok]
        exact ih _ hok.2
  intro b hlt
  obtain ⟨h1, h2, h3⟩ := h b (hb ▸ hlt)
  refine ⟨by rw [hmem]; exact h1, by rw [hstart, hblock]; exact hops _ _ h2, ?_⟩
  intro a ha
  have huses : m'.termUses (m'.blockRec b).term = m.termUses (m.blockRec b).term := by
    simp only [Module.termUses, hblock, hargs]
  rw [huses] at ha
  rw [htype, Module.endToken, hafter, hstart, hblock]
  exact h3 a ha

/-- A rewriting step keeps the tokens threaded. -/
theorem threaded_localStep (hs : LocalStep m m') (h : m.Threaded) : m'.Threaded := by
  obtain ⟨-, hr⟩ := hs
  rename_i o op'
  have hnm : ¬ op'.opcode.isMemoryOp := by
    cases hr with
    | fold hf =>
      obtain ⟨w, rfl⟩ := foldConstantOp_eq hf
      simp [foldToConst, Opcode.isMemoryOp]
    | swap hsw =>
      obtain ⟨a, b, -, hc, rfl⟩ := reorderOperands_eq hsw
      rintro (hop | hop) <;> simp only [] at hop <;> simp [hop, opIsCommutative] at hc
  refine threaded_congr (m := m) rfl (fun _ => rfl) (fun _ => rfl) (fun _ _ => rfl) (fun p => ?_)
    (fun p hp => ?_) h
  · rw [opRec_setOp]
    split
    · next hop => rw [hr.dst, hop.1]
    · rfl
  · rw [opRec_setOp] at hp ⊢
    split at hp
    · exact absurd hp hnm
    · next hop => rw [if_neg hop]

/-- The local pass keeps the tokens threaded. -/
theorem threaded_foldedModule (h : m.Threaded) : (foldedModule m).Threaded :=
  localSteps_induct (fun _ _ h hs => threaded_localStep hs h)
    (localSteps_canonicalizeLocalOps (valueNumberClear m))
    (threaded_congr (m := m) rfl (fun _ => rfl) (fun _ => rfl) (fun _ _ => rfl) (fun _ => rfl)
      (fun _ _ => rfl) h)

end Rules

/-! ### The token at a position -/

section Position

variable {m : Module}

/-- The most recent token after the operations `pre` of block `b`. -/
def Module.tokenAt (m : Module) (b : Nat) (pre : List Nat) : Option Nat :=
  m.tokenAfter (m.startToken b) pre

theorem tokenAt_snoc (b : Nat) (pre : List Nat) (o : Nat) :
    m.tokenAt b (pre ++ [o]) = m.nextToken (m.tokenAt b pre) o := by
  rw [Module.tokenAt, Module.tokenAfter, List.foldl_append]
  rfl

theorem tokensOk_split (pre : List Nat) {os : List Nat} {tok : Option Nat}
    (h : m.TokensOk tok (pre ++ os)) : m.TokensOk (m.tokenAfter tok pre) os := by
  induction pre generalizing tok with
  | nil => exact h
  | cons p pre ih => exact ih h.2

theorem token_at (hthr : m.Threaded) {b : Nat} (hb : b < m.blocks.length) {pre os : List Nat}
    {o : Nat} (hsplit : (m.blockRec b).ops = pre ++ o :: os) (hop : (m.opRec o).opcode.isMemoryOp) :
    m.tokenAt b pre = some ((m.opRec o).srcAt 0) := by
  have htok := (hthr b hb).2.1
  rw [hsplit] at htok
  exact (tokensOk_split pre htok).1 hop

end Position

end Xair
