import Xair.LiftInst

/-!
# The stack machine

What `push` and `pop` mean on x86, the stack pointer included: `push` stores the value
from before the decrement, and `pop` moves the stack pointer and then writes its register.
A machine that writes the stack pointer last (`X86Machine.popThenRsp`) follows the stack
machine as long as every `pop` to the stack pointer finds the address of the next word on
top of the stack (`PopsNext`); the pops of a balanced sequence always do
(`balanced_restores`).
-/

namespace Xair

open LittleEndian

/-- A stack instruction. -/
inductive StackInst
  | push (src : X86Reg)
  | pop (dst : X86Reg)
  deriving DecidableEq, Repr

/-- The stack instruction that a decoded one is. -/
def X86DecodedInst.stackInst (inst : X86DecodedInst) : Option StackInst :=
  match inst.mnemonic, inst.operands with
  | .push, [.register _ src] => some (.push src)
  | .pop, [.register _ dst] => some (.pop dst)
  | _, _ => none

/-- The bytes of a register, as an amount to move the stack pointer by. -/
def Arch.slot (arch : Arch) : BitVec arch.bits := BitVec.ofNat arch.bits arch.bytes

namespace X86Machine

variable {arch : Arch} {s s' : X86Machine arch}

/-- A stack instruction on x86. -/
def stackStep (s : X86Machine arch) : StackInst → Option (X86Machine arch)
  | .push src =>
    (s.store (s.regs x86Rsp - arch.slot) (s.regs src)).map fun s' =>
      s'.setReg x86Rsp (s.regs x86Rsp - arch.slot)
  | .pop dst =>
    (s.load (s.regs x86Rsp)).map fun value =>
      (s.setReg x86Rsp (s.regs x86Rsp + arch.slot)).setReg dst value

/-- A sequence of stack instructions. -/
def stackRun (s : X86Machine arch) : List StackInst → Option (X86Machine arch)
  | [] => some s
  | i :: insts =>
    match s.stackStep i with
    | none => none
    | some s' => stackRun s' insts

/-- The word on top of the stack is the address above it. -/
def TopIsNext (s : X86Machine arch) : Prop :=
  s.load (s.regs x86Rsp) = some (s.regs x86Rsp + arch.slot)

instance (s : X86Machine arch) : Decidable s.TopIsNext := inferInstanceAs (Decidable (_ = _))

/-- Whenever the stack pointer is popped, the word on top of the stack is the address
above it. -/
def PopsNext (s : X86Machine arch) : List StackInst → Prop
  | [] => True
  | i :: insts =>
    (i = .pop x86Rsp → s.TopIsNext) ∧ ∀ s', s.stackStep i = some s' → PopsNext s' insts

/-! ### Runs -/

theorem stackRun_cons {i : StackInst} {insts : List StackInst} :
    s.stackRun (i :: insts) = some s' ↔
      ∃ s₁, s.stackStep i = some s₁ ∧ s₁.stackRun insts = some s' := by
  rw [stackRun]
  cases s.stackStep i with
  | none => simp
  | some s₁ => simp

theorem stackRun_append {insts insts' : List StackInst} :
    s.stackRun (insts ++ insts') = some s' ↔
      ∃ s₁, s.stackRun insts = some s₁ ∧ s₁.stackRun insts' = some s' := by
  induction insts generalizing s with
  | nil => simp [stackRun]
  | cons i insts ih =>
    rw [List.cons_append, stackRun_cons]
    constructor
    · rintro ⟨s₁, h₁, h⟩
      obtain ⟨s₂, h₂, h⟩ := ih.mp h
      exact ⟨s₂, stackRun_cons.mpr ⟨s₁, h₁, h₂⟩, h⟩
    · rintro ⟨s₂, h₂, h⟩
      obtain ⟨s₁, h₁, h₂⟩ := stackRun_cons.mp h₂
      exact ⟨s₁, h₁, ih.mpr ⟨s₂, h₂, h⟩⟩

theorem popsNext_append {insts insts' : List StackInst} {s₁ : X86Machine arch}
    (hrun : s.stackRun insts = some s₁) :
    s.PopsNext (insts ++ insts') ↔ s.PopsNext insts ∧ s₁.PopsNext insts' := by
  induction insts generalizing s with
  | nil =>
    cases hrun
    simp [PopsNext]
  | cons i insts ih =>
    obtain ⟨s₂, h₂, hrun⟩ := stackRun_cons.mp hrun
    rw [List.cons_append, PopsNext, PopsNext]
    have honly : ∀ {P : X86Machine arch → Prop},
        (∀ s', s.stackStep i = some s' → P s') ↔ P s₂ := by
      intro P
      rw [h₂]
      exact ⟨fun h => h s₂ rfl, fun h s' hs' => by cases hs'; exact h⟩
    rw [honly, honly, ih hrun, and_assoc]

/-! ### The lifter's instructions -/

theorem stepThenRsp_push {inst : X86DecodedInst} {next : Word} {src : X86Reg}
    (h : inst.stackInst = some (.push src)) :
    s.stepThenRsp inst next = s.stackStep (.push src) := by
  rw [X86DecodedInst.stackInst] at h
  split at h
  · next r hm hops =>
    cases h
    simp only [stepThenRsp, step, hm, hops]
    rfl
  · cases h
  · cases h

theorem stepThenRsp_pop {inst : X86DecodedInst} {next : Word} {dst : X86Reg}
    (h : inst.stackInst = some (.pop dst)) : s.stepThenRsp inst next = s.popThenRsp dst := by
  rw [X86DecodedInst.stackInst] at h
  split at h
  · cases h
  · next r hm hops =>
    cases h
    simp only [stepThenRsp, hm, hops]
  · cases h

/-- A `pop` to another register is the same in either order. -/
theorem popThenRsp_of_ne {dst : X86Reg} (h : dst ≠ x86Rsp) :
    s.popThenRsp dst = s.stackStep (.pop dst) := by
  rw [popThenRsp, stackStep]
  congr 1
  funext value
  exact setReg_comm s h _ _

/-- A `pop` to the stack pointer leaves the address above the word instead of the word. -/
theorem popThenRsp_rsp :
    s.popThenRsp x86Rsp = (s.load (s.regs x86Rsp)).map fun _ =>
      s.setReg x86Rsp (s.regs x86Rsp + arch.slot) := by
  rw [popThenRsp]
  congr 1
  funext value
  exact setReg_setReg s _ _ _

theorem stackStep_popRsp :
    s.stackStep (.pop x86Rsp) = (s.load (s.regs x86Rsp)).map fun value =>
      s.setReg x86Rsp value := by
  rw [stackStep]
  congr 1
  funext value
  exact setReg_setReg s _ _ _

/-- **One instruction.**  The lifter agrees with the stack machine exactly when a `pop` to
the stack pointer finds the next address. -/
theorem stepThenRsp_iff {inst : X86DecodedInst} {next : Word} {i : StackInst}
    (h : inst.stackInst = some i) (hs : s.stackStep i = some s') :
    s.stepThenRsp inst next = some s' ↔ (i = .pop x86Rsp → s.TopIsNext) := by
  cases i with
  | push src =>
    rw [stepThenRsp_push h]
    exact ⟨fun _ he => (by cases he), fun _ => hs⟩
  | pop dst =>
    rw [stepThenRsp_pop h]
    by_cases hd : dst = x86Rsp
    · subst hd
      rw [stackStep_popRsp] at hs
      obtain ⟨value, hload, rfl⟩ := Option.map_eq_some_iff.mp hs
      rw [popThenRsp_rsp, TopIsNext, hload, Option.map_some, Option.some_inj, Option.some_inj]
      constructor
      · intro he _
        have hrsp := congrArg (fun s : X86Machine arch => s.regs x86Rsp) he
        simp only [setReg_regs_self] at hrsp
        exact hrsp.symm
      · intro ht
        rw [ht rfl]
    · rw [popThenRsp_of_ne hd, hs]
      exact ⟨fun _ he => absurd (StackInst.pop.inj he) hd, fun _ => rfl⟩

/-- **A run.**  Where every popped stack pointer is the next address, the lifter follows the
stack machine. -/
theorem runThenRsp_of_stackRun {insts : List StackInst} {code : List (X86DecodedInst × Word)}
    (hcode : code.map (fun c => c.1.stackInst) = insts.map some) (hpops : s.PopsNext insts)
    (hrun : s.stackRun insts = some s') : s.runThenRsp code = some s' := by
  induction insts generalizing s code with
  | nil =>
    rw [List.map_nil, List.map_eq_nil_iff] at hcode
    subst hcode
    exact hrun
  | cons i insts ih =>
    obtain ⟨c, code, rfl, hc, hcode⟩ := List.map_eq_cons_iff.mp hcode
    obtain ⟨hfirst, hrest⟩ := hpops
    obtain ⟨s₁, h₁, hrun⟩ := stackRun_cons.mp hrun
    rw [runThenRsp, (stepThenRsp_iff hc h₁).mpr hfirst]
    exact ih hcode (hrest s₁ h₁) hrun

theorem runThenRsp_append {code code' : List (X86DecodedInst × Word)} {s₁ : X86Machine arch}
    (h : s.runThenRsp code = some s₁) : s.runThenRsp (code ++ code') = s₁.runThenRsp code' := by
  induction code generalizing s with
  | nil =>
    cases h
    rfl
  | cons c code ih =>
    rw [runThenRsp] at h
    rw [List.cons_append, runThenRsp]
    cases hc : s.stepThenRsp c.1 c.2 with
    | none =>
      rw [hc] at h
      cases h
    | some s₂ =>
      rw [hc] at h
      exact ih h

/-- **The last `pop` of the stack pointer.**  The lifter gets to a state that has the stack
pointer of the stack machine only if the word was the next address. -/
theorem popsNext_of_last {pre : List StackInst} {code : List (X86DecodedInst × Word)}
    (hcode : code.map (fun c => c.1.stackInst) = (pre ++ [StackInst.pop x86Rsp]).map some)
    (hpre : s.PopsNext pre) (hrun : s.stackRun (pre ++ [.pop x86Rsp]) = some s') :
    ∃ s'', s.runThenRsp code = some s'' ∧
      (s'.regs = s''.regs → s.PopsNext (pre ++ [.pop x86Rsp])) := by
  rw [List.map_append] at hcode
  obtain ⟨code₁, code₂, rfl, hcode₁, hcode₂⟩ := List.map_eq_append_iff.mp hcode
  obtain ⟨c, rest, rfl, hc, hrest⟩ := List.map_eq_cons_iff.mp hcode₂
  rw [List.map_nil, List.map_eq_nil_iff] at hrest
  subst hrest
  obtain ⟨s₁, hrun₁, hlast⟩ := stackRun_append.mp hrun
  obtain ⟨s₂, hpop, hend⟩ := stackRun_cons.mp hlast
  cases hend
  rw [stackStep_popRsp] at hpop
  obtain ⟨value, hload, rfl⟩ := Option.map_eq_some_iff.mp hpop
  refine ⟨s₁.setReg x86Rsp (s₁.regs x86Rsp + arch.slot), ?_, fun hregs => ?_⟩
  · rw [runThenRsp_append (runThenRsp_of_stackRun hcode₁ hpre hrun₁), runThenRsp,
      stepThenRsp_pop hc, popThenRsp_rsp, hload]
    rfl
  · have hrsp := congrFun hregs x86Rsp
    rw [setReg_regs_self, setReg_regs_self] at hrsp
    rw [popsNext_append hrun₁]
    refine ⟨hpre, fun _ => ?_, fun _ _ => trivial⟩
    rw [TopIsNext, hload, hrsp]

/-! ### Words on the stack -/

theorem setWidth_add_ofNat {a : BitVec arch.bits} (hw : ¬ Wraps a) {i : Nat} (hi : i < arch.bytes) :
    a.setWidth 64 + BitVec.ofNat 64 i = (a + BitVec.ofNat arch.bits i).setWidth 64 := by
  have hbits := arch.bits_le
  have hpow : 2 ^ arch.bits ≤ 2 ^ 64 := Nat.pow_le_pow_right (by decide) hbits
  rw [Wraps] at hw
  apply BitVec.eq_of_toNat_eq
  rw [BitVec.toNat_add, BitVec.toNat_setWidth_of_le hbits, BitVec.toNat_setWidth_of_le hbits,
    BitVec.toNat_add, BitVec.toNat_ofNat, BitVec.toNat_ofNat, Nat.mod_eq_of_lt (a := i) (by omega),
    Nat.mod_eq_of_lt (a := i) (by omega), Nat.mod_eq_of_lt (by omega), Nat.mod_eq_of_lt (by omega)]

theorem store_some {a value : BitVec arch.bits} (h : s.store a value = some s') :
    ¬ Wraps a ∧ s'.regs = s.regs ∧
      s'.memory = s.memory.write (a.setWidth 64) ((List.range arch.bytes).map (byteAt value)) := by
  rw [store] at h
  split at h
  · cases h
  · next hw =>
    cases h
    exact ⟨hw, rfl, rfl⟩

theorem load_congr {a : BitVec arch.bits} (h : ¬ Wraps a → ∀ i < arch.bytes,
      s.memory ((a + BitVec.ofNat arch.bits i).setWidth 64) =
        s'.memory ((a + BitVec.ofNat arch.bits i).setWidth 64)) : s.load a = s'.load a := by
  rw [load, load]
  by_cases hw : Wraps a
  · rw [if_pos hw, if_pos hw]
  · have hread : s.memory.read (a.setWidth 64) arch.bytes =
        s'.memory.read (a.setWidth 64) arch.bytes := by
      apply ByteMap.read_congr
      intro i hi
      rw [setWidth_add_ofNat hw hi]
      exact h hw i hi
    rw [if_neg hw, if_neg hw, hread]

/-- **A word stored is loaded again.** -/
theorem load_store {a value : BitVec arch.bits} (h : s.store a value = some s') :
    s'.load a = some value := by
  obtain ⟨hw, -, hmem⟩ := store_some h
  have hlen : ((List.range arch.bytes).map (byteAt value)).length = arch.bytes := by
    rw [List.length_map, List.length_range]
  have hread : s'.memory.read (a.setWidth 64) arch.bytes =
      some ((List.range arch.bytes).map (byteAt value)) := by
    conv_lhs => rw [← hlen]
    apply ByteMap.read_eq_some
    intro i hi
    rw [hmem]
    exact ByteMap.write_inside _ (by rw [hlen]; exact not_wraps_of_machine hw) hi
  rw [load, if_neg hw, hread, Option.map_some]
  congr 1
  cases arch with
  | x8632 => exact ofNat_leNat_byteAt (n := 4) value
  | x8664 => exact ofNat_leNat_byteAt (n := 8) value

/-! ### Balanced sequences -/

/-- Pushes, and pops of the same registers in reverse order. -/
def balanced (regs : List X86Reg) : List StackInst :=
  regs.map .push ++ regs.reverse.map .pop

theorem balanced_cons (reg : X86Reg) (regs : List X86Reg) :
    balanced (reg :: regs) = .push reg :: (balanced regs ++ [.pop reg]) := by
  simp [balanced]

/-- The address of a byte that is among the `n` bytes below the stack pointer. -/
def BelowRsp (s : X86Machine arch) (n : Nat) (x : Word) : Prop :=
  ∃ j, 1 ≤ j ∧ j ≤ n ∧ x = (s.regs x86Rsp - BitVec.ofNat arch.bits j).setWidth 64

theorem belowRsp_slot {i : Nat} (hi : i < arch.bytes) {n : Nat} (hn : arch.bytes ≤ n) :
    s.BelowRsp n ((s.regs x86Rsp - arch.slot + BitVec.ofNat arch.bits i).setWidth 64) := by
  refine ⟨arch.bytes - i, by omega, by omega, ?_⟩
  congr 1
  have hsplit : arch.slot = BitVec.ofNat arch.bits (arch.bytes - i) + BitVec.ofNat arch.bits i := by
    rw [← BitVec.ofNat_add, Nat.sub_add_cancel (Nat.le_of_lt hi)]
    rfl
  rw [hsplit, ← BitVec.sub_sub, BitVec.sub_add_cancel]

/-- The bytes below a pushed word are below the stack pointer too. -/
theorem BelowRsp.push (hs : s'.regs x86Rsp = s.regs x86Rsp - arch.slot) {n : Nat} {x : Word}
    (h : s'.BelowRsp n x) : s.BelowRsp (n + arch.bytes) x := by
  obtain ⟨j, h1, hn, rfl⟩ := h
  refine ⟨j + arch.bytes, by omega, by omega, ?_⟩
  rw [hs, Nat.add_comm, BitVec.ofNat_add, BitVec.sub_sub]
  rfl

/-- The pushed word is not below the stack pointer, unless the stack fills the address space. -/
theorem not_belowRsp_slot {i n : Nat} (hi : i < arch.bytes) (hn : n + arch.bytes ≤ 2 ^ arch.bits) :
    ¬ s.BelowRsp n ((s.regs x86Rsp + BitVec.ofNat arch.bits i).setWidth 64) := by
  rintro ⟨j, h1, hj, he⟩
  have heq : s.regs x86Rsp + BitVec.ofNat arch.bits i =
      s.regs x86Rsp - BitVec.ofNat arch.bits j := by
    have hw := congrArg (BitVec.setWidth arch.bits) he
    rwa [BitVec.setWidth_setWidth_of_le _ arch.bits_le, BitVec.setWidth_eq,
      BitVec.setWidth_setWidth_of_le _ arch.bits_le, BitVec.setWidth_eq] at hw
  have hzero : BitVec.ofNat arch.bits (i + j) = 0 := by
    have hadd := congrArg (· + BitVec.ofNat arch.bits j) heq
    simp only [BitVec.sub_add_cancel, BitVec.add_assoc, ← BitVec.ofNat_add] at hadd
    exact BitVec.add_right_eq_self.mp hadd
  have hnat := congrArg BitVec.toNat hzero
  rw [BitVec.toNat_ofNat, Nat.mod_eq_of_lt (by omega)] at hnat
  change i + j = 0 at hnat
  omega

/-- **Balanced sequences** restore every register, find the next address whenever they pop
the stack pointer, and write below the stack pointer only. -/
theorem balanced_restores {regs : List X86Reg} (hfit : regs.length * arch.bytes ≤ 2 ^ arch.bits)
    (hrun : s.stackRun (balanced regs) = some s') :
    s.PopsNext (balanced regs) ∧ s'.regs = s.regs ∧
      ∀ x, ¬ s.BelowRsp (regs.length * arch.bytes) x → s'.memory x = s.memory x := by
  induction regs generalizing s s' with
  | nil =>
    cases hrun
    exact ⟨trivial, rfl, fun _ _ => rfl⟩
  | cons reg regs ih =>
    rw [List.length_cons, Nat.succ_mul] at hfit ⊢
    rw [balanced_cons] at hrun ⊢
    obtain ⟨s₁, hpush, hrun⟩ := stackRun_cons.mp hrun
    obtain ⟨s₂, hinner, hrun⟩ := stackRun_append.mp hrun
    obtain ⟨s₃, hpop, hlast⟩ := stackRun_cons.mp hrun
    cases hlast
    obtain ⟨hpops, hregs, hmem⟩ := ih (by omega) hinner
    -- the push
    rw [stackStep] at hpush
    obtain ⟨s₀, hstore, rfl⟩ := Option.map_eq_some_iff.mp hpush
    obtain ⟨hw, hregs₀, hmem₀⟩ := store_some hstore
    have hrsp₂ : s₂.regs x86Rsp = s.regs x86Rsp - arch.slot := by
      rw [hregs, setReg_regs_self]
    -- the word is still there
    have hload : s₂.load (s₂.regs x86Rsp) = some (s.regs reg) := by
      rw [hrsp₂, ← load_store hstore]
      apply load_congr
      intro _ i hi
      rw [hmem _ ?_]
      · rfl
      · have hnot := not_belowRsp_slot (s := s₀.setReg x86Rsp (s.regs x86Rsp - arch.slot)) hi
          (by omega : regs.length * arch.bytes + arch.bytes ≤ 2 ^ arch.bits)
        rwa [setReg_regs_self] at hnot
    have hnext : s₂.regs x86Rsp + arch.slot = s.regs x86Rsp := by
      rw [hrsp₂, BitVec.sub_add_cancel]
    rw [stackStep, hload, Option.map_some, Option.some_inj] at hpop
    subst hpop
    refine ⟨⟨fun he => (by cases he), fun s₄ h₄ => ?_⟩, ?_, fun x hx => ?_⟩
    · have hs₄ : s₄ = s₀.setReg x86Rsp (s.regs x86Rsp - arch.slot) := by
        rw [stackStep, hstore] at h₄
        cases h₄
        rfl
      rw [hs₄, popsNext_append hinner]
      refine ⟨hpops, fun he => ?_, fun _ _ => trivial⟩
      rw [TopIsNext, hload, hnext, StackInst.pop.inj he]
    · funext r
      by_cases hr : r = reg
      · rw [hr, setReg_regs_self]
      · rw [setReg_regs_ne _ hr]
        by_cases hr' : r = x86Rsp
        · rw [hr', setReg_regs_self, hnext]
        · rw [setReg_regs_ne _ hr', hregs, setReg_regs_ne _ hr', hregs₀]
    · show s₂.memory x = s.memory x
      rw [hmem x fun hbelow => hx (hbelow.push (setReg_regs_self _ _ _)), setReg_memory, hmem₀]
      apply ByteMap.write_apart
      intro i hi he
      rw [List.length_map, List.length_range] at hi
      rw [setWidth_add_ofNat hw hi] at he
      exact hx (he ▸ belowRsp_slot hi (Nat.le_add_left _ _))

end X86Machine

end Xair
