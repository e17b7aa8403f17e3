import Xair.LiftSimulates
import Xair.StackValues

/-!
# Lifted stack programs

The block that a stack program is lifted to follows the stack machine, as long as every
`pop` of the stack pointer finds the next address (`lift_stack`).  The lifter writes the stack
pointer after the popped register, and so overwrites the word that it has popped to it.
-/

namespace Xair

theorem RunSimulates.unique {arch : Arch} {res : LiftResult} {sp b : Nat} {want : Option Bool}
    {M M' M'' : X86Machine arch} {s : ExecState} {out : RunResult × ExecState}
    (h : RunSimulates res sp b want M M' s out) (h' : RunSimulates res sp b want M M'' s out) :
    M'.regs = M''.regs ∧ M'.memory = M''.memory := by
  constructor
  · obtain ⟨ids, tokens, hlen, hids, hout⟩ := h.result
    obtain ⟨ids', tokens', hlen', hids', hout'⟩ := h'.result
    -- the tokens take the same place in both lists
    have htokens : tokens.length = tokens'.length := by
      rw [← hlen, ← hlen']
      have hl := congrArg List.length (hids.symm.trans hids')
      simp only [List.length_append] at hl
      omega
    rw [hout] at hout'
    obtain ⟨-, -, -, hlist⟩ := ExecResult.mk.inj (Except.ok.inj hout')
    rw [List.append_assoc, List.append_assoc] at hlist
    obtain ⟨hregs, -⟩ := List.append_inj (List.append_inj hlist htokens).2
      (by rw [List.length_map, List.length_map])
    funext reg
    by_cases hreg : ∃ p ∈ res.outputRegs, p.1 = reg
    · obtain ⟨p, hp, rfl⟩ := hreg
      exact arch.int_inj (List.map_inj_left.mp hregs p hp)
    · have hne : ∀ p ∈ res.outputRegs, p.1 ≠ reg := fun p hp he => hreg ⟨p, hp, he⟩
      rw [h.unlisted reg hne, h'.unlisted reg hne]
  · funext a
    rw [← h.memory, ← h'.memory]

/-- The block of a lift, run from `s`, takes the machine state `M` to `M'`. -/
def RunsAs (m : Module) (image : Image) (options : LiftOptions) (b : Nat)
    (M M' : X86Machine options.arch) (s : ExecState) (limit : Nat) : Prop :=
  let out := liftBasicBlock m image options
  RunSimulates out.result options.memorySpace b
    (if out.result.endKind = .directCbranch then (options.stream image).2.tests else none)
    M M' s (execRun out.module b s limit)

/-- **Lifted pushes and pops** follow the stack machine as long as every `pop` of the stack
pointer finds the next address; when one does not, the block that ends with it goes wrong.
Balanced sequences restore every register. -/
theorem lift_stack {m : Module} (h : m.Reachable) (hver : m.Verified) (image : Image)
    (options : LiftOptions) (hok : (liftBasicBlock m image options).status = .ok)
    (hmax : (liftBasicBlock m image options).result.returnValues.length ≤ execMaxReturns)
    (insts : List StackInst)
    (hinsts : (options.stream image).1.map (fun c => c.1.stackInst) = insts.map some) :
    let out := liftBasicBlock m image options
    out.module.Verified ∧ ∃ b, out.result.block = some b ∧
      ∀ M M' : X86Machine options.arch, M.stackRun insts = some M' →
        ∀ s limit, s.Reachable out.module → StandsFor out.result options.memorySpace M s →
          1 ≤ limit →
          (M.PopsNext insts → RunsAs m image options b M M' s limit) ∧
          (∀ pre, insts = pre ++ [.pop x86Rsp] → M.PopsNext pre →
            (RunsAs m image options b M M' s limit ↔ M.PopsNext insts)) ∧
          ∀ regs, insts = X86Machine.balanced regs →
            RunsAs m image options b M M' s limit ∧ M'.regs = M.regs := by
  obtain ⟨b, m₁, t, r, s', hl⟩ := liftBasicBlock_ok h hok
  rw [hl.out] at hmax ⊢
  refine ⟨hl.verified (wf_reachable h) hver, b, hl.result_block, ?_⟩
  intro M M' hrun s limit hs hM hlimit
  -- the run of the block follows the machine that writes the stack pointer last
  have hruns : ∀ M'', M.runThenRsp (options.stream image).1 = some M'' →
      RunsAs m image options b M M'' s limit := by
    intro M'' hrun''
    rw [RunsAs, hl.out]
    exact hl.runSimulates hmax hrun'' hs hM hlimit
  have hgood : M.PopsNext insts → RunsAs m image options b M M' s limit := fun hpops =>
    hruns M' (X86Machine.runThenRsp_of_stackRun hinsts hpops hrun)
  refine ⟨hgood, fun pre hpre hpops => ⟨fun hbad => ?_, hgood⟩, fun regs hregs => ?_⟩
  · subst hpre
    obtain ⟨M'', hrun'', hlast⟩ := X86Machine.popsNext_of_last hinsts hpops hrun
    exact hlast (RunSimulates.unique hbad (hruns M'' hrun'')).1
  · subst hregs
    obtain ⟨hpops, hrestored, -⟩ :=
      X86Machine.balanced_restores (balanced_fits h hok hinsts) hrun
    exact ⟨hgood hpops, hrestored⟩

/-- `push rsp; pop rsp; ret`. -/
def pushPopImage : Image := ⟨[0x54#8, 0x5c#8, 0xc3#8], 0x1000#64⟩

/-- The lift of the three instructions. -/
def pushPopModule : Module := (liftBasicBlock Module.create pushPopImage addRetOptions).module

/-- The stack pointer set. -/
def pushPopState : ExecState :=
  (execSetParam pushPopModule (execSetParam pushPopModule (freshState pushPopModule)
    0 (execI 64 0x1000#64)).2 4 (execMem 0 64)).2

/-- Its stack pointer is `0x1000`. -/
def pushPopMachine (memory : Word → Option Byte) : X86Machine .x8664 :=
  ⟨fun r => if r = x86Rsp then 0x1000#64 else 0#64, memory, false⟩

theorem lift_stack_pushPop : ∃ M' : X86Machine .x8664,
    (pushPopMachine fun _ => none).stackRun (X86Machine.balanced [x86Rsp]) = some M' ∧
      RunsAs Module.create pushPopImage addRetOptions 0 (pushPopMachine fun _ => none) M'
        pushPopState 1 ∧
      M'.regs = (pushPopMachine fun _ => none).regs := by
  have hval : ((pushPopMachine fun _ => none).stackRun (X86Machine.balanced [x86Rsp])).isSome := by
    decide +kernel
  obtain ⟨M', hrun⟩ := Option.isSome_iff_exists.mp hval
  refine ⟨M', hrun, ?_⟩
  obtain ⟨-, b, hb, hall⟩ := lift_stack (m := Module.create) ⟨[], rfl⟩ (by decide)
    pushPopImage addRetOptions (by decide +kernel) (by decide +kernel)
    (X86Machine.balanced [x86Rsp]) (by decide +kernel)
  have hblock : (liftBasicBlock Module.create pushPopImage addRetOptions).result.block =
      some 0 := by
    decide +kernel
  rw [hblock] at hb
  cases hb
  have hs : pushPopState.Reachable pushPopModule :=
    .setParam _ _ (.setParam _ _ (.create (execStateCreate_ok (by decide +kernel))))
  have hpages : pushPopState.mem.pages = [] := List.length_eq_zero_iff.mp (by decide +kernel)
  have hM : StandsFor (liftBasicBlock Module.create pushPopImage addRetOptions).result 0
      (pushPopMachine fun _ => none) pushPopState :=
    ⟨by decide +kernel, by decide +kernel, fun _ => by rw [hpages]; rfl⟩
  exact (hall _ _ hrun pushPopState 1 hs hM (Nat.le_refl 1)).2.2 [x86Rsp] rfl

/-- `pop rsp; ret`. -/
def popRspImage : Image := ⟨[0x5c#8, 0xc3#8], 0x1000#64⟩

/-- The lift of the two instructions. -/
def popRspModule : Module := (liftBasicBlock Module.create popRspImage addRetOptions).module

/-- The stack pointer set, and `0x2000` on top of the stack. -/
def popRspState : ExecState :=
  (execStateStoreBytes (execSetParam popRspModule (execSetParam popRspModule
    (freshState popRspModule) 0 (execI 64 0x1000#64)).2 2 (execMem 0 64)).2 0 0x1000#64
    [0x00#8, 0x20#8, 0x00#8, 0x00#8, 0x00#8, 0x00#8, 0x00#8, 0x00#8]).2

theorem popRspState_reachable : popRspState.Reachable popRspModule :=
  .storeBytes _ _ _
    (.setParam _ _ (.setParam _ _ (.create (execStateCreate_ok (by decide +kernel)))))

/-- The machine of `popRspState`. -/
def popRspMachine : X86Machine .x8664 := pushPopMachine (execLoadByte popRspState.mem.pages 0)

/-- A block that pops `0x2000` to the stack pointer returns `0x1008`. -/
theorem lift_stack_popRsp :
    ¬ ∀ (m : Module) (image : Image) (options : LiftOptions) (insts : List StackInst),
      m.Reachable → m.Verified → (liftBasicBlock m image options).status = .ok →
      (liftBasicBlock m image options).result.returnValues.length ≤ execMaxReturns →
      (options.stream image).1.map (fun c => c.1.stackInst) = insts.map some →
      ∀ b, (liftBasicBlock m image options).result.block = some b →
      ∀ M M' : X86Machine options.arch, M.stackRun insts = some M' →
      ∀ s limit, s.Reachable (liftBasicBlock m image options).module →
        StandsFor (liftBasicBlock m image options).result options.memorySpace M s →
        1 ≤ limit → RunsAs m image options b M M' s limit := by
  intro hall
  have hval : (popRspMachine.stackRun [.pop x86Rsp]).map (fun M => (M.regs x86Rsp).toNat) =
      some 0x2000 := by
    decide +kernel
  obtain ⟨M', hrun, hrsp⟩ := Option.map_eq_some_iff.mp hval
  obtain ⟨⟨ids, tokens, hlen, -, hout⟩, -⟩ := hall Module.create popRspImage addRetOptions
    [.pop x86Rsp] ⟨[], rfl⟩ (by decide) (by decide +kernel) (by decide +kernel) (by decide +kernel)
    0 (by decide +kernel) popRspMachine M' hrun popRspState 1 popRspState_reachable
    ⟨by decide +kernel, by decide +kernel, fun _ => rfl⟩ (Nat.le_refl 1)
  have houtput : (liftBasicBlock Module.create popRspImage addRetOptions).result.outputRegs =
      [(x86Rsp, 5)] := by
    decide +kernel
  have hwant : (if (liftBasicBlock Module.create popRspImage addRetOptions).result.endKind =
      .directCbranch then (addRetOptions.stream popRspImage).2.tests else none) = none := by
    decide +kernel
  have hreturned : (execRun (liftBasicBlock Module.create popRspImage addRetOptions).module 0
      popRspState 1).1 = .ok ⟨.ret, 0, 0, [execMem 0 64, addRetOptions.arch.int 0x1008#64]⟩ := by
    decide +kernel
  rw [hreturned, houtput, hwant] at hout
  obtain ⟨-, -, -, hlist⟩ := ExecResult.mk.inj (Except.ok.inj hout)
  have hlast : addRetOptions.arch.int 0x1008#64 = addRetOptions.arch.int (M'.regs x86Rsp) := by
    simpa using congrArg List.getLast? hlist
  rw [← addRetOptions.arch.int_inj hlast] at hrsp
  exact absurd hrsp (by decide)

end Xair
