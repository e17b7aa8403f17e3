import Xair.ByteMap
import Xair.ScalarExact
import Xair.VexSession

/-!
# What the calls of an adapter mean

A machine with temporaries, guest registers and a byte memory says what the calls of a session
with a VEX adapter mean, apart from the module that they write.  An id that the adapter hands out
stands for the value that was asked for (`VexMachine.given`), until the next exit.  The operators
are those of their names on bit vectors (`BinopMeans`, `UnopMeans`).  A call that has no meaning,
such as an access of bytes that are not there, a shift by the width or more, an operator on words
of more than 64 bits or a second memory (`xair_vex_set_memory`), stops the machine.
-/

namespace Xair

/-- Temporaries, guest registers and memory.  `given` is what the ids stand for that were handed
out since the last exit, `token` what the memory itself is handed out as. -/
structure VexMachine where
  tmps : Nat → Option ExecValue
  regs : Nat → ExecValue
  memory : ByteMap
  token : ExecValue
  given : Nat → Option ExecValue

namespace VexMachine

variable (M : VexMachine)

def setTmp (tmp : Nat) (x : ExecValue) : VexMachine :=
  { M with tmps := Function.update M.tmps tmp (some x) }

def setReg (offset : Nat) (x : ExecValue) : VexMachine :=
  { M with regs := Function.update M.regs offset x }

/-- The id `v` is handed out for `x`. -/
def give (v : Nat) (x : ExecValue) : VexMachine :=
  { M with given := Function.update M.given v (some x) }

/-- The ids that were handed out belong to the block before. -/
def forget : VexMachine := { M with given := fun _ => none }

/-- The ids stand for the values. -/
def Gives (ids : List Nat) (xs : List ExecValue) : Prop :=
  List.Forall₂ (fun v x => M.given v = some x) ids xs

end VexMachine

/-- What the binary operator of a name computes. -/
inductive BinopMeans (irop : Name) (l r : ExecValue) : ExecValue → Prop
  | scalar {opcode : Opcode} {w : Nat} {z : BitVec w} : l.type.Scalar → r.type.Scalar →
    NamesBinop irop l.type.bits opcode → binaryBits opcode l.bits r.bits = some ⟨w, z⟩ →
    BinopMeans irop l r (wordValue (binopType opcode l.type) z)

/-- What the conversion of a name computes. -/
inductive UnopMeans (irop : Name) (x : ExecValue) : ExecValue → Prop
  | scalar {opcode : Opcode} {n : Nat} : x.type.Scalar → (typeI n).Scalar →
    NamesUnop irop x.type.bits n opcode →
    UnopMeans irop x (wordValue (typeI n) (unaryBits opcode n x.bits))

/-- A call that hands out `id` takes the machine `M` to another. -/
inductive VexMeans (M : VexMachine) : VexCall → Option Nat → VexMachine → Prop
  | setTmp {tmp v : Nat} {x : ExecValue} : M.given v = some x →
    VexMeans M (.setTmp tmp v) none (M.setTmp tmp x)
  | getTmp {tmp v : Nat} {x : ExecValue} : M.tmps tmp = some x →
    VexMeans M (.getTmp tmp) (some v) (M.give v x)
  | getReg {offset v : Nat} {type : Ty} {name : Option Name} :
    VexMeans M (.getReg offset type name) (some v) (M.give v (M.regs offset))
  | putReg {offset v : Nat} {x : ExecValue} : M.given v = some x →
    VexMeans M (.putReg offset v) none (M.setReg offset x)
  | peekReg {offset v : Nat} : VexMeans M (.peekReg offset) (some v) (M.give v (M.regs offset))
  | currentMemory {v : Nat} : VexMeans M .currentMemory (some v) (M.give v M.token)
  | emitConst {tmp : Nat} {type : Ty} {value : Word} {name : Option Name} :
    VexMeans M (.emitConst tmp type value name) none
      (M.setTmp tmp (wordValue type (value.setWidth type.bits)))
  | emitUnop {tmp src : Nat} {irop : Name} {name : Option Name} {x y : ExecValue} :
    M.given src = some x → UnopMeans irop x y →
    VexMeans M (.emitUnop tmp (some irop) src name) none (M.setTmp tmp y)
  | emitBinop {tmp lhs rhs : Nat} {irop : Name} {name : Option Name} {l r y : ExecValue} :
    M.given lhs = some l → M.given rhs = some r → BinopMeans irop l r y →
    VexMeans M (.emitBinop tmp (some irop) lhs rhs name) none (M.setTmp tmp y)
  | emitLoad {tmp address size : Nat} {type : Ty} {endian : Endian} {name : Option Name}
    {a : ExecValue} {w : Word} : M.given address = some a →
    execByteSizedScalar type = some size → ¬ FlatMemory.Wraps a.lo size →
    M.memory.loadU64 a.lo size endian = some w →
    VexMeans M (.emitLoad tmp type address endian name) none
      (M.setTmp tmp (wordValue type (w.setWidth type.bits)))
  | emitStore {address data size : Nat} {endian : Endian} {name : Option Name}
    {a d : ExecValue} : M.given address = some a → M.given data = some d →
    execByteSizedScalar d.type = some size → ¬ FlatMemory.Wraps a.lo size →
    VexMeans M (.emitStore address data endian name) none
      { M with memory := M.memory.storeU64 a.lo d.lo size endian }
  | exitNotTaken {condition taken : Nat} {takenArgs : ArgArray} {name : Option Name}
    {x : ExecValue} : M.given condition = some x → x.lo = 0#64 →
    VexMeans M (.emitExit condition taken takenArgs name) none M.forget

/-- Where a session leaves: for a block with arguments, or with the values of a return. -/
inductive VexEnd
  | enters (target : Nat) (args : List ExecValue)
  | returns (values : List ExecValue)

/-- A call leaves. -/
inductive VexLeaves (M : VexMachine) : VexCall → VexEnd → Prop
  | exit {condition taken : Nat} {takenArgs : ArgArray} {name : Option Name} {x : ExecValue}
    {xs : List ExecValue} : M.given condition = some x → x.lo ≠ 0#64 → M.Gives takenArgs.ids xs →
    VexLeaves M (.emitExit condition taken takenArgs name) (.enters taken xs)
  | jump {target : Nat} {args : ArgArray} {xs : List ExecValue} : M.Gives args.ids xs →
    VexLeaves M (.finishJump target args) (.enters target xs)
  | ret {values : ArgArray} {xs : List ExecValue} : M.Gives values.ids xs →
    VexLeaves M (.finishReturn values) (.returns xs)

/-- The calls of a session take the machine `M` to `M'`, where it leaves. -/
inductive VexRuns : VexSession → VexMachine → List VexCall → VexMachine → VexEnd → Prop
  | call {s : VexSession} {M M₁ M' : VexMachine} {c : VexCall} {cs : List VexCall}
    {id : Option Nat} {a : VexAdapter} {e : VexEnd} : c.run s.adapter = (.ok id, a) →
    VexMeans M c id M₁ → VexRuns (s.next c id a) M₁ cs M' e → VexRuns s M (c :: cs) M' e
  | leave {s : VexSession} {M : VexMachine} {c : VexCall} {cs : List VexCall} {e : VexEnd} :
    VexLeaves M c e → VexRuns s M (c :: cs) M e

/-- The register that a call reads for the first time, with the parameter that it becomes. -/
def VexSession.input (s : VexSession) (c : VexCall) (id : Option Nat) : Option (Nat × Nat) :=
  match c, id with
  | .getReg offset _ _, some v => if (s.adapter.reg offset).isNone then some (offset, v) else none
  | _, _ => none

/-- The registers that a session reads for the first time. -/
def vexInputs : VexSession → List VexCall → List (Nat × Nat)
  | _, [] => []
  | s, c :: cs =>
    match c.run s.adapter with
    | (.ok id, a) => (s.input c id).toList ++ vexInputs (s.next c id a) cs
    | (.error _, _) => []

theorem vexInputs_cons {s : VexSession} {c : VexCall} {cs : List VexCall} {id : Option Nat}
    {a : VexAdapter} (h : c.run s.adapter = (.ok id, a)) :
    vexInputs s (c :: cs) = (s.input c id).toList ++ vexInputs (s.next c id a) cs := by
  rw [vexInputs, h]

end Xair
