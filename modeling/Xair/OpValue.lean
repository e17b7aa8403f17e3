import Xair.Exec
import Mathlib.Data.List.GetD

/-!
# What one operation computes

Facts about `execOpValue`, the evaluation of an operation on the values its
sources are read as.  `execOpValue_outcome` lists what a well-typed operation
can do; `execOpValue_congr` says that only the values of the sources count; and
`execOpValue_valEq` says that the token a store produces carries no information
beyond its type.
-/

namespace Xair

theorem exceptMap_ok {ε α β : Type} {x : Except ε α} {f : α → β} {y : β} :
    x.map f = .ok y ↔ ∃ a, x = .ok a ∧ f a = y := by
  cases x <;> simp [Except.map]

/-! ### Ranges -/

/-- A scalar of at most 64 bits that fits its width.  Other values are free. -/
def ExecValue.InRange (x : ExecValue) : Prop :=
  execScalarU64Type x.type = true → x.lo.toNat < 2 ^ x.type.bits

instance (x : ExecValue) : Decidable x.InRange := inferInstanceAs (Decidable (_ → _))

theorem execScalarU64Type_iff {t : Ty} :
    execScalarU64Type t = true ↔ (t.kind = .int ∨ t.kind = .addr) ∧ t.bits ≤ 64 := by
  simp [execScalarU64Type, Ty.isInt, Ty.isAddr]

theorem execValueMake_inRange (t : Ty) (lo hi : Word) : (execValueMake t lo hi).InRange := by
  intro h
  obtain ⟨hk, hb⟩ := execScalarU64Type_iff.mp h
  exact truncateToType_lt hk hb lo

/-- The width of a byte-sized scalar is at most eight bytes. -/
theorem execByteSizedScalar_le {t : Ty} {size : Nat} (h : execByteSizedScalar t = some size) :
    size ≤ 8 := by
  unfold execByteSizedScalar at h
  split at h
  · cases h
  · next hc =>
    simp only [Bool.or_eq_true, Bool.not_eq_true', not_or, Bool.not_eq_false] at hc
    have := (execScalarU64Type_iff.mp hc.1.1).2
    cases h
    omega

/-! ### The type rules of memory operations -/

theorem typeRule_load {out : Ty} {srcs : List Ty} (h : typeRule .load out srcs = true) :
    ∃ mem addr, srcs = [mem, addr] ∧ mem.isMem = true ∧ addr.isAddr = true ∧
      out.isMem = false := by
  match srcs with
  | [mem, addr] =>
    simp only [typeRule, Bool.and_eq_true, Bool.not_eq_true'] at h
    exact ⟨mem, addr, rfl, h.1.1.1, h.1.1.2, h.2.2⟩
  | [] => simp [typeRule] at h
  | [_] => simp [typeRule] at h
  | _ :: _ :: _ :: _ => simp [typeRule] at h

theorem typeRule_store {out : Ty} {srcs : List Ty} (h : typeRule .store out srcs = true) :
    ∃ mem addr data, srcs = [mem, addr, data] ∧ mem.isMem = true ∧ addr.isAddr = true ∧
      out = mem ∧ data.isMem = false := by
  match srcs with
  | [mem, addr, data] =>
    simp only [typeRule, Bool.and_eq_true, Bool.not_eq_true', beq_iff_eq] at h
    exact ⟨mem, addr, data, rfl, h.1.1.1, h.1.1.2, h.2.1.1, h.2.2⟩
  | [] => simp [typeRule] at h
  | [_] => simp [typeRule] at h
  | [_, _] => simp [typeRule] at h
  | _ :: _ :: _ :: _ :: _ => simp [typeRule] at h

/-- An operation on memory. -/
def Opcode.isMemoryOp (opcode : Opcode) : Prop := opcode = .load ∨ opcode = .store

instance (opcode : Opcode) : Decidable opcode.isMemoryOp :=
  inferInstanceAs (Decidable (_ ∨ _))

/-- Only memory operations take memory tokens. -/
theorem typeRule_not_mem {opcode : Opcode} {out : Ty} {srcs : List Ty}
    (h : typeRule opcode out srcs = true) (hop : ¬ opcode.isMemoryOp) :
    ∀ t ∈ srcs, t.kind ≠ .mem := by
  match srcs with
  | [] => simp
  | [s] =>
    intro t ht hk
    rw [List.mem_singleton] at ht
    subst ht
    cases opcode <;> simp_all [typeRule, Ty.isInt, Ty.isAddr, Ty.isFlags]
  | [l, r] =>
    have hlr : l.kind ≠ .mem ∧ r.kind ≠ .mem := by
      cases opcode <;>
        simp only [typeRule, Ty.isInt, Ty.isAddr, Opcode.isMemoryOp, reduceCtorEq, or_false,
          not_true_eq_false, Bool.and_eq_true, Bool.or_eq_true, beq_iff_eq,
          Bool.false_eq_true] at h hop ⊢ <;>
        grind
    simpa using hlr
  | [_, _, _] => cases opcode <;> simp_all [typeRule, Opcode.isMemoryOp]
  | _ :: _ :: _ :: _ :: _ => cases opcode <;> simp [typeRule] at h

/-- The lengths that the evaluation of memory operations relies on. -/
def OpRec.ArityOk (op : OpRec) : Prop :=
  (op.opcode = .load → op.src.length = 2) ∧ (op.opcode = .store → op.src.length = 3)

theorem arityOk_of_typeRule {op : OpRec} {out : Ty} {ty : Nat → Ty}
    (h : typeRule op.opcode out (op.src.map ty) = true) : op.ArityOk := by
  constructor
  · intro hop
    rw [hop] at h
    obtain ⟨mem, addr, hs, -⟩ := typeRule_load h
    simpa using congrArg List.length hs
  · intro hop
    rw [hop] at h
    obtain ⟨mem, addr, data, hs, -⟩ := typeRule_store h
    simpa using congrArg List.length hs

/-- A source below the count is one of the sources. -/
theorem OpRec.srcAt_mem {op : OpRec} {i : Nat} (h : i < op.src.length) : op.srcAt i ∈ op.src := by
  rw [srcAt, List.getD_eq_getElem _ _ h]
  exact List.getElem_mem h

/-- `op'` is `op` with its sources renamed by `f` and any destination. -/
structure OpRec.Renames (f : Nat → Nat) (op op' : OpRec) : Prop where
  opcode : op'.opcode = op.opcode
  src : op'.src = op.src.map f
  endian : op'.endian = op.endian
  imm : op'.imm = op.imm

theorem OpRec.Renames.srcAt {f : Nat → Nat} {op op' : OpRec} (h : op.Renames f op') {i : Nat}
    (hi : i < op.src.length) : op'.srcAt i = f (op.srcAt i) := by
  have hi' : i < (op.src.map f).length := by simpa using hi
  rw [OpRec.srcAt, OpRec.srcAt, h.src, List.getD_eq_getElem _ _ hi, List.getD_eq_getElem _ _ hi',
    List.getElem_map]

theorem OpRec.Renames.refl (op : OpRec) : op.Renames (fun v => v) op :=
  ⟨rfl, by simp, rfl, rfl⟩

/-! ### Outcomes -/

/-- The bytes a memory operation touches. -/
def accessSize (out : Ty) (read : Nat → Except Status ExecValue) (op : OpRec) : Option Nat :=
  match op.opcode with
  | .load => execByteSizedScalar out
  | .store =>
    match read (op.srcAt 2) with
    | .ok data => execByteSizedScalar data.type
    | .error _ => none
  | _ => none

/-- The byte range of a memory operation wraps past the last address. -/
def AccessWraps (out : Ty) (read : Nat → Except Status ExecValue) (op : OpRec) : Prop :=
  ∃ address size, read (op.srcAt 1) = .ok address ∧ accessSize out read op = some size ∧
    execRangeWraps address.lo size = true

theorem accessSize_memoryOp {out : Ty} {read : Nat → Except Status ExecValue} {op : OpRec}
    {size : Nat} (h : accessSize out read op = some size) : op.opcode.isMemoryOp := by
  unfold accessSize at h
  split at h
  · next hop => exact .inl hop
  · next hop => exact .inr hop
  · cases h

/-- A load touches a byte that no page defines. -/
def LoadsUndefined (out : Ty) (read : Nat → Except Status ExecValue) (pages : List ExecPage)
    (op : OpRec) : Prop :=
  op.opcode = .load ∧ ∃ memory address size i, read (op.srcAt 0) = .ok memory ∧
    read (op.srcAt 1) = .ok address ∧ execByteSizedScalar out = some size ∧ i < size ∧
    execLoadByte pages memory.type.aux (address.lo + BitVec.ofNat 64 i) = none

/-- What an operation whose sources are readable and well typed can do. -/
inductive OpOutcome (out : Ty) (read : Nat → Except Status ExecValue) (mem : ExecMemory)
    (op : OpRec) : Except Status (ExecValue × ExecMemory) → Prop
  | ok {x : ExecValue} {mem' : ExecMemory} : x.type = out → x.InRange →
      OpOutcome out read mem op (.ok (x, mem'))
  | unsupported : OpOutcome out read mem op (.error .errUnsupported)
  | wraps : AccessWraps out read op → OpOutcome out read mem op (.error .errBadArg)
  | undefinedByte : LoadsUndefined out read mem.pages op →
      OpOutcome out read mem op (.error .errRange)

theorem execUnaryOp_cases (opcode : Opcode) (out : Ty) (src : ExecValue) :
    (∃ w, execUnaryOp opcode out src = .ok (execValueMake out w 0#64)) ∨
      execUnaryOp opcode out src = .error .errUnsupported := by
  generalize hr : execUnaryOp opcode out src = r
  unfold execUnaryOp at hr
  cases opcode <;> simp only [] at hr <;> (repeat' split at hr) <;> subst hr <;>
    first | exact .inr rfl | exact .inl ⟨_, rfl⟩

theorem execBinaryOp_cases (opcode : Opcode) (out : Ty) (lhs rhs : ExecValue) :
    (∃ w, execBinaryOp opcode out lhs rhs = .ok (execValueMake out w 0#64)) ∨
      execBinaryOp opcode out lhs rhs = .error .errUnsupported := by
  generalize hr : execBinaryOp opcode out lhs rhs = r
  unfold execBinaryOp at hr
  split at hr
  · exact .inr hr.symm
  · cases opcode <;> simp only [] at hr <;> (repeat' split at hr) <;> subst hr <;>
      first | exact .inr rfl | exact .inl ⟨_, rfl⟩

/-- A load that fails touches an undefined byte. -/
theorem execLoadBytesFrom_error {pages : List ExecPage} {space : Nat} {e : Status} (n : Nat)
    (address : Word) (h : execLoadBytesFrom pages space address n = .error e) :
    e = .errRange ∧ ∃ i < n, execLoadByte pages space (address + BitVec.ofNat 64 i) = none := by
  induction n generalizing address with
  | zero => simp [execLoadBytesFrom] at h
  | succ n ih =>
    rw [execLoadBytesFrom] at h
    split at h
    · next hb =>
      cases h
      exact ⟨rfl, 0, Nat.succ_pos n, by simpa using hb⟩
    · cases hr : execLoadBytesFrom pages space (address + 1#64) n with
      | ok bs => rw [hr] at h; simp [Except.map] at h
      | error e' =>
        rw [hr] at h
        cases h
        obtain ⟨he, i, hi, hb⟩ := ih _ hr
        refine ⟨he, i + 1, by omega, ?_⟩
        rw [← hb]
        congr 1
        rw [BitVec.add_assoc]
        congr 1
        apply BitVec.eq_of_toNat_eq
        simp [Nat.add_comm]

theorem execMemoryOp_outcome {out : Ty} {read : Nat → Except Status ExecValue}
    {mem : ExecMemory} {op : OpRec} {ty : Nat → Ty} (hop : op.opcode.isMemoryOp)
    (htyped : typeRule op.opcode out (op.src.map ty) = true)
    (hread : ∀ s ∈ op.src, ∃ x, read s = .ok x ∧ x.type = ty s) :
    OpOutcome out read mem op (execMemoryOp out read mem op) := by
  have hat : ∀ i < op.src.length, ∃ x, read (op.srcAt i) = .ok x ∧ x.type = ty (op.srcAt i) :=
    fun i hi => hread _ (OpRec.srcAt_mem hi)
  rcases hop with hload | hstore
  · rw [hload] at htyped
    obtain ⟨tm, ta, hs, htm, hta, -⟩ := typeRule_load htyped
    have hlen : op.src.length = 2 := by simpa using congrArg List.length hs
    obtain ⟨x0, h0, t0⟩ := hat 0 (by omega)
    obtain ⟨x1, h1, t1⟩ := hat 1 (by omega)
    obtain ⟨a, b, hab⟩ := List.length_eq_two.mp hlen
    have hk : x0.type.isMem = true ∧ x1.type.isAddr = true := by
      rw [t0, t1]
      simp only [hab, List.map_cons, List.map_nil, List.cons.injEq, and_true] at hs
      simp [OpRec.srcAt, hab, hs, htm, hta]
    simp only [execMemoryOp, h0, h1, hk, hload, Bool.not_true, Bool.or_self, Bool.false_eq_true,
      if_false]
    cases hsz : execByteSizedScalar out with
    | none => exact .unsupported
    | some size =>
      have h8 : ¬ 8 < size := by have := execByteSizedScalar_le hsz; omega
      simp only [execLoadU64, if_neg h8, execLoadBytes]
      by_cases hw : execRangeWraps x1.lo size = true
      · simp only [hw, if_true]
        exact .wraps ⟨x1, size, h1, by simp [accessSize, hload, hsz], hw⟩
      · simp only [Bool.not_eq_true] at hw
        simp only [hw, Bool.false_eq_true, if_false]
        cases hl : execLoadBytesFrom mem.pages x0.type.aux x1.lo size with
        | ok bytes => exact .ok rfl (execValueMake_inRange _ _ _)
        | error e =>
          obtain ⟨rfl, i, hi, hb⟩ := execLoadBytesFrom_error _ _ hl
          exact .undefinedByte ⟨hload, x0, x1, size, i, h0, h1, hsz, hi, hb⟩
  · rw [hstore] at htyped
    obtain ⟨tm, ta, td, hs, htm, hta, -, -⟩ := typeRule_store htyped
    have hlen : op.src.length = 3 := by simpa using congrArg List.length hs
    obtain ⟨x0, h0, t0⟩ := hat 0 (by omega)
    obtain ⟨x1, h1, t1⟩ := hat 1 (by omega)
    obtain ⟨x2, h2, t2⟩ := hat 2 (by omega)
    obtain ⟨a, b, c, hab⟩ := List.length_eq_three.mp hlen
    have hk : x0.type.isMem = true ∧ x1.type.isAddr = true := by
      rw [t0, t1]
      simp only [hab, List.map_cons, List.map_nil, List.cons.injEq, and_true] at hs
      simp [OpRec.srcAt, hab, hs, htm, hta]
    simp only [execMemoryOp, h0, h1, h2, hk, hstore, Bool.not_true, Bool.or_self,
      Bool.false_eq_true, if_false]
    cases hsz : execByteSizedScalar x2.type with
    | none => exact .unsupported
    | some size =>
      have h8 : ¬ 8 < size := by have := execByteSizedScalar_le hsz; omega
      simp only [execStoreU64, if_neg h8, execStoreBytes]
      have hl : (encodeU64 x2.lo size op.endian).length = size := by simp [encodeU64]
      rw [hl]
      by_cases hw : execRangeWraps x1.lo size = true
      · simp only [hw, if_true]
        exact .wraps ⟨x1, size, h1, by simp [accessSize, hstore, h2, hsz], hw⟩
      · simp only [Bool.not_eq_true] at hw
        simp only [hw, Bool.false_eq_true, if_false]
        exact .ok rfl (execValueMake_inRange _ _ _)

/-- **What an operation can do.**  A well-typed operation whose sources read as
values of their types defines a value of its result type that is in range, or
is unsupported, or is a memory operation whose range wraps or touches an
undefined byte. -/
theorem execOpValue_outcome {out : Ty} {read : Nat → Except Status ExecValue}
    {mem : ExecMemory} {op : OpRec} {ty : Nat → Ty}
    (htyped : typeRule op.opcode out (op.src.map ty) = true)
    (hread : ∀ s ∈ op.src, ∃ x, read s = .ok x ∧ x.type = ty s) :
    OpOutcome out read mem op (execOpValue out read mem op) := by
  unfold execOpValue
  split
  · exact .ok rfl (execValueMake_inRange _ _ _)
  · split
    · next hop => exact execMemoryOp_outcome hop htyped hread
    · split
      · next hlen =>
        obtain ⟨x, hx, -⟩ := hread _ (OpRec.srcAt_mem (i := 0) (by omega))
        rw [hx]
        rcases execUnaryOp_cases op.opcode out x with ⟨w, hw⟩ | hw
        · simp only [hw]; exact .ok rfl (execValueMake_inRange _ _ _)
        · simp only [hw]; exact .unsupported
      · split
        · next hlen =>
          obtain ⟨x, hx, -⟩ := hread _ (OpRec.srcAt_mem (i := 0) (by omega))
          obtain ⟨y, hy, -⟩ := hread _ (OpRec.srcAt_mem (i := 1) (by omega))
          simp only [hx, hy]
          rcases execBinaryOp_cases op.opcode out x y with ⟨w, hw⟩ | hw
          · rw [hw]; exact .ok rfl (execValueMake_inRange _ _ _)
          · rw [hw]; exact .unsupported
        · exact .unsupported

/-! ### Only the values of the sources count -/

/-- Two operations with the same opcode, immediate and endianness whose sources
are read as the same values compute the same. -/
theorem execOpValue_congr {out : Ty} {read read' : Nat → Except Status ExecValue}
    {mem : ExecMemory} {op op' : OpRec} {f : Nat → Nat} (ha : op.ArityOk) (hr : op.Renames f op')
    (h : ∀ s ∈ op.src, read s = read' (f s)) :
    execOpValue out read mem op = execOpValue out read' mem op' := by
  have hat : ∀ i < op.src.length, read (op.srcAt i) = read' (op'.srcAt i) := by
    intro i hi
    rw [hr.srcAt hi, h _ (OpRec.srcAt_mem hi)]
  have hlen : op'.src.length = op.src.length := by rw [hr.src, List.length_map]
  unfold execOpValue
  rw [hr.opcode, hr.imm, hlen]
  split
  · rfl
  · split
    · next hop =>
      unfold execMemoryOp
      rw [hr.opcode, hr.endian]
      rcases hop with hop | hop
      · have hl := ha.1 hop
        rw [hat 0 (by omega), hat 1 (by omega)]
        simp only [hop]
      · have hl := ha.2 hop
        rw [hat 0 (by omega), hat 1 (by omega), hat 2 (by omega)]
    · split
      · next hl => rw [hat 0 (by omega)]
      · split
        · next hl => rw [hat 0 (by omega), hat 1 (by omega)]
        · rfl

theorem execOpValue_memoryOp {out : Ty} {read : Nat → Except Status ExecValue} {mem : ExecMemory}
    {op : OpRec} (hop : op.opcode.isMemoryOp) :
    execOpValue out read mem op = execMemoryOp out read mem op := by
  have hop' : op.opcode = .load ∨ op.opcode = .store := hop
  have hc : op.opcode ≠ .constU64 := by rcases hop' with hc | hc <;> rw [hc] <;> decide
  rw [execOpValue, if_neg hc, if_pos hop']

/-- An operation that is not a memory operation leaves memory alone, and its value
does not depend on it. -/
theorem execOpValue_pure {out : Ty} {read : Nat → Except Status ExecValue} {op : OpRec}
    (hop : ¬ op.opcode.isMemoryOp) (mem mem' : ExecMemory) :
    execOpValue out read mem op =
      (execOpValue out read mem' op).map fun r => (r.1, mem) := by
  have hop' : ¬ (op.opcode = .load ∨ op.opcode = .store) := hop
  unfold execOpValue
  simp only [if_neg hop']
  split
  · rfl
  · split
    · split
      · rfl
      · cases execUnaryOp op.opcode out _ <;> rfl
    · split
      · split
        · rfl
        · split
          · rfl
          · cases execBinaryOp op.opcode out _ _ <;> rfl
      · rfl

theorem execOpValue_quiet {out : Ty} {read : Nat → Except Status ExecValue} {mem mem' : ExecMemory}
    {op : OpRec} {x : ExecValue} (hop : ¬ op.opcode.isMemoryOp)
    (h : execOpValue out read mem op = .ok (x, mem')) (mem₂ : ExecMemory) :
    execOpValue out read mem₂ op = .ok (x, mem₂) := by
  rw [execOpValue_pure hop mem₂ mem, h]
  rfl

/-! ### Values up to memory tokens -/

/-- Two values of one type, equal unless they are memory tokens. -/
def ValEq (x y : ExecValue) : Prop := x.type = y.type ∧ (x.type.kind ≠ .mem → x = y)

theorem ValEq.refl (x : ExecValue) : ValEq x x := ⟨rfl, fun _ => rfl⟩

theorem ValEq.eq {x y : ExecValue} (h : ValEq x y) (hk : x.type.kind ≠ .mem) : x = y := h.2 hk

/-- Two evaluations that agree: the same error, or values equal up to tokens and
pages that are equal when they were before. -/
def OpAgree (pagesEq : Prop) :
    Except Status (ExecValue × ExecMemory) → Except Status (ExecValue × ExecMemory) → Prop
  | .ok (x, mem), .ok (x', mem') => ValEq x x' ∧ (pagesEq → mem.pages = mem'.pages)
  | .error e, .error e' => e = e'
  | _, _ => False

/-- **Tokens carry no information.**  An operation whose sources agree up to
memory tokens, run on equal pages when it is a memory operation, computes a
value that agrees up to tokens. -/
theorem execOpValue_valEq {out : Ty} {read read' : Nat → Except Status ExecValue}
    {mem mem' : ExecMemory} {op op' : OpRec} {ty : Nat → Ty} {f : Nat → Nat}
    (hr : op.Renames f op')
    (htyped : typeRule op.opcode out (op.src.map ty) = true)
    (hread : ∀ s ∈ op.src, ∃ x x', read s = .ok x ∧ read' (f s) = .ok x' ∧ x.type = ty s ∧
      ValEq x x')
    (hpages : op.opcode.isMemoryOp → mem.pages = mem'.pages) :
    OpAgree (mem.pages = mem'.pages) (execOpValue out read mem op)
      (execOpValue out read' mem' op') := by
  by_cases hop : op.opcode.isMemoryOp
  · have hpg := hpages hop
    have hat : ∀ i < op.src.length, ∃ x x', read (op.srcAt i) = .ok x ∧
        read' (op'.srcAt i) = .ok x' ∧ x.type = ty (op.srcAt i) ∧ ValEq x x' := by
      intro i hi
      rw [hr.srcAt hi]
      exact hread _ (OpRec.srcAt_mem hi)
    rcases hop with hop | hop
    · rw [hop] at htyped
      obtain ⟨tm, ta, hs, -, hta, -⟩ := typeRule_load htyped
      have hlen : op.src.length = 2 := by simpa using congrArg List.length hs
      obtain ⟨x0, x0', h0, h0', -, e0⟩ := hat 0 (by omega)
      obtain ⟨x1, x1', h1, h1', t1, e1⟩ := hat 1 (by omega)
      obtain ⟨a, b, hab⟩ := List.length_eq_two.mp hlen
      have h1k : x1.type.kind ≠ .mem := by
        simp only [hab, List.map_cons, List.map_nil, List.cons.injEq, and_true] at hs
        rw [t1]
        simp only [OpRec.srcAt, hab, List.getD_cons_succ, List.getD_cons_zero, hs.2]
        simp_all [Ty.isAddr]
      cases e1.eq h1k
      simp only [execOpValue, hr.opcode, hr.endian, hop, execMemoryOp, h0, h0', h1, h1', ← e0.1, ← hpg]
      simp only [reduceCtorEq, if_false, true_or, if_true]
      split
      · exact rfl
      · split
        · exact rfl
        · split
          · exact rfl
          · exact ⟨.refl _, fun _ => hpg⟩
    · rw [hop] at htyped
      obtain ⟨tm, ta, td, hs, htm, hta, hout, htd⟩ := typeRule_store htyped
      have hlen : op.src.length = 3 := by simpa using congrArg List.length hs
      obtain ⟨x0, x0', h0, h0', -, e0⟩ := hat 0 (by omega)
      obtain ⟨x1, x1', h1, h1', t1, e1⟩ := hat 1 (by omega)
      obtain ⟨x2, x2', h2, h2', t2, e2⟩ := hat 2 (by omega)
      obtain ⟨a, b, c, hab⟩ := List.length_eq_three.mp hlen
      simp only [hab, List.map_cons, List.map_nil, List.cons.injEq, and_true] at hs
      have h1k : x1.type.kind ≠ .mem := by
        rw [t1]
        simp only [OpRec.srcAt, hab, List.getD_cons_succ, List.getD_cons_zero, hs.2.1]
        simp_all [Ty.isAddr]
      have h2k : x2.type.kind ≠ .mem := by
        rw [t2]
        simp only [OpRec.srcAt, hab, List.getD_cons_succ, List.getD_cons_zero, hs.2.2]
        simp_all [Ty.isMem]
      cases e1.eq h1k
      cases e2.eq h2k
      have hmem : out.kind = .mem := by rw [hout]; simpa [Ty.isMem] using htm
      simp only [execOpValue, hr.opcode, hr.endian, hop, execMemoryOp, h0, h0', h1, h1', h2, h2', ← e0.1, ← hpg]
      simp only [reduceCtorEq, if_false, or_true, if_true]
      split
      · exact rfl
      · split
        · exact rfl
        · split
          · exact rfl
          · exact ⟨⟨rfl, fun hk => absurd hmem hk⟩, fun _ => rfl⟩
  · have hnm := typeRule_not_mem htyped hop
    have heq : execOpValue out read mem' op =
        execOpValue out read' mem' op' := by
      refine execOpValue_congr (arityOk_of_typeRule htyped) hr fun s hs => ?_
      obtain ⟨x, x', hx, hx', ht, he⟩ := hread s hs
      rw [hx, hx', he.eq (ht ▸ hnm _ (List.mem_map_of_mem hs))]
    rw [← heq, execOpValue_pure hop mem mem']
    have hpm : execOpValue out read mem' op =
        (execOpValue out read mem' op).map fun r => (r.1, mem') := execOpValue_pure hop mem' mem'
    cases hv : execOpValue out read mem' op with
    | error e => exact rfl
    | ok r =>
      obtain ⟨x, mem₁⟩ := r
      rw [hv] at hpm
      obtain rfl : mem₁ = mem' := by simpa [Except.map] using hpm
      exact ⟨.refl _, id⟩

end Xair
