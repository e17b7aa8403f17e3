import Xair.Denotation
import Xair.NarrowWord

/-!
# Scalar arithmetic is exact

The executor and the folder keep every scalar in a 64-bit word and mask it in different
places.  On operands of `n ≤ 64` bits both compute the operation of `n`-bit vectors
(`binaryBits`, `unaryBits`): the executor as `execBinaryOp_exact` and `execUnaryOp_exact`
say, and folding where it folds.
-/

namespace Xair

open NarrowWord

/-! ### The operations on bit vectors -/

/-- The result of a binary operation on bit vectors; a shift by the width or more has none.
The operands of the other operations but `concat` have one width. -/
def binaryBits {n k : Nat} (opcode : Opcode) (x : BitVec n) (y : BitVec k) :
    Option ((w : Nat) × BitVec w) :=
  let y' := y.setWidth n
  match opcode with
  | .add | .addrAdd => some ⟨n, x + y'⟩
  | .sub | .addrSub => some ⟨n, x - y'⟩
  | .mul => some ⟨n, x * y'⟩
  | .and => some ⟨n, x &&& y'⟩
  | .or => some ⟨n, x ||| y'⟩
  | .xor => some ⟨n, x ^^^ y'⟩
  | .shl => if y.toNat < n then some ⟨n, x <<< y.toNat⟩ else none
  | .lshr => if y.toNat < n then some ⟨n, x >>> y.toNat⟩ else none
  | .ashr => if y.toNat < n then some ⟨n, x.sshiftRight y.toNat⟩ else none
  | .eq => some ⟨1, BitVec.ofBool (x == y')⟩
  | .ne => some ⟨1, BitVec.ofBool (x != y')⟩
  | .ult => some ⟨1, BitVec.ofBool (x.ult y')⟩
  | .ule => some ⟨1, BitVec.ofBool (x.ule y')⟩
  | .slt => some ⟨1, BitVec.ofBool (x.slt y')⟩
  | .sle => some ⟨1, BitVec.ofBool (x.sle y')⟩
  | .concat => some ⟨n + k, x ++ y⟩
  | _ => none

/-- The result of a conversion to `w` bits. -/
def unaryBits {n : Nat} (opcode : Opcode) (w : Nat) (x : BitVec n) : BitVec w :=
  match opcode with
  | .sext => x.signExtend w
  | _ => x.setWidth w

/-- The binary operations on scalars. -/
def Opcode.isScalarBinary : Opcode → Bool
  | .add | .sub | .mul | .and | .or | .xor | .shl | .lshr | .ashr | .eq | .ne | .ult | .ule
  | .slt | .sle | .concat | .addrAdd | .addrSub => true
  | _ => false

/-- The conversions of scalars. -/
def Opcode.isScalarUnary : Opcode → Bool
  | .zext | .sext | .trunc | .intToAddr | .addrToInt => true
  | _ => false

/-- A type of `bits` bits, at most 64, of integers or addresses. -/
structure Ty.Scalar (t : Ty) : Prop where
  valid : t.isValid = true
  scalar : execScalarU64Type t = true

/-- The bits of a value of a scalar type. -/
def ExecValue.bits (x : ExecValue) : BitVec x.type.bits := x.lo.setWidth x.type.bits

/-- `res` is the value `z` of the type `out`, or unsupported if there is none. -/
def Yields (out : Ty) (res : Except Status ExecValue) : Option ((w : Nat) × BitVec w) → Prop
  | some ⟨w, z⟩ => out.bits = w ∧ res = .ok (wordValue out z)
  | none => res = .error .errUnsupported

section Executor

variable {opcode : Opcode} {out : Ty} {l r x : ExecValue} {n : Nat}

theorem Ty.Scalar.kind {t : Ty} (h : t.Scalar) : t.kind = .int ∨ t.kind = .addr :=
  (execScalarU64Type_iff.mp h.scalar).1

theorem Ty.Scalar.bits_le {t : Ty} (h : t.Scalar) : t.bits ≤ 64 :=
  (execScalarU64Type_iff.mp h.scalar).2

theorem Ty.Scalar.one_le {t : Ty} (h : t.Scalar) : 1 ≤ t.bits := by
  have hv := h.valid
  unfold Ty.isValid validIntBits validAddrBits at hv
  rcases h.kind with hk | hk <;> rw [hk] at hv <;>
    simp only [Bool.and_eq_true, Bool.or_eq_true, beq_iff_eq] at hv <;> omega

theorem maskForBits_eq (hn : n ≤ 64) : maskForBits n = (BitVec.allOnes n).setWidth 64 := by
  apply BitVec.eq_of_toNat_eq
  rw [maskForBits_toNat hn, toNat_setWidth_64 hn, BitVec.toNat_allOnes]

theorem signBitForBits_eq (n : Nat) : signBitForBits n = BitVec.twoPow 64 (n - 1) := by
  unfold signBitForBits
  split
  · next h => rw [h]; rfl
  · rw [BitVec.twoPow_eq]

theorem and_signBitForBits (h1 : 1 ≤ n) (hn : n ≤ 64) (x : BitVec n) :
    ((x.setWidth 64 : Word) &&& signBitForBits n != 0#64) = x.msb := by
  rw [signBitForBits_eq]
  exact and_signBit h1 hn x

theorem signedLessU64_eq (h1 : 1 ≤ n) (hn : n ≤ 64) (x y : BitVec n) :
    signedLessU64 (x.setWidth 64) (y.setWidth 64) n = x.slt y := by
  unfold signedLessU64
  simp only [setWidth_and_mask hn, and_signBitForBits h1 hn, setWidth_lt hn]
  exact (slt_eq x y).symm

theorem yields_make (ho : out.Scalar) (hb : out.bits = n) {w : Word} {z : BitVec n}
    (h : w.setWidth n = z) : Yields out (.ok (execValueMake out w 0#64)) (some ⟨n, z⟩) := by
  have hn : n ≤ 64 := hb ▸ ho.bits_le
  exact ⟨hb, by rw [execValueMake_word ho.kind hb hn, h]⟩

theorem yields_bool (ho : out.isI1 = true) (c : Bool) :
    Yields out (.ok (execValueMake out (boolU64 c) 0#64)) (some ⟨1, BitVec.ofBool c⟩) := by
  simp only [Ty.isI1, Bool.and_eq_true, beq_iff_eq] at ho
  refine ⟨ho.2, ?_⟩
  rw [execValueMake_word (.inl ho.1) ho.2 (by omega)]
  cases c <;> rfl

/-- An operand is widened in one step or in two. -/
theorem setWidth_setWidth_of_fits {k : Nat} (hk : k ≤ n) (y : BitVec k) :
    ((y.setWidth n).setWidth 64 : Word) = y.setWidth 64 := by
  apply BitVec.eq_of_toNat_eq
  rw [BitVec.toNat_setWidth, BitVec.toNat_setWidth, BitVec.toNat_setWidth,
    Nat.mod_eq_of_lt (Nat.lt_of_lt_of_le y.isLt (Nat.pow_le_pow_right (by decide) hk))]

/-- The arithmetic shift of the executor, which fills in the sign by hand. -/
theorem ashr_word (h1 : 1 ≤ n) (hn : n ≤ 64) (x : BitVec n) {y : Word} {s : Nat} (hs : s ≤ n)
    (hy : y.toNat = s) :
    (if y = 0#64 then x.setWidth 64
      else if (x.setWidth 64 : Word) &&& signBitForBits n ≠ 0#64 then
        (x.setWidth 64 >>> s) ||| (maskForBits n <<< (n - s))
      else x.setWidth 64 >>> s).setWidth n = x.sshiftRight s := by
  have hsign := and_signBitForBits h1 hn x
  split
  · next h0 =>
    obtain rfl : 0 = s := by rw [← hy, h0]; rfl
    rw [setWidth_setWidth hn, BitVec.sshiftRight_zero]
  · split
    · next hneg =>
      have hmsb : x.msb = true := by rw [← hsign, bne_iff_ne]; exact hneg
      rw [maskForBits_eq hn, setWidth_sshiftRight hn x hs hmsb]
    · next hpos =>
      have hmsb : x.msb = false := by
        rw [← hsign]
        simpa using hpos
      rw [setWidth_ushiftRight hn, BitVec.sshiftRight_eq_of_msb_false hmsb]

/-- **Binary operations are exact.** -/
theorem execBinaryOp_exact (hop : opcode.isScalarBinary = true)
    (ht : typeRule opcode out [l.type, r.type] = true) (hl : l.type.Scalar) (hr : r.type.Scalar)
    (ho : out.Scalar) :
    Yields out (execBinaryOp opcode out l r) (binaryBits opcode l.bits r.bits) := by
  have hn := hl.bits_le
  have h1 := hl.one_le
  have hk := hr.bits_le
  have hy := toNat_setWidth_64 hk r.bits
  have hx' : ((l.bits.setWidth 64 : Word)).setWidth l.type.bits = l.bits :=
    setWidth_setWidth hn l.bits
  have hy' : ((r.bits.setWidth 64 : Word)).setWidth l.type.bits = r.bits.setWidth l.type.bits :=
    BitVec.setWidth_setWidth_of_le _ hn
  have hguard : (!execScalarU64Type l.type || decide (64 < l.type.bits) ||
      decide (64 < r.type.bits)) = false := by
    simp [hl.scalar, hn, hk]
  have hlo : l.lo &&& maskForBits l.type.bits = l.bits.setWidth 64 := and_mask_eq hn l.lo
  have hro : r.lo &&& maskForBits r.type.bits = r.bits.setWidth 64 := and_mask_eq hk r.lo
  have compare : l.type = r.type →
      (r.bits.setWidth 64 : Word) = (r.bits.setWidth l.type.bits).setWidth 64 := fun h =>
    (setWidth_setWidth_of_fits (by rw [h]) r.bits).symm
  have shift : out.bits = l.type.bits → ∀ (w : Word) {z : BitVec l.type.bits},
      (r.bits.toNat < l.type.bits → w.setWidth l.type.bits = z) →
      Yields out (if l.type.bits ≤ r.bits.toNat then .error .errUnsupported
        else .ok (execValueMake out w 0#64))
        (if r.bits.toNat < l.type.bits then some ⟨l.type.bits, z⟩ else none) := by
    intro hb w z hz
    by_cases hs : r.bits.toNat < l.type.bits
    · rw [if_neg (Nat.not_le.mpr hs), if_pos hs]
      exact yields_make ho hb (hz hs)
    · rw [if_pos (Nat.not_lt.mp hs), if_neg hs]
      rfl
  unfold execBinaryOp
  rw [hguard]
  simp only [Bool.false_eq_true, if_false, hlo, hro, hy]
  cases opcode <;> simp only [Opcode.isScalarBinary, Bool.false_eq_true] at hop <;>
    simp only [typeRule, Bool.and_eq_true, Bool.or_eq_true, beq_iff_eq] at ht
  case add => exact yields_make ho (by rw [ht.2]) (by rw [BitVec.setWidth_add _ _ hn, hx', hy'])
  case sub => exact yields_make ho (by rw [ht.2]) (by rw [setWidth_sub hn, hx', hy'])
  case mul => exact yields_make ho (by rw [ht.2]) (by rw [BitVec.setWidth_mul _ _ hn, hx', hy'])
  case and => exact yields_make ho (by rw [ht.2]) (by rw [BitVec.setWidth_and, hx', hy'])
  case or => exact yields_make ho (by rw [ht.2]) (by rw [BitVec.setWidth_or, hx', hy'])
  case xor => exact yields_make ho (by rw [ht.2]) (by rw [BitVec.setWidth_xor, hx', hy'])
  case addrAdd => exact yields_make ho (by rw [ht.2]) (by rw [BitVec.setWidth_add _ _ hn, hx', hy'])
  case addrSub => exact yields_make ho (by rw [ht.2]) (by rw [setWidth_sub hn, hx', hy'])
  case shl => exact shift (by rw [ht.2]) _ (fun _ => by rw [setWidth_shiftLeft hn])
  case lshr => exact shift (by rw [ht.2]) _ (fun _ => by rw [setWidth_ushiftRight hn])
  case ashr =>
    rw [← apply_ite Except.ok, ← apply_ite Except.ok, ← apply_ite fun w => execValueMake out w 0#64,
      ← apply_ite fun w => execValueMake out w 0#64]
    exact shift (by rw [ht.2]) _ fun hs => ashr_word h1 hn l.bits (Nat.le_of_lt hs) hy
  case eq =>
    rw [compare ht.1.1, setWidth_beq hn]
    exact yields_bool ht.2 _
  case ne =>
    rw [compare ht.1.1, bne, setWidth_beq hn]
    exact yields_bool ht.2 _
  case ult =>
    rw [compare ht.1.1, decide_eq_decide.mpr (setWidth_lt hn _ _)]
    exact yields_bool ht.2 _
  case ule =>
    rw [compare ht.1.1, decide_eq_decide.mpr (setWidth_le hn _ _)]
    exact yields_bool ht.2 _
  case slt =>
    rw [compare ht.1.1, signedLessU64_eq h1 hn]
    exact yields_bool ht.2 _
  case sle =>
    rw [compare ht.1.1, signedLessU64_eq h1 hn, setWidth_beq hn, ← BitVec.sle_eq_slt_or_eq]
    exact yields_bool ht.2 _
  case concat =>
    have hob := ho.bits_le
    have hr1 := hr.one_le
    have hbits : out.bits = l.type.bits + r.type.bits := by omega
    have hbig : (!out.isInt || decide (64 < out.bits) || decide (64 ≤ r.type.bits)) = false := by
      simp [ht.1.2, hob]
      omega
    rw [hbig]
    exact yields_make ho hbits (setWidth_append (by omega) l.bits r.bits)

/-- A value in range is its own bits. -/
theorem ExecValue.InRange.lo_eq (h : x.InRange) (hx : x.type.Scalar) :
    x.lo = x.bits.setWidth 64 := by
  apply BitVec.eq_of_toNat_eq
  rw [toNat_setWidth_64 hx.bits_le, ExecValue.bits, BitVec.toNat_setWidth,
    Nat.mod_eq_of_lt (h hx.scalar)]

/-- **Conversions are exact.** -/
theorem execUnaryOp_exact (hop : opcode.isScalarUnary = true) (hx : x.type.Scalar)
    (hr : x.InRange) (ho : out.Scalar) :
    Yields out (execUnaryOp opcode out x) (some ⟨out.bits, unaryBits opcode out.bits x.bits⟩) := by
  have hguard : (!execScalarU64Type out || !execScalarU64Type x.type) = false := by
    simp [hx.scalar, ho.scalar]
  have hcast : ((x.bits.setWidth 64 : Word)).setWidth out.bits = x.bits.setWidth out.bits :=
    BitVec.setWidth_setWidth_of_le _ ho.bits_le
  have hlo := hr.lo_eq hx
  have hsign := and_signBitForBits hx.one_le hx.bits_le x.bits
  unfold execUnaryOp
  rw [hguard]
  simp only [Bool.false_eq_true, if_false, hlo]
  cases opcode <;> simp only [Opcode.isScalarUnary, Bool.false_eq_true] at hop
  case zext => exact yields_make ho rfl hcast
  case trunc => exact yields_make ho rfl hcast
  case intToAddr => exact yields_make ho rfl hcast
  case addrToInt => exact yields_make ho rfl hcast
  case sext =>
    dsimp only
    split
    · next hneg =>
      have hmsb : x.bits.msb = true := by rw [← hsign, bne_iff_ne]; exact hneg
      refine yields_make ho rfl ?_
      rw [maskForBits_eq hx.bits_le]
      exact setWidth_signExtend ho.bits_le x.bits hmsb
    · next hpos =>
      have hmsb : x.bits.msb = false := by
        rw [← hsign]
        simpa using hpos
      refine yields_make ho rfl (hcast.trans ?_)
      exact (BitVec.signExtend_eq_setWidth_of_msb_false hmsb).symm

end Executor

/-! ### Folding -/

section Folding

variable {m : Module} {op op' : OpRec}

theorem ConstIs.scalarType {v : Nat} {w : Word} (h : ConstIs m v w)
    (hv : (m.valueType v).isValid = true) : (m.valueType v).Scalar := ⟨hv, h.scalar⟩

theorem ConstIs.inRange {v : Nat} {w : Word} (h : ConstIs m v w) :
    (⟨m.valueType v, w, 0#64⟩ : ExecValue).InRange := by
  intro hs
  show w.toNat < 2 ^ (m.valueType v).bits
  rw [← h.masked, and_maskForBits_toNat h.bits_le]
  exact Nat.mod_lt _ (Nat.two_pow_pos _)

/-- What a fold leaves when the constant evaluates to `res`. -/
def FoldYields (m : Module) (op op' : OpRec) (spec : Option ((w : Nat) × BitVec w)) : Prop :=
  ∃ k z, spec = some ⟨k, z⟩ ∧ (m.valueType op.dst).bits = k ∧
    op' = foldToConst op (z.setWidth 64) (m.valueType op.dst)

/-- A constant that evaluates to the exact result is the constant of that result. -/
theorem foldYields_of_yields (h : foldConstantOp m op = some op')
    {spec : Option ((w : Nat) × BitVec w)}
    (hy : Yields (m.valueType op.dst)
      (.ok (execValueMake (m.valueType op.dst) op'.imm 0#64)) spec) :
    FoldYields m op op' spec := by
  obtain ⟨w, rfl⟩ := foldConstantOp_eq h
  match spec, hy with
  | none, hy => cases hy
  | some ⟨k, z⟩, ⟨hk, hy⟩ =>
    refine ⟨k, z, rfl, hk, ?_⟩
    have hlo : truncateToType (truncateToType w (m.valueType op.dst)) (m.valueType op.dst) =
        z.setWidth 64 := congrArg ExecValue.lo (Except.ok.inj hy)
    rw [truncateToType_truncateToType] at hlo
    rw [foldToConst, foldToConst, ← hlo, truncateToType_truncateToType]

theorem scalar_out (h : foldConstantOp m op = some op')
    (ht : typeRule op.opcode (m.valueType op.dst) (op.src.map m.valueType) = true)
    (hout : (m.valueType op.dst).isValid = true) : (m.valueType op.dst).Scalar := by
  obtain ⟨hkind, hbits⟩ := foldConstantOp_type h ht
  exact ⟨hout, by simp [execScalarU64Type, hkind, hbits]⟩

/-- **A folded binary operation** is the constant of its exact result. -/
theorem foldConstantOp_binary_exact (h : foldConstantOp m op = some op')
    (hop : op.opcode.isScalarBinary = true)
    (ht : typeRule op.opcode (m.valueType op.dst) (op.src.map m.valueType) = true)
    (hvalid : ∀ s ∈ op.src, (m.valueType s).isValid = true)
    (hout : (m.valueType op.dst).isValid = true) :
    FoldYields m op op' (binaryBits op.opcode (m.constValue (op.srcAt 0)).bits
      (m.constValue (op.srcAt 1)).bits) := by
  have harity : op.opcode.arity = 2 := by
    cases hc : op.opcode <;> rw [hc] at hop <;> first | rfl | cases hop
  have hlen := typeRule_length ht
  rw [List.length_map, harity] at hlen
  obtain ⟨l, r, hp⟩ := constPair_of_fold h harity
  obtain ⟨hl, hr⟩ := constPair_some hp
  have hlv := hl.scalarType (hvalid _ (OpRec.srcAt_mem (by omega)))
  have hrv := hr.scalarType (hvalid _ (OpRec.srcAt_mem (by omega)))
  have hrun := execBinaryOp_fold h hp harity ht hvalid
  have hsrc : op.src.map m.valueType = [m.valueType (op.srcAt 0), m.valueType (op.srcAt 1)] := by
    obtain ⟨a, b, hab⟩ := List.length_eq_two.mp hlen
    simp [OpRec.srcAt, hab]
  rw [hsrc] at ht
  have hexact := execBinaryOp_exact (l := ⟨m.valueType (op.srcAt 0), l, 0#64⟩)
    (r := ⟨m.valueType (op.srcAt 1), r, 0#64⟩) hop ht hlv hrv
    (scalar_out h (by rw [hsrc]; exact ht) hout)
  rw [hrun] at hexact
  rw [hl.value, hr.value]
  exact foldYields_of_yields h hexact

/-- **A folded conversion** is the constant of its exact result. -/
theorem foldConstantOp_unary_exact (h : foldConstantOp m op = some op')
    (hop : op.opcode.isScalarUnary = true)
    (ht : typeRule op.opcode (m.valueType op.dst) (op.src.map m.valueType) = true)
    (hvalid : ∀ s ∈ op.src, (m.valueType s).isValid = true)
    (hout : (m.valueType op.dst).isValid = true) :
    FoldYields m op op' (some ⟨(m.valueType op.dst).bits,
      unaryBits op.opcode (m.valueType op.dst).bits (m.constValue (op.srcAt 0)).bits⟩) := by
  have harity : op.opcode.arity = 1 ∧ op.opcode.flagBit = none := by
    cases hc : op.opcode <;> rw [hc] at hop <;> first | exact ⟨rfl, rfl⟩ | cases hop
  have hlen := typeRule_length ht
  rw [List.length_map, harity.1] at hlen
  obtain ⟨w, hw⟩ := constU64Value_of_fold h harity.1 harity.2
  have hc := constU64Value_some hw
  have hexact := execUnaryOp_exact (x := ⟨m.valueType (op.srcAt 0), w, 0#64⟩) hop
    (hc.scalarType (hvalid _ (OpRec.srcAt_mem (by omega)))) hc.inRange (scalar_out h ht hout)
  rw [execUnaryOp_fold h hw harity.1 harity.2] at hexact
  rw [hc.value]
  exact foldYields_of_yields h hexact

end Folding

/-- **Scalar arithmetic is exact** in the executor and in folding. -/
theorem scalar_exact :
    (∀ (opcode : Opcode) (out : Ty) (l r : ExecValue), opcode.isScalarBinary = true →
      typeRule opcode out [l.type, r.type] = true → l.type.Scalar → r.type.Scalar → out.Scalar →
      Yields out (execBinaryOp opcode out l r) (binaryBits opcode l.bits r.bits)) ∧
    (∀ (opcode : Opcode) (out : Ty) (x : ExecValue), opcode.isScalarUnary = true →
      typeRule opcode out [x.type] = true → x.type.Scalar → x.InRange → out.Scalar →
      Yields out (execUnaryOp opcode out x)
        (some ⟨out.bits, unaryBits opcode out.bits x.bits⟩)) ∧
    ∀ (m : Module) (op : OpRec), m.WF → (∀ s ∈ op.src, s < m.values.length) →
      (m.valueType op.dst).isValid = true →
      typeRule op.opcode (m.valueType op.dst) (op.src.map m.valueType) = true →
      ∀ op', foldConstantOp m op = some op' →
        (op.opcode.isScalarBinary = true →
          FoldYields m op op' (binaryBits op.opcode (m.constValue (op.srcAt 0)).bits
            (m.constValue (op.srcAt 1)).bits)) ∧
        (op.opcode.isScalarUnary = true →
          FoldYields m op op' (some ⟨(m.valueType op.dst).bits,
            unaryBits op.opcode (m.valueType op.dst).bits (m.constValue (op.srcAt 0)).bits⟩)) := by
  refine ⟨fun opcode out l r hop ht hl hr ho => execBinaryOp_exact hop ht hl hr ho,
    fun opcode out x hop _ hx hr ho => execUnaryOp_exact hop hx hr ho,
    fun m op hwf hsrc hout ht op' h => ?_⟩
  have hvalid : ∀ s ∈ op.src, (m.valueType s).isValid = true := by
    intro s hs
    have hv := hwf.value_type s (hsrc s hs)
    simp only [Ty.isValueType, Bool.and_eq_true] at hv
    exact hv.1.1
  exact ⟨fun hop => foldConstantOp_binary_exact h hop ht hvalid hout,
    fun hop => foldConstantOp_unary_exact h hop ht hvalid hout⟩

end Xair
