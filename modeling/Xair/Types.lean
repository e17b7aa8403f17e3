import Mathlib.Data.List.Basic
import Mathlib.Tactic.Common
import Mathlib.Tactic.NormNum

/-!
# Words, types, opcodes

The vocabulary of `include/xair/xair.h`: statuses, IR types, opcodes, and the
64-bit arithmetic helpers that the folder and the executor share
(`mask_for_bits`, `sign_bit_for_bits`, `truncate_to_type`, `even_parity8`).

A `uint64_t` is a `BitVec 64`; ids, widths and counts are natural numbers.  The
id `XAIR_INVALID_ID` is `invalidId`, which no value, block or operation ever
gets because creation stops at `UINT32_MAX`.
-/

namespace Xair

/-- A `uint64_t`. -/
abbrev Word := BitVec 64

/-- `UINT32_MAX`, the bound on every id. -/
def uint32Max : Nat := 4294967295

/-- `XAIR_INVALID_ID`. -/
def invalidId : Nat := uint32Max

/-- `xair_status`. -/
inductive Status
  | ok | errOom | errBadArg | errRange | errVerify | errUnsupported
  deriving DecidableEq, Repr

/-- `xair_type_kind`. -/
inductive TypeKind
  | invalid | void | int | addr | flags | mem | label8 | labelset
  deriving DecidableEq, Repr

/-- The enumeration value of a kind, as it is hashed and compared. -/
def TypeKind.code : TypeKind → Nat
  | .invalid => 0 | .void => 1 | .int => 2 | .addr => 3
  | .flags => 4 | .mem => 5 | .label8 => 6 | .labelset => 7

theorem TypeKind.code_injective {k l : TypeKind} (h : k.code = l.code) : k = l := by
  cases k <;> cases l <;> first | rfl | exact absurd h (by decide)

/-- `xair_type`.  For a memory type `bits` is the address width and `aux` the
address space. -/
structure Ty where
  kind : TypeKind
  bits : Nat
  aux : Nat
  deriving DecidableEq, Repr

/-- `xair_endian`. -/
inductive Endian
  | le | be
  deriving DecidableEq, Repr

def Endian.code : Endian → Nat
  | .le => 0 | .be => 1

/-- `xair_opcode`. -/
inductive Opcode
  | constU64 | add | sub | mul | and | or | xor | shl | lshr | ashr
  | eq | ne | ult | ule | slt | sle | zext | sext | trunc | concat
  | addrAdd | addrSub | intToAddr | addrToInt
  | flagsAdd | flagsSub | flagsLogic | flagsShl
  | flagZf | flagCf | flagOf | flagSf | flagPf | flagAf
  | load | store
  deriving DecidableEq, Repr

/-- The enumeration value of an opcode. -/
def Opcode.code : Opcode → Nat
  | .constU64 => 0 | .add => 1 | .sub => 2 | .mul => 3 | .and => 4 | .or => 5
  | .xor => 6 | .shl => 7 | .lshr => 8 | .ashr => 9 | .eq => 10 | .ne => 11
  | .ult => 12 | .ule => 13 | .slt => 14 | .sle => 15 | .zext => 16 | .sext => 17
  | .trunc => 18 | .concat => 19 | .addrAdd => 20 | .addrSub => 21
  | .intToAddr => 22 | .addrToInt => 23 | .flagsAdd => 24 | .flagsSub => 25
  | .flagsLogic => 26 | .flagsShl => 27 | .flagZf => 28 | .flagCf => 29
  | .flagOf => 30 | .flagSf => 31 | .flagPf => 32 | .flagAf => 33
  | .load => 34 | .store => 35

/-- `xair_opcode_name`. -/
def Opcode.name : Opcode → String
  | .constU64 => "const" | .add => "add" | .sub => "sub" | .mul => "mul"
  | .and => "and" | .or => "or" | .xor => "xor" | .shl => "shl"
  | .lshr => "lshr" | .ashr => "ashr" | .eq => "eq" | .ne => "ne"
  | .ult => "ult" | .ule => "ule" | .slt => "slt" | .sle => "sle"
  | .zext => "zext" | .sext => "sext" | .trunc => "trunc" | .concat => "concat"
  | .addrAdd => "addr_add" | .addrSub => "addr_sub"
  | .intToAddr => "int_to_addr" | .addrToInt => "addr_to_int"
  | .flagsAdd => "flags_add" | .flagsSub => "flags_sub"
  | .flagsLogic => "flags_logic" | .flagsShl => "flags_shl"
  | .flagZf => "flag_zf" | .flagCf => "flag_cf" | .flagOf => "flag_of"
  | .flagSf => "flag_sf" | .flagPf => "flag_pf" | .flagAf => "flag_af"
  | .load => "load" | .store => "store"

/-! ### Type constructors and predicates -/

/-- `xair_type_i`. -/
def typeI (bits : Nat) : Ty := ⟨.int, bits, 0⟩
/-- `xair_type_addr`. -/
def typeAddr (bits : Nat) : Ty := ⟨.addr, bits, 0⟩
/-- `xair_type_flags`. -/
def typeFlags (count : Nat) : Ty := ⟨.flags, count, 0⟩
/-- `xair_type_mem`. -/
def typeMem (space addrBits : Nat) : Ty := ⟨.mem, addrBits, space⟩

def validIntBits (bits : Nat) : Bool :=
  bits == 1 || bits == 8 || bits == 16 || bits == 32 || bits == 64 || bits == 128

def validAddrBits (bits : Nat) : Bool := bits == 32 || bits == 64

/-- `xair_type_is_valid`. -/
def Ty.isValid (t : Ty) : Bool :=
  match t.kind with
  | .invalid => false
  | .void => t.bits == 0 && t.aux == 0
  | .int => validIntBits t.bits && t.aux == 0
  | .addr => validAddrBits t.bits && t.aux == 0
  | .flags => decide (0 < t.bits) && decide (t.bits ≤ 32) && t.aux == 0
  | .mem => validAddrBits t.bits
  | .label8 => t.bits == 8 && t.aux == 0
  | .labelset => t.bits == 0 && t.aux == 0

def Ty.isInt (t : Ty) : Bool := t.kind == .int
def Ty.isAddr (t : Ty) : Bool := t.kind == .addr
def Ty.isMem (t : Ty) : Bool := t.kind == .mem
def Ty.isFlags (t : Ty) : Bool := t.kind == .flags
def Ty.isI1 (t : Ty) : Bool := t.kind == .int && t.bits == 1

/-- `is_value_type`. -/
def Ty.isValueType (t : Ty) : Bool := t.isValid && t.kind != .void && t.kind != .invalid

/-! ### Word arithmetic -/

/-- `mask_for_bits`. -/
def maskForBits (bits : Nat) : Word :=
  if 64 ≤ bits then BitVec.allOnes 64 else (1#64 <<< bits) - 1#64

/-- `sign_bit_for_bits`. -/
def signBitForBits (bits : Nat) : Word :=
  if bits = 64 then 1#64 <<< 63 else 1#64 <<< (bits - 1)

/-- `truncate_to_type`. -/
def truncateToType (value : Word) (t : Ty) : Word :=
  if t.kind ≠ .int ∧ t.kind ≠ .addr then value else value &&& maskForBits t.bits

/-- `bool_u64`. -/
def boolU64 (b : Bool) : Word := if b then 1#64 else 0#64

/-- `signed_less_u64`. -/
def signedLessU64 (lhs rhs : Word) (bits : Nat) : Bool :=
  let sign := signBitForBits bits
  let lhs := lhs &&& maskForBits bits
  let rhs := rhs &&& maskForBits bits
  let lhsNegative := lhs &&& sign != 0#64
  let rhsNegative := rhs &&& sign != 0#64
  if lhsNegative != rhsNegative then lhsNegative else decide (lhs < rhs)

/-- `even_parity8`: the parity of the low byte, through the nibble table `0x6996`. -/
def evenParity8 (value : Word) : Bool :=
  let byte : BitVec 8 := (value &&& 0xff#64).setWidth 8
  let byte := byte ^^^ (byte >>> 4)
  let byte := byte &&& 0x0f#8
  (0x6996#32 >>> byte.toNat) &&& 1#32 == 0#32

/-- Truncation to a type is idempotent. -/
@[simp] theorem truncateToType_truncateToType (w : Word) (t : Ty) :
    truncateToType (truncateToType w t) t = truncateToType w t := by
  unfold truncateToType
  split
  · rfl
  · rw [BitVec.and_assoc, BitVec.and_self]

theorem maskForBits_toNat {bits : Nat} (h : bits ≤ 64) :
    (maskForBits bits).toNat = 2 ^ bits - 1 := by
  unfold maskForBits
  split
  · obtain rfl : bits = 64 := by omega
    simp
  · next hlt =>
    have hpos : 0 < 2 ^ bits := Nat.two_pow_pos bits
    have hb : 2 ^ bits < 2 ^ 64 := Nat.pow_lt_pow_right (by omega) (by omega)
    rw [BitVec.toNat_sub, BitVec.toNat_shiftLeft, BitVec.toNat_ofNat, Nat.shiftLeft_eq]
    norm_num at hb ⊢
    omega

theorem and_maskForBits_toNat {bits : Nat} (h : bits ≤ 64) (w : Word) :
    (w &&& maskForBits bits).toNat = w.toNat % 2 ^ bits := by
  rw [BitVec.toNat_and, maskForBits_toNat h, Nat.and_two_pow_sub_one_eq_mod]

/-- A scalar value of at most 64 bits is in range after truncation. -/
theorem truncateToType_lt {t : Ty} (hk : t.kind = .int ∨ t.kind = .addr) (hb : t.bits ≤ 64)
    (w : Word) : (truncateToType w t).toNat < 2 ^ t.bits := by
  have hn : ¬ (t.kind ≠ .int ∧ t.kind ≠ .addr) := by
    rintro ⟨h1, h2⟩
    rcases hk with h | h <;> contradiction
  rw [truncateToType, if_neg hn, and_maskForBits_toNat hb]
  exact Nat.mod_lt _ (Nat.two_pow_pos _)

end Xair
