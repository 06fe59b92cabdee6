import Nocter.Library.TwosComplement
import Nocter.Text.Digits

/-!
# Parsing and checked arithmetic of integers

The narrow types parse and compute in 64 bits and publish what fits. The signed products are built
from the magnitudes of their operands; the signed parser accumulates below zero, where there is room
for one number more.
-/

namespace Nocter.Num

open TwosComplement Outcome

abbrev Bytes := List UInt8

abbrev U64 := BitVec 64

/-- A signed word in two's complement. -/
abbrev I64 := BitVec 64

/-- The integer types. -/
inductive IntegerType where
  | i8
  | i16
  | i32
  | i64
  | isize
  | u8
  | u16
  | u32
  | u64
  | usize
deriving DecidableEq

namespace IntegerType

@[simp] def bits : IntegerType → ℕ
  | i8 | u8 => 8
  | i16 | u16 => 16
  | i32 | u32 => 32
  | i64 | isize | u64 | usize => 64

@[simp] def signed : IntegerType → Bool
  | i8 | i16 | i32 | i64 | isize => true
  | u8 | u16 | u32 | u64 | usize => false

end IntegerType

def multiplyHigh (left right : U64) : U64 := BitVec.ofNat 64 (left.toNat * right.toNat / 2 ^ 64)

def u64CheckedAdd (left right : U64) : Option U64 :=
  let result := left + right
  if result < left then none else some result

def u64CheckedSub (left right : U64) : Option U64 := if left < right then none else some (left - right)

def u64CheckedMul (left right : U64) : Option U64 :=
  if multiplyHigh left right ≠ 0 then none else some (left * right)

def isNegative (word : I64) : Bool := word.slt 0#64

def i64CheckedAdd (left right : I64) : Option I64 :=
  let result := left + right
  let selfNegative := isNegative left
  let otherNegative := isNegative right
  if selfNegative = otherNegative ∧ isNegative result ≠ selfNegative then none else some result

def i64CheckedSub (left right : I64) : Option I64 :=
  let result := left - right
  let selfNegative := isNegative left
  let otherNegative := isNegative right
  if selfNegative ≠ otherNegative ∧ isNegative result ≠ selfNegative then none else some result

def maximumI64Magnitude : U64 := 9223372036854775808#64

def maximumI64 : U64 := 9223372036854775807#64

def i64CheckedMul (left right : I64) : Option I64 :=
  let selfNegative := isNegative left
  let otherNegative := isNegative right
  let resultNegative := selfNegative != otherNegative
  let selfMagnitude := if selfNegative then 0#64 - left else left
  let otherMagnitude := if otherNegative then 0#64 - right else right
  if multiplyHigh selfMagnitude otherMagnitude ≠ 0 then none
  else
    let magnitude := selfMagnitude * otherMagnitude
    let maximum := if resultNegative then maximumI64Magnitude else maximumI64
    if maximum < magnitude then none else some (if resultNegative then 0#64 - magnitude else magnitude)

/-- A signed operation in 64 bits whose result is published where it lies between the limits. -/
def narrowSigned (bits : ℕ) (minimum maximum : I64) (operation : I64 → I64 → Option I64)
    (left right : BitVec bits) : Option (BitVec bits) :=
  match operation (left.signExtend 64) (right.signExtend 64) with
  | none => none
  | some result => if result.slt minimum ∨ maximum.slt result then none else some (result.setWidth bits)

/-- An unsigned operation in 64 bits whose result is published where it is small enough. -/
def narrowUnsigned (bits : ℕ) (maximum : U64) (operation : U64 → U64 → Option U64)
    (left right : BitVec bits) : Option (BitVec bits) :=
  match operation (left.setWidth 64) (right.setWidth 64) with
  | none => none
  | some result => if maximum < result then none else some (result.setWidth bits)

/-- The narrow subtractions do not look at the result again. -/
def narrowDifference (bits : ℕ) (left right : BitVec bits) : Option (BitVec bits) :=
  (u64CheckedSub (left.setWidth 64) (right.setWidth 64)).map (BitVec.setWidth bits)

def i8CheckedAdd := narrowSigned 8 (-128#64) 127#64 i64CheckedAdd

def i8CheckedSub := narrowSigned 8 (-128#64) 127#64 i64CheckedSub

def i8CheckedMul := narrowSigned 8 (-128#64) 127#64 i64CheckedMul

def i16CheckedAdd := narrowSigned 16 (-32768#64) 32767#64 i64CheckedAdd

def i16CheckedSub := narrowSigned 16 (-32768#64) 32767#64 i64CheckedSub

def i16CheckedMul := narrowSigned 16 (-32768#64) 32767#64 i64CheckedMul

def i32CheckedAdd := narrowSigned 32 (-2147483648#64) 2147483647#64 i64CheckedAdd

def i32CheckedSub := narrowSigned 32 (-2147483648#64) 2147483647#64 i64CheckedSub

def i32CheckedMul := narrowSigned 32 (-2147483648#64) 2147483647#64 i64CheckedMul

def u8CheckedAdd := narrowUnsigned 8 255#64 u64CheckedAdd

def u8CheckedSub := narrowDifference 8

def u8CheckedMul := narrowUnsigned 8 255#64 u64CheckedMul

def u16CheckedAdd := narrowUnsigned 16 65535#64 u64CheckedAdd

def u16CheckedSub := narrowDifference 16

def u16CheckedMul := narrowUnsigned 16 65535#64 u64CheckedMul

def u32CheckedAdd := narrowUnsigned 32 4294967295#64 u64CheckedAdd

def u32CheckedSub := narrowDifference 32

def u32CheckedMul := narrowUnsigned 32 4294967295#64 u64CheckedMul

namespace IntegerType

/-- `checked_add`; the types of the machine word have the operations of 64 bits. -/
def checkedAdd : (ty : IntegerType) → BitVec ty.bits → BitVec ty.bits → Option (BitVec ty.bits)
  | i8 => i8CheckedAdd
  | i16 => i16CheckedAdd
  | i32 => i32CheckedAdd
  | i64 | isize => i64CheckedAdd
  | u8 => u8CheckedAdd
  | u16 => u16CheckedAdd
  | u32 => u32CheckedAdd
  | u64 | usize => u64CheckedAdd

/-- `checked_sub`. -/
def checkedSub : (ty : IntegerType) → BitVec ty.bits → BitVec ty.bits → Option (BitVec ty.bits)
  | i8 => i8CheckedSub
  | i16 => i16CheckedSub
  | i32 => i32CheckedSub
  | i64 | isize => i64CheckedSub
  | u8 => u8CheckedSub
  | u16 => u16CheckedSub
  | u32 => u32CheckedSub
  | u64 | usize => u64CheckedSub

/-- `checked_mul`. -/
def checkedMul : (ty : IntegerType) → BitVec ty.bits → BitVec ty.bits → Option (BitVec ty.bits)
  | i8 => i8CheckedMul
  | i16 => i16CheckedMul
  | i32 => i32CheckedMul
  | i64 | isize => i64CheckedMul
  | u8 => u8CheckedMul
  | u16 => u16CheckedMul
  | u32 => u32CheckedMul
  | u64 | usize => u64CheckedMul

end IntegerType

section Arithmetic

/-- The exact integer where the type has it, and nothing otherwise. -/
def Exact (bits : ℕ) (signed : Bool) (result : Option (BitVec bits)) (exact : ℤ) : Prop :=
  result.map (TwosComplement.value signed) = checked bits signed exact

variable {bits : ℕ} {signed : Bool}

theorem exact_some {result : BitVec bits} {exact : ℤ} (h : TwosComplement.value signed result = exact) :
    Exact bits signed (some result) exact := by
  have hrange : InRange bits signed exact := h ▸ value_inRange signed result
  rw [Exact, Option.map_some, checked_of_inRange hrange, h]

theorem exact_none {exact : ℤ} (h : ¬InRange bits signed exact) : Exact bits signed none exact := by
  rw [Exact, Option.map_none, checked, if_neg h]

theorem value_false (word : BitVec bits) : TwosComplement.value false word = (word.toNat : ℤ) := rfl

theorem value_true (word : BitVec bits) : TwosComplement.value true word = word.toInt := rfl

theorem inRange_unsigned {exact : ℤ} : InRange 64 false exact ↔ 0 ≤ exact ∧ exact < 2 ^ 64 := by
  change 0 ≤ exact ∧ exact ≤ 2 ^ 64 - 1 ↔ _
  omega

theorem inRange_signed {exact : ℤ} : InRange 64 true exact ↔ -2 ^ 63 ≤ exact ∧ exact < 2 ^ 63 := by
  change -2 ^ 63 ≤ exact ∧ exact ≤ 2 ^ 63 - 1 ↔ _
  omega

theorem toInt_inRange (word : I64) : -2 ^ 63 ≤ word.toInt ∧ word.toInt < 2 ^ 63 :=
  inRange_signed.mp (value_inRange true word)

theorem isNegative_eq (word : I64) : isNegative word = decide (word.toInt < 0) := rfl

/-- A sum or difference of two words wraps at most once. -/
theorem bmod_cases {exact : ℤ} (hmin : -2 ^ 64 ≤ exact) (hmax : exact < 2 ^ 64) :
    (-2 ^ 63 ≤ exact ∧ exact < 2 ^ 63 ∧ exact.bmod (2 ^ 64) = exact) ∨
      (2 ^ 63 ≤ exact ∧ exact.bmod (2 ^ 64) = exact - 2 ^ 64) ∨
      (exact < -2 ^ 63 ∧ exact.bmod (2 ^ 64) = exact + 2 ^ 64) := by
  have hbmod : exact.bmod (2 ^ 64) =
      if exact % 2 ^ 64 < 2 ^ 63 then exact % 2 ^ 64 else exact % 2 ^ 64 - 2 ^ 64 := Int.bmod_def _ _
  by_cases hsmall : exact % 2 ^ 64 < 2 ^ 63
  · rw [if_pos hsmall] at hbmod
    omega
  · rw [if_neg hsmall] at hbmod
    omega

theorem u64CheckedAdd_exact (left right : U64) :
    Exact 64 false (u64CheckedAdd left right) (left.toNat + right.toNat) := by
  have hleft := left.isLt
  have hright := right.isLt
  have hsum := BitVec.toNat_add left right
  simp only [u64CheckedAdd, BitVec.lt_def]
  by_cases hwrapped : (left + right).toNat < left.toNat
  · rw [if_pos hwrapped]
    refine exact_none fun h => ?_
    rw [inRange_unsigned] at h
    omega
  · rw [if_neg hwrapped]
    refine exact_some ?_
    rw [value_false]
    omega

theorem u64CheckedSub_exact (left right : U64) :
    Exact 64 false (u64CheckedSub left right) (left.toNat - right.toNat) := by
  have hleft := left.isLt
  rw [u64CheckedSub]
  by_cases hless : left < right
  · have hlt : left.toNat < right.toNat := hless
    rw [if_pos hless]
    refine exact_none fun h => ?_
    rw [inRange_unsigned] at h
    omega
  · have hle : right.toNat ≤ left.toNat := Nat.le_of_not_lt hless
    rw [if_neg hless]
    refine exact_some ?_
    rw [value_false, BitVec.toNat_sub_of_le hle]
    omega

/-- The upper half of the product is empty where the product fits. -/
theorem multiplyHigh_eq_zero {left right : U64} :
    multiplyHigh left right = 0 ↔ left.toNat * right.toNat < 2 ^ 64 := by
  have hhigh : left.toNat * right.toNat / 2 ^ 64 < 2 ^ 64 := by
    rw [Nat.div_lt_iff_lt_mul (by decide)]
    exact Nat.mul_lt_mul'' left.isLt right.isLt
  rw [multiplyHigh, ← BitVec.toNat_inj, BitVec.toNat_ofNat, Nat.mod_eq_of_lt hhigh]
  change left.toNat * right.toNat / 2 ^ 64 = 0 ↔ _
  omega

theorem toNat_mul_of_multiplyHigh {left right : U64} (h : multiplyHigh left right = 0) :
    (left * right).toNat = left.toNat * right.toNat := by
  rw [BitVec.toNat_mul, Nat.mod_eq_of_lt (multiplyHigh_eq_zero.mp h)]

theorem u64CheckedMul_exact (left right : U64) :
    Exact 64 false (u64CheckedMul left right) (left.toNat * right.toNat) := by
  rw [u64CheckedMul]
  by_cases hhigh : multiplyHigh left right = 0
  · rw [if_neg (not_not.mpr hhigh)]
    refine exact_some ?_
    rw [value_false, toNat_mul_of_multiplyHigh hhigh, Nat.cast_mul]
  · rw [if_pos hhigh]
    rw [multiplyHigh_eq_zero] at hhigh
    refine exact_none fun h => hhigh ?_
    rw [inRange_unsigned] at h
    exact_mod_cast h.2

/-- The sum of two words of one sign has the other sign where it does not fit. -/
theorem i64CheckedAdd_exact (left right : I64) :
    Exact 64 true (i64CheckedAdd left right) (left.toInt + right.toInt) := by
  have hleft := toInt_inRange left
  have hright := toInt_inRange right
  have hresult := BitVec.toInt_add left right
  have hcases := bmod_cases (by omega) (by omega : left.toInt + right.toInt < 2 ^ 64)
  simp only [i64CheckedAdd, isNegative_eq, decide_eq_decide, ne_eq]
  by_cases hrange : InRange 64 true (left.toInt + right.toInt)
  · rw [inRange_signed] at hrange
    rw [if_neg (by omega)]
    refine exact_some ?_
    rw [value_true]
    omega
  · have hwrapped := mt inRange_signed.mpr hrange
    rw [if_pos (by omega)]
    exact exact_none hrange

/-- The difference of two words of different signs has the sign of the second one where it does not
fit. -/
theorem i64CheckedSub_exact (left right : I64) :
    Exact 64 true (i64CheckedSub left right) (left.toInt - right.toInt) := by
  have hleft := toInt_inRange left
  have hright := toInt_inRange right
  have hresult := @BitVec.toInt_sub 64 left right
  have hcases := bmod_cases (by omega) (by omega : left.toInt - right.toInt < 2 ^ 64)
  simp only [i64CheckedSub, isNegative_eq, decide_eq_decide, ne_eq]
  by_cases hrange : InRange 64 true (left.toInt - right.toInt)
  · rw [inRange_signed] at hrange
    rw [if_neg (by omega)]
    refine exact_some ?_
    rw [value_true]
    omega
  · have hwrapped := mt inRange_signed.mpr hrange
    rw [if_pos (by omega)]
    exact exact_none hrange

def magnitudeOf (word : I64) : U64 := if isNegative word then 0#64 - word else word

theorem toNat_magnitudeOf (word : I64) : (magnitudeOf word).toNat = word.toInt.natAbs := by
  have hlt := word.isLt
  have hint := BitVec.toInt_eq_toNat_cond word
  push_cast at hint
  rw [magnitudeOf, isNegative_eq]
  by_cases hnegative : word.toInt < 0
  · rw [decide_eq_true hnegative, if_pos rfl, BitVec.toNat_sub, BitVec.toNat_ofNat]
    omega
  · rw [decide_eq_false hnegative, if_neg Bool.false_ne_true]
    omega

/-- A magnitude below the limit of its sign stands for the signed integer. -/
theorem toInt_signed {magnitude : U64} {negative : Bool}
    (h : magnitude.toNat ≤ (if negative then maximumI64Magnitude else maximumI64).toNat) :
    (if negative then 0#64 - magnitude else magnitude).toInt =
      if negative then -(magnitude.toNat : ℤ) else magnitude.toNat := by
  cases negative with
  | false =>
    have hle : magnitude.toNat ≤ 2 ^ 63 - 1 := h
    have hint := BitVec.toInt_eq_toNat_cond magnitude
    rw [if_pos (by omega)] at hint
    exact hint
  | true =>
    have hle : magnitude.toNat ≤ 2 ^ 63 := h
    have hint := BitVec.toInt_eq_toNat_cond (0#64 - magnitude)
    have hsub := BitVec.toNat_sub 0#64 magnitude
    have hzero : (0#64).toNat = 0 := rfl
    push_cast at hint
    change (0#64 - magnitude).toInt = -(magnitude.toNat : ℤ)
    omega

theorem i64CheckedMul_exact (left right : I64) :
    Exact 64 true (i64CheckedMul left right) (left.toInt * right.toInt) := by
  have hmagnitude : (left.toInt * right.toInt).natAbs = left.toInt.natAbs * right.toInt.natAbs :=
    Int.natAbs_mul _ _
  have hleft := toNat_magnitudeOf left
  have hright := toNat_magnitudeOf right
  -- a product is negative where the signs differ, unless it is zero
  have hsign : if isNegative left != isNegative right then left.toInt * right.toInt ≤ 0
      else 0 ≤ left.toInt * right.toInt := by
    rw [isNegative_eq, isNegative_eq]
    by_cases hl : left.toInt < 0 <;> by_cases hr : right.toInt < 0
    · rw [decide_eq_true hl, decide_eq_true hr]
      exact Int.mul_nonneg_of_nonpos_of_nonpos hl.le hr.le
    · rw [decide_eq_true hl, decide_eq_false hr]
      exact Int.mul_nonpos_of_nonpos_of_nonneg hl.le (Int.not_lt.mp hr)
    · rw [decide_eq_false hl, decide_eq_true hr]
      exact Int.mul_nonpos_of_nonneg_of_nonpos (Int.not_lt.mp hl) hr.le
    · rw [decide_eq_false hl, decide_eq_false hr]
      exact Int.mul_nonneg (Int.not_lt.mp hl) (Int.not_lt.mp hr)
  change Exact 64 true (if multiplyHigh (magnitudeOf left) (magnitudeOf right) ≠ 0 then none
    else if (if isNegative left != isNegative right then maximumI64Magnitude else maximumI64) <
      magnitudeOf left * magnitudeOf right then none
    else some (if isNegative left != isNegative right then 0#64 - magnitudeOf left * magnitudeOf right
      else magnitudeOf left * magnitudeOf right)) _
  generalize (isNegative left != isNegative right) = negative at hsign ⊢
  by_cases hhigh : multiplyHigh (magnitudeOf left) (magnitudeOf right) = 0
  · have hproduct := toNat_mul_of_multiplyHigh hhigh
    rw [hleft, hright, ← hmagnitude] at hproduct
    rw [if_neg (not_not.mpr hhigh)]
    by_cases hlarge : (if negative then maximumI64Magnitude else maximumI64) <
        magnitudeOf left * magnitudeOf right
    · rw [if_pos hlarge]
      refine exact_none fun h => ?_
      rw [inRange_signed] at h
      rw [BitVec.lt_def, hproduct] at hlarge
      cases negative with
      | false =>
        have hlarge : 2 ^ 63 - 1 < (left.toInt * right.toInt).natAbs := hlarge
        have hsign : 0 ≤ left.toInt * right.toInt := hsign
        omega
      | true =>
        have hlarge : 2 ^ 63 < (left.toInt * right.toInt).natAbs := hlarge
        have hsign : left.toInt * right.toInt ≤ 0 := hsign
        omega
    · rw [if_neg hlarge]
      refine exact_some ?_
      rw [value_true, toInt_signed (Nat.le_of_not_lt hlarge), hproduct]
      cases negative with
      | false =>
        have hsign : 0 ≤ left.toInt * right.toInt := hsign
        exact Int.natAbs_of_nonneg hsign
      | true =>
        have hsign : left.toInt * right.toInt ≤ 0 := hsign
        change -((left.toInt * right.toInt).natAbs : ℤ) = left.toInt * right.toInt
        omega
  · rw [if_pos hhigh]
    rw [multiplyHigh_eq_zero, hleft, hright, ← hmagnitude] at hhigh
    refine exact_none fun h => ?_
    rw [inRange_signed] at h
    omega

theorem setWidth_exact {wide : BitVec 64} {exact : ℤ} (hpos : 0 < bits) (hbits : bits ≤ 64)
    (h : TwosComplement.value signed wide = exact) (hrange : InRange bits signed exact) :
    TwosComplement.value signed (wide.setWidth bits) = exact := by
  rw [← ofInt_value signed wide, h, setWidth_ofInt exact hbits, value_ofInt hpos hrange]

theorem Exact.value_eq {result : BitVec bits} {exact : ℤ} (h : Exact bits signed (some result) exact) :
    TwosComplement.value signed result = exact := checked_eq_some h.symm

theorem Exact.not_inRange {exact : ℤ} (h : Exact bits signed none exact) : ¬InRange bits signed exact := by
  intro hrange
  have hsome : none = some exact := h.trans (checked_of_inRange hrange)
  cases hsome

/-- The narrow signed types publish what lies between their limits. -/
theorem narrowSigned_exact {minimum maximum : I64} {operation : I64 → I64 → Option I64} {f : ℤ → ℤ → ℤ}
    (hpos : 0 < bits) (hbits : bits ≤ 64) (hminimum : minimum.toInt = TwosComplement.minimum bits true)
    (hmaximum : maximum.toInt = TwosComplement.maximum bits true)
    (hoperation : ∀ left right, Exact 64 true (operation left right) (f left.toInt right.toInt))
    (left right : BitVec bits) :
    Exact bits true (narrowSigned bits minimum maximum operation left right) (f left.toInt right.toInt) := by
  have hwide := hoperation (left.signExtend 64) (right.signExtend 64)
  rw [BitVec.toInt_signExtend_of_le hbits, BitVec.toInt_signExtend_of_le hbits] at hwide
  have hlimits (result : I64) : result.slt minimum ∨ maximum.slt result ↔ ¬InRange bits true result.toInt := by
    have hlow : result.slt minimum = decide (result.toInt < minimum.toInt) := rfl
    have hhigh : maximum.slt result = decide (maximum.toInt < result.toInt) := rfl
    rw [hlow, hhigh, decide_eq_true_iff, decide_eq_true_iff, hminimum, hmaximum, InRange]
    omega
  rw [narrowSigned]
  rcases hresult : operation (left.signExtend 64) (right.signExtend 64) with _ | result
  · rw [hresult] at hwide
    exact exact_none fun h => hwide.not_inRange (h.mono hbits)
  · rw [hresult] at hwide
    have hvalue : result.toInt = f left.toInt right.toInt := hwide.value_eq
    by_cases hrange : InRange bits true (f left.toInt right.toInt)
    · have hinside : ¬(result.slt minimum ∨ maximum.slt result) := by
        rw [hlimits, hvalue]
        exact not_not.mpr hrange
      change Exact bits true (if _ then _ else _) _
      rw [if_neg hinside]
      exact exact_some (setWidth_exact hpos hbits hvalue hrange)
    · have houtside : result.slt minimum ∨ maximum.slt result := by
        rw [hlimits, hvalue]
        exact hrange
      change Exact bits true (if _ then _ else _) _
      rw [if_pos houtside]
      exact exact_none hrange

theorem toNat_setWidth_wide (word : BitVec bits) (hbits : bits ≤ 64) :
    (word.setWidth 64).toNat = word.toNat := by
  have hlt : 2 ^ bits ≤ 2 ^ 64 := Nat.pow_le_pow_right (by decide) hbits
  rw [BitVec.toNat_setWidth, Nat.mod_eq_of_lt (word.isLt.trans_le hlt)]

/-- The narrow unsigned types publish what their limit allows. -/
theorem narrowUnsigned_exact {maximum : U64} {operation : U64 → U64 → Option U64} {f : ℤ → ℤ → ℤ}
    (hpos : 0 < bits) (hbits : bits ≤ 64) (hmaximum : (maximum.toNat : ℤ) = TwosComplement.maximum bits false)
    (hoperation : ∀ left right, Exact 64 false (operation left right) (f left.toNat right.toNat))
    (left right : BitVec bits) :
    Exact bits false (narrowUnsigned bits maximum operation left right) (f left.toNat right.toNat) := by
  have hwide := hoperation (left.setWidth 64) (right.setWidth 64)
  rw [toNat_setWidth_wide left hbits, toNat_setWidth_wide right hbits] at hwide
  have hlimit (result : U64) : maximum < result ↔ ¬InRange bits false result.toNat := by
    have hzero : TwosComplement.minimum bits false = 0 := rfl
    rw [BitVec.lt_def, InRange, hzero, ← hmaximum]
    omega
  rw [narrowUnsigned]
  rcases hresult : operation (left.setWidth 64) (right.setWidth 64) with _ | result
  · rw [hresult] at hwide
    exact exact_none fun h => hwide.not_inRange (h.mono hbits)
  · rw [hresult] at hwide
    have hvalue : (result.toNat : ℤ) = f left.toNat right.toNat := hwide.value_eq
    by_cases hrange : InRange bits false (f left.toNat right.toNat)
    · have hinside : ¬maximum < result := by
        rw [hlimit, hvalue]
        exact not_not.mpr hrange
      change Exact bits false (if _ then _ else _) _
      rw [if_neg hinside]
      exact exact_some (setWidth_exact hpos hbits hvalue hrange)
    · have houtside : maximum < result := by
        rw [hlimit, hvalue]
        exact hrange
      change Exact bits false (if _ then _ else _) _
      rw [if_pos houtside]
      exact exact_none hrange

/-- A difference of narrow words is never too large. -/
theorem narrowDifference_exact (hpos : 0 < bits) (hbits : bits ≤ 64) (left right : BitVec bits) :
    Exact bits false (narrowDifference bits left right) (left.toNat - right.toNat) := by
  have hwide := u64CheckedSub_exact (left.setWidth 64) (right.setWidth 64)
  rw [toNat_setWidth_wide left hbits, toNat_setWidth_wide right hbits] at hwide
  rw [narrowDifference]
  rcases hresult : u64CheckedSub (left.setWidth 64) (right.setWidth 64) with _ | result
  · rw [hresult] at hwide
    exact exact_none fun h => hwide.not_inRange (h.mono hbits)
  · rw [hresult] at hwide
    have hvalue : (result.toNat : ℤ) = left.toNat - right.toNat := hwide.value_eq
    have hleft := value_inRange false left
    have hrange : InRange bits false (left.toNat - right.toNat : ℤ) :=
      ⟨by rw [← hvalue]; exact Int.natCast_nonneg _, (Int.sub_le_self _ (Int.natCast_nonneg _)).trans hleft.2⟩
    exact exact_some (setWidth_exact hpos hbits hvalue hrange)

theorem checkedAdd_exact (ty : IntegerType) (left right : BitVec ty.bits) :
    Exact ty.bits ty.signed (ty.checkedAdd left right)
      (TwosComplement.value ty.signed left + TwosComplement.value ty.signed right) := by
  cases ty with
  | i8 | i16 | i32 => exact narrowSigned_exact (by decide) (by decide) rfl rfl i64CheckedAdd_exact left right
  | i64 | isize => exact i64CheckedAdd_exact left right
  | u8 | u16 | u32 => exact narrowUnsigned_exact (by decide) (by decide) rfl u64CheckedAdd_exact left right
  | u64 | usize => exact u64CheckedAdd_exact left right

theorem checkedSub_exact (ty : IntegerType) (left right : BitVec ty.bits) :
    Exact ty.bits ty.signed (ty.checkedSub left right)
      (TwosComplement.value ty.signed left - TwosComplement.value ty.signed right) := by
  cases ty with
  | i8 | i16 | i32 => exact narrowSigned_exact (by decide) (by decide) rfl rfl i64CheckedSub_exact left right
  | i64 | isize => exact i64CheckedSub_exact left right
  | u8 | u16 | u32 => exact narrowDifference_exact (by decide) (by decide) left right
  | u64 | usize => exact u64CheckedSub_exact left right

theorem checkedMul_exact (ty : IntegerType) (left right : BitVec ty.bits) :
    Exact ty.bits ty.signed (ty.checkedMul left right)
      (TwosComplement.value ty.signed left * TwosComplement.value ty.signed right) := by
  cases ty with
  | i8 | i16 | i32 => exact narrowSigned_exact (by decide) (by decide) rfl rfl i64CheckedMul_exact left right
  | i64 | isize => exact i64CheckedMul_exact left right
  | u8 | u16 | u32 => exact narrowUnsigned_exact (by decide) (by decide) rfl u64CheckedMul_exact left right
  | u64 | usize => exact u64CheckedMul_exact left right

end Arithmetic

/-- The result of an operation on `i64`. -/
def signedBounded (result : ℤ) : Outcome ℤ := if InRange 64 true result then value result else trapped

/-- The loop of `parse_signed_decimal`. -/
def signedDecimalFrom (raw : Bytes) (offset : ℕ) (negativeValue : ℤ) : Outcome ℤ :=
  if offset < raw.length then do
    let byte ← read raw offset
    if byte < 48 ∨ 57 < byte then absent
    else
      let digit : ℤ := (byte.toNat - 48 : ℕ)
      let room ← signedBounded (-9223372036854775808 + digit)
      if negativeValue < room.tdiv 10 then absent
      else do
        let scaled ← signedBounded (negativeValue * 10)
        let negativeValue ← signedBounded (scaled - digit)
        signedDecimalFrom raw (offset + 1) negativeValue
  else value negativeValue
termination_by raw.length - offset

def parseSignedDecimal (raw : Bytes) : Outcome ℤ :=
  if raw.length = 0 then absent
  else do
    let first ← read raw 0
    let negative : Bool := first = 45
    let offset := if negative then 1 else 0
    if negative ∧ offset = raw.length then absent
    else do
      let negativeValue ← signedDecimalFrom raw offset 0
      if negative then return negativeValue
      else if negativeValue = -9223372036854775808 then absent
      else signedBounded (0 - negativeValue)

/-- The narrowing of a signed result, and its publication in a type of so many bits. -/
def narrowSignedValue (bits : ℕ) (minimum maximum parsed : ℤ) : Outcome (BitVec bits) :=
  if parsed < minimum ∨ maximum < parsed then absent else value (BitVec.ofInt bits parsed)

def narrowUnsignedValue (bits maximum parsed : ℕ) : Outcome (BitVec bits) :=
  if maximum < parsed then absent else value (BitVec.ofNat bits parsed)

def i8Parse (text : Bytes) : Outcome (BitVec 8) :=
  parseSignedDecimal text >>= narrowSignedValue 8 (-128) 127

def i16Parse (text : Bytes) : Outcome (BitVec 16) :=
  parseSignedDecimal text >>= narrowSignedValue 16 (-32768) 32767

def i32Parse (text : Bytes) : Outcome (BitVec 32) :=
  parseSignedDecimal text >>= narrowSignedValue 32 (-2147483648) 2147483647

def i64Parse (text : Bytes) : Outcome (BitVec 64) := do
  let parsed ← parseSignedDecimal text
  return BitVec.ofInt 64 parsed

def u8Parse (text : Bytes) : Outcome (BitVec 8) :=
  Text.parseUnsignedDecimal text >>= narrowUnsignedValue 8 255

def u16Parse (text : Bytes) : Outcome (BitVec 16) := do
  let parsed ← Text.u16Parse text
  return parsed.toBitVec

def u32Parse (text : Bytes) : Outcome (BitVec 32) :=
  Text.parseUnsignedDecimal text >>= narrowUnsignedValue 32 4294967295

def u64Parse (text : Bytes) : Outcome (BitVec 64) := do
  let parsed ← Text.parseUnsignedDecimal text
  return BitVec.ofNat 64 parsed

/-- `parse`; the types of the machine word parse as those of 64 bits. -/
def IntegerType.parse : (ty : IntegerType) → Bytes → Outcome (BitVec ty.bits)
  | i8 => i8Parse
  | i16 => i16Parse
  | i32 => i32Parse
  | i64 | isize => i64Parse
  | u8 => u8Parse
  | u16 => u16Parse
  | u32 => u32Parse
  | u64 | usize => u64Parse

/-- A run of digits, behind a minus sign if the type is signed. -/
def IntegerText (signed : Bool) (text : Bytes) (number : ℤ) : Prop :=
  (∃ magnitude : ℕ, Text.UnsignedText text magnitude ∧ number = magnitude) ∨
    (signed = true ∧ ∃ digits magnitude, text = 45 :: digits ∧ Text.UnsignedText digits magnitude ∧
      number = -(magnitude : ℤ))

theorem signedBounded_eq_value {result : ℤ} (h : InRange 64 true result) :
    signedBounded result = .value result := if_pos h

/-- The division rounds towards zero. -/
theorem tdiv_room {digit : ℕ} (h : digit ≤ 9) :
    (-9223372036854775808 + (digit : ℤ)).tdiv 10 = -(((9223372036854775808 - digit) / 10 : ℕ) : ℤ) := by
  have hneg : -9223372036854775808 + (digit : ℤ) = -((9223372036854775808 - digit : ℕ) : ℤ) := by omega
  rw [hneg, Int.neg_tdiv, Int.tdiv_eq_ediv_of_nonneg (Int.natCast_nonneg _)]
  norm_cast

/-- What is parsed stays at least the smallest value of the type. -/
theorem signedDecimalFrom_decides (front before rest : Bytes) (hbefore : Text.decimal before ≤ 2 ^ 63) :
    Decides (signedDecimalFrom (front ++ (before ++ rest)) (front.length + before.length)
      (-(Text.decimal before : ℤ))) fun number =>
      (∀ byte ∈ rest, Text.isAsciiDigit byte = true) ∧ Text.decimal (before ++ rest) ≤ 2 ^ 63 ∧
        number = -(Text.decimal (before ++ rest) : ℤ) := by
  induction rest generalizing before with
  | nil =>
    rw [List.append_nil, signedDecimalFrom, List.length_append, if_neg (Nat.lt_irrefl _)]
    refine (decides_value _).congr fun number => ?_
    exact ⟨fun h => ⟨fun _ h => absurd h List.not_mem_nil, hbefore, h⟩, fun h => h.2.2⟩
  | cons byte rest ih =>
    have hread : read (front ++ (before ++ byte :: rest)) (front.length + before.length) = .value byte := by
      refine read_eq_value ?_
      rw [← List.append_assoc, ← List.length_append, List.getElem?_append_right le_rfl, Nat.sub_self]
      rfl
    have hconcat : before ++ byte :: rest = (before ++ [byte]) ++ rest := by simp
    have hrest := Text.decimal_le_append (before ++ [byte]) rest
    rw [Text.decimal_concat] at hrest
    have hlength : front.length + before.length + 1 = front.length + (before ++ [byte]).length := by
      rw [List.length_append, List.length_singleton, Nat.add_assoc]
    rw [signedDecimalFrom, if_pos (by simp only [List.length_append, List.length_cons]; omega), hread,
      value_bind]
    by_cases hdigit : Text.isAsciiDigit byte = true
    swap
    · have hrange : byte < 48 ∨ 57 < byte := by
        rw [Text.isAsciiDigit_iff] at hdigit
        rw [UInt8.lt_iff_toNat_lt, UInt8.lt_iff_toNat_lt]
        change byte.toNat < 48 ∨ 57 < byte.toNat
        omega
      rw [if_pos hrange]
      exact decides_absent fun _ h => hdigit (h.1 byte List.mem_cons_self)
    have hrange : ¬(byte < 48 ∨ 57 < byte) := by
      rw [Text.isAsciiDigit_iff] at hdigit
      rw [UInt8.lt_iff_toNat_lt, UInt8.lt_iff_toNat_lt]
      change ¬(byte.toNat < 48 ∨ 57 < byte.toNat)
      omega
    have hvalue : byte.toNat - 48 ≤ 9 := by
      have := (Text.isAsciiDigit_iff.mp hdigit).2
      omega
    obtain ⟨digit, hnumber⟩ : ∃ digit, byte.toNat - 48 = digit := ⟨_, rfl⟩
    rw [hnumber] at hrest hvalue
    rw [if_neg hrange, hnumber]
    dsimp only
    rw [signedBounded_eq_value (inRange_signed.mpr (by omega)), value_bind, tdiv_room hvalue]
    by_cases hlarge : -(Text.decimal before : ℤ) < -(((9223372036854775808 - digit) / 10 : ℕ) : ℤ)
    · rw [if_pos hlarge]
      refine decides_absent fun _ h => ?_
      rw [hconcat] at h
      omega
    · have hscaled : InRange 64 true (-(Text.decimal before : ℤ) * 10) := inRange_signed.mpr (by omega)
      have hnext : InRange 64 true (-(Text.decimal before : ℤ) * 10 - digit) := inRange_signed.mpr (by omega)
      have hconcatValue : -(Text.decimal before : ℤ) * 10 - digit = -(Text.decimal (before ++ [byte]) : ℤ) := by
        rw [Text.decimal_concat, hnumber]
        omega
      rw [if_neg hlarge, signedBounded_eq_value hscaled, value_bind, signedBounded_eq_value hnext, value_bind,
        hconcat, hlength, hconcatValue]
      refine (ih (before ++ [byte]) (by rw [Text.decimal_concat]; omega)).congr fun number => ?_
      rw [List.forall_mem_cons]
      exact ⟨fun h => ⟨⟨hdigit, h.1⟩, h.2⟩, fun h => ⟨h.1.2, h.2⟩⟩

/-- An unsigned text never begins with a minus sign. -/
theorem not_unsignedText_minus {digits : Bytes} {magnitude : ℕ} :
    ¬Text.UnsignedText (45 :: digits) magnitude := by
  rintro ⟨-, hdigits, -⟩
  have hminus := hdigits 45 List.mem_cons_self
  cases hminus

theorem parseSignedDecimal_minus {digits : Bytes} (hdigits : digits ≠ []) :
    parseSignedDecimal (45 :: digits) = signedDecimalFrom (45 :: digits) 1 0 := by
  have hlength : ¬(1 = (45 :: digits).length) := by
    rw [List.length_cons]
    exact fun h => hdigits (List.length_eq_zero_iff.mp (by omega))
  rw [parseSignedDecimal, if_neg (by simp), read_eq_value rfl, value_bind]
  simp only [decide_true, if_true, hlength, and_false, if_false, pure_eq]
  exact bind_pure _

theorem parseSignedDecimal_digit {first : UInt8} (hfirst : first ≠ 45) (rest : Bytes) :
    parseSignedDecimal (first :: rest) = signedDecimalFrom (first :: rest) 0 0 >>= fun negativeValue =>
      if negativeValue = -9223372036854775808 then absent else signedBounded (0 - negativeValue) := by
  rw [parseSignedDecimal, if_neg (by simp), read_eq_value rfl, value_bind]
  simp only [decide_eq_false hfirst, Bool.false_eq_true, if_false, false_and]

theorem parseSignedDecimal_decides (text : Bytes) :
    Decides (parseSignedDecimal text) fun number => IntegerText true text number ∧ InRange 64 true number := by
  cases text with
  | nil =>
    refine decides_absent fun number h => ?_
    rcases h.1 with ⟨_, ⟨hne, -⟩, -⟩ | ⟨-, digits, _, htext, -⟩
    · exact hne rfl
    · cases htext
  | cons first digits =>
    by_cases hminus : first = 45
    · subst hminus
      by_cases hempty : digits = []
      · subst hempty
        refine decides_absent fun number h => ?_
        rcases h.1 with ⟨_, htext, -⟩ | ⟨-, digits, _, htext, ⟨hne, -⟩, -⟩
        · exact not_unsignedText_minus htext
        · cases htext
          exact hne rfl
      · rw [parseSignedDecimal_minus hempty]
        refine (signedDecimalFrom_decides [45] [] digits (Nat.zero_le _)).congr fun number => ?_
        rw [List.nil_append]
        constructor
        · rintro ⟨hdigits, hmax, rfl⟩
          exact ⟨Or.inr ⟨rfl, digits, _, rfl, ⟨hempty, hdigits, rfl⟩, rfl⟩, inRange_signed.mpr (by omega)⟩
        · rintro ⟨⟨_, htext, -⟩ | ⟨-, other, _, htext, ⟨-, hdigits, rfl⟩, rfl⟩, hrange⟩
          · exact absurd htext not_unsignedText_minus
          · cases htext
            rw [inRange_signed] at hrange
            exact ⟨hdigits, by omega, rfl⟩
    · have htexts (number : ℤ) : IntegerText true (first :: digits) number ↔
          (∀ byte ∈ first :: digits, Text.isAsciiDigit byte = true) ∧
            number = Text.decimal (first :: digits) := by
        constructor
        · rintro (⟨_, ⟨-, hdigits, rfl⟩, rfl⟩ | ⟨-, _, _, htext, -⟩)
          · exact ⟨hdigits, rfl⟩
          · cases htext
            exact absurd rfl hminus
        · rintro ⟨hdigits, rfl⟩
          exact Or.inl ⟨_, ⟨List.cons_ne_nil _ _, hdigits, rfl⟩, rfl⟩
      rw [parseSignedDecimal_digit hminus]
      have hloop := signedDecimalFrom_decides [] [] (first :: digits) (Nat.zero_le _)
      refine (hloop.bind (Q := fun parsed number => parsed = -number ∧ number < 2 ^ 63) ?_).congr fun number => ?_
      · rintro parsed ⟨-, hmax, rfl⟩
        rw [List.nil_append] at hmax ⊢
        by_cases hlimit : -(Text.decimal (first :: digits) : ℤ) = -9223372036854775808
        · rw [if_pos hlimit]
          refine decides_absent fun number h => ?_
          omega
        · rw [if_neg hlimit, signedBounded_eq_value (inRange_signed.mpr (by omega))]
          refine (decides_value _).congr fun number => ?_
          constructor
          · rintro rfl
            omega
          · rintro ⟨h, -⟩
            omega
      · rw [htexts, List.nil_append, inRange_signed]
        constructor
        · rintro ⟨parsed, ⟨hdigits, -, rfl⟩, hnumber, hmax⟩
          exact ⟨⟨hdigits, by omega⟩, by omega⟩
        · rintro ⟨⟨hdigits, rfl⟩, hrange⟩
          exact ⟨_, ⟨hdigits, by omega, rfl⟩, rfl, hrange.2⟩

/-- The narrow signed types parse what lies between their limits. -/
theorem narrowSignedValue_decides {bits : ℕ} {minimum maximum : ℤ} (hpos : 0 < bits) (hbits : bits ≤ 64)
    (hminimum : minimum = TwosComplement.minimum bits true)
    (hmaximum : maximum = TwosComplement.maximum bits true) (text : Bytes) :
    Decides (parseSignedDecimal text >>= narrowSignedValue bits minimum maximum) fun result =>
      IntegerText true text result.toInt := by
  subst hminimum hmaximum
  refine ((parseSignedDecimal_decides text).bind
    (Q := fun number (result : BitVec bits) => number = result.toInt) ?_).congr fun result => ?_
  · rintro number -
    rw [narrowSignedValue]
    by_cases hrange : InRange bits true number
    · have hinside : ¬(number < TwosComplement.minimum bits true ∨ TwosComplement.maximum bits true < number) := by
        have := hrange.1
        have := hrange.2
        omega
      rw [if_neg hinside]
      refine (decides_value _).congr fun result => ?_
      have hvalue : (BitVec.ofInt bits number).toInt = number := value_ofInt hpos hrange
      constructor
      · rintro rfl
        exact hvalue.symm
      · rintro rfl
        exact BitVec.ofInt_toInt.symm
    · have houtside : number < TwosComplement.minimum bits true ∨ TwosComplement.maximum bits true < number := by
        rw [InRange] at hrange
        omega
      rw [if_pos houtside]
      refine decides_absent fun result h => hrange ?_
      rw [h]
      exact value_inRange true result
  · constructor
    · rintro ⟨number, ⟨htext, -⟩, rfl⟩
      exact htext
    · exact fun htext => ⟨_, ⟨htext, InRange.mono (value_inRange true result) hbits⟩, rfl⟩

theorem i64Parse_decides (text : Bytes) :
    Decides (i64Parse text) fun result => IntegerText true text result.toInt := by
  refine ((parseSignedDecimal_decides text).bind
    (Q := fun number (result : BitVec 64) => number = result.toInt) ?_).congr fun result => ?_
  · rintro number ⟨-, hrange⟩
    have hvalue : (BitVec.ofInt 64 number).toInt = number := value_ofInt (by decide) hrange
    refine (decides_value _).congr fun result => ?_
    constructor
    · rintro rfl
      exact hvalue.symm
    · rintro rfl
      exact BitVec.ofInt_toInt.symm
  · constructor
    · rintro ⟨number, ⟨htext, -⟩, rfl⟩
      exact htext
    · exact fun htext => ⟨_, ⟨htext, value_inRange true result⟩, rfl⟩

theorem integerText_unsigned {text : Bytes} {magnitude : ℕ} :
    IntegerText false text magnitude ↔ Text.UnsignedText text magnitude := by
  constructor
  · rintro (⟨other, htext, hnumber⟩ | ⟨hsigned, -⟩)
    · rw [Int.natCast_inj.mp hnumber]
      exact htext
    · cases hsigned
  · exact fun htext => Or.inl ⟨magnitude, htext, rfl⟩

theorem u64Parse_decides (text : Bytes) :
    Decides (u64Parse text) fun result => Text.UnsignedText text result.toNat := by
  refine ((Text.parseUnsignedDecimal_decides text).bind
    (Q := fun number (result : BitVec 64) => number = result.toNat) ?_).congr fun result => ?_
  · rintro number ⟨-, hmax⟩
    refine (decides_value _).congr fun result => ?_
    have hvalue : (BitVec.ofNat 64 number).toNat = number := by
      rw [BitVec.toNat_ofNat, Nat.mod_eq_of_lt (Nat.lt_of_le_of_lt hmax (by decide +kernel))]
    constructor
    · rintro rfl
      exact hvalue.symm
    · rintro rfl
      rw [BitVec.ofNat_toNat, BitVec.setWidth_eq]
  · constructor
    · rintro ⟨number, ⟨htext, -⟩, rfl⟩
      exact htext
    · exact fun htext => ⟨_, ⟨htext, Nat.le_sub_one_of_lt result.isLt⟩, rfl⟩

/-- The narrow unsigned types parse what their limit allows. -/
theorem narrowUnsignedValue_decides {bits maximum : ℕ} (hbits : bits ≤ 64) (hmaximum : maximum + 1 = 2 ^ bits)
    (text : Bytes) :
    Decides (Text.parseUnsignedDecimal text >>= narrowUnsignedValue bits maximum) fun result =>
      Text.UnsignedText text result.toNat := by
  have hwide : 2 ^ bits ≤ 2 ^ 64 := Nat.pow_le_pow_right (by decide) hbits
  refine ((Text.parseUnsignedDecimal_decides text).bind
    (Q := fun number (result : BitVec bits) => number = result.toNat) ?_).congr fun result => ?_
  · rintro number -
    rw [narrowUnsignedValue]
    by_cases hlarge : maximum < number
    · rw [if_pos hlarge]
      refine decides_absent fun result h => ?_
      have := result.isLt
      omega
    · rw [if_neg hlarge]
      refine (decides_value _).congr fun result => ?_
      have hvalue : (BitVec.ofNat bits number).toNat = number := by
        rw [BitVec.toNat_ofNat, Nat.mod_eq_of_lt (by omega)]
      constructor
      · rintro rfl
        exact hvalue.symm
      · rintro rfl
        rw [BitVec.ofNat_toNat, BitVec.setWidth_eq]
  · have hlt := result.isLt
    constructor
    · rintro ⟨number, ⟨htext, -⟩, rfl⟩
      exact htext
    · exact fun htext => ⟨_, ⟨htext, Nat.le_sub_one_of_lt (hlt.trans_le hwide)⟩, rfl⟩

theorem u16Parse_decides (text : Bytes) :
    Decides (u16Parse text) fun result => Text.UnsignedText text result.toNat := by
  refine ((Text.u16Parse_decides text).bind
    (Q := fun port (result : BitVec 16) => port.toBitVec = result) ?_).congr fun result => ?_
  · rintro port -
    exact (decides_value _).congr fun result => eq_comm
  · constructor
    · rintro ⟨port, htext, rfl⟩
      exact htext
    · exact fun htext => ⟨UInt16.ofBitVec result, htext, rfl⟩

theorem parse_decides (ty : IntegerType) (text : Bytes) :
    Decides (ty.parse text) fun result =>
      IntegerText ty.signed text (TwosComplement.value ty.signed result) := by
  cases ty with
  | i8 | i16 | i32 => exact narrowSignedValue_decides (by decide) (by decide) rfl rfl text
  | i64 | isize => exact i64Parse_decides text
  | u8 | u32 =>
    exact (narrowUnsignedValue_decides (by decide) (by decide) text).congr fun _ => integerText_unsigned.symm
  | u16 => exact (u16Parse_decides text).congr fun _ => integerText_unsigned.symm
  | u64 | usize => exact (u64Parse_decides text).congr fun _ => integerText_unsigned.symm

/-- A type parses the texts of its integers, and its checked operations give the exact integers that
it has. -/
theorem integers_exact (ty : IntegerType) :
    (∀ text, ty.parse text ≠ .trapped ∧
      ∀ number, (∃ result, ty.parse text = .value result ∧ TwosComplement.value ty.signed result = number) ↔
        IntegerText ty.signed text number ∧ InRange ty.bits ty.signed number) ∧
    ∀ left right : BitVec ty.bits,
      Exact ty.bits ty.signed (ty.checkedAdd left right)
        (TwosComplement.value ty.signed left + TwosComplement.value ty.signed right) ∧
      Exact ty.bits ty.signed (ty.checkedSub left right)
        (TwosComplement.value ty.signed left - TwosComplement.value ty.signed right) ∧
      Exact ty.bits ty.signed (ty.checkedMul left right)
        (TwosComplement.value ty.signed left * TwosComplement.value ty.signed right) := by
  refine ⟨fun text => ⟨(parse_decides ty text).1, fun number => ?_⟩, fun left right =>
    ⟨checkedAdd_exact ty left right, checkedSub_exact ty left right, checkedMul_exact ty left right⟩⟩
  have hparse := (parse_decides ty text).2
  constructor
  · rintro ⟨result, hresult, rfl⟩
    exact ⟨(hparse result).mp hresult, value_inRange ty.signed result⟩
  · rintro ⟨htext, hrange⟩
    have hpos : 0 < ty.bits := by cases ty <;> decide
    have hvalue := @value_ofInt ty.bits ty.signed number hpos hrange
    refine ⟨BitVec.ofInt ty.bits number, (hparse _).mpr ?_, hvalue⟩
    beta_reduce
    rw [hvalue]
    exact htext

end Nocter.Num
