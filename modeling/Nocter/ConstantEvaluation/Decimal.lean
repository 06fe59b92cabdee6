import Mathlib.Tactic.Linarith
import Nocter.Library.Numeral
import Nocter.Syntax.FloatLiteral

/-!
# Natural numbers in limbs

Little-endian limbs of 32 bits. Intermediate values stay below `2 ^ 64`, so they are written
as natural numbers and only the stored limb is cut.
-/

namespace Nocter.ConstantEvaluation

structure BigNat where
  limbs : List UInt32
  deriving DecidableEq

/-- `low_limb`. -/
def lowLimb (value : ℕ) : UInt32 := UInt32.ofNat value

namespace BigNat

def zero : BigNat := ⟨[]⟩

/-- The loop of `multiply_small`; a carry that is left over is one more limb. -/
def multiplyLoop (multiplier : UInt32) : (carry : ℕ) → List UInt32 → List UInt32
  | carry, [] => if carry ≠ 0 then [lowLimb carry] else []
  | carry, limb :: rest =>
    let value := limb.toNat * multiplier.toNat + carry
    lowLimb value :: multiplyLoop multiplier (value / 2 ^ 32) rest

def multiplySmall (self : BigNat) (multiplier : UInt32) : BigNat :=
  ⟨multiplyLoop multiplier 0 self.limbs⟩

/-- The loop of `add_small`, which ends where nothing is carried. -/
def addLoop : (carry : ℕ) → List UInt32 → List UInt32
  | carry, [] => if carry ≠ 0 then [lowLimb carry] else []
  | carry, limb :: rest =>
    let value := limb.toNat + carry
    let carry := value / 2 ^ 32
    if carry = 0 then lowLimb value :: rest else lowLimb value :: addLoop carry rest

def addSmall (self : BigNat) (addend : UInt32) : BigNat := ⟨addLoop addend.toNat self.limbs⟩

def fromDecimalDigits (digits : List UInt8) : BigNat :=
  digits.foldl (fun value digit => (value.multiplySmall 10).addSmall digit.toUInt32) zero

/-- The number that limbs stand for. -/
def toNat (self : BigNat) : ℕ := Nat.ofDigits (2 ^ 32) (self.limbs.map (·.toNat))

theorem toNat_lowLimb (value : ℕ) : (lowLimb value).toNat = value % 2 ^ 32 :=
  UInt32.toNat_ofNat'

/-- Limbs of a product: what is carried in is added to it. -/
theorem multiplyLoop_value {multiplier : UInt32} {carry : ℕ} {limbs : List UInt32}
    (h : carry < 2 ^ 32) :
    Nat.ofDigits (2 ^ 32) ((multiplyLoop multiplier carry limbs).map (·.toNat)) =
      Nat.ofDigits (2 ^ 32) (limbs.map (·.toNat)) * multiplier.toNat + carry := by
  induction limbs generalizing carry with
  | nil =>
    rw [multiplyLoop]
    split
    · rw [List.map_singleton, Nat.ofDigits_singleton, toNat_lowLimb, Nat.mod_eq_of_lt h,
        List.map_nil, Nat.ofDigits_nil, Nat.zero_mul, Nat.zero_add]
    · next hzero =>
      rw [not_not.mp hzero, List.map_nil, Nat.ofDigits_nil, Nat.zero_mul]
  | cons limb rest ih =>
    have hlimb := limb.toNat_lt
    have hmultiplier := multiplier.toNat_lt
    have hcarry : (limb.toNat * multiplier.toNat + carry) / 2 ^ 32 < 2 ^ 32 := by
      rw [Nat.div_lt_iff_lt_mul (by decide)]
      calc limb.toNat * multiplier.toNat + carry
          < (2 ^ 32 - 1) * (2 ^ 32 - 1) + 2 ^ 32 :=
            Nat.add_lt_add_of_le_of_lt (Nat.mul_le_mul (by omega) (by omega)) h
        _ ≤ 2 ^ 32 * 2 ^ 32 := by decide
    have hsplit := Nat.div_add_mod (limb.toNat * multiplier.toNat + carry) (2 ^ 32)
    rw [multiplyLoop, List.map_cons, Nat.ofDigits_cons, ih hcarry, toNat_lowLimb, List.map_cons,
      Nat.ofDigits_cons]
    linarith

@[simp] theorem toNat_multiplySmall (self : BigNat) (multiplier : UInt32) :
    (self.multiplySmall multiplier).toNat = self.toNat * multiplier.toNat :=
  multiplyLoop_value (by decide)

end BigNat

end Nocter.ConstantEvaluation

/-!
# Decimal literals

The decimal number that an unsigned spelling without its suffix stands for. Exponents
saturate at the bounds of 64 bits.
-/

namespace Nocter.ConstantEvaluation

open Syntax

inductive FloatLiteralError where
  | invalid
  | overflow
  | underflow
  deriving DecidableEq

structure Decimal where
  significand : BigNat
  significantDecimalDigits : ℤ
  exponent10 : ℤ
  deriving DecidableEq

/-- The result of a saturating operation of `i64`. -/
def saturate (value : ℤ) : ℤ := max (-9223372036854775808) (min 9223372036854775807 value)

def validDecimalGroup (text : Str) : Bool :=
  let bytes := text.bytes
  !bytes.isEmpty &&
    bytes.zipIdx.all fun (byte, index) =>
      isAsciiDigit byte ||
        (byte = 95 && 0 < index && index + 1 < bytes.length &&
          bytes[index - 1]?.any isAsciiDigit && bytes[index + 1]?.any isAsciiDigit)

/-- The number that the digits of an authored exponent stand for. -/
def exponentValue (authored digits : Str) : ℤ :=
  let negative := authored.bytes.head? = some 45
  let magnitude := (digits.bytes.filter isAsciiDigit).foldl (fun value digit =>
    saturate (saturate (value * 10) + (digit - 48).toNat)) 0
  if negative then saturate (-magnitude) else magnitude

/-- The spelling before an exponent, the exponent, and whether there is one. -/
def splitExponent (spelling : Str) : Except FloatLiteralError (Str × ℤ × Bool) :=
  match spelling.find isExponentMark with
  | none => .ok (spelling, 0, false)
  | some index =>
    if (spelling.drop (index + 1)).contains isExponentMark then .error .invalid
    else
      let authored := spelling.drop (index + 1)
      let digits := (authored.stripFirst isSign).getD authored
      if !validDecimalGroup digits then .error .invalid
      else .ok (spelling.take index, exponentValue authored digits, true)

namespace Decimal

/-- The parts of a mantissa around its decimal point. -/
def splitMantissa (mantissa : Str) : Except FloatLiteralError (Str × Option Str) :=
  match mantissa.splitOnce isDot with
  | some (whole, fraction) =>
    if !fraction.contains isDot then .ok (whole, some fraction) else .error .invalid
  | none => .ok (mantissa, none)

/-- What `parse` returns for valid groups of digits. -/
def fromGroups (whole : Str) (fraction : Option Str) (authoredExponent : ℤ) :
    Except FloatLiteralError Decimal :=
  let fractionBytes := (fraction.map (·.bytes)).getD []
  let fractionDigits := (fractionBytes.filter isAsciiDigit).length
  let digits := ((whole.bytes ++ fractionBytes).filter isAsciiDigit).map (· - 48)
  match digits.findIdx? (· ≠ 0) with
  | none => .ok ⟨BigNat.zero, 1, 0⟩
  | some firstNonzero =>
    let digits := digits.drop firstNonzero
    let trailingZeros := (digits.reverse.takeWhile (· = 0)).length
    let digits := digits.take (digits.length - trailingZeros)
    let exponent10 := saturate (saturate (authoredExponent - min 9223372036854775807 fractionDigits) +
      min 9223372036854775807 trailingZeros)
    if digits.length > 9223372036854775807 then .error .invalid
    else .ok ⟨BigNat.fromDecimalDigits digits, digits.length, exponent10⟩

def parse (spelling : Str) : Except FloatLiteralError Decimal :=
  match splitExponent spelling with
  | .error error => .error error
  | .ok (mantissa, authoredExponent, hasExponent) =>
    if !mantissa.contains isDot && !hasExponent then .error .invalid
    else
      match splitMantissa mantissa with
      | .error error => .error error
      | .ok (whole, fraction) =>
        if !validDecimalGroup whole || fraction.any (!validDecimalGroup ·) then .error .invalid
        else fromGroups whole fraction authoredExponent

end Decimal

end Nocter.ConstantEvaluation
