import Nocter.Library.TwosComplement
import Nocter.Model.TypeKind

/-!
# Trap checks of integer operations

The checker bounds the operands of an operation by ranges and decides from the ends of these
whether the operation always traps, never traps or has to be checked when it runs.
-/

namespace Nocter.Checking

open TwosComplement
open Model (BuiltinType)

inductive ArithmeticTrapCheck where
  | notRequired
  | required
  | provenSafe
  | provenTrap
  deriving DecidableEq

inductive PrimitiveBinary where
  | add
  | subtract
  | multiply
  | divide
  | remainder
  | shiftLeft
  | shiftRightSigned
  | shiftRightUnsigned
  deriving DecidableEq

structure IntegerRange where
  lowerInclusive : Option ℤ
  upperExclusive : Option ℤ
  deriving DecidableEq

structure IntegerDomain where
  minimum : ℤ
  maximum : ℤ
  bits : ℕ
  signed : Bool

def integerDomain (builtin : BuiltinType) : Option IntegerDomain := do
  let (bits, signed) ← match builtin with
    | .i8 => some (8, true)
    | .i16 => some (16, true)
    | .i32 => some (32, true)
    | .i64 | .isize => some (64, true)
    | .u8 => some (8, false)
    | .u16 => some (16, false)
    | .u32 => some (32, false)
    | .u64 | .usize => some (64, false)
    | _ => none
  let (minimum, maximum) : ℤ × ℤ :=
    if signed then
      let magnitude := 2 ^ (bits - 1)
      (-magnitude, magnitude - 1)
    else (0, 2 ^ bits - 1)
  some ⟨minimum, maximum, bits, signed⟩

/-- An integer where it fits the type that bounds are computed in. -/
def bound (v : ℤ) : Option ℤ := checked 128 true v

/-- What the checker knows of an operand: its value, a value whose range is tracked, or only
the type. -/
inductive Operand where
  | constant (value : ℤ)
  | tracked (flow : IntegerRange)
  | unknown

def arithmeticRange (minimum maximum : ℤ) : Operand → IntegerRange
  | .constant value => ⟨some value, bound (value + 1)⟩
  | .unknown => ⟨some minimum, bound (maximum + 1)⟩
  | .tracked flow =>
    ⟨some (max (flow.lowerInclusive.getD minimum) minimum),
      some (min (flow.upperExclusive.getD (maximum + 1)) (maximum + 1))⟩

/-- The least and the greatest result at the ends of the ranges, where they can be computed. -/
def extrema (operation : PrimitiveBinary) (leftMin leftMax rightMin rightMax : ℤ) :
    Option (ℤ × ℤ) :=
  match operation with
  | .add => do
    let low ← bound (leftMin + rightMin)
    let high ← bound (leftMax + rightMax)
    some (low, high)
  | .subtract => do
    let low ← bound (leftMin - rightMax)
    let high ← bound (leftMax - rightMin)
    some (low, high)
  | .multiply => do
    let first ← bound (leftMin * rightMin)
    let second ← bound (leftMin * rightMax)
    let third ← bound (leftMax * rightMin)
    let fourth ← bound (leftMax * rightMax)
    some (min (min (min first second) third) fourth, max (max (max first second) third) fourth)
  | _ => none

def arithmeticResultCheck (operation : PrimitiveBinary) (left right : IntegerRange)
    (minimum maximum : ℤ) : ArithmeticTrapCheck :=
  match left.lowerInclusive, left.upperExclusive, right.lowerInclusive, right.upperExclusive with
  | some leftMin, some leftEnd, some rightMin, some rightEnd =>
    match extrema operation leftMin (leftEnd - 1) rightMin (rightEnd - 1) with
    | none => .required
    | some (low, high) =>
      if low ≥ minimum ∧ high ≤ maximum then .provenSafe
      else if high < minimum ∨ low > maximum then .provenTrap
      else .required
  | _, _, _, _ => .required

def excludesValue (range : IntegerRange) (value : ℤ) : Bool :=
  range.upperExclusive.any (· ≤ value) || range.lowerInclusive.any (· > value)

def divisionCheck (left right : IntegerRange) (minimum : ℤ) (signed : Bool) : ArithmeticTrapCheck :=
  let excludesZero := excludesValue right 0
  let excludesMinusOne := !signed || excludesValue right (-1)
  let leftExcludesMinimum := !signed || left.lowerInclusive.any (· > minimum) ||
    left.upperExclusive.any (· ≤ minimum)
  if excludesZero && (excludesMinusOne || leftExcludesMinimum) then .provenSafe
  else if (right.lowerInclusive = some 0 ∧ right.upperExclusive = some 1) ∨
      (signed ∧ left.lowerInclusive = some minimum ∧ left.upperExclusive = bound (minimum + 1) ∧
        right.lowerInclusive = some (-1) ∧ right.upperExclusive = some 0) then .provenTrap
  else .required

def shiftCheck (count : IntegerRange) (bits : ℕ) : ArithmeticTrapCheck :=
  if count.lowerInclusive.any (· ≥ 0) && count.upperExclusive.any (· ≤ (bits : ℤ)) then .provenSafe
  else if count.upperExclusive.any (· ≤ 0) || count.lowerInclusive.any (· ≥ (bits : ℤ)) then
    .provenTrap
  else .required

def negationCheck (operand : Operand) (builtin : BuiltinType) : ArithmeticTrapCheck :=
  match (integerDomain builtin).filter IntegerDomain.signed with
  | none => .notRequired
  | some domain =>
    let range := arithmeticRange domain.minimum domain.maximum operand
    if range.lowerInclusive = some domain.minimum ∧
        range.upperExclusive = bound (domain.minimum + 1) then .provenTrap
    else if range.lowerInclusive.any (· > domain.minimum) then .provenSafe
    else .required

def arithmeticCheck (operation : PrimitiveBinary) (left right : Operand) (builtin : BuiltinType) :
    ArithmeticTrapCheck :=
  match integerDomain builtin with
  | none => .notRequired
  | some domain =>
    let left := arithmeticRange domain.minimum domain.maximum left
    let right := arithmeticRange domain.minimum domain.maximum right
    match operation with
    | .add | .subtract | .multiply =>
      arithmeticResultCheck operation left right domain.minimum domain.maximum
    | .divide | .remainder => divisionCheck left right domain.minimum domain.signed
    | .shiftLeft | .shiftRightSigned | .shiftRightUnsigned => shiftCheck right domain.bits

end Nocter.Checking
