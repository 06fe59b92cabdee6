import Nocter.Syntax.Str

/-!
# Floating-point literals

The shape of a decimal token, as the lexer validates it: a mantissa of one or two groups of
digits and an exponent, at least one of which makes the token a floating-point one. Between
two digits of a group one underscore may stand.
-/

namespace Nocter.Syntax

inductive FloatLiteralSuffix where
  | f32
  | f64
  deriving DecidableEq

structure FloatLiteralSpelling where
  decimal : Str
  suffix : Option FloatLiteralSuffix
  deriving DecidableEq

/-- `from_authored`; the suffixes are `f32` and `f64`. -/
def FloatLiteralSpelling.fromAuthored (authored : Str) : FloatLiteralSpelling :=
  match authored.stripSuffix [102, 51, 50] with
  | some decimal => ⟨decimal, some .f32⟩
  | none =>
    match authored.stripSuffix [102, 54, 52] with
    | some decimal => ⟨decimal, some .f64⟩
    | none => ⟨authored, none⟩

/-- The bytes `e` and `E`. -/
def isExponentMark (byte : UInt8) : Bool := byte = 101 || byte = 69

def isDot (byte : UInt8) : Bool := byte = 46

/-- The bytes `+` and `-`. -/
def isSign (byte : UInt8) : Bool := byte = 43 || byte = 45

def validDecimalDigits (text : Str) : Bool :=
  if text.isEmpty then false
  else
    let bytes := text.bytes
    bytes.zipIdx.all fun (byte, index) =>
      isAsciiDigit byte ||
        (byte = 95 && 0 < index && index + 1 < bytes.length &&
          bytes[index - 1]?.any isAsciiDigit && bytes[index + 1]?.any isAsciiDigit)

/-- The mantissa of `valid_float`. -/
def validMantissa (mantissa : Str) : Bool :=
  match mantissa.splitOnce isDot with
  | some (whole, fraction) =>
    !fraction.contains isDot && validDecimalDigits whole && validDecimalDigits fraction
  | none => validDecimalDigits mantissa

/-- What `valid_float` asks of a mantissa and an exponent. -/
def validFloatParts (mantissa : Str) (exponent : Option Str) : Bool :=
  let hasDecimalPoint := mantissa.contains isDot
  if !hasDecimalPoint && exponent.isNone then false
  else if !validMantissa mantissa then false
  else
    match exponent with
    | none => true
    | some exponent => validDecimalDigits ((exponent.stripFirst isSign).getD exponent)

def validFloat (text : Str) : Bool :=
  let number := (FloatLiteralSpelling.fromAuthored text).decimal
  match number.find isExponentMark with
  | some index =>
    if (number.drop (index + 1)).contains isExponentMark then false
    else validFloatParts (number.take index) (some (number.drop (index + 1)))
  | none => validFloatParts number none

end Nocter.Syntax
