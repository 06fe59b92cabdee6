import Mathlib.Data.Int.Notation
import Mathlib.Data.List.DropRight
import Mathlib.Data.Nat.Notation
import Mathlib.Data.Rat.Cast.Order
import Mathlib.Tactic.NormNum
import Mathlib.Tactic.Ring
import Nocter.Library.Numeral

/-!
# Numbers of JSON texts

A number is scanned once: the token is kept as it is spelled, beside a shape with the
counts of its digits and its scale. The integers are read off the token and the shape.
-/

namespace Nocter.Json

abbrev Bytes := List UInt8

/-- A byte offset into the text of a document. -/
structure Cursor where
  text : Bytes
  byteOffset : ℕ
deriving DecidableEq

def isCharBoundary (text : Bytes) (index : ℕ) : Bool :=
  if text.length < index then false
  else if index = 0 ∨ index = text.length then true
  else (text[index]?).any fun byte => byte < 128 || byte ≥ 192

def getRange (text : Bytes) (start stop : ℕ) : Option Bytes :=
  if stop < start then none
  else if !isCharBoundary text start || !isCharBoundary text stop then none
  else some ((text.drop start).take (stop - start))

namespace Cursor

variable (cursor : Cursor)

def new (text : Bytes) : Cursor := ⟨text, 0⟩

def offset : ℕ := cursor.byteOffset

def len : ℕ := cursor.text.length

def isFinished : Bool := cursor.byteOffset = cursor.text.length

def peek : Option UInt8 :=
  if cursor.byteOffset = cursor.text.length then none else cursor.text[cursor.byteOffset]?

def nextIs (expected : UInt8) : Bool := (cursor.peek).elim false fun byte => byte = expected

def range (start stop : ℕ) : Option Bytes := getRange cursor.text start stop

end Cursor

/-- A scan may fail, and leaves the cursor where it stopped. -/
abbrev Scan := OptionT (StateM Cursor)

def advance : Scan UInt8 := do
  let cursor ← get
  let some byte := cursor.peek | failure
  set { cursor with byteOffset := cursor.byteOffset + 1 }
  return byte

structure NumberShape where
  negative : Bool
  totalDigits : ℕ
  trailingZeroes : ℕ
  scaleNegative : Bool
  scale : ℕ
deriving DecidableEq

structure Number where
  source : Bytes
  shape : NumberShape
deriving DecidableEq

structure DigitSummary where
  total : ℕ
  trailingZeroes : ℕ
deriving DecidableEq

structure Scale where
  negative : Bool
  amount : ℕ
deriving DecidableEq

def cappedScaleAdd (left right : ℕ) : ℕ :=
  if 21 ≤ left ∨ 21 ≤ right ∨ 21 - right < left then 21 else left + right

def normalizedScale (fractionDigits trailingZeroes : ℕ) (exponentNegative : Bool)
    (exponent : ℕ) : Scale :=
  if exponentNegative then
    if trailingZeroes < fractionDigits then ⟨true, 0⟩
    else
      let available := trailingZeroes - fractionDigits
      if available < exponent then ⟨true, 0⟩ else ⟨false, available - exponent⟩
  else if fractionDigits ≤ trailingZeroes then
    ⟨false, cappedScaleAdd exponent (trailingZeroes - fractionDigits)⟩
  else
    let deficit := fractionDigits - trailingZeroes
    if exponent < deficit then ⟨true, 0⟩ else ⟨false, exponent - deficit⟩

def recordDigit (digit : UInt8) (summary : DigitSummary) : DigitSummary where
  total := summary.total + 1
  trailingZeroes := if digit = 48 then summary.trailingZeroes + 1 else 0

def isDigit (byte : UInt8) : Bool := byte ≥ 48 && byte ≤ 57

/-- The loop over the digits ahead, once for each byte that may be left. -/
def digitLoop {σ : Type} (body : σ → UInt8 → σ) : ℕ → σ → Scan σ
  | 0, state => return state
  | left + 1, state => do
      match (← get).peek with
      | none => return state
      | some digit =>
          if isDigit digit then
            let consumed ← advance
            digitLoop body left (body state consumed)
          else return state

def scanDigits {σ : Type} (body : σ → UInt8 → σ) (state : σ) : Scan σ := do
  let cursor ← get
  digitLoop body (cursor.len - cursor.offset) state

def scanMinus : Scan Bool := do
  if (← get).nextIs 45 then
    let _minus ← advance
    return true
  else return false

def scanInteger (summary : DigitSummary) : Scan DigitSummary := do
  let some first := (← get).peek | failure
  if first = 48 then
    let digit ← advance
    return recordDigit digit summary
  else if first ≥ 49 && first ≤ 57 then
    scanDigits (fun summary consumed => recordDigit consumed summary) summary
  else failure

def scanFraction (summary : DigitSummary) : Scan (DigitSummary × ℕ) := do
  if (← get).nextIs 46 then
    let _point ← advance
    let some firstFraction := (← get).peek | failure
    if !isDigit firstFraction then failure
    scanDigits (fun (summary, fractionDigits) consumed =>
      (recordDigit consumed summary, fractionDigits + 1)) (summary, 0)
  else return (summary, 0)

def exponentCap (length : ℕ) : ℕ := if 21 < length then length else 21

/-- The exponent never grows above its cap, and stays there once it has reached it. -/
def pushExponent (cap exponent : ℕ) (consumed : UInt8) : ℕ :=
  let value := (consumed - 48).toNat
  if exponent ≤ (cap - value) / 10 then exponent * 10 + value else cap

def scanExponentSign : Scan Bool := do
  if (← get).nextIs 43 || (← get).nextIs 45 then
    let exponentNegative := (← get).nextIs 45
    let _sign ← advance
    return exponentNegative
  else return false

def scanExponent : Scan (Bool × ℕ) := do
  if (← get).nextIs 101 || (← get).nextIs 69 then
    let _marker ← advance
    let exponentNegative ← scanExponentSign
    let some firstExponent := (← get).peek | failure
    if !isDigit firstExponent then failure
    let exponent ← scanDigits (pushExponent (exponentCap (← get).len)) 0
    return (exponentNegative, exponent)
  else return (false, 0)

def scanNumber : Scan NumberShape := do
  let negative ← scanMinus
  let summary ← scanInteger ⟨0, 0⟩
  let (summary, fractionDigits) ← scanFraction summary
  let (exponentNegative, exponent) ← scanExponent
  if summary.trailingZeroes = summary.total then
    return ⟨negative, summary.total, summary.trailingZeroes, false, 0⟩
  let scale := normalizedScale fractionDigits summary.trailingZeroes exponentNegative exponent
  return ⟨negative, summary.total, summary.trailingZeroes, scale.negative, scale.amount⟩

structure InputFailure where
  code : String
  message : String
deriving DecidableEq

inductive Attempt (α : Type) where
  | success (value : α)
  | input (failure : InputFailure)
  | allocation
deriving DecidableEq

/-- The allocator either grants every string of a call or the call fails with its failure. -/
def invalidSyntax {α : Type} (granted : Bool) (offset : ℕ) : Attempt α :=
  if granted then
    .input ⟨"std.json.invalid_syntax", "invalid JSON syntax at byte " ++ toString offset⟩
  else .allocation

def parseNumberFromCursor (granted : Bool) (cursor : Cursor) : Attempt Number × Cursor :=
  let start := cursor.offset
  match scanNumber cursor with
  | (none, cursor) => (invalidSyntax granted cursor.offset, cursor)
  | (some shape, cursor) =>
      match cursor.range start cursor.offset with
      | none => (invalidSyntax granted cursor.offset, cursor)
      | some token => if granted then (.success ⟨token, shape⟩, cursor) else (.allocation, cursor)

def tryParseNumber (granted : Bool) (text : Bytes) : Attempt Number :=
  match parseNumberFromCursor granted (Cursor.new text) with
  | (.success value, cursor) =>
      if cursor.isFinished then .success value else invalidSyntax granted cursor.offset
  | (.input failure, _) => .input failure
  | (.allocation, _) => .allocation

/-- The loop over the bytes of the token: it takes in the digits before the trailing zeroes. -/
def retainedLoop {σ : Type} (push : σ → ℕ → Option σ) (retainedDigits : ℕ) :
    Bytes → ℕ → σ → Option σ
  | [], _, value => some value
  | byte :: rest, digitIndex, value =>
      if byte = 101 ∨ byte = 69 then some value
      else if isDigit byte then
        if digitIndex < retainedDigits then do
          retainedLoop push retainedDigits rest (digitIndex + 1)
            (← push value (byte - 48).toNat)
        else retainedLoop push retainedDigits rest (digitIndex + 1) value
      else retainedLoop push retainedDigits rest digitIndex value

def scaleLoop {σ : Type} (grow : σ → Option σ) : ℕ → σ → Option σ
  | 0, value => some value
  | scale + 1, value => do scaleLoop grow scale (← grow value)

namespace Number

variable (number : Number)

/-- The value of a token whose digits are not all zeroes, in the arithmetic of one integer type. -/
def projected {σ : Type} (push : σ → ℕ → Option σ) (grow : σ → Option σ) (zero : σ) : Option σ := do
  let retainedDigits := number.shape.totalDigits - number.shape.trailingZeroes
  let value ← retainedLoop push retainedDigits number.source 0 zero
  scaleLoop grow number.shape.scale value

def pushMagnitude (limit value digit : ℕ) : Option ℕ :=
  if (limit - digit) / 10 < value then none else some (value * 10 + digit)

def growMagnitude (limit value : ℕ) : Option ℕ :=
  if limit / 10 < value then none else some (value * 10)

def magnitude (limit : ℕ) : Option ℕ :=
  if number.shape.totalDigits = number.shape.trailingZeroes then some 0
  else if number.shape.scaleNegative then none
  else number.projected (pushMagnitude limit) (growMagnitude limit) 0

def asU64 : Option ℕ :=
  if number.shape.totalDigits = number.shape.trailingZeroes then some 0
  else if number.shape.negative then none
  else number.magnitude 18446744073709551615

/-- Signed values are built below zero, where the minimum has its place. -/
def pushNegated (value : ℤ) (digit : ℕ) : Option ℤ :=
  if value < (-9223372036854775808 + (digit : ℤ)).tdiv 10 then none
  else some (value * 10 - digit)

def growNegated (value : ℤ) : Option ℤ :=
  if value < (-9223372036854775808 : ℤ).tdiv 10 then none else some (value * 10)

def asI64 : Option ℤ :=
  if number.shape.totalDigits = number.shape.trailingZeroes then some 0
  else if number.shape.scaleNegative then none
  else do
    let value ← number.projected pushNegated growNegated 0
    if number.shape.negative then some value
    else if value = -9223372036854775808 then none
    else some (0 - value)

end Number

end Nocter.Json

/-!
# Number literals

The grammar of the numbers of JSON, and the rational number a literal denotes. Without
its trailing zeroes a literal has significant digits, and denotes an integer when these
are not shifted below the point.
-/

namespace Nocter.Json

structure ExponentLiteral where
  capital : Bool
  /-- Whether a written sign is a minus. -/
  sign : Option Bool
  digits : List (Fin 10)
  nonempty : digits ≠ []
deriving DecidableEq

structure NumberLiteral where
  negative : Bool
  integer : List (Fin 10)
  fraction : Option { digits : List (Fin 10) // digits ≠ [] }
  exponent : Option ExponentLiteral
  /-- There are no leading zeroes. -/
  canonical : integer = [0] ∨ ∃ first rest, integer = first :: rest ∧ first ≠ 0
deriving DecidableEq

def digitsOf (values : List ℕ) : List (Fin 10) := values.map (Fin.ofNat 10)

def digitByte (digit : Fin 10) : UInt8 := 48 + UInt8.ofNat digit

def digitsText (digits : List (Fin 10)) : Bytes := digits.map digitByte

def digitsValue (digits : List (Fin 10)) : ℕ := readDigits 10 0 (digits.map Fin.val)

namespace ExponentLiteral

variable (exponent : ExponentLiteral)

def negative : Bool := exponent.sign = some true

def signText : Bytes := exponent.sign.elim [] fun minus => [if minus then 45 else 43]

def text : Bytes :=
  (if exponent.capital then 69 else 101) :: (exponent.signText ++ digitsText exponent.digits)

end ExponentLiteral

namespace NumberLiteral

variable (literal : NumberLiteral)

def fractionDigits : List (Fin 10) := literal.fraction.elim [] Subtype.val

def minusText : Bytes := if literal.negative then [45] else []

def fractionText : Bytes := literal.fraction.elim [] fun digits => 46 :: digitsText digits

def exponentText : Bytes := literal.exponent.elim [] ExponentLiteral.text

def text : Bytes :=
  literal.minusText ++ (digitsText literal.integer ++ (literal.fractionText ++ literal.exponentText))

def digits : List (Fin 10) := literal.integer ++ literal.fractionDigits

def exponentNegative : Bool := literal.exponent.elim false ExponentLiteral.negative

def exponentValue : ℕ := literal.exponent.elim 0 fun exponent => digitsValue exponent.digits

def power : ℤ := if literal.exponentNegative then -literal.exponentValue else literal.exponentValue

/-- The number the literal denotes. -/
def value : ℚ := (if literal.negative then -1 else 1) * digitsValue literal.digits *
  10 ^ (literal.power - literal.fractionDigits.length)

def significant : List (Fin 10) := literal.digits.rdropWhile (· = 0)

def trailingZeroes : ℕ := (literal.digits.rtakeWhile (· = 0)).length

/-- How far the significant digits are shifted above the point. -/
def shift : ℤ := literal.power + literal.trailingZeroes - literal.fractionDigits.length

theorem digits_split : literal.digits = literal.significant ++ List.replicate literal.trailingZeroes 0 := by
  have hzeroes : literal.digits.rtakeWhile (· = 0) = List.replicate literal.trailingZeroes 0 :=
    List.eq_replicate_iff.mpr ⟨rfl, fun digit hdigit => by
      simpa using List.mem_rtakeWhile_imp hdigit⟩
  rw [← hzeroes, significant]
  exact List.rdropWhile_append_rtakeWhile.symm

theorem digitsValue_eq : digitsValue literal.digits =
    digitsValue literal.significant * 10 ^ literal.trailingZeroes := by
  have hmap : (literal.digits).map Fin.val =
      literal.significant.map Fin.val ++ List.replicate literal.trailingZeroes 0 := by
    conv_lhs => rw [literal.digits_split, List.map_append, List.map_replicate]
    rfl
  rw [digitsValue, hmap, readDigits_append, readDigits_zeroes]
  rfl

theorem significant_length : literal.significant.length = literal.digits.length - literal.trailingZeroes := by
  have hlength := congrArg List.length literal.digits_split
  rw [List.length_append, List.length_replicate] at hlength
  omega

variable {literal}

/-- The last significant digit is not a zero. -/
theorem significant_mod (h : literal.significant ≠ []) : digitsValue literal.significant % 10 ≠ 0 := by
  have hlast : literal.significant.getLast h ≠ 0 := by
    have hnot := List.rdropWhile_last_not (fun digit : Fin 10 => decide (digit = 0)) literal.digits h
    exact fun hzero => hnot (decide_eq_true hzero)
  have hsplit := List.dropLast_append_getLast h
  rw [digitsValue, ← hsplit, List.map_append, readDigits_append, List.map_singleton, readDigits,
    readDigits, Nat.mul_add_mod_self_right, Nat.mod_eq_of_lt (Fin.isLt _)]
  exact fun hzero => hlast (Fin.ext hzero)

theorem value_eq (h : literal.significant = []) : literal.value = 0 := by
  rw [value, digitsValue_eq, h]
  simp [digitsValue, readDigits]

theorem value_eq_shifted : literal.value = (if literal.negative then -1 else 1) *
    digitsValue literal.significant * 10 ^ literal.shift := by
  have hten : (10 : ℚ) ≠ 0 := by norm_num
  have hshift : literal.shift =
      (literal.trailingZeroes : ℤ) + (literal.power - literal.fractionDigits.length) := by
    rw [shift]
    ring
  rw [value, digitsValue_eq, hshift, zpow_add₀ hten, zpow_natCast]
  push_cast
  ring

end NumberLiteral

/-- A number whose last digit is not a zero, shifted by powers of ten, is an integer only when it
is not shifted below the point. -/
theorem int_eq_shifted_iff {significand : ℕ} (h : significand % 10 ≠ 0) (sign : ℤ)
    (hsign : sign = 1 ∨ sign = -1) (shift v : ℤ) : (v : ℚ) = sign * significand * 10 ^ shift ↔
      0 ≤ shift ∧ v = sign * (significand * 10 ^ shift.toNat : ℕ) := by
  rcases lt_or_ge shift 0 with hneg | hpos
  · refine ⟨fun hv => ?_, fun hv => absurd hv.1 (not_le.mpr hneg)⟩
    obtain ⟨n, hn⟩ := Int.exists_eq_neg_ofNat (le_of_lt hneg)
    have hn0 : n ≠ 0 := by
      rintro rfl
      omega
    have hten : (10 : ℚ) ^ n ≠ 0 := by positivity
    rw [hn, zpow_neg, zpow_natCast, ← div_eq_mul_inv, eq_div_iff hten] at hv
    have hint : v * 10 ^ n = sign * significand := by exact_mod_cast hv
    have hdvd : (10 : ℤ) ∣ sign * significand :=
      hint ▸ Dvd.dvd.mul_left (dvd_pow_self 10 hn0) v
    rcases hsign with rfl | rfl <;> omega
  · obtain ⟨n, rfl⟩ := Int.eq_ofNat_of_zero_le hpos
    rw [zpow_natCast, Int.toNat_natCast]
    constructor
    · intro hv
      refine ⟨hpos, ?_⟩
      push_cast
      rw [← mul_assoc]
      exact_mod_cast hv
    · rintro ⟨_, rfl⟩
      push_cast
      ring

end Nocter.Json
