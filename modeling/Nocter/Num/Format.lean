import Nocter.Num.Integers

/-!
# Integers as decimal text

What `std/fmt` writes for an integer. The least signed word has its own text, since its magnitude
does not fit.
-/

namespace Nocter.Num

open TwosComplement Outcome

def tryFormatSignedDigit (value : ℤ) : Bytes :=
  [if 0 ≤ value ∧ value < 9 then UInt8.ofNat (value.toNat + 48) else 57]

/-- `try_format_signed_magnitude` behind what the output holds. -/
def tryFormatSignedMagnitude (output : Bytes) (value : ℤ) : Bytes :=
  if 10 ≤ value then
    tryFormatSignedMagnitude output (value.tdiv 10) ++ tryFormatSignedDigit (value.tmod 10)
  else output ++ tryFormatSignedDigit (value.tmod 10)
termination_by value.toNat
decreasing_by rw [Int.tdiv_eq_ediv_of_nonneg (by omega)]; omega

def tryFormatSigned (output : Bytes) (value : ℤ) : Outcome Bytes :=
  if value = -9223372036854775808 then
    return output ++
      [45, 57, 50, 50, 51, 51, 55, 50, 48, 51, 54, 56, 53, 52, 55, 55, 53, 56, 48, 56]
  else if value < 0 then do
    let magnitude ← signedBounded (0 - value)
    return tryFormatSignedMagnitude (output ++ [45]) magnitude
  else return tryFormatSignedMagnitude output value

/-- `try_format_into`. -/
def IntegerType.tryFormatInto : (ty : IntegerType) → Bytes → BitVec ty.bits → Outcome Bytes
  | i8, output, self | i16, output, self | i32, output, self | i64, output, self
  | isize, output, self => tryFormatSigned output self.toInt
  | u8, output, self | u16, output, self | u32, output, self | u64, output, self
  | usize, output, self => return Text.tryFormatUnsigned output self.toNat

/-- The text of an integer without needless digits. -/
def spelling (number : ℤ) : Bytes :=
  if number < 0 then 45 :: Text.decimalText number.natAbs else Text.decimalText number.natAbs

theorem tryFormatSignedMagnitude_eq (output : Bytes) (n : ℕ) :
    tryFormatSignedMagnitude output n = output ++ Text.decimalText n := by
  rw [← Text.tryFormatUnsigned_eq]
  induction n using Nat.strongRecOn with
  | ind n ih =>
    have hquotient : (n : ℤ).tdiv 10 = (n / 10 : ℕ) := (Int.ofNat_tdiv n 10).symm
    have hrest : (n : ℤ).tmod 10 = (n % 10 : ℕ) := (Int.ofNat_tmod n 10).symm
    have hdigit : tryFormatSignedDigit (n % 10 : ℕ) = Text.tryFormatDigit (n % 10) := by
      rw [tryFormatSignedDigit, Text.tryFormatDigit, Int.toNat_natCast]
      congr 2
      exact propext (by omega)
    rw [tryFormatSignedMagnitude, Text.tryFormatUnsigned, hquotient, hrest, hdigit]
    by_cases h : 10 ≤ n
    · rw [if_pos h, if_pos (by omega), ih (n / 10) (by omega)]
    · rw [if_neg h, if_neg (by omega)]

theorem tryFormatSigned_eq (output : Bytes) {number : ℤ} (h : InRange 64 true number) :
    tryFormatSigned output number = .value (output ++ spelling number) := by
  rw [inRange_signed] at h
  rw [tryFormatSigned]
  by_cases hleast : number = -9223372036854775808
  · have hleastText : spelling (-9223372036854775808) =
        [45, 57, 50, 50, 51, 51, 55, 50, 48, 51, 54, 56, 53, 52, 55, 55, 53, 56, 48, 56] := by
      decide +kernel
    rw [if_pos hleast, hleast, hleastText]
    rfl
  · rw [if_neg hleast, spelling]
    by_cases hnegative : number < 0
    · have hmagnitude : 0 - number = (number.natAbs : ℕ) := by omega
      rw [if_pos hnegative, if_pos hnegative, signedBounded_eq_value (inRange_signed.mpr (by omega)),
        value_bind, hmagnitude, tryFormatSignedMagnitude_eq, List.append_assoc]
      rfl
    · have hmagnitude : number = (number.natAbs : ℕ) := by omega
      rw [if_neg hnegative, if_neg hnegative, hmagnitude, tryFormatSignedMagnitude_eq, Int.natAbs_natCast]
      rfl

theorem unsignedText_decimalText (n : ℕ) : Text.UnsignedText (Text.decimalText n) n :=
  ⟨fun hnil => numeral_ne_nil 10 n (List.map_eq_nil_iff.mp hnil), Text.isAsciiDigit_decimalText n,
    Text.decimal_decimalText n⟩

theorem spelling_text {signed : Bool} {number : ℤ} (h : signed = true ∨ 0 ≤ number) :
    IntegerText signed (spelling number) number := by
  have htext := unsignedText_decimalText number.natAbs
  rw [spelling]
  by_cases hnegative : number < 0
  · rw [if_pos hnegative]
    exact Or.inr ⟨h.resolve_right (by omega), _, _, rfl, htext, by omega⟩
  · rw [if_neg hnegative]
    exact Or.inl ⟨_, htext, by omega⟩

theorem spelling_length_le {signed : Bool} {number : ℤ} {text : Bytes}
    (h : IntegerText signed text number) : (spelling number).length ≤ text.length := by
  rw [spelling]
  rcases h with ⟨magnitude, htext, rfl⟩ | ⟨-, digits, magnitude, rfl, htext, rfl⟩
  · rw [if_neg (by omega), Int.natAbs_natCast]
    exact htext.length_le
  · rw [Int.natAbs_neg, Int.natAbs_natCast]
    have hlength := htext.length_le
    split <;> simp only [List.length_cons] <;> omega

theorem tryFormatInto_eq (ty : IntegerType) (output : Bytes) (number : BitVec ty.bits) :
    ty.tryFormatInto output number = .value (output ++ spelling (TwosComplement.value ty.signed number)) := by
  cases ty with
  | i8 | i16 | i32 | i64 | isize =>
    exact tryFormatSigned_eq output (InRange.mono (value_inRange true number) (by decide))
  | u8 | u16 | u32 | u64 | usize =>
    exact congrArg Outcome.value (Text.tryFormatUnsigned_eq output _)

/-- A type reads back what is written for its integers, which is the shortest text of each. -/
theorem formatted_integer_parses (ty : IntegerType) (output : Bytes) (number : BitVec ty.bits) :
    ∃ text, ty.tryFormatInto output number = .value (output ++ text) ∧ ty.parse text = .value number ∧
      ∀ other, ty.parse other = .value number → text.length ≤ other.length := by
  have hparse := fun text => (parse_decides ty text).2 number
  refine ⟨_, tryFormatInto_eq ty output number, (hparse _).mpr (spelling_text ?_), fun other hother =>
    spelling_length_le ((hparse other).mp hother)⟩
  cases ty with
  | i8 | i16 | i32 | i64 | isize => exact Or.inl rfl
  | u8 | u16 | u32 | u64 | usize => exact Or.inr (Int.natCast_nonneg _)

end Nocter.Num
