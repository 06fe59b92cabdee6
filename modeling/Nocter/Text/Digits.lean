import Nocter.Library.Numeral
import Nocter.Library.Outcome
import Nocter.Library.Word

/-!
# Digits in ASCII text

The decimal and hexadecimal numerals of a number as bytes, and the number that the bytes of a
numeral denote.
-/

namespace Nocter.Text

open Outcome

def isAsciiDigit (byte : UInt8) : Bool := 48 ≤ byte && byte ≤ 57

def decimal (digits : List UInt8) : ℕ := readDigits 10 0 (digits.map fun byte => byte.toNat - 48)

def decimalText (n : ℕ) : List UInt8 := (numeral 10 n).map fun digit => UInt8.ofNat (digit + 48)

theorem isAsciiDigit_iff {byte : UInt8} :
    isAsciiDigit byte = true ↔ 48 ≤ byte.toNat ∧ byte.toNat ≤ 57 := by
  rw [isAsciiDigit, Bool.and_eq_true, decide_eq_true_iff, decide_eq_true_iff, UInt8.le_iff_toNat_le,
    UInt8.le_iff_toNat_le]
  rfl

theorem toNat_digit {digit : ℕ} (h : digit < 10) : (UInt8.ofNat (digit + 48)).toNat = digit + 48 :=
  UInt8.toNat_ofNat_of_lt' (by change digit + 48 < 256; omega)

theorem isAsciiDigit_decimalText (n : ℕ) : ∀ byte ∈ decimalText n, isAsciiDigit byte = true := by
  intro byte hbyte
  obtain ⟨digit, hdigit, rfl⟩ := List.mem_map.mp hbyte
  have hlt := lt_of_mem_numeral (by decide) hdigit
  rw [isAsciiDigit_iff, toNat_digit hlt]
  omega

theorem decimal_decimalText (n : ℕ) : decimal (decimalText n) = n := by
  have hdigits : (decimalText n).map (fun byte => byte.toNat - 48) = numeral 10 n := by
    rw [decimalText, List.map_map]
    conv_rhs => rw [← List.map_id (numeral 10 n)]
    refine List.map_congr_left fun digit hdigit => ?_
    have hlt := lt_of_mem_numeral (by decide) hdigit
    rw [Function.comp_apply, toNat_digit hlt, Nat.add_sub_cancel, id_eq]
  rw [decimal, hdigits, readDigits_numeral]

theorem decimal_concat (digits : List UInt8) (byte : UInt8) :
    decimal (digits ++ [byte]) = decimal digits * 10 + (byte.toNat - 48) := by
  rw [decimal, List.map_append, readDigits_append]
  rfl

theorem decimal_le_append (digits more : List UInt8) : decimal digits ≤ decimal (digits ++ more) := by
  rw [decimal, decimal, List.map_append, readDigits_append]
  exact le_readDigits (by decide) _ _

/-- The loop of `parse_unsigned_decimal`. -/
def unsignedDecimalFrom (raw : List UInt8) (offset parsed : ℕ) : Outcome ℕ :=
  if offset < raw.length then do
    let byte ← read raw offset
    if byte < 48 ∨ 57 < byte then absent
    else
      let digit := byte.toNat - 48
      if (u64Max - digit) / 10 < parsed then absent
      else do
        let parsed ← bounded u64Max (parsed * 10 + digit)
        unsignedDecimalFrom raw (offset + 1) parsed
  else value parsed
termination_by raw.length - offset

def parseUnsignedDecimal (text : List UInt8) : Outcome ℕ :=
  if text.length = 0 then absent else unsignedDecimalFrom text 0 0

/-- `u16.parse`. -/
def u16Parse (text : List UInt8) : Outcome UInt16 := do
  let parsed ← parseUnsignedDecimal text
  if 65535 < parsed then absent else return UInt16.ofNat parsed

/-- A decimal number without a sign. -/
def UnsignedText (text : List UInt8) (number : ℕ) : Prop :=
  text ≠ [] ∧ (∀ byte ∈ text, isAsciiDigit byte = true) ∧ decimal text = number

theorem unsignedDecimalFrom_decides (before rest : List UInt8) (hbefore : decimal before ≤ u64Max) :
    Decides (unsignedDecimalFrom (before ++ rest) before.length (decimal before)) fun number =>
      (∀ byte ∈ rest, isAsciiDigit byte = true) ∧ decimal (before ++ rest) ≤ u64Max ∧
        number = decimal (before ++ rest) := by
  induction rest generalizing before with
  | nil =>
    rw [List.append_nil, unsignedDecimalFrom, if_neg (Nat.lt_irrefl _)]
    refine (decides_value _).congr fun number => ?_
    exact ⟨fun h => ⟨fun _ h => absurd h List.not_mem_nil, hbefore, h⟩, fun h => h.2.2⟩
  | cons byte rest ih =>
    have hread : read (before ++ byte :: rest) before.length = value byte := by
      refine read_eq_value ?_
      rw [List.getElem?_append_right le_rfl, Nat.sub_self]
      rfl
    have hconcat : before ++ byte :: rest = (before ++ [byte]) ++ rest := by simp
    have hrest := decimal_le_append (before ++ [byte]) rest
    rw [decimal_concat] at hrest
    have hlength : before.length + 1 = (before ++ [byte]).length := by simp
    rw [unsignedDecimalFrom, if_pos (by rw [List.length_append, List.length_cons]; omega), hread,
      value_bind]
    by_cases hdigit : isAsciiDigit byte = true
    swap
    · have hrange : byte < 48 ∨ 57 < byte := by
        rw [isAsciiDigit_iff] at hdigit
        rw [UInt8.lt_iff_toNat_lt, UInt8.lt_iff_toNat_lt]
        change byte.toNat < 48 ∨ 57 < byte.toNat
        omega
      rw [if_pos hrange]
      exact decides_absent fun _ h => hdigit (h.1 byte List.mem_cons_self)
    have hrange : ¬(byte < 48 ∨ 57 < byte) := by
      rw [isAsciiDigit_iff] at hdigit
      rw [UInt8.lt_iff_toNat_lt, UInt8.lt_iff_toNat_lt]
      change ¬(byte.toNat < 48 ∨ 57 < byte.toNat)
      omega
    have hvalue := (isAsciiDigit_iff.mp hdigit).2
    rw [if_neg hrange]
    dsimp only
    have hmax : 9 ≤ u64Max := by decide +kernel
    by_cases hlarge : (u64Max - (byte.toNat - 48)) / 10 < decimal before
    · rw [if_pos hlarge]
      refine decides_absent fun _ h => ?_
      rw [hconcat] at h
      omega
    · rw [if_neg hlarge, bounded_eq_value (by omega), value_bind, hconcat, ← decimal_concat, hlength]
      refine (ih (before ++ [byte]) (by rw [decimal_concat]; omega)).congr fun number => ?_
      rw [List.forall_mem_cons]
      exact ⟨fun h => ⟨⟨hdigit, h.1⟩, h.2⟩, fun h => ⟨h.1.2, h.2⟩⟩

theorem parseUnsignedDecimal_decides (text : List UInt8) :
    Decides (parseUnsignedDecimal text) fun number => UnsignedText text number ∧ number ≤ u64Max := by
  unfold parseUnsignedDecimal
  by_cases hempty : text = []
  · rw [if_pos (by rw [hempty]; rfl)]
    exact decides_absent fun _ h => h.1.1 hempty
  · rw [if_neg fun h => hempty (List.length_eq_zero_iff.mp h)]
    refine (unsignedDecimalFrom_decides [] text (Nat.zero_le _)).congr fun number => ?_
    rw [List.nil_append]
    constructor
    · rintro ⟨hdigits, hmax, rfl⟩
      exact ⟨⟨hempty, hdigits, rfl⟩, hmax⟩
    · rintro ⟨⟨-, hdigits, rfl⟩, hmax⟩
      exact ⟨hdigits, hmax, rfl⟩

theorem u16Parse_decides (text : List UInt8) :
    Decides (u16Parse text) fun port => UnsignedText text port.toNat := by
  refine ((parseUnsignedDecimal_decides text).bind (Q := fun number port => number = port.toNat) ?_).congr ?_
  · rintro number ⟨-, -⟩
    by_cases hlarge : 65535 < number
    · rw [if_pos hlarge]
      refine decides_absent fun port h => ?_
      have := port.toNat_lt
      omega
    · rw [if_neg hlarge]
      refine (decides_value _).congr fun port => ?_
      rw [← UInt16.toNat_inj, UInt16.toNat_ofNat_of_lt' (by change number < 65536; omega)]
      exact eq_comm
  · intro port
    have hmax : 65535 ≤ u64Max := by decide +kernel
    have := port.toNat_lt
    constructor
    · rintro ⟨number, ⟨hnumber, -⟩, rfl⟩
      exact hnumber
    · exact fun h => ⟨port.toNat, ⟨h, by omega⟩, rfl⟩

def tryFormatDigit (value : ℕ) : List UInt8 := [if value < 9 then UInt8.ofNat (value + 48) else 57]

/-- `try_format_unsigned` behind what the output holds. -/
def tryFormatUnsigned (output : List UInt8) (number : ℕ) : List UInt8 :=
  if 10 ≤ number then tryFormatUnsigned output (number / 10) ++ tryFormatDigit (number % 10)
  else output ++ tryFormatDigit (number % 10)
termination_by number

theorem tryFormatDigit_eq {digit : ℕ} (h : digit < 10) :
    tryFormatDigit digit = [UInt8.ofNat (digit + 48)] := by
  rw [tryFormatDigit]
  split
  · rfl
  · obtain rfl : digit = 9 := by omega
    rfl

theorem tryFormatUnsigned_eq (output : List UInt8) (number : ℕ) :
    tryFormatUnsigned output number = output ++ decimalText number := by
  induction number using Nat.strongRecOn with
  | ind number ih =>
    rw [tryFormatUnsigned, tryFormatDigit_eq (Nat.mod_lt number (by decide))]
    by_cases h : 10 ≤ number
    · rw [if_pos h, ih (number / 10) (by omega), decimalText, decimalText, numeral_of_le (by decide) h,
        List.map_append, List.append_assoc]
      rfl
    · rw [if_neg h, decimalText, numeral_of_lt (Nat.not_le.mp h), Nat.mod_eq_of_lt (Nat.not_le.mp h)]
      rfl

/-- No text of a number is shorter than the one that is written for it. -/
theorem UnsignedText.length_le {text : List UInt8} {number : ℕ} (h : UnsignedText text number) :
    (decimalText number).length ≤ text.length := by
  obtain ⟨hne, hdigits, rfl⟩ := h
  rw [decimalText, List.length_map]
  refine numeral_length_le (by decide) (List.length_pos_of_ne_nil hne) ?_
  have hlt : ∀ digit ∈ (text.map fun byte => byte.toNat - 48).reverse, digit < 10 := by
    intro digit hdigit
    obtain ⟨byte, hbyte, rfl⟩ := List.mem_map.mp (List.mem_reverse.mp hdigit)
    have := isAsciiDigit_iff.mp (hdigits byte hbyte)
    omega
  have hvalue := Nat.ofDigits_lt_base_pow_length (by decide) hlt
  rwa [← readDigits_reverse, List.reverse_reverse, List.length_reverse, List.length_map] at hvalue

end Nocter.Text
