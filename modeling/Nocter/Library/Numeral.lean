import Mathlib.Data.Nat.Digits.Lemmas

/-!
# Numerals

The numeral of a number in a base has its digits in reading order; zero has one
digit. Reading the digits one by one gives the number back, and what has been
read in between is never larger than it.
-/

namespace Nocter

def numeral (base n : ℕ) : List ℕ := if n = 0 then [0] else (Nat.digits base n).reverse

def readDigits (base : ℕ) : ℕ → List ℕ → ℕ
  | value, [] => value
  | value, digit :: rest => readDigits base (value * base + digit) rest

theorem readDigits_append (base value : ℕ) (digits rest : List ℕ) :
    readDigits base value (digits ++ rest) = readDigits base (readDigits base value digits) rest := by
  induction digits generalizing value with
  | nil => rfl
  | cons digit digits ih => exact ih _

theorem le_readDigits {base : ℕ} (hbase : 0 < base) (value : ℕ) (digits : List ℕ) :
    value ≤ readDigits base value digits := by
  induction digits generalizing value with
  | nil => exact Nat.le_refl _
  | cons digit digits ih =>
    calc value ≤ value * base := Nat.le_mul_of_pos_right _ hbase
      _ ≤ value * base + digit := Nat.le_add_right _ _
      _ ≤ readDigits base value (digit :: digits) := ih _

theorem readDigits_zeroes (base value count : ℕ) :
    readDigits base value (List.replicate count 0) = value * base ^ count := by
  induction count generalizing value with
  | zero => rw [List.replicate_zero, readDigits, pow_zero, Nat.mul_one]
  | succ count ih => rw [List.replicate_succ, readDigits, ih, Nat.add_zero, Nat.mul_assoc, pow_succ']

/-- Reading a digit, as long as the value stays within a limit. -/
def readWithin (base limit value digit : ℕ) : Option ℕ :=
  if value * base + digit ≤ limit then some (value * base + digit) else none

theorem foldlM_readWithin {base limit value : ℕ} (hbase : 0 < base) (digits : List ℕ)
    (hvalue : value ≤ limit) : digits.foldlM (readWithin base limit) value =
      if readDigits base value digits ≤ limit then some (readDigits base value digits) else none := by
  induction digits generalizing value with
  | nil => exact (if_pos hvalue).symm
  | cons digit digits ih =>
    rw [List.foldlM_cons, readWithin]
    by_cases hdigit : value * base + digit ≤ limit
    · rw [if_pos hdigit]
      exact ih hdigit
    · have hle := le_readDigits hbase (value * base + digit) digits
      rw [if_neg hdigit]
      exact (if_neg fun h => hdigit (hle.trans h)).symm

theorem readDigits_reverse (base : ℕ) (digits : List ℕ) :
    readDigits base 0 digits.reverse = Nat.ofDigits base digits := by
  induction digits with
  | nil => rfl
  | cons digit digits ih =>
    rw [List.reverse_cons, readDigits_append, ih, readDigits, readDigits, Nat.ofDigits_cons,
      Nat.mul_comm, Nat.add_comm]

theorem readDigits_numeral (base n : ℕ) : readDigits base 0 (numeral base n) = n := by
  unfold numeral
  split
  · next hzero => rw [readDigits, readDigits, hzero, Nat.zero_mul]
  · rw [readDigits_reverse, Nat.ofDigits_digits]

theorem lt_of_mem_numeral {base n digit : ℕ} (hbase : 1 < base) (h : digit ∈ numeral base n) :
    digit < base := by
  unfold numeral at h
  split at h
  · rw [List.mem_singleton.mp h]
    exact Nat.zero_lt_of_lt hbase
  · exact Nat.digits_lt_base hbase (List.mem_reverse.mp h)

theorem numeral_ne_nil (base n : ℕ) : numeral base n ≠ [] := by
  unfold numeral
  split
  · exact List.cons_ne_nil _ _
  · next hn => exact fun h => hn (Nat.digits_eq_nil_iff_eq_zero.mp (List.reverse_eq_nil_iff.mp h))

theorem numeral_length_le {base n width : ℕ} (hbase : 1 < base) (hwidth : 0 < width)
    (h : n < base ^ width) : (numeral base n).length ≤ width := by
  unfold numeral
  split
  · exact hwidth
  · rw [List.length_reverse]
    exact (Nat.digits_length_le_iff hbase n).mpr h

theorem numeral_of_lt {base n : ℕ} (h : n < base) : numeral base n = [n] := by
  unfold numeral
  split
  · next hzero => rw [hzero]
  · next hn => rw [Nat.digits_of_lt base n hn h, List.reverse_singleton]

/-- The last digit stands behind the numeral of what is left. -/
theorem numeral_of_le {base n : ℕ} (hbase : 1 < base) (h : base ≤ n) :
    numeral base n = numeral base (n / base) ++ [n % base] := by
  have hquotient : n / base ≠ 0 := (Nat.div_pos h (Nat.zero_lt_of_lt hbase)).ne'
  have hn : n ≠ 0 := by omega
  rw [numeral, numeral, if_neg hn, if_neg hquotient, Nat.digits_def' hbase (Nat.pos_of_ne_zero hn),
    List.reverse_cons]

end Nocter
