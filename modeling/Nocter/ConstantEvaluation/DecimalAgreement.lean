import Nocter.ConstantEvaluation.Decimal

/-!
# Two scanners of decimal literals

The lexer validates the shape of a floating-point literal and the evaluator scans its
spelling again. Both split at the exponent mark and at the point in the same places, so they
accept the same spellings.
-/

namespace Nocter.ConstantEvaluation

open Syntax

theorem validDecimalGroup_eq (text : Str) : validDecimalGroup text = validDecimalDigits text := by
  rw [validDecimalGroup, validDecimalDigits, Str.isEmpty]
  cases text.bytes with
  | nil => rfl
  | cons first rest => rfl

/-- The exponent of a spelling has the shape that both scanners ask for. -/
def validExponent (exponent : Str) : Bool :=
  !exponent.contains isExponentMark &&
    validDecimalDigits ((exponent.stripFirst isSign).getD exponent)

theorem splitExponent_ok {spelling : Str} {index : ℕ} (h : spelling.find isExponentMark = some index)
    (hvalid : validExponent (spelling.drop (index + 1)) = true) :
    ∃ value, splitExponent spelling = .ok (spelling.take index, value, true) := by
  rw [validExponent, Bool.and_eq_true, Bool.not_eq_true'] at hvalid
  have hgroup := (validDecimalGroup_eq _).trans hvalid.2
  rw [splitExponent, h]
  simp only [hvalid.1, hgroup]
  exact ⟨_, rfl⟩

theorem splitExponent_error {spelling : Str} {index : ℕ}
    (h : spelling.find isExponentMark = some index)
    (hvalid : validExponent (spelling.drop (index + 1)) = false) :
    splitExponent spelling = .error .invalid := by
  rw [validExponent, Bool.and_eq_false_iff, Bool.not_eq_false'] at hvalid
  rw [splitExponent, h]
  simp only
  by_cases hmark : (spelling.drop (index + 1)).contains isExponentMark = true
  · rw [if_pos hmark]
  · rw [if_neg hmark, validDecimalGroup_eq, hvalid.resolve_left hmark]
    rfl

section Mantissa

variable {mantissa : Str}

theorem length_splitOnce {whole fraction : Str} (h : mantissa.splitOnce isDot = some (whole, fraction)) :
    whole.bytes.length + fraction.bytes.length ≤ mantissa.bytes.length := by
  obtain ⟨index, _, heq⟩ := Option.map_eq_some_iff.mp h
  cases heq
  rw [Str.take, Str.drop, List.length_take, List.length_drop]
  omega

theorem fromGroups_ok {whole : Str} {fraction : Option Str} (exponent : ℤ)
    (h : whole.bytes.length + ((fraction.map (·.bytes)).getD []).length ≤ mantissa.bytes.length) :
    ∃ decimal, Decimal.fromGroups whole fraction exponent = .ok decimal := by
  rw [Decimal.fromGroups]
  simp only
  split
  · exact ⟨_, rfl⟩
  · next firstNonzero _ =>
    refine ⟨_, if_neg ?_⟩
    have hsize := mantissa.size
    have hdigits := List.length_filter_le isAsciiDigit
      (whole.bytes ++ (fraction.map (·.bytes)).getD [])
    rw [List.length_append] at hdigits
    simp only [List.length_take, List.length_drop, List.length_map]
    omega

/-- A mantissa of the right shape is scanned into its groups. -/
theorem parseGroups_ok (exponent : ℤ) (h : validMantissa mantissa = true) :
    ∃ whole fraction, Decimal.splitMantissa mantissa = .ok (whole, fraction) ∧
      (!validDecimalGroup whole || fraction.any (!validDecimalGroup ·)) = false ∧
      ∃ decimal, Decimal.fromGroups whole fraction exponent = .ok decimal := by
  rw [validMantissa] at h
  rw [Decimal.splitMantissa]
  cases hsplit : mantissa.splitOnce isDot with
  | none =>
    rw [hsplit] at h
    have hwhole : validDecimalDigits mantissa = true := h
    refine ⟨mantissa, none, rfl, ?_, @fromGroups_ok mantissa mantissa none exponent le_rfl⟩
    rw [validDecimalGroup_eq, hwhole]
    rfl
  | some parts =>
    obtain ⟨whole, fraction⟩ := parts
    rw [hsplit] at h
    simp only [Bool.and_eq_true] at h
    obtain ⟨⟨hdot, hwhole⟩, hfraction⟩ := h
    refine ⟨whole, some fraction, if_pos hdot, ?_, ?_⟩
    · rw [Option.any_some, validDecimalGroup_eq, validDecimalGroup_eq, hwhole, hfraction]
      rfl
    · exact @fromGroups_ok mantissa whole (some fraction) exponent (length_splitOnce hsplit)

/-- A mantissa of another shape is refused by the split or by the groups. -/
theorem parseGroups_error (h : validMantissa mantissa = false) {whole : Str} {fraction : Option Str}
    (hsplit : Decimal.splitMantissa mantissa = .ok (whole, fraction)) :
    (!validDecimalGroup whole || fraction.any (!validDecimalGroup ·)) = true := by
  rw [validMantissa] at h
  rw [Decimal.splitMantissa] at hsplit
  cases honce : mantissa.splitOnce isDot with
  | none =>
    rw [honce] at h hsplit
    have hwhole : validDecimalDigits mantissa = false := h
    cases hsplit
    rw [validDecimalGroup_eq, hwhole]
    rfl
  | some parts =>
    obtain ⟨first, second⟩ := parts
    rw [honce] at h hsplit
    simp only at h hsplit
    by_cases hdot : (!second.contains isDot) = true
    · rw [if_pos hdot] at hsplit
      cases hsplit
      rw [hdot, Bool.true_and] at h
      rw [Option.any_some, validDecimalGroup_eq, validDecimalGroup_eq, ← Bool.not_and, h]
      rfl
    · rw [if_neg hdot] at hsplit
      cases hsplit

end Mantissa

section Parts

variable {mantissa : Str}

theorem validFloatParts_iff {exponent : Option Str} : validFloatParts mantissa exponent = true ↔
      (!mantissa.contains isDot && exponent.isNone) = false ∧ validMantissa mantissa = true ∧
        ∀ found, exponent = some found →
          validDecimalDigits ((found.stripFirst isSign).getD found) = true := by
  unfold validFloatParts
  by_cases hpoint : (!mantissa.contains isDot && exponent.isNone) = true
  · simp only [hpoint]
    simp
  · by_cases hmantissa : validMantissa mantissa = true
    · cases exponent with
      | none => simp [hmantissa]
      | some found => simp [hmantissa]
    · simp [hpoint, hmantissa]

/-- What the evaluator does with a mantissa after its exponent. -/
theorem parse_of_split {spelling : Str} {value : ℤ} {hasExponent : Bool}
    (h : splitExponent spelling = .ok (mantissa, value, hasExponent)) :
    (∃ decimal, Decimal.parse spelling = .ok decimal) ↔
      (!mantissa.contains isDot && !hasExponent) = false ∧ validMantissa mantissa = true := by
  rw [Decimal.parse, h]
  simp only
  by_cases hpoint : (!mantissa.contains isDot && !hasExponent) = true
  · rw [if_pos hpoint, hpoint]
    exact ⟨fun ⟨_, heq⟩ => (by cases heq), fun ⟨heq, _⟩ => (by cases heq)⟩
  · rw [if_neg hpoint, and_iff_right (Bool.not_eq_true _ |>.mp hpoint)]
    constructor
    · rintro ⟨decimal, heq⟩
      by_contra hmantissa
      cases hsplit : Decimal.splitMantissa mantissa with
      | error error =>
        rw [hsplit] at heq
        cases heq
      | ok groups =>
        rw [hsplit] at heq
        simp only [parseGroups_error (Bool.not_eq_true _ |>.mp hmantissa) hsplit, if_true] at heq
        cases heq
    · intro hmantissa
      obtain ⟨whole, fraction, hsplit, hvalid, decimal, hdecimal⟩ := parseGroups_ok value hmantissa
      rw [hsplit]
      simp only [hvalid]
      exact ⟨decimal, hdecimal⟩

/-- A token has the shape of a floating-point literal exactly where the evaluator accepts its
spelling without the suffix. -/
theorem validFloat_iff_parse (text : Str) :
    validFloat text = true ↔
      ∃ decimal, Decimal.parse (FloatLiteralSpelling.fromAuthored text).decimal = .ok decimal := by
  rw [validFloat]
  generalize (FloatLiteralSpelling.fromAuthored text).decimal = number
  cases hfind : number.find isExponentMark with
  | none =>
    have hsplit : splitExponent number = .ok (number, 0, false) := by rw [splitExponent, hfind]
    simp only
    rw [validFloatParts_iff, parse_of_split hsplit]
    simp
  | some index =>
    by_cases hexponent : validExponent (number.drop (index + 1)) = true
    · obtain ⟨value, hsplit⟩ := splitExponent_ok hfind hexponent
      rw [validExponent, Bool.and_eq_true, Bool.not_eq_true'] at hexponent
      simp only [hexponent.1]
      rw [if_neg Bool.false_ne_true, validFloatParts_iff, parse_of_split hsplit]
      simp [hexponent.2]
    · have hsplit := splitExponent_error hfind (Bool.not_eq_true _ |>.mp hexponent)
      have hparse : Decimal.parse number = .error .invalid := by rw [Decimal.parse, hsplit]
      rw [hparse]
      simp only [reduceCtorEq, exists_false, iff_false]
      split
      · exact Bool.false_ne_true
      · next hmark =>
        rw [validFloatParts_iff]
        rintro ⟨-, -, hdigits⟩
        refine hexponent ?_
        rw [validExponent, hdigits _ rfl, Bool.not_eq_true _ |>.mp hmark]
        rfl

end Parts

end Nocter.ConstantEvaluation
