import Nocter.Json.NumberProjection

/-!
# When the projections are exact

The scale of a shape is the shift of its literal, except where the exponent was cut under
a fraction. There the digits are shifted by too little, and a projection gives a number
that the literal does not denote.
-/

namespace Nocter.Json

namespace NumberLiteral

variable (literal : NumberLiteral)

/-- The scale of a literal in a text of so many bytes. -/
def scale (length : ℕ) : Scale :=
  normalizedScale literal.fractionDigits.length literal.trailingZeroes literal.exponentNegative
    (min (exponentCap length) literal.exponentValue)

/-- The exponent is cut although it has fraction digits to cancel. -/
structure Cut (length : ℕ) : Prop where
  positive : literal.exponentNegative = false
  beyond : exponentCap length < literal.exponentValue
  fraction : literal.trailingZeroes < literal.fractionDigits.length

/-- A cut exponent leaves a number within the limit. -/
structure Miscapped (length limit : ℕ) : Prop where
  significant : literal.significant ≠ []
  cut : literal.Cut length
  inRange : literal.scaled (exponentCap length -
    (literal.fractionDigits.length - literal.trailingZeroes)) ≤ limit

variable {literal} {length limit : ℕ}

theorem counts_le (h : literal.significant ≠ []) (hlength : literal.digits.length ≤ length) :
    literal.trailingZeroes < exponentCap length ∧
      literal.fractionDigits.length ≤ exponentCap length ∧ 21 ≤ exponentCap length := by
  have hzeroes : literal.trailingZeroes < literal.digits.length := by
    have hsplit := congrArg List.length literal.digits_split
    have hpos := List.length_pos_iff.mpr h
    rw [List.length_append, List.length_replicate] at hsplit
    omega
  have hfraction : literal.fractionDigits.length ≤ literal.digits.length := by
    rw [digits, List.length_append]
    exact Nat.le_add_left _ _
  have hcap : length ≤ exponentCap length ∧ 21 ≤ exponentCap length := by
    unfold exponentCap
    split_ifs <;> omega
  omega

theorem scale_of_not_cut (hne : literal.significant ≠ []) (hlength : literal.digits.length ≤ length)
    (h : ¬literal.Cut length) : ((literal.scale length).negative = true ∧ literal.shift < 0) ∨
      (literal.scale length).negative = false ∧ 0 ≤ literal.shift ∧
        ((literal.scale length).amount = literal.shift.toNat ∨
          21 ≤ (literal.scale length).amount ∧ 21 ≤ literal.shift.toNat) := by
  obtain ⟨hzeroes, hfraction, hcap⟩ := counts_le hne hlength
  have hnot : literal.exponentNegative = false → ¬(exponentCap length < literal.exponentValue ∧
      literal.trailingZeroes < literal.fractionDigits.length) :=
    fun hpositive hcut => h ⟨hpositive, hcut.1, hcut.2⟩
  unfold scale normalizedScale shift power cappedScaleAdd
  generalize literal.exponentNegative = negative at *
  cases negative with
  | true =>
    simp only [if_true]
    split_ifs
    · exact Or.inl ⟨rfl, by omega⟩
    · exact Or.inl ⟨rfl, by omega⟩
    · exact Or.inr ⟨rfl, by omega, Or.inl (by dsimp only; omega)⟩
  | false =>
    have hnot := hnot rfl
    simp only [Bool.false_eq_true, if_false]
    split_ifs
    · exact Or.inr ⟨rfl, by omega, Or.inr ⟨le_rfl, by omega⟩⟩
    · exact Or.inr ⟨rfl, by omega, Or.inl (by dsimp only; omega)⟩
    · exact Or.inl ⟨rfl, by omega⟩
    · exact Or.inr ⟨rfl, by omega, Or.inl (by dsimp only; omega)⟩

theorem scale_of_cut (hne : literal.significant ≠ []) (hlength : literal.digits.length ≤ length)
    (h : literal.Cut length) :
    literal.scale length = ⟨false, exponentCap length -
        (literal.fractionDigits.length - literal.trailingZeroes)⟩ ∧
      0 ≤ literal.shift ∧ exponentCap length -
        (literal.fractionDigits.length - literal.trailingZeroes) < literal.shift.toNat := by
  obtain ⟨hzeroes, hfraction, hcap⟩ := counts_le hne hlength
  obtain ⟨hpositive, hbeyond, hlt⟩ := h
  unfold scale normalizedScale shift power
  rw [hpositive, Nat.min_eq_left hbeyond.le]
  simp only [Bool.false_eq_true, if_false]
  rw [if_neg (by omega), if_neg (by omega)]
  exact ⟨rfl, by omega, by omega⟩

theorem significant_pos (h : literal.significant ≠ []) : 0 < digitsValue literal.significant :=
  Nat.pos_of_ne_zero fun hzero => significant_mod h (by rw [hzero])

theorem scaled_lt_scaled (h : literal.significant ≠ []) {a b : ℕ} (hlt : a < b) :
    literal.scaled a < literal.scaled b :=
  (Nat.mul_lt_mul_left (significant_pos h)).mpr (Nat.pow_lt_pow_right (by decide) hlt)

theorem lt_scaled (h : literal.significant ≠ []) (hlimit : limit < 10 ^ 21) {a : ℕ} (ha : 21 ≤ a) :
    limit < literal.scaled a :=
  calc limit < 10 ^ 21 := hlimit
    _ ≤ 10 ^ a := Nat.pow_le_pow_right (by decide) ha
    _ ≤ literal.scaled a := Nat.le_mul_of_pos_left _ (significant_pos h)

/-- The magnitude a shape gives within a limit. -/
def readScaled (literal : NumberLiteral) (scale : Scale) (limit : ℕ) : Option ℕ :=
  if scale.negative then none
  else if literal.scaled scale.amount ≤ limit then some (literal.scaled scale.amount) else none

/-- The magnitude is that of the denoted integer exactly when the cap does no harm. -/
theorem readScaled_iff (h : literal.significant ≠ []) (hlength : literal.digits.length ≤ length)
    (hlimit : limit < 10 ^ 21) :
    (∀ m, literal.readScaled (literal.scale length) limit = some m ↔
      0 ≤ literal.shift ∧ m = literal.scaled literal.shift.toNat ∧ m ≤ limit) ↔
    ¬literal.Miscapped length limit := by
  constructor
  · rintro hread ⟨_, hcut, hrange⟩
    obtain ⟨hscale, _, hlt⟩ := scale_of_cut h hlength hcut
    have hsome := (hread (literal.scaled _)).mp (by
      rw [hscale, readScaled, if_neg Bool.false_ne_true, if_pos hrange])
    exact absurd hsome.2.1 (scaled_lt_scaled h hlt).ne
  · intro hnot m
    by_cases hcut : literal.Cut length
    · obtain ⟨hscale, _, hlt⟩ := scale_of_cut h hlength hcut
      have hlarge := lt_of_not_ge fun hrange => hnot ⟨h, hcut, hrange⟩
      rw [hscale, readScaled, if_neg Bool.false_ne_true, if_neg (not_le.mpr hlarge)]
      refine ⟨nofun, ?_⟩
      rintro ⟨_, rfl, hle⟩
      exact absurd (hle.trans_lt (hlarge.trans (scaled_lt_scaled h hlt))) (lt_irrefl _)
    · rcases scale_of_not_cut h hlength hcut with ⟨hnegative, hshift⟩ | ⟨hnegative, hshift, hamount⟩
      · rw [readScaled, if_pos hnegative]
        exact ⟨nofun, fun hm => absurd hm.1 (not_le.mpr hshift)⟩
      · rw [readScaled, hnegative, if_neg Bool.false_ne_true]
        rcases hamount with hamount | ⟨hamount, hlarge⟩
        · rw [hamount]
          by_cases hle : literal.scaled literal.shift.toNat ≤ limit
          · rw [if_pos hle, Option.some.injEq]
            refine ⟨?_, fun hm => hm.2.1.symm⟩
            rintro rfl
            exact ⟨hshift, rfl, hle⟩
          · rw [if_neg hle]
            refine ⟨nofun, ?_⟩
            rintro ⟨_, rfl, hm⟩
            exact absurd hm hle
        · rw [if_neg (not_le.mpr (lt_scaled h hlimit hamount))]
          refine ⟨nofun, ?_⟩
          rintro ⟨_, rfl, hm⟩
          exact absurd hm (not_le.mpr (lt_scaled h hlimit hlarge))

end NumberLiteral

/-- The result is the value, exactly when this is an integer within the bounds. -/
def Projects (result : Option ℤ) (lower upper : ℤ) (value : ℚ) : Prop :=
  ∀ v : ℤ, result = some v ↔ (v : ℚ) = value ∧ lower ≤ v ∧ v ≤ upper

section Projections

variable {literal : NumberLiteral} {length : ℕ}

def NumberLiteral.sign (literal : NumberLiteral) : ℤ := if literal.negative then -1 else 1

theorem sign_cases (literal : NumberLiteral) : literal.sign = 1 ∨ literal.sign = -1 := by
  unfold NumberLiteral.sign
  split_ifs
  · exact Or.inr rfl
  · exact Or.inl rfl

/-- A projection that puts the sign before the magnitude of the shape. -/
theorem projects_iff (limit : ℕ) (h : literal.significant ≠ [])
    (hlength : literal.digits.length ≤ length) (hlimit : limit < 10 ^ 21) {result : Option ℤ} {lower upper : ℤ}
    (hresult : result =
      (literal.readScaled (literal.scale length) limit).map fun m : ℕ => literal.sign * m)
    (hrange : ∀ m : ℕ, lower ≤ literal.sign * m ∧ literal.sign * m ≤ upper ↔ m ≤ limit) :
    Projects result lower upper literal.value ↔ ¬literal.Miscapped length limit := by
  have hvalue : ∀ v : ℤ, (v : ℚ) = literal.value ↔ 0 ≤ literal.shift ∧
      v = literal.sign * (literal.scaled literal.shift.toNat : ℕ) := by
    intro v
    have hshifted : literal.value =
        (literal.sign : ℚ) * digitsValue literal.significant * 10 ^ literal.shift := by
      rw [NumberLiteral.value_eq_shifted, NumberLiteral.sign]
      split_ifs <;> simp
    rw [hshifted]
    exact int_eq_shifted_iff (NumberLiteral.significant_mod h) _ (sign_cases literal) _ v
  have hinj : ∀ m n : ℕ, literal.sign * (m : ℤ) = literal.sign * n ↔ m = n := by
    intro m n
    rcases sign_cases literal with hs | hs <;> rw [hs] <;> omega
  rw [← NumberLiteral.readScaled_iff h hlength hlimit]
  constructor
  · intro hprojects m
    have hm := hprojects (literal.sign * m)
    rw [hresult, hvalue, hrange, hinj, and_assoc] at hm
    rw [← hm, Option.map_eq_some_iff]
    refine ⟨fun hread => ⟨m, hread, rfl⟩, ?_⟩
    rintro ⟨n, hread, heq⟩
    rwa [← (hinj n m).mp heq]
  · intro hread v
    rw [hresult, Option.map_eq_some_iff, hvalue]
    constructor
    · rintro ⟨m, hm, rfl⟩
      obtain ⟨hshift, heq, hle⟩ := (hread m).mp hm
      exact ⟨⟨hshift, by rw [heq]⟩, (hrange m).mpr hle⟩
    · rintro ⟨⟨hshift, rfl⟩, hbounds⟩
      exact ⟨_, (hread _).mpr ⟨hshift, rfl, (hrange _).mp hbounds⟩, rfl⟩

theorem value_neg (h : literal.significant ≠ []) (hnegative : literal.negative = true) :
    literal.value < 0 := by
  have hpos : (0 : ℚ) < digitsValue literal.significant := by
    exact_mod_cast NumberLiteral.significant_pos h
  have hpower : (0 : ℚ) < 10 ^ literal.shift := zpow_pos (by norm_num) _
  rw [NumberLiteral.value_eq_shifted, if_pos hnegative, neg_one_mul, neg_mul]
  exact neg_neg_of_pos (mul_pos hpos hpower)

theorem digits_length_le (literal : NumberLiteral) : literal.digits.length ≤ literal.text.length := by
  have hfraction : literal.fractionDigits.length ≤ literal.fractionText.length := by
    unfold NumberLiteral.fractionDigits NumberLiteral.fractionText
    cases literal.fraction with
    | none => exact le_rfl
    | some digits => simp [digitsText]
  simp only [NumberLiteral.digits, NumberLiteral.text, List.length_append, digitsText,
    List.length_map]
  omega

/-- Zero is projected to zero, however it is spelled. -/
theorem projects_zero (h : literal.significant = []) {lower upper : ℤ} (hlower : lower ≤ 0)
    (hupper : 0 ≤ upper) : Projects (some 0) lower upper literal.value := by
  intro v
  rw [NumberLiteral.value_eq h, Option.some.injEq]
  constructor
  · rintro rfl
    exact ⟨Int.cast_zero, hlower, hupper⟩
  · rintro ⟨hv, _, _⟩
    exact (Int.cast_eq_zero.mp hv).symm

theorem retained_length (length : ℕ) : (literal.shape length).totalDigits -
    (literal.shape length).trailingZeroes = literal.significant.length :=
  literal.significant_length.symm

theorem shape_zero_iff (length : ℕ) : (literal.shape length).totalDigits =
    (literal.shape length).trailingZeroes ↔ literal.significant = [] := by
  have hsplit := congrArg List.length literal.digits_split
  rw [List.length_append, List.length_replicate] at hsplit
  rw [← List.length_eq_zero_iff]
  change literal.digits.length = literal.trailingZeroes ↔ _
  omega

theorem shape_scale (h : literal.significant ≠ []) (length : ℕ) :
    (literal.shape length).scaleNegative = (literal.scale length).negative ∧
      (literal.shape length).scale = (literal.scale length).amount := by
  have hne : literal.trailingZeroes ≠ literal.digits.length :=
    fun heq => h ((shape_zero_iff length).mp heq.symm)
  unfold NumberLiteral.shape
  rw [if_neg hne]
  exact ⟨rfl, rfl⟩

theorem asU64_eq (h : literal.significant ≠ []) (hnegative : literal.negative = false) :
    Number.asU64 ⟨literal.text, literal.shape length⟩ =
      literal.readScaled (literal.scale length) 18446744073709551615 := by
  have hne := fun heq => h ((shape_zero_iff length).mp heq)
  have hnegative' : (literal.shape length).negative = false := hnegative
  obtain ⟨hscaleNegative, hscale⟩ := shape_scale h length
  have hprojected := projected_eq (Number.pushMagnitude 18446744073709551615) literal
    (Number.growMagnitude 18446744073709551615) (fun _ => rfl) _ 0 (retained_length length)
  rw [Number.asU64, if_neg hne, hnegative', if_neg Bool.false_ne_true, Number.magnitude, if_neg hne,
    hscaleNegative, NumberLiteral.readScaled, hprojected,
    foldlM_digits_congr (pushMagnitude_eq (by decide)), hscale, foldlM_scaled]

/-- The magnitudes of the signed values on the side of a sign. -/
def signedLimit (negative : Bool) : ℕ :=
  if negative then 9223372036854775808 else 9223372036854775807

theorem asI64_eq (h : literal.significant ≠ []) :
    Number.asI64 ⟨literal.text, literal.shape length⟩ =
      (literal.readScaled (literal.scale length) (signedLimit literal.negative)).map
        fun m : ℕ => literal.sign * m := by
  have hne := fun heq => h ((shape_zero_iff length).mp heq)
  have hnegative : (literal.shape length).negative = literal.negative := rfl
  obtain ⟨hscaleNegative, hscale⟩ := shape_scale h length
  have hprojected : Number.projected ⟨literal.text, literal.shape length⟩ Number.pushNegated
      Number.growNegated 0 = (if literal.scaled (literal.scale length).amount ≤ 9223372036854775808
        then some (literal.scaled (literal.scale length).amount) else none).map
          fun m : ℕ => -(m : ℤ) := by
    rw [projected_eq Number.pushNegated literal Number.growNegated growNegated_eq _ 0
      (retained_length length), hscale, ← foldlM_scaled]
    exact foldlM_negated literal.significant _ 0
  rw [Number.asI64, if_neg hne, hscaleNegative, hnegative, hprojected, NumberLiteral.readScaled,
    signedLimit, NumberLiteral.sign]
  generalize literal.scaled (literal.scale length).amount = m
  cases (literal.scale length).negative with
  | true => rfl
  | false =>
    simp only [Bool.false_eq_true, if_false]
    cases literal.negative with
    | true =>
      simp only [if_true]
      split_ifs
      · simp
      · rfl
    | false =>
      simp only [Bool.false_eq_true, if_false]
      by_cases hle : m ≤ 9223372036854775807
      · rw [if_pos (by omega), if_pos hle]
        simp only [Option.map_some, Option.bind_eq_bind, Option.bind_some]
        rw [if_neg (by omega)]
        simp
      · rw [if_neg hle]
        split_ifs with hle'
        · simp only [Option.map_some, Option.bind_eq_bind, Option.bind_some]
          rw [if_pos (by omega)]
          rfl
        · rfl

end Projections

/-- Wherever a literal stands in a text, its projections give the number it denotes, except
when its exponent is cut at the cap under a fraction and what is left lies in the range. -/
theorem number_projects_iff (literal : NumberLiteral) (before after : Bytes)
    (hends : EndsNumber after) :
    ∃ number, (parseNumberFromCursor true (cursorAt before literal.text after)).1 = .success number ∧
      (before = [] → after = [] → tryParseNumber true literal.text = .success number) ∧
      (Projects (number.asU64.map fun m : ℕ => (m : ℤ)) 0 18446744073709551615 literal.value ↔
        ¬(literal.negative = false ∧ literal.Miscapped
          (before ++ (literal.text ++ after)).length 18446744073709551615)) ∧
      (Projects number.asI64 (-9223372036854775808) 9223372036854775807 literal.value ↔
        ¬literal.Miscapped (before ++ (literal.text ++ after)).length
          (signedLimit literal.negative)) := by
  refine ⟨⟨literal.text, literal.shape (before ++ (literal.text ++ after)).length⟩, ?_, ?_, ?_⟩
  · rw [parseNumberFromCursor_run literal before after hends]
  · rintro rfl rfl
    rw [List.nil_append, List.append_nil]
    exact tryParseNumber_run literal
  have hlength : literal.digits.length ≤ (before ++ (literal.text ++ after)).length := by
    have htext := digits_length_le literal
    simp only [List.length_append]
    omega
  generalize (before ++ (literal.text ++ after)).length = length at hlength
  by_cases hzero : literal.significant = []
  · have hshape := (shape_zero_iff length).mpr hzero
    have hnot : ∀ limit, ¬literal.Miscapped length limit := fun limit h => h.significant hzero
    rw [Number.asU64, Number.asI64, if_pos hshape, if_pos hshape]
    exact ⟨iff_of_true (projects_zero hzero (by decide) (by decide)) fun h => hnot _ h.2,
      iff_of_true (projects_zero hzero (by decide) (by decide)) (hnot _)⟩
  constructor
  · cases hnegative : literal.negative with
    | true =>
      have hnone : Number.asU64 ⟨literal.text, literal.shape length⟩ = none := by
        have hne := fun heq => hzero ((shape_zero_iff length).mp heq)
        have hshape : (literal.shape length).negative = true := hnegative
        rw [Number.asU64, if_neg hne, if_pos hshape]
      rw [hnone]
      refine iff_of_true (fun v => ⟨nofun, ?_⟩) fun h => absurd h.1 (by decide)
      rintro ⟨hv, hnonneg, _⟩
      have hneg := value_neg hzero hnegative
      have hcast : (0 : ℚ) ≤ v := by exact_mod_cast hnonneg
      exact absurd (hv ▸ hcast) (not_le.mpr hneg)
    | false =>
      have hsign : literal.sign = 1 := by rw [NumberLiteral.sign, hnegative]; rfl
      rw [projects_iff 18446744073709551615 hzero hlength (by norm_num)]
      · exact not_congr ⟨fun h => ⟨rfl, h⟩, fun h => h.2⟩
      · rw [asU64_eq hzero hnegative, hsign]
        simp only [one_mul]
      · intro m
        rw [hsign]
        omega
  · refine projects_iff _ hzero hlength ?_ (asI64_eq hzero) fun m => ?_
    · unfold signedLimit
      split_ifs <;> norm_num
    · unfold signedLimit NumberLiteral.sign
      split_ifs <;> omega

theorem twelve_canonical : digitsOf [1, 2] = [0] ∨
    ∃ first rest, digitsOf [1, 2] = first :: rest ∧ first ≠ 0 :=
  Or.inr ⟨1, [2], rfl, by decide⟩

/-- `-12.3400e2` -/
def decimal : NumberLiteral where
  negative := true
  integer := digitsOf [1, 2]
  fraction := some ⟨digitsOf [3, 4, 0, 0], by decide⟩
  exponent := some ⟨false, none, digitsOf [2], by decide⟩
  canonical := twelve_canonical

theorem decimal_in_array_projects :
    ∃ number, (parseNumberFromCursor true (cursorAt [91] decimal.text [93])).1 = .success number ∧
      Projects number.asI64 (-9223372036854775808) 9223372036854775807 decimal.value := by
  have hends : EndsNumber [93] := by
    rintro byte ⟨⟩
    decide
  obtain ⟨number, hparsed, _, _, hsigned⟩ := number_projects_iff decimal [91] [93] hends
  refine ⟨number, hparsed, hsigned.mpr fun h => ?_⟩
  exact absurd h.cut.beyond (by decide)

theorem zero_canonical : digitsOf [0] = [0] ∨
    ∃ first rest, digitsOf [0] = first :: rest ∧ first ≠ 0 :=
  Or.inl rfl

/-- `0.00000000000000000001e99` -/
def smallFraction : NumberLiteral where
  negative := false
  integer := digitsOf [0]
  fraction := some ⟨digitsOf (List.replicate 19 0 ++ [1]), by decide⟩
  exponent := some ⟨false, none, digitsOf [9, 9], by decide⟩
  canonical := zero_canonical

/-- The cut exponent leaves five zeroes behind the one, of the seventy-nine it should leave. -/
theorem cut_exponent_misprojects : ¬∀ (literal : NumberLiteral) (before after : Bytes),
    EndsNumber after → ∀ number,
    (parseNumberFromCursor true (cursorAt before literal.text after)).1 = .success number →
    Projects (number.asU64.map fun m : ℕ => (m : ℤ)) 0 18446744073709551615 literal.value ∧
      Projects number.asI64 (-9223372036854775808) 9223372036854775807 literal.value := by
  intro h
  have hprojects := (h smallFraction [] [] (by rintro byte ⟨⟩)
    ⟨smallFraction.text, ⟨false, 21, 0, false, 5⟩⟩ (by decide +kernel)).1
  have hresult : (Number.asU64 ⟨smallFraction.text, ⟨false, 21, 0, false, 5⟩⟩).map
      (fun m : ℕ => (m : ℤ)) = some 100000 := by decide +kernel
  have hdigits : digitsValue smallFraction.digits = 1 := by decide
  have hpower : smallFraction.power - smallFraction.fractionDigits.length = 79 := by decide
  have hvalue := ((hprojects 100000).mp hresult).1
  rw [NumberLiteral.value, hdigits, hpower] at hvalue
  norm_num [smallFraction] at hvalue

end Nocter.Json
