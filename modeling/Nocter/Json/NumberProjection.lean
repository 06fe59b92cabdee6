import Mathlib.Tactic.Linarith
import Mathlib.Tactic.Positivity
import Nocter.Json.NumberScan

/-!
# Integers read off numbers

A projection is right when it gives the number a literal denotes exactly if this is an
integer in its range. Cutting the exponent at its cap goes wrong only under a fraction
with significant digits, and only when what is left lies in the range.
-/

namespace Nocter.Json

section Token

variable {cursor : Cursor} (literal : NumberLiteral)

theorem boundary_between (before after : Bytes) (h : ∀ byte ∈ after.head?, byte < 128) :
    isCharBoundary (before ++ after) before.length = true := by
  unfold isCharBoundary
  rw [if_neg (by rw [List.length_append]; omega)]
  cases after with
  | nil => rw [List.append_nil, if_pos (Or.inr rfl)]
  | cons byte rest =>
    have hbyte := h byte rfl
    split_ifs
    · rfl
    · simp [hbyte]

theorem getRange_between (before token after : Bytes) (htoken : ∀ byte ∈ token.head?, byte < 128)
    (hne : token ≠ []) (hafter : ∀ byte ∈ after.head?, byte < 128) :
    getRange (before ++ (token ++ after)) before.length (before.length + token.length) =
      some token := by
  have hstart : isCharBoundary (before ++ (token ++ after)) before.length = true := by
    refine boundary_between before _ fun byte hbyte => htoken byte ?_
    rwa [List.head?_append_of_ne_nil token hne] at hbyte
  have hstop : isCharBoundary (before ++ (token ++ after)) (before.length + token.length) = true := by
    rw [← List.append_assoc, ← List.length_append]
    exact boundary_between (before ++ token) after hafter
  rw [getRange, if_neg (by omega), hstart, hstop]
  simp

theorem text_head : literal.text ≠ [] ∧ ∀ byte ∈ literal.text.head?, byte < 128 := by
  obtain ⟨digit, rest, hinteger⟩ := integer_head literal
  unfold NumberLiteral.text NumberLiteral.minusText
  rw [hinteger]
  cases literal.negative with
  | true =>
    refine ⟨List.cons_ne_nil _ _, ?_⟩
    rintro byte ⟨⟩
    decide
  | false =>
    refine ⟨List.cons_ne_nil _ _, ?_⟩
    rintro byte ⟨⟩
    exact digitByte_lt digit

/-- The cursor in front of a token. -/
def cursorAt (before token after : Bytes) : Cursor := ⟨before ++ (token ++ after), before.length⟩

/-- A literal is parsed to its text and its shape. -/
theorem parseNumberFromCursor_run (before after : Bytes) (hends : EndsNumber after) :
    parseNumberFromCursor true (cursorAt before literal.text after) =
      (.success ⟨literal.text, literal.shape (before ++ (literal.text ++ after)).length⟩,
        (cursorAt before literal.text after).skip literal.text.length) := by
  have hrest : (cursorAt before literal.text after).rest = literal.text ++ after := List.drop_left
  obtain ⟨hne, hhead⟩ := text_head literal
  have hrange := getRange_between before literal.text after hhead hne
    fun byte hbyte => (hends byte hbyte).1
  rw [parseNumberFromCursor, scanNumber_run literal hends hrest]
  simp only [Cursor.range, Cursor.offset, Cursor.skip, cursorAt, hrange, if_true]
  rfl

theorem tryParseNumber_run : tryParseNumber true literal.text =
    .success ⟨literal.text, literal.shape literal.text.length⟩ := by
  have hrun := parseNumberFromCursor_run literal [] [] (by rintro byte ⟨⟩)
  rw [List.nil_append, List.append_nil] at hrun
  have hcursor : Cursor.new literal.text = cursorAt [] literal.text [] := by
    rw [cursorAt, List.append_nil]
    rfl
  rw [tryParseNumber, hcursor, hrun]
  simp [Cursor.isFinished, Cursor.skip, cursorAt]

end Token

section Loops

variable {σ : Type} (push : σ → ℕ → Option σ) (literal : NumberLiteral)

/-- Over a run of digits the loop takes in those before the trailing zeroes. -/
theorem retainedLoop_digits (digits : List (Fin 10)) (retained : ℕ) (tail : Bytes) (index : ℕ)
    (value : σ) : retainedLoop push retained (digitsText digits ++ tail) index value =
      (((digits.map Fin.val).take (retained - index)).foldlM push value).bind
        (retainedLoop push retained tail (index + digits.length)) := by
  induction digits generalizing index value with
  | nil => rw [List.map_nil, List.take_nil]; rfl
  | cons digit digits ih =>
    rw [digitsText, List.map_cons, List.cons_append, retainedLoop, if_neg (digitByte_ne_marker digit),
      if_pos (digitByte_isDigit digit), digitByte_value, ← digitsText, List.map_cons,
      List.length_cons, Nat.add_comm digits.length, ← Nat.add_assoc]
    by_cases hindex : index < retained
    · obtain ⟨left, hleft⟩ := Nat.exists_eq_add_of_lt hindex
      have htake : retained - index = left + 1 := by omega
      have htake' : retained - (index + 1) = left := by omega
      rw [if_pos hindex, htake, List.take_succ_cons, List.foldlM_cons]
      cases push value digit with
      | none => rfl
      | some pushed =>
        refine (ih (index + 1) pushed).trans ?_
        rw [htake']
        rfl
    · have htake : retained - index = 0 := by omega
      have htake' : retained - (index + 1) = 0 := by omega
      rw [if_neg hindex, ih, htake, htake', List.take_zero, List.take_zero]

theorem retainedLoop_exponent (retained index : ℕ) (value : σ) :
    retainedLoop push retained literal.exponentText index value = some value := by
  unfold NumberLiteral.exponentText
  cases literal.exponent with
  | none => rfl
  | some exponent =>
    refine if_pos ?_
    cases exponent.capital
    · exact Or.inl rfl
    · exact Or.inr rfl

/-- The loop over the text of a literal takes in exactly its significant digits. -/
theorem retainedLoop_text (value : σ) :
    retainedLoop push literal.significant.length literal.text 0 value =
      (literal.significant.map Fin.val).foldlM push value := by
  have hminus : retainedLoop push literal.significant.length literal.text 0 value =
      retainedLoop push literal.significant.length (digitsText literal.integer ++
        (literal.fractionText ++ literal.exponentText)) 0 value := by
    unfold NumberLiteral.text NumberLiteral.minusText
    cases literal.negative <;> rfl
  have hfraction : ∀ index value, retainedLoop push literal.significant.length
      (literal.fractionText ++ literal.exponentText) index value =
      ((literal.fractionDigits.map Fin.val).take (literal.significant.length - index)).foldlM push
        value := by
    intro index value
    unfold NumberLiteral.fractionText NumberLiteral.fractionDigits
    cases literal.fraction with
    | none =>
      refine (retainedLoop_exponent push literal _ index value).trans ?_
      rw [Option.elim_none, List.map_nil, List.take_nil]
      rfl
    | some digits =>
      refine (retainedLoop_digits push digits.val _ literal.exponentText index value).trans ?_
      rw [funext (retainedLoop_exponent push literal _ _)]
      exact Option.bind_fun_some _
  have htake : (literal.digits.map Fin.val).take literal.significant.length =
      literal.significant.map Fin.val := by
    rw [← List.map_take, literal.digits_split, List.take_left]
  rw [hminus, retainedLoop_digits, ← htake, NumberLiteral.digits, List.map_append,
    List.take_append, List.foldlM_append, List.length_map, Nat.sub_zero, Nat.zero_add]
  refine congrArg _ (funext fun value => ?_)
  exact hfraction _ value

theorem pushMagnitude_eq {limit : ℕ} (hlimit : 9 ≤ limit) (value : ℕ) (digit : Fin 10) :
    Number.pushMagnitude limit value digit = readWithin 10 limit value digit := by
  have hdigit := digit.isLt
  unfold Number.pushMagnitude readWithin
  split_ifs <;> first | rfl | omega

theorem scaleLoop_eq (grow : σ → Option σ) (h : ∀ value, grow value = push value 0) (scale : ℕ)
    (value : σ) : scaleLoop grow scale value = (List.replicate scale 0).foldlM push value := by
  induction scale generalizing value with
  | zero => rfl
  | succ scale ih =>
    rw [scaleLoop, List.replicate_succ, List.foldlM_cons, h]
    exact congrArg _ (funext ih)

/-- The significant digits and the zeroes of the scale, read with one push for each. -/
theorem projected_eq (grow : σ → Option σ) (h : ∀ value, grow value = push value 0)
    (shape : NumberShape) (zero : σ)
    (hretained : shape.totalDigits - shape.trailingZeroes = literal.significant.length) :
    Number.projected ⟨literal.text, shape⟩ push grow zero =
      (literal.significant.map Fin.val ++ List.replicate shape.scale 0).foldlM push zero := by
  rw [Number.projected, List.foldlM_append, ← retainedLoop_text push literal]
  simp only [hretained]
  exact congrArg _ (funext (scaleLoop_eq push grow h shape.scale))

/-- Pushes that agree on digits read the same. -/
theorem foldlM_digits_congr {push push' : σ → ℕ → Option σ}
    (h : ∀ value (digit : Fin 10), push value digit = push' value digit) (digits : List (Fin 10))
    (zeroes : ℕ) (value : σ) : (digits.map Fin.val ++ List.replicate zeroes 0).foldlM push value =
      (digits.map Fin.val ++ List.replicate zeroes 0).foldlM push' value := by
  have hmap : digits.map Fin.val ++ List.replicate zeroes 0 =
      (digits ++ List.replicate zeroes 0).map Fin.val := by
    rw [List.map_append, List.map_replicate]
    rfl
  rw [hmap, List.foldlM_map, List.foldlM_map]
  exact congrArg (fun f => List.foldlM f value _) (funext fun value => funext (h value))

end Loops

section Magnitudes

variable (literal : NumberLiteral)

/-- The significant digits behind a number of zeroes. -/
def NumberLiteral.scaled (scale : ℕ) : ℕ := digitsValue literal.significant * 10 ^ scale

theorem foldlM_scaled (limit scale : ℕ) :
    (literal.significant.map Fin.val ++ List.replicate scale 0).foldlM (readWithin 10 limit) 0 =
      if literal.scaled scale ≤ limit then some (literal.scaled scale) else none := by
  rw [foldlM_readWithin (by decide) _ (Nat.zero_le limit), readDigits_append, readDigits_zeroes]
  rfl

/-- Below zero the same digits are read, with the magnitude of the minimum as their limit. -/
theorem pushNegated_neg (magnitude : ℕ) (digit : Fin 10) :
    Number.pushNegated (-(magnitude : ℤ)) digit =
      (readWithin 10 9223372036854775808 magnitude digit).map fun m : ℕ => -(m : ℤ) := by
  have hdigit := digit.isLt
  have hdiv : (-9223372036854775808 + (digit : ℤ)).tdiv 10 =
      -((9223372036854775808 - (digit : ℤ)) / 10) := by
    rw [show (-9223372036854775808 + (digit : ℤ)) = -(9223372036854775808 - (digit : ℤ)) by ring,
      Int.neg_tdiv, Int.tdiv_eq_ediv_of_nonneg (by omega)]
  unfold Number.pushNegated readWithin
  rw [hdiv]
  by_cases hle : magnitude * 10 + digit ≤ 9223372036854775808
  · rw [if_neg (by omega), if_pos hle, Option.map_some]
    congr 1
    push_cast
    ring
  · rw [if_pos (by omega), if_neg hle]
    rfl

theorem growNegated_eq (value : ℤ) : Number.growNegated value = Number.pushNegated value 0 := by
  rw [Number.growNegated, Number.pushNegated]
  norm_num

theorem foldlM_negated (digits : List (Fin 10)) (zeroes magnitude : ℕ) :
    (digits.map Fin.val ++ List.replicate zeroes 0).foldlM Number.pushNegated (-(magnitude : ℤ)) =
      ((digits.map Fin.val ++ List.replicate zeroes 0).foldlM (readWithin 10 9223372036854775808)
        magnitude).map fun m : ℕ => -(m : ℤ) := by
  have hmap : digits.map Fin.val ++ List.replicate zeroes 0 =
      (digits ++ List.replicate zeroes 0).map Fin.val := by
    rw [List.map_append, List.map_replicate]
    rfl
  rw [hmap]
  generalize digits ++ List.replicate zeroes 0 = all
  induction all generalizing magnitude with
  | nil => rfl
  | cons digit all ih =>
    rw [List.map_cons, List.foldlM_cons, List.foldlM_cons, pushNegated_neg]
    cases readWithin 10 9223372036854775808 magnitude digit with
    | none => rfl
    | some pushed => exact ih pushed

end Magnitudes

end Nocter.Json
