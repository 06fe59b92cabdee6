import Nocter.Json.Number

/-!
# Scanning number literals

The scan of a literal takes exactly its text, whatever stands before it and whatever
ends it. The shape it leaves has the counts of the literal's digits; only the exponent
may have been cut at its cap.
-/

namespace Nocter.Json

namespace Cursor

variable (cursor : Cursor)

def rest : Bytes := cursor.text.drop cursor.byteOffset

def skip (count : ℕ) : Cursor := { cursor with byteOffset := cursor.byteOffset + count }

@[simp] theorem skip_len (count : ℕ) : (cursor.skip count).len = cursor.len := rfl

theorem skip_skip (count count' : ℕ) : (cursor.skip count).skip count' = cursor.skip (count + count') := by
  rw [skip, skip, skip, Nat.add_assoc]

theorem rest_length : cursor.rest.length = cursor.len - cursor.offset := List.length_drop

variable {cursor}

theorem rest_skip (before : Bytes) {after : Bytes} (h : cursor.rest = before ++ after) :
    (cursor.skip before.length).rest = after := by
  rw [rest, skip, ← List.drop_drop]
  exact (congrArg (List.drop before.length) h).trans List.drop_left

theorem peek_eq : cursor.peek = cursor.rest.head? := by
  rw [peek, rest, List.head?_drop]
  split_ifs with hend
  · rw [hend, List.getElem?_eq_none le_rfl]
  · rfl

theorem nextIs_iff {expected : UInt8} :
    cursor.nextIs expected = true ↔ cursor.rest.head? = some expected := by
  rw [nextIs, peek_eq]
  cases cursor.rest.head? <;> simp

theorem nextIs_false {expected : UInt8} :
    cursor.nextIs expected = false ↔ cursor.rest.head? ≠ some expected := by
  rw [ne_eq, ← nextIs_iff, Bool.not_eq_true]

end Cursor

section Steps

variable {α β σ : Type} {cursor cursor' : Cursor}

theorem scan_bind {x : Scan α} {f : α → Scan β} {a : α} (h : x cursor = (some a, cursor')) :
    (x >>= f) cursor = f a cursor' := by
  simp only [bind, OptionT.bind, OptionT.mk, StateT.bind]
  rw [h]

theorem scan_pure (a : α) : (pure a : Scan α) cursor = (some a, cursor) := rfl

theorem scan_get : (get : Scan Cursor) cursor = (some cursor, cursor) := rfl

theorem advance_run {byte : UInt8} {tail : Bytes} (h : cursor.rest = byte :: tail) :
    advance cursor = (some byte, cursor.skip 1) := by
  have hpeek : cursor.peek = some byte := by rw [Cursor.peek_eq, h, List.head?_cons]
  rw [advance, scan_bind scan_get, hpeek]
  rfl

theorem digitByte_isDigit (digit : Fin 10) : isDigit (digitByte digit) = true := by
  revert digit
  decide

theorem digitByte_value (digit : Fin 10) : (digitByte digit - 48).toNat = digit := by
  revert digit
  decide

theorem digitByte_zero (digit : Fin 10) : digitByte digit = 48 ↔ digit = 0 := by
  revert digit
  decide

theorem digitByte_lt (digit : Fin 10) : digitByte digit < 128 := by
  revert digit
  decide

theorem digitByte_ne_marker (digit : Fin 10) : ¬(digitByte digit = 101 ∨ digitByte digit = 69) := by
  revert digit
  decide

theorem digitByte_of_ne_zero (digit : Fin 10) :
    digit ≠ 0 → (digitByte digit ≥ 49 && digitByte digit ≤ 57) = true := by
  revert digit
  decide

/-- What ends a run of digits. -/
def StopsDigits (tail : Bytes) : Prop := ∀ byte ∈ tail.head?, isDigit byte = false

theorem digitLoop_run (body : σ → UInt8 → σ) (digits : List (Fin 10)) {tail : Bytes}
    (hstops : StopsDigits tail) {left : ℕ} (hleft : digits.length ≤ left) (state : σ)
    (h : cursor.rest = digitsText digits ++ tail) : digitLoop body left state cursor =
      (some ((digitsText digits).foldl body state), cursor.skip digits.length) := by
  induction digits generalizing left state cursor with
  | nil =>
    cases left with
    | zero => rfl
    | succ left =>
      rw [digitLoop, scan_bind scan_get, Cursor.peek_eq, h, digitsText, List.map_nil, List.nil_append]
      cases hhead : tail.head? with
      | none => rfl
      | some byte =>
        simp only [hstops byte hhead]
        rfl
  | cons digit digits ih =>
    obtain ⟨left, rfl⟩ := Nat.exists_eq_add_of_le' (Nat.lt_of_lt_of_le (Nat.succ_pos _) hleft)
    have hcons : cursor.rest = digitByte digit :: (digitsText digits ++ tail) := h
    have hrest : (cursor.skip 1).rest = digitsText digits ++ tail :=
      Cursor.rest_skip [digitByte digit] hcons
    rw [digitLoop, scan_bind scan_get, Cursor.peek_eq, hcons, List.head?_cons]
    simp only [digitByte_isDigit, if_true]
    rw [scan_bind (advance_run hcons), ih (Nat.succ_le_succ_iff.mp hleft) _ hrest, Cursor.skip_skip,
      Nat.add_comm 1]
    rfl

theorem scanDigits_run (body : σ → UInt8 → σ) (digits : List (Fin 10)) {tail : Bytes}
    (hstops : StopsDigits tail) (state : σ) (h : cursor.rest = digitsText digits ++ tail) :
    scanDigits body state cursor =
      (some ((digitsText digits).foldl body state), cursor.skip digits.length) := by
  have hleft : digits.length ≤ cursor.len - cursor.offset := by
    rw [← Cursor.rest_length, h, List.length_append, digitsText, List.length_map]
    exact Nat.le_add_right _ _
  rw [scanDigits, scan_bind scan_get]
  exact digitLoop_run body digits hstops hleft state h

end Steps

section Folds

theorem foldl_recordDigit (digits : List (Fin 10)) :
    (digitsText digits).foldl (fun summary consumed => recordDigit consumed summary) ⟨0, 0⟩ =
      ⟨digits.length, (digits.rtakeWhile (· = 0)).length⟩ := by
  induction digits using List.reverseRecOn with
  | nil => rfl
  | append_singleton digits digit ih =>
    rw [digitsText, List.map_append, List.foldl_append, ← digitsText, ih]
    simp only [List.map_singleton, List.foldl_cons, List.foldl_nil, recordDigit, digitByte_zero,
      List.length_append, List.length_singleton]
    by_cases hzero : digit = 0
    · rw [List.rtakeWhile_concat, if_pos hzero, if_pos (decide_eq_true hzero), List.length_append,
        List.length_singleton]
    · rw [List.rtakeWhile_concat, if_neg hzero, if_neg (by simpa using hzero), List.length_nil]

theorem foldl_fraction (digits : List (Fin 10)) (summary : DigitSummary) (count : ℕ) :
    (digitsText digits).foldl (fun (state : DigitSummary × ℕ) consumed =>
      (recordDigit consumed state.1, state.2 + 1)) (summary, count) =
      ((digitsText digits).foldl (fun summary consumed => recordDigit consumed summary) summary,
        count + digits.length) := by
  induction digits generalizing summary count with
  | nil => rfl
  | cons digit digits ih =>
    refine (ih _ _).trans ?_
    rw [List.length_cons, Nat.add_assoc, Nat.add_comm 1]
    rfl

theorem pushExponent_min {cap : ℕ} (hcap : 9 ≤ cap) (exponent : ℕ) (digit : Fin 10) :
    pushExponent cap (min cap exponent) (digitByte digit) = min cap (exponent * 10 + digit) := by
  have hdigit := digit.isLt
  simp only [pushExponent, digitByte_value]
  split_ifs <;> omega

/-- The exponent is read exactly up to its cap. -/
theorem foldl_pushExponent {cap : ℕ} (hcap : 9 ≤ cap) (digits : List (Fin 10)) (exponent : ℕ) :
    (digitsText digits).foldl (pushExponent cap) (min cap exponent) =
      min cap (readDigits 10 exponent (digits.map Fin.val)) := by
  induction digits generalizing exponent with
  | nil => rfl
  | cons digit digits ih =>
    rw [digitsText, List.map_cons, List.foldl_cons, pushExponent_min hcap]
    exact ih _

end Folds

section Literals

variable {cursor : Cursor} (literal : NumberLiteral) {tail : Bytes}

theorem scanMinus_run (hdigit : ∃ digit, tail.head? = some (digitByte digit))
    (h : cursor.rest = literal.minusText ++ tail) :
    scanMinus cursor = (some literal.negative, cursor.skip literal.minusText.length) := by
  rw [scanMinus, scan_bind scan_get]
  unfold NumberLiteral.minusText at h ⊢
  cases hnegative : literal.negative with
  | true =>
    rw [hnegative] at h
    rw [if_pos (Cursor.nextIs_iff.mpr (by rw [h]; rfl)), scan_bind (advance_run h)]
    rfl
  | false =>
    rw [hnegative] at h
    obtain ⟨digit, hhead⟩ := hdigit
    have hnot : cursor.nextIs 45 = false := by
      rw [Cursor.nextIs_false, h]
      intro hminus
      have hbyte : digitByte digit = 45 := Option.some.inj (hhead.symm.trans hminus)
      have hisDigit := digitByte_isDigit digit
      rw [hbyte] at hisDigit
      exact absurd hisDigit (by decide)
    rw [hnot]
    rfl

theorem integer_head : ∃ digit rest, literal.integer = digit :: rest := by
  rcases literal.canonical with h | ⟨first, rest, h, _⟩
  · exact ⟨0, [], h⟩
  · exact ⟨first, rest, h⟩

theorem scanInteger_run (hstops : StopsDigits tail)
    (h : cursor.rest = digitsText literal.integer ++ tail) (summary : DigitSummary) :
    scanInteger summary cursor =
      (some ((digitsText literal.integer).foldl (fun summary consumed =>
        recordDigit consumed summary) summary), cursor.skip literal.integer.length) := by
  rw [scanInteger, scan_bind scan_get, Cursor.peek_eq]
  rcases literal.canonical with hzero | ⟨first, rest, hinteger, hfirst⟩
  · rw [hzero] at h ⊢
    have hcons : cursor.rest = 48 :: tail := h
    rw [hcons, List.head?_cons]
    simp only [if_true]
    rw [scan_bind (advance_run hcons)]
    rfl
  · have hcons : cursor.rest = digitByte first :: (digitsText rest ++ tail) := by
      rw [h, hinteger]
      rfl
    rw [hcons, List.head?_cons]
    have hdigit := digitByte_of_ne_zero first hfirst
    simp only [hdigit, if_true, if_neg fun hbyte => hfirst ((digitByte_zero first).mp hbyte)]
    exact scanDigits_run _ literal.integer hstops summary h

theorem scanFraction_run (hstops : StopsDigits tail) (hpoint : tail.head? ≠ some 46)
    (h : cursor.rest = literal.fractionText ++ tail) (summary : DigitSummary) :
    scanFraction summary cursor =
      (some ((digitsText literal.fractionDigits).foldl (fun summary consumed =>
        recordDigit consumed summary) summary, literal.fractionDigits.length),
        cursor.skip literal.fractionText.length) := by
  rw [scanFraction, scan_bind scan_get]
  unfold NumberLiteral.fractionText NumberLiteral.fractionDigits at *
  cases hfraction : literal.fraction with
  | none =>
    rw [hfraction] at h
    have hnot : cursor.nextIs 46 = false := by
      rw [Cursor.nextIs_false, h]
      exact hpoint
    rw [hnot]
    rfl
  | some digits =>
    rw [hfraction] at h
    obtain ⟨digits, hne⟩ := digits
    obtain ⟨first, rest, rfl⟩ := List.exists_cons_of_ne_nil hne
    have hrest : (cursor.skip 1).rest = digitsText (first :: rest) ++ tail :=
      Cursor.rest_skip [46] h
    have hpeek : (cursor.skip 1).peek = some (digitByte first) := by
      rw [Cursor.peek_eq, hrest]
      rfl
    rw [if_pos (Cursor.nextIs_iff.mpr (by rw [h]; rfl)), scan_bind (advance_run h),
      scan_bind scan_get, hpeek]
    simp only [digitByte_isDigit]
    refine (scanDigits_run (fun (state : DigitSummary × ℕ) consumed =>
      (recordDigit consumed state.1, state.2 + 1)) (first :: rest) hstops (summary, 0) hrest).trans ?_
    rw [foldl_fraction, Cursor.skip_skip, Nat.zero_add, Nat.add_comm 1]
    simp [digitsText]

theorem nine_le_cap (length : ℕ) : 9 ≤ exponentCap length := by
  unfold exponentCap
  split_ifs <;> omega

/-- The exponent behind its marker and its sign. -/
theorem exponentDigits_run (digits : List (Fin 10)) (hne : digits ≠ []) (hstops : StopsDigits tail)
    (h : cursor.rest = digitsText digits ++ tail) :
    (∃ digit, cursor.peek = some (digitByte digit)) ∧
      scanDigits (pushExponent (exponentCap cursor.len)) 0 cursor =
        (some (min (exponentCap cursor.len) (digitsValue digits)), cursor.skip digits.length) := by
  constructor
  · obtain ⟨first, rest, rfl⟩ := List.exists_cons_of_ne_nil hne
    exact ⟨first, by rw [Cursor.peek_eq, h]; rfl⟩
  · rw [scanDigits_run _ digits hstops 0 h]
    have hfold := foldl_pushExponent (nine_le_cap cursor.len) digits 0
    rw [Nat.min_zero] at hfold
    rw [hfold]
    rfl

theorem scanExponentSign_run (exponent : ExponentLiteral)
    (hdigit : ∃ digit, tail.head? = some (digitByte digit))
    (h : cursor.rest = exponent.signText ++ tail) :
    scanExponentSign cursor = (some exponent.negative, cursor.skip exponent.signText.length) := by
  obtain ⟨capital, sign, digits, hne⟩ := exponent
  rw [scanExponentSign, scan_bind scan_get, scan_bind scan_get]
  cases sign with
  | none =>
    obtain ⟨digit, hhead⟩ := hdigit
    have hnot : ∀ byte, isDigit byte = false → cursor.nextIs byte = false := by
      intro byte hbyte
      rw [Cursor.nextIs_false, h]
      intro hsome
      rw [← Option.some.inj (hhead.symm.trans hsome), digitByte_isDigit] at hbyte
      cases hbyte
    rw [hnot 43 (by decide), hnot 45 (by decide)]
    rfl
  | some minus =>
    have hcons : cursor.rest = (if minus then 45 else 43) :: tail := h
    have hsign : (cursor.nextIs 43 || cursor.nextIs 45) = true ∧ cursor.nextIs 45 = minus := by
      cases minus with
      | true =>
        have hminus : cursor.nextIs 45 = true := Cursor.nextIs_iff.mpr (by rw [hcons]; rfl)
        exact ⟨by rw [hminus, Bool.or_true], hminus⟩
      | false =>
        have hplus : cursor.nextIs 43 = true := Cursor.nextIs_iff.mpr (by rw [hcons]; rfl)
        exact ⟨by rw [hplus, Bool.true_or], Cursor.nextIs_false.mpr (by rw [hcons]; simp)⟩
    rw [if_pos hsign.1, scan_bind scan_get, scan_bind (advance_run hcons), hsign.2]
    cases minus <;> rfl

theorem scanExponent_run (hstops : StopsDigits tail)
    (hmarker : tail.head? ≠ some 101 ∧ tail.head? ≠ some 69)
    (h : cursor.rest = literal.exponentText ++ tail) : scanExponent cursor =
      (some (literal.exponentNegative, min (exponentCap cursor.len) literal.exponentValue),
        cursor.skip literal.exponentText.length) := by
  rw [scanExponent, scan_bind scan_get, scan_bind scan_get]
  unfold NumberLiteral.exponentText NumberLiteral.exponentNegative NumberLiteral.exponentValue at *
  cases hexponent : literal.exponent with
  | none =>
    rw [hexponent] at h
    have hlower : cursor.nextIs 101 = false := by
      rw [Cursor.nextIs_false, h]
      exact hmarker.1
    have hupper : cursor.nextIs 69 = false := by
      rw [Cursor.nextIs_false, h]
      exact hmarker.2
    rw [hlower, hupper]
    simp only [Option.elim_none, Nat.min_zero]
    rfl
  | some exponent =>
    rw [hexponent] at h
    have hcons : cursor.rest = (if exponent.capital then 69 else 101) ::
        (exponent.signText ++ (digitsText exponent.digits ++ tail)) := by
      rw [h]
      simp [ExponentLiteral.text]
    have hmark : (cursor.nextIs 101 || cursor.nextIs 69) = true := by
      rw [Bool.or_eq_true, Cursor.nextIs_iff, Cursor.nextIs_iff, hcons]
      cases exponent.capital
      · exact Or.inl rfl
      · exact Or.inr rfl
    have hsign : (cursor.skip 1).rest = exponent.signText ++ (digitsText exponent.digits ++ tail) :=
      Cursor.rest_skip [if exponent.capital then 69 else 101] hcons
    have hdigits := Cursor.rest_skip exponent.signText hsign
    rw [Cursor.skip_skip] at hdigits
    obtain ⟨⟨digit, hpeek⟩, hscan⟩ := exponentDigits_run exponent.digits exponent.nonempty hstops hdigits
    have hhead : ∃ digit, (digitsText exponent.digits ++ tail).head? = some (digitByte digit) :=
      ⟨digit, by rw [← hdigits, ← Cursor.peek_eq, hpeek]⟩
    rw [if_pos hmark, scan_bind (advance_run hcons),
      scan_bind (scanExponentSign_run exponent hhead hsign), Cursor.skip_skip, scan_bind scan_get,
      hpeek]
    simp only [digitByte_isDigit, Bool.not_true, Bool.false_eq_true, if_false]
    rw [scan_bind scan_get]
    refine (scan_bind hscan).trans ?_
    rw [Cursor.skip_skip]
    simp only [Option.elim_some, ExponentLiteral.text, List.length_cons, List.length_append,
      digitsText, List.length_map, Cursor.skip_len]
    rw [scan_pure, Nat.add_assoc, Nat.add_comm 1]

/-- What may stand behind a number: nothing the scan would take for a part of it. -/
def EndsNumber (after : Bytes) : Prop :=
  ∀ byte ∈ after.head?, byte < 128 ∧ isDigit byte = false ∧ byte ≠ 46 ∧ byte ≠ 69 ∧ byte ≠ 101

/-- The shape of a literal in a text of so many bytes. -/
def NumberLiteral.shape (length : ℕ) : NumberShape :=
  let scale :=
    if literal.trailingZeroes = literal.digits.length then ⟨false, 0⟩
    else normalizedScale literal.fractionDigits.length literal.trailingZeroes
      literal.exponentNegative (min (exponentCap length) literal.exponentValue)
  ⟨literal.negative, literal.digits.length, literal.trailingZeroes, scale.negative, scale.amount⟩

/-- The exponent of a literal, or what ends the literal, ends its digits. -/
theorem exponentText_head {after : Bytes} (hends : EndsNumber after) :
    ∀ byte ∈ (literal.exponentText ++ after).head?, isDigit byte = false ∧ byte ≠ 46 := by
  unfold NumberLiteral.exponentText
  cases literal.exponent with
  | none => exact fun byte hbyte => ⟨(hends byte hbyte).2.1, (hends byte hbyte).2.2.1⟩
  | some exponent =>
    rintro byte ⟨⟩
    cases exponent.capital <;> decide

theorem fractionText_head {after : Bytes} (hends : EndsNumber after) :
    StopsDigits (literal.fractionText ++ (literal.exponentText ++ after)) := by
  unfold NumberLiteral.fractionText
  cases literal.fraction with
  | none => exact fun byte hbyte => (exponentText_head literal hends byte hbyte).1
  | some digits =>
    rintro byte ⟨⟩
    decide

theorem scanNumber_run {after : Bytes} (hends : EndsNumber after)
    (h : cursor.rest = literal.text ++ after) :
    scanNumber cursor = (some (literal.shape cursor.len), cursor.skip literal.text.length) := by
  have hminus : cursor.rest = literal.minusText ++ (digitsText literal.integer ++
      (literal.fractionText ++ (literal.exponentText ++ after))) := by
    rw [h, NumberLiteral.text]
    simp only [List.append_assoc]
  have hinteger := Cursor.rest_skip _ hminus
  have hfraction := Cursor.rest_skip _ hinteger
  have hexponent := Cursor.rest_skip _ hfraction
  have hdigit : ∃ digit, (digitsText literal.integer ++ (literal.fractionText ++
      (literal.exponentText ++ after))).head? = some (digitByte digit) := by
    obtain ⟨digit, rest, hcons⟩ := integer_head literal
    exact ⟨digit, by rw [hcons]; rfl⟩
  have hstops : StopsDigits (literal.exponentText ++ after) :=
    fun byte hbyte => (exponentText_head literal hends byte hbyte).1
  have hpoint : (literal.exponentText ++ after).head? ≠ some 46 :=
    fun hsome => (exponentText_head literal hends 46 hsome).2 rfl
  have hafter : StopsDigits after := fun byte hbyte => (hends byte hbyte).2.1
  have hmarker : after.head? ≠ some 101 ∧ after.head? ≠ some 69 :=
    ⟨fun hsome => (hends 101 hsome).2.2.2.2 rfl, fun hsome => (hends 69 hsome).2.2.2.1 rfl⟩
  have hintegerLength : (digitsText literal.integer).length = literal.integer.length :=
    List.length_map _
  rw [hintegerLength] at hfraction hexponent
  have hdigits : digitsText literal.digits =
      digitsText literal.integer ++ digitsText literal.fractionDigits := List.map_append
  have hsummary : (digitsText literal.digits).foldl (fun summary consumed =>
      recordDigit consumed summary) ⟨0, 0⟩ = ⟨literal.digits.length, literal.trailingZeroes⟩ :=
    foldl_recordDigit literal.digits
  rw [hdigits, List.foldl_append] at hsummary
  rw [scanNumber, scan_bind (scanMinus_run literal hdigit hminus),
    scan_bind (scanInteger_run literal (fractionText_head literal hends) hinteger ⟨0, 0⟩),
    scan_bind (scanFraction_run literal hstops hpoint hfraction _)]
  simp only [hsummary]
  rw [scan_bind (scanExponent_run literal hafter hmarker hexponent)]
  have hlength : literal.text.length = literal.minusText.length + literal.integer.length +
      literal.fractionText.length + literal.exponentText.length := by
    simp only [NumberLiteral.text, List.length_append, hintegerLength]
    omega
  simp only [Cursor.skip_skip, Cursor.skip_len, hlength, NumberLiteral.shape]
  by_cases hzero : literal.trailingZeroes = literal.digits.length
  · rw [if_pos hzero, if_pos hzero, scan_pure]
  · rw [if_neg hzero, if_neg hzero, scan_pure]

end Literals

end Nocter.Json
