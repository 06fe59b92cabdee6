import Nocter.Library.Utf8

/-!
# Validation of UTF-8

The validator reads one byte after the other and keeps how many continuation bytes
are missing and in which range the next one lies.
-/

namespace Nocter.Text

open Utf8

structure StreamingValidator where
  remainingContinuations : ℕ
  nextMinimum : UInt8
  nextMaximum : UInt8
  valid : Bool

namespace StreamingValidator

def new : StreamingValidator := ⟨0, 128, 191, true⟩

def push (validator : StreamingValidator) (byte : UInt8) : Bool × StreamingValidator :=
  if validator.valid = false then (false, validator)
  else if 0 < validator.remainingContinuations then
    if byte < validator.nextMinimum ∨ validator.nextMaximum < byte then
      (false, { validator with valid := false })
    else (true, { validator with
      remainingContinuations := validator.remainingContinuations - 1
      nextMinimum := 128
      nextMaximum := 191 })
  else if byte < 128 then (true, validator)
  else if 194 ≤ byte ∧ byte ≤ 223 then (true, { validator with remainingContinuations := 1 })
  else if 224 ≤ byte ∧ byte ≤ 239 then (true, { validator with
    remainingContinuations := 2
    nextMinimum := if byte = 224 then 160 else 128
    nextMaximum := if byte = 237 then 159 else 191 })
  else if 240 ≤ byte ∧ byte ≤ 244 then (true, { validator with
    remainingContinuations := 3
    nextMinimum := if byte = 240 then 144 else 128
    nextMaximum := if byte = 244 then 143 else 191 })
  else (false, { validator with valid := false })

def isComplete (validator : StreamingValidator) : Bool :=
  validator.valid && validator.remainingContinuations = 0

/-- The loop of `is_valid_utf8` over the bytes that are left. -/
def completes (validator : StreamingValidator) : List UInt8 → Bool
  | [] => validator.isComplete
  | byte :: rest =>
    let (pushed, validator) := validator.push byte
    if pushed then validator.completes rest else false

end StreamingValidator

def isValidUtf8 (candidate : List UInt8) : Bool := StreamingValidator.new.completes candidate

namespace StreamingValidator

/-- The validator that misses so many continuation bytes. -/
def missing (count : ℕ) : StreamingValidator := ⟨count, 128, 191, true⟩

theorem completes_missing {count : ℕ} {low high : UInt8} {bytes : List UInt8} :
    (⟨count + 1, low, high, true⟩ : StreamingValidator).completes bytes = true ↔
      ∃ byte rest, bytes = byte :: rest ∧ (low ≤ byte ∧ byte ≤ high) ∧
        (missing count).completes rest = true := by
  cases bytes with
  | nil => simp [completes, isComplete]
  | cons byte rest =>
    rw [completes, push, if_neg (by simp), if_pos (Nat.succ_pos count)]
    by_cases hrange : byte < low ∨ high < byte
    · rw [if_pos hrange]
      constructor
      · intro h
        cases h
      · rintro ⟨other, tail, heq, ⟨hlow, hhigh⟩, _⟩
        cases heq
        obtain hlt | hlt := hrange
        · exact absurd hlt (UInt8.not_lt.mpr hlow)
        · exact absurd hlt (UInt8.not_lt.mpr hhigh)
    · rw [if_neg hrange]
      rw [not_or, UInt8.not_lt, UInt8.not_lt] at hrange
      constructor
      · intro h
        exact ⟨byte, rest, rfl, hrange, h⟩
      · rintro ⟨other, tail, heq, _, h⟩
        cases heq
        exact h

/-- Between two scalar values the next bytes encode one. -/
theorem completes_cons {byte : UInt8} {rest : List UInt8} : new.completes (byte :: rest) = true ↔
      ∃ scalar tail, byte :: rest = scalar ++ tail ∧ Scalar scalar ∧ new.completes tail = true := by
  have hstep : new.completes (byte :: rest) = true ↔
      (new.push byte).1 = true ∧ (new.push byte).2.completes rest = true := by
    rw [completes]
    cases hpush : new.push byte with
    | mk pushed next => cases pushed <;> simp
  rw [hstep]
  constructor
  · rintro ⟨hpushed, hrest⟩
    unfold push at hpushed hrest
    rw [if_neg (by decide), if_neg (by decide)] at hpushed hrest
    by_cases hascii : byte < 128
    · rw [if_pos hascii] at hrest
      exact ⟨[byte], rest, rfl, .one hascii, hrest⟩
    rw [if_neg hascii] at hpushed hrest
    by_cases htwo : 194 ≤ byte ∧ byte ≤ 223
    · rw [if_pos htwo] at hrest
      obtain ⟨b, tail, rfl, hb, htail⟩ := completes_missing.mp hrest
      exact ⟨[byte, b], tail, rfl, .two htwo hb, htail⟩
    rw [if_neg htwo] at hpushed hrest
    by_cases hthree : 224 ≤ byte ∧ byte ≤ 239
    · rw [if_pos hthree] at hrest
      obtain ⟨b, tail, rfl, hb, htail⟩ := completes_missing.mp hrest
      obtain ⟨c, tail, rfl, hc, htail⟩ := completes_missing.mp htail
      exact ⟨[byte, b, c], tail, rfl, .three hthree hb hc, htail⟩
    rw [if_neg hthree] at hpushed hrest
    by_cases hfour : 240 ≤ byte ∧ byte ≤ 244
    · rw [if_pos hfour] at hrest
      obtain ⟨b, tail, rfl, hb, htail⟩ := completes_missing.mp hrest
      obtain ⟨c, tail, rfl, hc, htail⟩ := completes_missing.mp htail
      obtain ⟨d, tail, rfl, hd, htail⟩ := completes_missing.mp htail
      exact ⟨[byte, b, c, d], tail, rfl, .four hfour hb hc hd, htail⟩
    rw [if_neg hfour] at hpushed
    cases hpushed
  · -- the ranges of first bytes are disjoint
    have hbelow : ∀ {x low : UInt8}, low ≤ x → ∀ {high : UInt8}, high < low → ¬ x ≤ high := by
      intro x low hx high hhigh hle
      rw [UInt8.le_iff_toNat_le] at hx hle
      rw [UInt8.lt_iff_toNat_lt] at hhigh
      omega
    rintro ⟨scalar, tail, heq, hscalar, htail⟩
    cases hscalar with
    | one ha =>
      obtain ⟨rfl, rfl⟩ := List.cons.inj heq
      rw [push, if_neg (by decide), if_neg (by decide), if_pos ha]
      exact ⟨rfl, htail⟩
    | two ha hb =>
      obtain ⟨rfl, rfl⟩ := List.cons.inj heq
      rw [push, if_neg (by decide), if_neg (by decide),
        if_neg (UInt8.not_lt.mpr (UInt8.le_trans (by decide) ha.1)), if_pos ha]
      exact ⟨rfl, completes_missing.mpr ⟨_, _, rfl, hb, htail⟩⟩
    | three ha hb hc =>
      obtain ⟨rfl, rfl⟩ := List.cons.inj heq
      rw [push, if_neg (by decide), if_neg (by decide),
        if_neg (UInt8.not_lt.mpr (UInt8.le_trans (by decide) ha.1)),
        if_neg (fun h => hbelow ha.1 (by decide) h.2), if_pos ha]
      exact ⟨rfl, completes_missing.mpr ⟨_, _, rfl, hb, completes_missing.mpr ⟨_, _, rfl, hc, htail⟩⟩⟩
    | four ha hb hc hd =>
      obtain ⟨rfl, rfl⟩ := List.cons.inj heq
      rw [push, if_neg (by decide), if_neg (by decide),
        if_neg (UInt8.not_lt.mpr (UInt8.le_trans (by decide) ha.1)),
        if_neg (fun h => hbelow ha.1 (by decide) h.2),
        if_neg (fun h => hbelow ha.1 (by decide) h.2), if_pos ha]
      exact ⟨rfl, completes_missing.mpr ⟨_, _, rfl, hb, completes_missing.mpr ⟨_, _, rfl, hc,
        completes_missing.mpr ⟨_, _, rfl, hd, htail⟩⟩⟩⟩

end StreamingValidator

open StreamingValidator

theorem isValidUtf8_of_valid {candidate : List UInt8} (h : Utf8.Valid candidate) :
    isValidUtf8 candidate = true := by
  induction h with
  | nil => rfl
  | @cons scalar rest hscalar _ ih =>
    obtain ⟨byte, tail, hcons⟩ : ∃ byte tail, scalar ++ rest = byte :: tail := by
      cases hscalar <;> exact ⟨_, _, rfl⟩
    rw [isValidUtf8, hcons]
    exact completes_cons.mpr ⟨scalar, rest, hcons.symm, hscalar, ih⟩

theorem valid_of_isValidUtf8 {candidate : List UInt8} (h : isValidUtf8 candidate = true) :
    Utf8.Valid candidate := by
  induction hlength : candidate.length using Nat.strongRecOn generalizing candidate with
  | ind length ih =>
    cases candidate with
    | nil => exact .nil
    | cons byte rest =>
      obtain ⟨scalar, tail, heq, hscalar, htail⟩ := completes_cons.mp h
      rw [heq]
      refine .cons hscalar (ih tail.length ?_ htail rfl)
      have hpositive : 0 < scalar.length := by cases hscalar <;> exact Nat.succ_pos _
      rw [← hlength, heq, List.length_append]
      omega

/-- The validator accepts the valid texts. -/
theorem isValidUtf8_iff {candidate : List UInt8} :
    isValidUtf8 candidate = true ↔ Utf8.Valid candidate :=
  ⟨valid_of_isValidUtf8, isValidUtf8_of_valid⟩

end Nocter.Text
