import Nocter.Text.Utf8

/-!
# Encoding and decoding of scalar values

The encoder writes a scalar value into one to four bytes and the decoder reads one from an
offset of a byte string. With the validator they describe one language: the concatenations of
encoded scalar values.
-/

namespace Nocter.Text

open Utf8

structure ScalarEncoding where
  encodedBytes : List UInt8
  initializedLen : ℕ
deriving DecidableEq

structure ScalarDecodeStep where
  scalar : ℕ
  width : ℕ
deriving DecidableEq

def ScalarEncoding.bytes (encoding : ScalarEncoding) : List UInt8 :=
  encoding.encodedBytes.take encoding.initializedLen

def encodeScalar (value : Char) : ScalarEncoding :=
  let scalar := value.toNat
  if scalar ≤ 127 then ⟨[UInt8.ofNat scalar, 0, 0, 0], 1⟩
  else if scalar ≤ 2047 then
    let first := 192 + scalar / 64
    let second := 128 + scalar % 64
    ⟨[UInt8.ofNat first, UInt8.ofNat second, 0, 0], 2⟩
  else if scalar ≤ 65535 then
    let first := 224 + scalar / 4096
    let second := 128 + scalar / 64 % 64
    let third := 128 + scalar % 64
    ⟨[UInt8.ofNat first, UInt8.ofNat second, UInt8.ofNat third, 0], 3⟩
  else
    let first := 240 + scalar / 262144
    let second := 128 + scalar / 4096 % 64
    let third := 128 + scalar / 64 % 64
    let fourth := 128 + scalar % 64
    ⟨[UInt8.ofNat first, UInt8.ofNat second, UInt8.ofNat third, UInt8.ofNat fourth], 4⟩

def isContinuation (byte : UInt8) : Bool := 128 ≤ byte && byte ≤ 191

/-- An index behind the candidate answers as the check of the source in front of it does. -/
def decodeScalar (candidate : List UInt8) (offset : ℕ) : Option ScalarDecodeStep := do
  let leading ← candidate[offset]?
  if leading < 128 then return ⟨leading.toNat, 1⟩
  else if 194 ≤ leading ∧ leading ≤ 223 then
    let second ← candidate[offset + 1]?
    if isContinuation second = false then none
    else return ⟨(leading.toNat - 192) * 64 + (second.toNat - 128), 2⟩
  else if 224 ≤ leading ∧ leading ≤ 239 then
    let third ← candidate[offset + 2]?
    let second ← candidate[offset + 1]?
    if isContinuation second = false ∨ isContinuation third = false then none
    else if leading = 224 ∧ second < 160 then none
    else if leading = 237 ∧ 160 ≤ second then none
    else return ⟨(leading.toNat - 224) * 4096 + (second.toNat - 128) * 64 + (third.toNat - 128), 3⟩
  else if 240 ≤ leading ∧ leading ≤ 244 then
    let fourth ← candidate[offset + 3]?
    let third ← candidate[offset + 2]?
    let second ← candidate[offset + 1]?
    if isContinuation second = false ∨ isContinuation third = false ∨
        isContinuation fourth = false then none
    else if leading = 240 ∧ second < 144 then none
    else if leading = 244 ∧ 144 ≤ second then none
    else return ⟨(leading.toNat - 240) * 262144 + (second.toNat - 128) * 4096 +
      (third.toNat - 128) * 64 + (fourth.toNat - 128), 4⟩
  else none

/-- The number that the bytes of a scalar value stand for. -/
def codePoint : List UInt8 → ℕ
  | [a] => a.toNat
  | [a, b] => (a.toNat - 192) * 64 + (b.toNat - 128)
  | [a, b, c] => (a.toNat - 224) * 4096 + (b.toNat - 128) * 64 + (c.toNat - 128)
  | [a, b, c, d] => (a.toNat - 240) * 262144 + (b.toNat - 128) * 4096 + (c.toNat - 128) * 64 +
      (d.toNat - 128)
  | _ => 0

section Encoder

theorem toNat_ofNat_lt {n : ℕ} (h : n < 256) : (UInt8.ofNat n).toNat = n := by
  rw [UInt8.toNat_ofNat']
  exact Nat.mod_eq_of_lt h

theorem within_iff {a low high : UInt8} :
    low ≤ a ∧ a ≤ high ↔ low.toNat ≤ a.toNat ∧ a.toNat ≤ high.toNat := by
  rw [UInt8.le_iff_toNat_le, UInt8.le_iff_toNat_le]

theorem secondOfThree_iff {a b : UInt8} : SecondOfThree a b ↔ 128 ≤ b.toNat ∧ b.toNat ≤ 191 ∧
    (a.toNat = 224 → 160 ≤ b.toNat) ∧ (a.toNat = 237 → b.toNat ≤ 159) := by
  have hlow : a = 224 ↔ a.toNat = 224 := (UInt8.toNat_inj (b := 224)).symm
  have hhigh : a = 237 ↔ a.toNat = 237 := (UInt8.toNat_inj (b := 237)).symm
  unfold SecondOfThree
  simp only [within_iff, hlow, hhigh]
  split <;> split <;> simp only [UInt8.reduceToNat] <;> omega

theorem secondOfFour_iff {a b : UInt8} : SecondOfFour a b ↔ 128 ≤ b.toNat ∧ b.toNat ≤ 191 ∧
    (a.toNat = 240 → 144 ≤ b.toNat) ∧ (a.toNat = 244 → b.toNat ≤ 143) := by
  have hlow : a = 240 ↔ a.toNat = 240 := (UInt8.toNat_inj (b := 240)).symm
  have hhigh : a = 244 ↔ a.toNat = 244 := (UInt8.toNat_inj (b := 244)).symm
  unfold SecondOfFour
  simp only [within_iff, hlow, hhigh]
  split <;> split <;> simp only [UInt8.reduceToNat] <;> omega

theorem tail_iff {b : UInt8} : Tail b ↔ 128 ≤ b.toNat ∧ b.toNat ≤ 191 := within_iff

theorem tail_ofNat {n : ℕ} (hlow : 128 ≤ n) (hhigh : n ≤ 191) : Tail (UInt8.ofNat n) := by
  rw [tail_iff, toNat_ofNat_lt (by omega)]
  exact ⟨hlow, hhigh⟩

theorem isScalar_toNat (value : Char) :
    value.toNat < 0xd800 ∨ 0xdfff < value.toNat ∧ value.toNat < 0x110000 := value.valid

/-- The encoder writes into the ranges of the validator. -/
theorem scalar_bytes (value : Char) : Scalar (encodeScalar value).bytes := by
  have hvalid := isScalar_toNat value
  unfold encodeScalar
  generalize value.toNat = scalar at hvalid
  dsimp only
  by_cases hone : scalar ≤ 127
  · rw [if_pos hone]
    refine .one ?_
    rw [UInt8.lt_iff_toNat_lt, toNat_ofNat_lt (by omega)]
    exact Nat.lt_succ_of_le hone
  rw [if_neg hone]
  by_cases htwo : scalar ≤ 2047
  · rw [if_pos htwo]
    refine .two ?_ (tail_ofNat (by omega) (by omega))
    rw [within_iff, toNat_ofNat_lt (by omega)]
    simp only [UInt8.reduceToNat]
    omega
  rw [if_neg htwo]
  by_cases hthree : scalar ≤ 65535
  · rw [if_pos hthree]
    refine .three ?_ ?_ (tail_ofNat (by omega) (by omega))
    · rw [within_iff, toNat_ofNat_lt (by omega)]
      simp only [UInt8.reduceToNat]
      omega
    · rw [secondOfThree_iff, toNat_ofNat_lt (by omega), toNat_ofNat_lt (by omega)]
      omega
  · rw [if_neg hthree]
    refine .four ?_ ?_ (tail_ofNat (by omega) (by omega)) (tail_ofNat (by omega) (by omega))
    · rw [within_iff, toNat_ofNat_lt (by omega)]
      simp only [UInt8.reduceToNat]
      omega
    · rw [secondOfFour_iff, toNat_ofNat_lt (by omega), toNat_ofNat_lt (by omega)]
      omega

theorem length_bytes (value : Char) :
    (encodeScalar value).bytes.length = (encodeScalar value).initializedLen := by
  unfold encodeScalar
  dsimp only
  split
  · rfl
  split
  · rfl
  split <;> rfl

theorem codePoint_bytes (value : Char) : codePoint (encodeScalar value).bytes = value.toNat := by
  have hvalid := isScalar_toNat value
  unfold encodeScalar
  generalize value.toNat = scalar at hvalid
  dsimp only
  by_cases hone : scalar ≤ 127
  · rw [if_pos hone]
    exact toNat_ofNat_lt (by omega)
  rw [if_neg hone]
  by_cases htwo : scalar ≤ 2047
  · rw [if_pos htwo]
    change (UInt8.toNat _ - 192) * 64 + (UInt8.toNat _ - 128) = scalar
    rw [toNat_ofNat_lt (by omega), toNat_ofNat_lt (by omega)]
    omega
  rw [if_neg htwo]
  by_cases hthree : scalar ≤ 65535
  · rw [if_pos hthree]
    change (UInt8.toNat _ - 224) * 4096 + (UInt8.toNat _ - 128) * 64 + (UInt8.toNat _ - 128) = scalar
    rw [toNat_ofNat_lt (by omega), toNat_ofNat_lt (by omega), toNat_ofNat_lt (by omega)]
    omega
  · rw [if_neg hthree]
    change (UInt8.toNat _ - 240) * 262144 + (UInt8.toNat _ - 128) * 4096 +
      (UInt8.toNat _ - 128) * 64 + (UInt8.toNat _ - 128) = scalar
    rw [toNat_ofNat_lt (by omega), toNat_ofNat_lt (by omega), toNat_ofNat_lt (by omega),
      toNat_ofNat_lt (by omega)]
    omega

theorem ofNat_eq_of_toNat {n : ℕ} {a : UInt8} (h : n = a.toNat) : UInt8.ofNat n = a := by
  rw [h, UInt8.ofNat_toNat]

theorem exists_char {n : ℕ} (h : n < 0xd800 ∨ 0xdfff < n ∧ n < 0x110000) :
    ∃ value : Char, value.toNat = n :=
  ⟨Char.ofNatAux n h, rfl⟩

/-- The bytes of every scalar value of the validator's ranges are encoded from it. -/
theorem exists_bytes_eq {scalar : List UInt8} (h : Scalar scalar) :
    ∃ value : Char, (encodeScalar value).bytes = scalar := by
  cases h with
  | @one a ha =>
    have ha' : a.toNat < 128 := UInt8.lt_iff_toNat_lt.mp ha
    obtain ⟨value, hvalue⟩ := exists_char (n := a.toNat) (by omega)
    refine ⟨value, ?_⟩
    unfold encodeScalar
    rw [hvalue]
    dsimp only
    rw [if_pos (by omega), UInt8.ofNat_toNat]
    rfl
  | @two a b ha hb =>
    have ha' : 194 ≤ a.toNat ∧ a.toNat ≤ 223 := within_iff.mp ha
    have hb' := tail_iff.mp hb
    obtain ⟨value, hvalue⟩ :=
      exists_char (n := (a.toNat - 192) * 64 + (b.toNat - 128)) (by omega)
    refine ⟨value, ?_⟩
    unfold encodeScalar
    rw [hvalue]
    dsimp only
    rw [if_neg (by omega), if_pos (by omega), ofNat_eq_of_toNat (a := a) (by omega),
      ofNat_eq_of_toNat (a := b) (by omega)]
    rfl
  | @three a b c ha hb hc =>
    have ha' : 224 ≤ a.toNat ∧ a.toNat ≤ 239 := within_iff.mp ha
    have hb' := secondOfThree_iff.mp hb
    have hc' := tail_iff.mp hc
    obtain ⟨value, hvalue⟩ := exists_char
      (n := (a.toNat - 224) * 4096 + (b.toNat - 128) * 64 + (c.toNat - 128)) (by omega)
    refine ⟨value, ?_⟩
    unfold encodeScalar
    rw [hvalue]
    dsimp only
    rw [if_neg (by omega), if_neg (by omega), if_pos (by omega),
      ofNat_eq_of_toNat (a := a) (by omega), ofNat_eq_of_toNat (a := b) (by omega),
      ofNat_eq_of_toNat (a := c) (by omega)]
    rfl
  | @four a b c d ha hb hc hd =>
    have ha' : 240 ≤ a.toNat ∧ a.toNat ≤ 244 := within_iff.mp ha
    have hb' := secondOfFour_iff.mp hb
    have hc' := tail_iff.mp hc
    have hd' := tail_iff.mp hd
    obtain ⟨value, hvalue⟩ := exists_char (n := (a.toNat - 240) * 262144 +
      (b.toNat - 128) * 4096 + (c.toNat - 128) * 64 + (d.toNat - 128)) (by omega)
    refine ⟨value, ?_⟩
    unfold encodeScalar
    rw [hvalue]
    dsimp only
    rw [if_neg (by omega), if_neg (by omega), if_neg (by omega),
      ofNat_eq_of_toNat (a := a) (by omega), ofNat_eq_of_toNat (a := b) (by omega),
      ofNat_eq_of_toNat (a := c) (by omega), ofNat_eq_of_toNat (a := d) (by omega)]
    rfl

end Encoder

section Decoder

theorem not_lt_of_toNat {a b : UInt8} (h : b.toNat ≤ a.toNat) : ¬a < b :=
  UInt8.not_lt.mpr (UInt8.le_iff_toNat_le.mpr h)

theorem isContinuation_iff {byte : UInt8} : isContinuation byte = true ↔ Tail byte := by
  rw [isContinuation, Bool.and_eq_true, decide_eq_true_iff, decide_eq_true_iff]
  exact Iff.rfl

theorem isContinuation_ne_false {byte : UInt8} (h : Tail byte) : ¬isContinuation byte = false := by
  rw [isContinuation_iff.mpr h]
  exact Bool.noConfusion

/-- A scalar value is read back where it stands. -/
theorem decodeScalar_append {scalar : List UInt8} (h : Scalar scalar) (before rest : List UInt8) :
    decodeScalar (before ++ scalar ++ rest) before.length =
      some ⟨codePoint scalar, scalar.length⟩ := by
  have hget : ∀ index byte, scalar[index]? = some byte →
      (before ++ scalar ++ rest)[before.length + index]? = some byte := by
    intro index byte hbyte
    rw [List.append_assoc, List.getElem?_append_right (Nat.le_add_right _ _),
      Nat.add_sub_cancel_left]
    rw [List.getElem?_append_left (List.getElem?_eq_some_iff.mp hbyte).1, hbyte]
  have hfirst : ∀ byte, scalar[0]? = some byte →
      (before ++ scalar ++ rest)[before.length]? = some byte := hget 0
  cases h with
  | @one a ha =>
    rw [decodeScalar, hfirst a rfl, Option.bind_eq_bind, Option.bind_some, if_pos ha]
    rfl
  | @two a b ha hb =>
    have ha' : 194 ≤ a.toNat ∧ a.toNat ≤ 223 := within_iff.mp ha
    rw [decodeScalar, hfirst a rfl, Option.bind_eq_bind, Option.bind_some,
      if_neg (not_lt_of_toNat (by simp only [UInt8.reduceToNat]; omega)), if_pos ha,
      hget 1 b rfl, Option.bind_some, if_neg (isContinuation_ne_false hb)]
    rfl
  | @three a b c ha hb hc =>
    have ha' : 224 ≤ a.toNat ∧ a.toNat ≤ 239 := within_iff.mp ha
    have hb' := secondOfThree_iff.mp hb
    rw [decodeScalar, hfirst a rfl, Option.bind_eq_bind, Option.bind_some,
      if_neg (not_lt_of_toNat (by simp only [UInt8.reduceToNat]; omega)),
      if_neg (by rw [within_iff]; simp only [UInt8.reduceToNat]; omega), if_pos ha,
      hget 2 c rfl, Option.bind_some, hget 1 b rfl, Option.bind_some,
      if_neg (not_or.mpr ⟨isContinuation_ne_false (tail_iff.mpr ⟨hb'.1, hb'.2.1⟩),
        isContinuation_ne_false hc⟩), if_neg, if_neg]
    · rfl
    · rintro ⟨rfl, h⟩
      have := hb'.2.2.2 rfl
      rw [UInt8.le_iff_toNat_le] at h
      simp only [UInt8.reduceToNat] at h
      omega
    · rintro ⟨rfl, h⟩
      have := hb'.2.2.1 rfl
      rw [UInt8.lt_iff_toNat_lt] at h
      simp only [UInt8.reduceToNat] at h
      omega
  | @four a b c d ha hb hc hd =>
    have ha' : 240 ≤ a.toNat ∧ a.toNat ≤ 244 := within_iff.mp ha
    have hb' := secondOfFour_iff.mp hb
    rw [decodeScalar, hfirst a rfl, Option.bind_eq_bind, Option.bind_some,
      if_neg (not_lt_of_toNat (by simp only [UInt8.reduceToNat]; omega)),
      if_neg (by rw [within_iff]; simp only [UInt8.reduceToNat]; omega),
      if_neg (by rw [within_iff]; simp only [UInt8.reduceToNat]; omega), if_pos ha,
      hget 3 d rfl, Option.bind_some, hget 2 c rfl, Option.bind_some, hget 1 b rfl,
      Option.bind_some, if_neg (not_or.mpr ⟨isContinuation_ne_false (tail_iff.mpr ⟨hb'.1, hb'.2.1⟩),
        not_or.mpr ⟨isContinuation_ne_false hc, isContinuation_ne_false hd⟩⟩), if_neg, if_neg]
    · rfl
    · rintro ⟨rfl, h⟩
      have := hb'.2.2.2 rfl
      rw [UInt8.le_iff_toNat_le] at h
      simp only [UInt8.reduceToNat] at h
      omega
    · rintro ⟨rfl, h⟩
      have := hb'.2.2.1 rfl
      rw [UInt8.lt_iff_toNat_lt] at h
      simp only [UInt8.reduceToNat] at h
      omega

theorem drop_eq_cons {candidate : List UInt8} {offset : ℕ} {byte : UInt8}
    (h : candidate[offset]? = some byte) :
    candidate.drop offset = byte :: candidate.drop (offset + 1) := by
  obtain ⟨hlt, rfl⟩ := List.getElem?_eq_some_iff.mp h
  exact List.drop_eq_getElem_cons hlt

/-- What the decoder answers stands at the offset. -/
theorem exists_scalar_of_decodeScalar {candidate : List UInt8} {offset : ℕ}
    {step : ScalarDecodeStep} (h : decodeScalar candidate offset = some step) :
    ∃ scalar rest, Scalar scalar ∧ candidate.drop offset = scalar ++ rest ∧
      step = ⟨codePoint scalar, scalar.length⟩ := by
  obtain ⟨a, ha, h⟩ := Option.bind_eq_some_iff.mp h
  by_cases hone : a < 128
  · rw [if_pos hone] at h
    exact ⟨[a], _, .one hone, drop_eq_cons ha, (Option.some.inj h).symm⟩
  rw [if_neg hone] at h
  by_cases htwo : 194 ≤ a ∧ a ≤ 223
  · rw [if_pos htwo] at h
    obtain ⟨b, hb, h⟩ := Option.bind_eq_some_iff.mp h
    split at h
    · cases h
    · next htail =>
      refine ⟨[a, b], candidate.drop (offset + 2), .two htwo (isContinuation_iff.mp (by simpa using htail)), ?_,
        (Option.some.inj h).symm⟩
      rw [drop_eq_cons ha, drop_eq_cons hb]
      rfl
  rw [if_neg htwo] at h
  by_cases hthree : 224 ≤ a ∧ a ≤ 239
  · rw [if_pos hthree] at h
    obtain ⟨c, hc, h⟩ := Option.bind_eq_some_iff.mp h
    obtain ⟨b, hb, h⟩ := Option.bind_eq_some_iff.mp h
    split at h
    · cases h
    next htails =>
      rw [not_or, Bool.not_eq_false, Bool.not_eq_false, isContinuation_iff, isContinuation_iff]
        at htails
      split at h
      · cases h
      next hoverlong =>
        split at h
        · cases h
        next hsurrogate =>
          have hb' := tail_iff.mp htails.1
          refine ⟨[a, b, c], candidate.drop (offset + 3), .three hthree (secondOfThree_iff.mpr ⟨hb'.1, hb'.2, ?_, ?_⟩)
            htails.2, ?_, (Option.some.inj h).symm⟩
          · intro hlead
            by_contra hlow
            exact hoverlong ⟨UInt8.toNat_inj.mp hlead, UInt8.lt_iff_toNat_lt.mpr (Nat.not_le.mp hlow)⟩
          · intro hlead
            by_contra hhigh
            exact hsurrogate ⟨UInt8.toNat_inj.mp hlead, UInt8.le_iff_toNat_le.mpr (Nat.not_le.mp hhigh)⟩
          · rw [drop_eq_cons ha, drop_eq_cons hb, drop_eq_cons hc]
            rfl
  rw [if_neg hthree] at h
  by_cases hfour : 240 ≤ a ∧ a ≤ 244
  · rw [if_pos hfour] at h
    obtain ⟨d, hd, h⟩ := Option.bind_eq_some_iff.mp h
    obtain ⟨c, hc, h⟩ := Option.bind_eq_some_iff.mp h
    obtain ⟨b, hb, h⟩ := Option.bind_eq_some_iff.mp h
    split at h
    · cases h
    next htails =>
      rw [not_or, not_or, Bool.not_eq_false, Bool.not_eq_false, Bool.not_eq_false,
        isContinuation_iff, isContinuation_iff, isContinuation_iff] at htails
      split at h
      · cases h
      next hoverlong =>
        split at h
        · cases h
        next hlarge =>
          have hb' := tail_iff.mp htails.1
          refine ⟨[a, b, c, d], candidate.drop (offset + 4), .four hfour (secondOfFour_iff.mpr ⟨hb'.1, hb'.2, ?_, ?_⟩)
            htails.2.1 htails.2.2, ?_, (Option.some.inj h).symm⟩
          · intro hlead
            by_contra hlow
            exact hoverlong ⟨UInt8.toNat_inj.mp hlead, UInt8.lt_iff_toNat_lt.mpr (Nat.not_le.mp hlow)⟩
          · intro hlead
            by_contra hhigh
            exact hlarge ⟨UInt8.toNat_inj.mp hlead, UInt8.le_iff_toNat_le.mpr (Nat.not_le.mp hhigh)⟩
          · rw [drop_eq_cons ha, drop_eq_cons hb, drop_eq_cons hc, drop_eq_cons hd]
            rfl
  · rw [if_neg hfour] at h
    cases h

end Decoder

section Language

/-- The bytes of a text. -/
def encodeText (text : List Char) : List UInt8 := text.flatMap fun value => (encodeScalar value).bytes

/-- What the decoder answers for a scalar value. -/
def decodeStep (value : Char) : ScalarDecodeStep := ⟨value.toNat, (encodeScalar value).initializedLen⟩

/-- The decoder steps from an offset to the end of the candidate without failing. -/
inductive StepsThrough (candidate : List UInt8) : ℕ → List ScalarDecodeStep → Prop
  | done : StepsThrough candidate candidate.length []
  | step {offset : ℕ} {step : ScalarDecodeStep} {steps : List ScalarDecodeStep}
      (hstep : decodeScalar candidate offset = some step)
      (hrest : StepsThrough candidate (offset + step.width) steps) :
      StepsThrough candidate offset (step :: steps)

/-- The validator behind a fragment. -/
def feed (validator : StreamingValidator) (fragment : List UInt8) : StreamingValidator :=
  fragment.foldl (fun validator byte => (validator.push byte).2) validator

theorem decodeScalar_bytes (before : List UInt8) (value : Char) (rest : List UInt8) :
    decodeScalar (before ++ (encodeScalar value).bytes ++ rest) before.length =
      some (decodeStep value) := by
  rw [decodeScalar_append (scalar_bytes value), codePoint_bytes, length_bytes]
  rfl

theorem decodeScalar_eq_some_iff {candidate : List UInt8} {offset : ℕ} {step : ScalarDecodeStep} :
    decodeScalar candidate offset = some step ↔
      ∃ value, step = decodeStep value ∧ (encodeScalar value).bytes <+: candidate.drop offset := by
  constructor
  · intro h
    obtain ⟨scalar, rest, hscalar, hdrop, rfl⟩ := exists_scalar_of_decodeScalar h
    obtain ⟨value, rfl⟩ := exists_bytes_eq hscalar
    refine ⟨value, ?_, rest, hdrop.symm⟩
    rw [codePoint_bytes, length_bytes]
    rfl
  · rintro ⟨value, rfl, rest, hdrop⟩
    have hpos : 0 < (encodeScalar value).bytes.length := by
      have hscalar := scalar_bytes value
      generalize (encodeScalar value).bytes = scalar at hscalar
      cases hscalar <;> exact Nat.succ_pos _
    have hoffset : (candidate.take offset).length = offset := by
      refine List.length_take_of_le (Nat.le_of_lt ?_)
      have hlength := congrArg List.length hdrop
      rw [List.length_append, List.length_drop] at hlength
      omega
    have h := decodeScalar_bytes (candidate.take offset) value rest
    rwa [hoffset, List.append_assoc, hdrop, List.take_append_drop] at h

theorem valid_iff_exists_text {bytes : List UInt8} :
    Utf8.Valid bytes ↔ ∃ text, bytes = encodeText text := by
  constructor
  · intro h
    induction h with
    | nil => exact ⟨[], rfl⟩
    | cons hscalar _ ih =>
      obtain ⟨value, rfl⟩ := exists_bytes_eq hscalar
      obtain ⟨text, rfl⟩ := ih
      exact ⟨value :: text, rfl⟩
  · rintro ⟨text, rfl⟩
    induction text with
    | nil => exact .nil
    | cons value text ih => exact .cons (scalar_bytes value) ih

/-- The decoder reads a text behind any bytes. -/
theorem stepsThrough_encodeText (before : List UInt8) (text : List Char) :
    StepsThrough (before ++ encodeText text) before.length (text.map decodeStep) := by
  induction text generalizing before with
  | nil =>
    have h := @StepsThrough.done (before ++ encodeText [])
    rwa [encodeText, List.flatMap_nil, List.append_nil] at h ⊢
  | cons value text ih =>
    have hstep := decodeScalar_bytes before value (encodeText text)
    have hrest := ih (before ++ (encodeScalar value).bytes)
    rw [List.length_append, length_bytes] at hrest
    rw [List.append_assoc] at hstep hrest
    exact .step hstep hrest

/-- What the decoder steps through is a text. -/
theorem exists_text_of_stepsThrough {candidate : List UInt8} {offset : ℕ}
    {steps : List ScalarDecodeStep} (h : StepsThrough candidate offset steps) :
    ∃ text, candidate.drop offset = encodeText text ∧ steps = text.map decodeStep := by
  induction h with
  | done => exact ⟨[], List.drop_length, rfl⟩
  | @step offset step steps hstep _ ih =>
    obtain ⟨value, rfl, rest, hdrop⟩ := decodeScalar_eq_some_iff.mp hstep
    obtain ⟨text, htext, rfl⟩ := ih
    refine ⟨value :: text, ?_, rfl⟩
    have hwidth : (decodeStep value).width = (encodeScalar value).bytes.length :=
      (length_bytes value).symm
    rw [hwidth, ← List.drop_drop, ← hdrop, List.drop_left] at htext
    rw [← hdrop, htext]
    rfl

theorem feed_invalid {validator : StreamingValidator} (h : validator.valid = false)
    (fragment : List UInt8) : feed validator fragment = validator := by
  induction fragment with
  | nil => rfl
  | cons byte fragment ih =>
    have hpush : (validator.push byte).2 = validator := by
      rw [StreamingValidator.push, if_pos h]
    rw [feed, List.foldl_cons, hpush]
    exact ih

/-- A refused byte leaves an invalid validator. -/
theorem push_valid (validator : StreamingValidator) (byte : UInt8) :
    (validator.push byte).2.valid = (validator.push byte).1 := by
  unfold StreamingValidator.push
  split
  · assumption
  · next hvalid =>
    have hvalid' : validator.valid = true := by simpa using hvalid
    split
    · split
      · rfl
      · exact hvalid'
    split
    · exact hvalid'
    split
    · exact hvalid'
    split
    · exact hvalid'
    split
    · exact hvalid'
    · rfl

/-- The validator that is fed a fragment agrees with the loop that stops at the first refusal. -/
theorem isComplete_feed (validator : StreamingValidator) (fragment : List UInt8) :
    (feed validator fragment).isComplete = validator.completes fragment := by
  induction fragment generalizing validator with
  | nil => rfl
  | cons byte fragment ih =>
    rw [feed, List.foldl_cons, StreamingValidator.completes]
    have hvalid := push_valid validator byte
    cases hpush : validator.push byte with
    | mk pushed next =>
      rw [hpush] at hvalid
      cases pushed with
      | true => exact ih next
      | false =>
        dsimp only at hvalid ⊢
        rw [if_neg Bool.false_ne_true]
        have hfeed := feed_invalid hvalid fragment
        rw [feed] at hfeed
        rw [hfeed, StreamingValidator.isComplete, hvalid, Bool.false_and]

/-- Validator, encoder and decoder describe one language. -/
theorem utf8_agreement :
    (∀ bytes, ((feed .new bytes).isComplete = true ↔ ∃ text, bytes = encodeText text) ∧
      ((feed .new bytes).isComplete = true ↔ ∃ steps, StepsThrough bytes 0 steps) ∧
      isValidUtf8 bytes = (feed .new bytes).isComplete) ∧
    (∀ text, StepsThrough (encodeText text) 0 (text.map decodeStep)) ∧
    (∀ candidate offset step, decodeScalar candidate offset = some step ↔
      ∃ value, step = decodeStep value ∧ (encodeScalar value).bytes <+: candidate.drop offset) ∧
    ∀ (validator : StreamingValidator) (fragments : List (List UInt8)),
      fragments.foldl feed validator = feed validator fragments.flatten := by
  have hvalid : ∀ bytes, (feed .new bytes).isComplete = true ↔ ∃ text, bytes = encodeText text := by
    intro bytes
    rw [isComplete_feed]
    exact isValidUtf8_iff.trans valid_iff_exists_text
  refine ⟨fun bytes => ⟨hvalid bytes, ?_, (isComplete_feed _ _).symm⟩,
    fun text => stepsThrough_encodeText [] text,
    fun _ _ _ => decodeScalar_eq_some_iff, fun validator fragments => ?_⟩
  · rw [hvalid bytes]
    constructor
    · rintro ⟨text, rfl⟩
      exact ⟨_, stepsThrough_encodeText [] text⟩
    · rintro ⟨steps, h⟩
      obtain ⟨text, htext, -⟩ := exists_text_of_stepsThrough h
      exact ⟨text, htext⟩
  · exact (List.foldl_flatten ..).symm

end Language

end Nocter.Text
