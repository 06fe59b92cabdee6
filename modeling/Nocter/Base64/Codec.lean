import Nocter.Library.Word
import Nocter.Text.Utf8

/-!
# The Base64 profiles

One implementation of the standard and the URL-safe profile over byte storage. An abort, an
access out of bounds and a value that is not a byte have no result. Offsets into texts and
outputs that are in memory do not overflow; the lengths that are computed are checked.
-/

namespace Nocter.Base64

abbrev Bytes := List UInt8

structure Base64Error where
  code : String
  message : String
  deriving DecidableEq

def invalidLength : Base64Error :=
  ⟨"std.base64.invalid_length", "Base64 text has an invalid encoded length"⟩

def invalidDigit : Base64Error :=
  ⟨"std.base64.invalid_digit", "Base64 text contains a digit outside its profile"⟩

def invalidPadding : Base64Error :=
  ⟨"std.base64.invalid_padding", "Base64 padding is not canonical"⟩

def outputTooSmall : Base64Error :=
  ⟨"std.base64.output_too_small", "Base64 output storage is too small"⟩

def lengthOverflow : Base64Error :=
  ⟨"std.base64.length_overflow", "Base64 encoded length is not representable"⟩

def standardDigit (value : ℕ) : ℕ :=
  if value < 26 then value + 65
  else if value < 52 then value - 26 + 97
  else if value < 62 then value - 52 + 48
  else if value = 62 then 43
  else 47

def urlDigit (value : ℕ) : ℕ :=
  if value = 62 then 45 else if value = 63 then 95 else standardDigit value

def digit (value : ℕ) (url : Bool) : ℕ := if url then urlDigit value else standardDigit value

def digitValue (byte : ℕ) (url : Bool) : Option ℕ :=
  if byte ≥ 65 ∧ byte ≤ 90 then some (byte - 65)
  else if byte ≥ 97 ∧ byte ≤ 122 then some (byte - 97 + 26)
  else if byte ≥ 48 ∧ byte ≤ 57 then some (byte - 48 + 52)
  else if url then
    if byte = 45 then some 62 else if byte = 95 then some 63 else none
  else
    if byte = 43 then some 62 else if byte = 47 then some 63 else none

/-- A length that may not be representable. -/
def otherwiseOverflow : Option ℕ → Except Base64Error ℕ
  | some length => .ok length
  | none => .error lengthOverflow

def standardEncodedLen (inputLen : ℕ) : Except Base64Error ℕ := do
  let rounded ← otherwiseOverflow (checkedAdd u64Max inputLen 2)
  otherwiseOverflow (checkedMul u64Max (rounded / 3) 4)

def urlEncodedLen (inputLen : ℕ) : Except Base64Error ℕ := do
  let size ← otherwiseOverflow (checkedMul u64Max (inputLen / 3) 4)
  let tail := inputLen % 3
  let suffix := if tail = 0 then 0 else if tail = 1 then 2 else 3
  otherwiseOverflow (checkedAdd u64Max size suffix)

def encodedLen (inputLen : ℕ) (url : Bool) : Except Base64Error ℕ :=
  if url then urlEncodedLen inputLen else standardEncodedLen inputLen

def load (bytes : Bytes) (index : ℕ) : Option ℕ := bytes[index]?.map UInt8.toNat

def store (output : Bytes) (index value : ℕ) : Option Bytes :=
  if value < 256 then checkedSet output index (UInt8.ofNat value) else none

/-- The loop over the digits of a text from an index on. -/
def validateDigits (text : Bytes) (url : Bool) (stop : ℕ) : ℕ → ℕ → Option (Except Base64Error Unit)
  | 0, _ => none
  | passes + 1, index =>
    if index < stop then do
      let byte ← load text index
      match digitValue byte url with
      | none => some (.error invalidDigit)
      | some _ => validateDigits text url stop passes (index + 1)
    else some (.ok ())

/-- The loop over the padding of a text from an index on. -/
def validatePadding (text : Bytes) : ℕ → ℕ → Option (Except Base64Error Unit)
  | 0, _ => none
  | passes + 1, index =>
    if index < text.length then do
      let byte ← load text index
      if byte ≠ 61 then some (.error invalidPadding) else validatePadding text passes (index + 1)
    else some (.ok ())

/-- The check of the bits of the last digit that no byte holds. -/
def validateFinal (text : Bytes) (url : Bool) (contentLen modulus : ℕ) :
    Option (Except Base64Error Unit) := do
  let last ← checkedSub contentLen 1
  let byte ← load text last
  match digitValue byte url with
  | none => some (.error invalidDigit)
  | some finalValue =>
    if finalValue % modulus ≠ 0 then some (.error invalidPadding) else some (.ok ())

/-- Goes on where the check before was passed. -/
def andThen {α : Type} (check : Option (Except Base64Error Unit))
    (next : Option (Except Base64Error α)) : Option (Except Base64Error α) :=
  match check with
  | none => none
  | some (.error error) => some (.error error)
  | some (.ok ()) => next

def validateStandard (text : Bytes) : Option (Except Base64Error ℕ) :=
  if text.length % 4 ≠ 0 then some (.error invalidLength)
  else if text.length = 0 then some (.ok 0)
  else do
    let last ← load text (text.length - 1)
    let before ← load text (text.length - 2)
    let padding := if before = 61 then 2 else if last = 61 then 1 else 0
    let contentLen := text.length - padding
    andThen (validateDigits text false contentLen (contentLen + 1) 0)
      (andThen (validatePadding text (padding + 1) contentLen)
        (andThen (if padding = 1 then validateFinal text false contentLen 4 else some (.ok ()))
          (andThen (if padding = 2 then validateFinal text false contentLen 16 else some (.ok ())) do
            let decoded ← checkedSub (text.length / 4 * 3) padding
            some (.ok decoded))))

def validateUrl (text : Bytes) : Option (Except Base64Error ℕ) :=
  let remainder := text.length % 4
  if remainder = 1 then some (.error invalidLength)
  else
    andThen (validateDigits text true text.length (text.length + 1) 0)
      (andThen (if remainder = 2 then validateFinal text true text.length 16 else some (.ok ()))
        (andThen (if remainder = 3 then validateFinal text true text.length 4 else some (.ok ()))
          (some (.ok (text.length / 4 * 3 + if remainder = 0 then 0 else remainder - 1)))))

def validatedDecodedLen (text : Bytes) (url : Bool) : Option (Except Base64Error ℕ) :=
  if url then validateUrl text else validateStandard text

/-- The loop of `write_encoded` over whole groups of three bytes. -/
def writeGroups (input : Bytes) (url : Bool) : ℕ → ℕ → ℕ → Bytes → Option (ℕ × ℕ × Bytes)
  | 0, _, _, _ => none
  | passes + 1, inputOffset, outputOffset, output =>
    if inputOffset + 3 ≤ input.length then do
      let first ← load input inputOffset
      let second ← load input (inputOffset + 1)
      let third ← load input (inputOffset + 2)
      let output ← store output outputOffset (digit (first / 4) url)
      let output ← store output (outputOffset + 1) (digit (first % 4 * 16 + second / 16) url)
      let output ← store output (outputOffset + 2) (digit (second % 16 * 4 + third / 64) url)
      let output ← store output (outputOffset + 3) (digit (third % 64) url)
      writeGroups input url passes (inputOffset + 3) (outputOffset + 4) output
    else some (inputOffset, outputOffset, output)

/-- The padding that the standard profile has behind the last digit. -/
def writePadding (url : Bool) : ℕ → ℕ → Bytes → Option (ℕ × Bytes)
  | 0, outputOffset, output => some (outputOffset, output)
  | count + 1, outputOffset, output =>
    if url then some (outputOffset, output)
    else do
      let output ← store output outputOffset 61
      writePadding url count (outputOffset + 1) output

/-- The part of `write_encoded` behind its loop, for fewer than three bytes. -/
def writeTail (input : Bytes) (url : Bool) (inputOffset outputOffset : ℕ) (output : Bytes) :
    Option (ℕ × Bytes) := do
  let remaining ← checkedSub input.length inputOffset
  if remaining = 1 then
    let first ← load input inputOffset
    let output ← store output outputOffset (digit (first / 4) url)
    let output ← store output (outputOffset + 1) (digit (first % 4 * 16) url)
    writePadding url 2 (outputOffset + 2) output
  else if remaining = 2 then
    let first ← load input inputOffset
    let second ← load input (inputOffset + 1)
    let output ← store output outputOffset (digit (first / 4) url)
    let output ← store output (outputOffset + 1) (digit (first % 4 * 16 + second / 16) url)
    let output ← store output (outputOffset + 2) (digit (second % 16 * 4) url)
    writePadding url 1 (outputOffset + 3) output
  else some (outputOffset, output)

def writeEncoded (input output : Bytes) (url : Bool) : Option (ℕ × Bytes) := do
  let (inputOffset, outputOffset, output) ← writeGroups input url (input.length + 1) 0 0 output
  writeTail input url inputOffset outputOffset output

/-- The value of a digit of a checked text. Another byte aborts. -/
def loadDigit (text : Bytes) (url : Bool) (index : ℕ) : Option ℕ := do
  let byte ← load text index
  digitValue byte url

/-- The loop of `write_decoded`. -/
def writeGroupsDecoded (text : Bytes) (outputLen : ℕ) (url : Bool) :
    ℕ → ℕ → ℕ → Bytes → Option Bytes
  | 0, _, _, _ => none
  | passes + 1, inputOffset, outputOffset, output =>
    if outputOffset < outputLen then do
      let first ← loadDigit text url inputOffset
      let second ← loadDigit text url (inputOffset + 1)
      let output ← store output outputOffset (first * 4 + second / 16)
      if outputOffset + 1 < outputLen then
        let third ← loadDigit text url (inputOffset + 2)
        let output ← store output (outputOffset + 1) (second % 16 * 16 + third / 4)
        if outputOffset + 2 < outputLen then
          let fourth ← loadDigit text url (inputOffset + 3)
          let output ← store output (outputOffset + 2) (third % 4 * 64 + fourth)
          writeGroupsDecoded text outputLen url passes (inputOffset + 4) (outputOffset + 3) output
        else writeGroupsDecoded text outputLen url passes (inputOffset + 4) (outputOffset + 2) output
      else writeGroupsDecoded text outputLen url passes (inputOffset + 4) (outputOffset + 1) output
    else some output

def writeDecoded (text output : Bytes) (outputLen : ℕ) (url : Bool) : Option Bytes :=
  writeGroupsDecoded text outputLen url (outputLen + 1) 0 0 output

/-- The result and the output storage behind it. -/
def encodeProfileInto (input output : Bytes) (url : Bool) : Option (Except Base64Error ℕ × Bytes) :=
  match encodedLen input.length url with
  | .error error => some (.error error, output)
  | .ok required =>
    if output.length < required then some (.error outputTooSmall, output)
    else do
      let (written, output) ← writeEncoded input output url
      some (.ok written, output)

/-- A length that is not representable cannot be allocated. -/
def encodeProfile (input : Bytes) (url : Bool) : Option Bytes :=
  match encodedLen input.length url with
  | .error _ => none
  | .ok required => do
    let (_, bytes) ← writeEncoded input (List.replicate required 0) url
    if Text.isValidUtf8 bytes then some bytes else none

def decodeProfileInto (text output : Bytes) (url : Bool) :
    Option (Except Base64Error ℕ × Bytes) := do
  match ← validatedDecodedLen text url with
  | .error error => some (.error error, output)
  | .ok required =>
    if output.length < required then some (.error outputTooSmall, output)
    else do
      let output ← writeDecoded text output required url
      some (.ok required, output)

def decodeProfile (text : Bytes) (url : Bool) : Option (Except Base64Error Bytes) := do
  match ← validatedDecodedLen text url with
  | .error error => some (.error error)
  | .ok required => do
    let output ← writeDecoded text (List.replicate required 0) required url
    some (.ok output)

def encode (input : Bytes) : Option Bytes := encodeProfile input false

def encodeInto (input output : Bytes) : Option (Except Base64Error ℕ × Bytes) :=
  encodeProfileInto input output false

def decode (text : Bytes) : Option (Except Base64Error Bytes) := decodeProfile text false

def decodeInto (text output : Bytes) : Option (Except Base64Error ℕ × Bytes) :=
  decodeProfileInto text output false

def encodeUrl (input : Bytes) : Option Bytes := encodeProfile input true

def encodeUrlInto (input output : Bytes) : Option (Except Base64Error ℕ × Bytes) :=
  encodeProfileInto input output true

def decodeUrl (text : Bytes) : Option (Except Base64Error Bytes) := decodeProfile text true

def decodeUrlInto (text output : Bytes) : Option (Except Base64Error ℕ × Bytes) :=
  decodeProfileInto text output true

end Nocter.Base64

/-!
# Digits and bytes

Three bytes are four digits of six bits. A text is canonical when its digits are followed by
the padding of its profile and the bits that no byte holds are zero.
-/

namespace Nocter.Base64

/-- The digits of six bits that bytes consist of. -/
def sextets : Bytes → List ℕ
  | first :: second :: third :: rest =>
    first.toNat / 4 :: (first.toNat % 4 * 16 + second.toNat / 16) ::
      (second.toNat % 16 * 4 + third.toNat / 64) :: third.toNat % 64 :: sextets rest
  | [first, second] =>
    [first.toNat / 4, first.toNat % 4 * 16 + second.toNat / 16, second.toNat % 16 * 4]
  | [first] => [first.toNat / 4, first.toNat % 4 * 16]
  | [] => []

/-- The bytes that digits of six bits consist of. -/
def octets : List ℕ → Bytes
  | first :: second :: third :: fourth :: rest =>
    UInt8.ofNat (first * 4 + second / 16) :: UInt8.ofNat (second % 16 * 16 + third / 4) ::
      UInt8.ofNat (third % 4 * 64 + fourth) :: octets rest
  | [first, second, third] =>
    [UInt8.ofNat (first * 4 + second / 16), UInt8.ofNat (second % 16 * 16 + third / 4)]
  | [first, second] => [UInt8.ofNat (first * 4 + second / 16)]
  | _ => []

/-- The digits of some bytes: the bits behind the last byte are zero. -/
def WholeBytes : List ℕ → Prop
  | first :: second :: third :: fourth :: rest =>
    first < 64 ∧ second < 64 ∧ third < 64 ∧ fourth < 64 ∧ WholeBytes rest
  | [first, second, third] => first < 64 ∧ second < 64 ∧ third < 64 ∧ third % 4 = 0
  | [first, second] => first < 64 ∧ second < 64 ∧ second % 16 = 0
  | [_] => False
  | [] => True

def paddingLength (url : Bool) (count : ℕ) : ℕ := if url then 0 else (4 - count % 4) % 4

def digitByte (url : Bool) (value : ℕ) : UInt8 := UInt8.ofNat (digit value url)

/-- The text of digits in a profile. -/
def spell (url : Bool) (digits : List ℕ) : Bytes :=
  digits.map (digitByte url) ++ List.replicate (paddingLength url digits.length) 61

/-- The text is a canonical encoding of the bytes of the digits. -/
def Canonical (url : Bool) (text : Bytes) (digits : List ℕ) : Prop :=
  WholeBytes digits ∧ text = spell url digits

/-- The length of the text of so many bytes. -/
def encodedLength (url : Bool) (inputLen : ℕ) : ℕ :=
  if url then (inputLen * 4 + 2) / 3 else (inputLen + 2) / 3 * 4

theorem ofNat_eq (b : UInt8) {value : ℕ} (h : value = b.toNat) : UInt8.ofNat value = b := by
  rw [h, UInt8.ofNat_toNat]

theorem toNat_ofNat {value : ℕ} (h : value < 256) : (UInt8.ofNat value).toNat = value :=
  UInt8.toNat_ofNat_of_lt' h

theorem wholeBytes_sextets (input : Bytes) : WholeBytes (sextets input) := by
  induction input using sextets.induct with
  | case1 first second third rest ih =>
    have h₁ := first.toNat_lt
    have h₂ := second.toNat_lt
    have h₃ := third.toNat_lt
    rw [sextets]
    exact ⟨by omega, by omega, by omega, by omega, ih⟩
  | case2 first second =>
    have h₁ := first.toNat_lt
    have h₂ := second.toNat_lt
    exact ⟨by omega, by omega, by omega, by omega⟩
  | case3 first =>
    have h₁ := first.toNat_lt
    exact ⟨by omega, by omega, by omega⟩
  | case4 => trivial

/-- The digits of bytes stand for the bytes. -/
theorem octets_sextets (input : Bytes) : octets (sextets input) = input := by
  induction input using sextets.induct with
  | case1 first second third rest ih =>
    have h₁ := first.toNat_lt
    have h₂ := second.toNat_lt
    have h₃ := third.toNat_lt
    rw [sextets, octets, ih, ofNat_eq first (by omega), ofNat_eq second (by omega),
      ofNat_eq third (by omega)]
  | case2 first second =>
    have h₁ := first.toNat_lt
    have h₂ := second.toNat_lt
    rw [sextets, octets, ofNat_eq first (by omega), ofNat_eq second (by omega)]
  | case3 first =>
    have h₁ := first.toNat_lt
    rw [sextets, octets, ofNat_eq first (by omega)]
  | case4 => rfl

/-- Digits without bits behind the last byte are the digits of their bytes. -/
theorem sextets_octets {digits : List ℕ} (h : WholeBytes digits) :
    sextets (octets digits) = digits := by
  induction digits using octets.induct with
  | case1 first second third fourth rest ih =>
    obtain ⟨h₁, h₂, h₃, h₄, hrest⟩ := h
    rw [octets, sextets, ih hrest, toNat_ofNat (by omega), toNat_ofNat (by omega),
      toNat_ofNat (by omega)]
    congr 1
    · omega
    · congr 1
      · omega
      · congr 1
        · omega
        · congr 1
          omega
  | case2 first second third =>
    obtain ⟨h₁, h₂, h₃, hzero⟩ := h
    rw [octets, sextets, toNat_ofNat (by omega), toNat_ofNat (by omega)]
    congr 1
    · omega
    · congr 1
      · omega
      · congr 1
        omega
  | case3 first second =>
    obtain ⟨h₁, h₂, hzero⟩ := h
    rw [octets, sextets, toNat_ofNat (by omega)]
    congr 1
    · omega
    · congr 1
      omega
  | case4 digits hfour hthree htwo =>
    rcases digits with _ | ⟨first, _ | ⟨second, _ | ⟨third, _ | ⟨fourth, rest⟩⟩⟩⟩
    · rfl
    · exact h.elim
    · exact absurd rfl (htwo first second)
    · exact absurd rfl (hthree first second third)
    · exact absurd rfl (hfour first second third fourth rest)

theorem length_sextets (input : Bytes) : (sextets input).length = (input.length * 4 + 2) / 3 := by
  induction input using sextets.induct with
  | case1 first second third rest ih =>
    rw [sextets]
    simp only [List.length_cons, ih]
    omega
  | case2 first second => simp only [sextets, List.length_cons, List.length_nil, Nat.reduceAdd,
      Nat.reduceMul, Nat.reduceDiv]
  | case3 first => simp only [sextets, List.length_cons, List.length_nil, Nat.reduceAdd,
      Nat.reduceMul, Nat.reduceDiv]
  | case4 => rfl

/-- The number of bytes decides the number of digits, and the other way. -/
theorem length_octets {digits : List ℕ} (h : WholeBytes digits) :
    digits.length = ((octets digits).length * 4 + 2) / 3 := by
  rw [← length_sextets, sextets_octets h]

theorem length_spell (url : Bool) (input : Bytes) :
    (spell url (sextets input)).length = encodedLength url input.length := by
  rw [spell, List.length_append, List.length_map, List.length_replicate, length_sextets,
    paddingLength, encodedLength]
  cases url with
  | true => rfl
  | false =>
    simp only [Bool.false_eq_true, if_false]
    omega

theorem digit_lt {value : ℕ} (h : value < 64) (url : Bool) : digit value url < 256 := by
  unfold digit urlDigit standardDigit
  split_ifs <;> omega

theorem digitValue_digit {value : ℕ} (h : value < 64) (url : Bool) :
    digitValue (digit value url) url = some value := by
  unfold digit urlDigit standardDigit digitValue
  cases url with
  | true =>
    simp only [if_true]
    split_ifs <;> first | omega | exact congrArg some (by omega)
  | false =>
    simp only [Bool.false_eq_true, if_false]
    split_ifs <;> first | omega | exact congrArg some (by omega)

theorem digit_of_digitValue {byte value : ℕ} {url : Bool} (h : digitValue byte url = some value) :
    value < 64 ∧ digit value url = byte := by
  unfold digitValue at h
  unfold digit urlDigit standardDigit
  cases url with
  | true =>
    simp only [if_true] at h ⊢
    split_ifs at h <;> cases h <;> refine ⟨by omega, ?_⟩ <;> split_ifs <;> omega
  | false =>
    simp only [Bool.false_eq_true, if_false] at h ⊢
    split_ifs at h <;> cases h <;> refine ⟨by omega, ?_⟩ <;> split_ifs <;> omega

theorem toNat_digitByte {value : ℕ} (h : value < 64) (url : Bool) :
    (digitByte url value).toNat = digit value url := toNat_ofNat (digit_lt h url)

end Nocter.Base64
