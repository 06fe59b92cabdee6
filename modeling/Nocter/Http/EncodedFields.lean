import Nocter.Http.HeadBlocks
import Nocter.Library.Numeral

/-!
# Wire encoding

Appending text, numbers and header fields to an output, and the capacity check
that a head passes before anything is written.
-/

namespace Nocter.Http

def reservedHeader : HttpError :=
  ⟨"std.http.reserved_header", "HTTP connection and framing fields are protocol-owned"⟩

inductive ReservedFieldPolicy where
  | requestFraming
  | serverResponse
  deriving DecidableEq

def reservedProtocolField (name : Bytes) (policy : ReservedFieldPolicy) : Bool :=
  name = text "content-length" || name = text "transfer-encoding" ||
    match policy with
    | .requestFraming => false
    | .serverResponse => name = text "connection"

/-- A server reserves every field that frames a request. -/
theorem reservedProtocolField_requestFraming {name : Bytes}
    (h : reservedProtocolField name .serverResponse = false) :
    reservedProtocolField name .requestFraming = false := by
  simp only [reservedProtocolField, Bool.or_eq_false_iff] at h ⊢
  exact ⟨h.1, trivial⟩

def reservedProtocolFailure : ReservedFieldPolicy → HttpError
  | .requestFraming => ambiguousFraming
  | .serverResponse => reservedHeader

/-- `append_text` and `append_bytes`. -/
def appendBytes (output bytes : Bytes) : Bytes := output ++ bytes

/-- The byte that `append_decimal` pushes for a remainder. -/
def decimalByte (digit : ℕ) : UInt8 := UInt8.ofNat digit + 48

/-- The byte that `append_hexadecimal` pushes for a remainder. -/
def hexadecimalByte (digit : ℕ) : UInt8 :=
  let digit := UInt8.ofNat digit
  if digit < 10 then digit + 48 else digit - 10 + 97

/-- The loops of the source push the remainders from the last digit on and then
reverse them in place. -/
def appendDecimal (output : Bytes) (value : ℕ) : Bytes :=
  output ++ (numeral 10 value).map decimalByte

def appendHexadecimal (output : Bytes) (value : ℕ) : Bytes :=
  output ++ (numeral 16 value).map hexadecimalByte

/-- `decimal_digits`. -/
def countDecimalDigits (value : ℕ) : ℕ :=
  if value < 10 then 1 else countDecimalDigits (value / 10) + 1

def contentLengthFieldBytes (bodyLength : ℕ) : ℕ := 16 + countDecimalDigits bodyLength

/-- The bytes of a field without its line end. -/
def Header.fieldBytes (header : Header) : ℕ := header.name.length + 2 + header.value.length

/-- The loop of `checked_head_capacity`. -/
def headCapacityLoop (limits : Limits) (policy : ReservedFieldPolicy) :
    ℕ → Headers → Except HttpError ℕ
  | estimate, [] => .ok estimate
  | estimate, header :: rest =>
    if reservedProtocolField header.name policy then .error (reservedProtocolFailure policy)
    else if header.fieldBytes > limits.fieldBytes then .error syntaxLimit
    else if header.fieldBytes + 2 > limits.headerBytes ∨
        estimate > limits.headerBytes - header.fieldBytes - 2 then .error syntaxLimit
    else headCapacityLoop limits policy (estimate + (header.fieldBytes + 2)) rest

def checkedHeadCapacity (startLineBytes : ℕ) (headers : Headers)
    (generatedFieldCount generatedSectionBytes : ℕ) (limits : Limits)
    (policy : ReservedFieldPolicy) : Except HttpError ℕ :=
  if startLineBytes > limits.startLineBytes then .error syntaxLimit
  else if generatedFieldCount > limits.headerCount ∨
      headers.length > limits.headerCount - generatedFieldCount ∨
      generatedSectionBytes > limits.headerBytes then .error syntaxLimit
  else
    match headCapacityLoop limits policy (startLineBytes + 2) headers with
    | .error failure => .error failure
    | .ok estimate =>
      if generatedSectionBytes + 2 > limits.headerBytes ∨
          estimate > limits.headerBytes - generatedSectionBytes - 2 then .error syntaxLimit
      else .ok (estimate + generatedSectionBytes + 2)

def appendField (output : Bytes) (header : Header) : Bytes :=
  appendBytes (appendBytes (appendBytes (appendBytes output header.name) (text ": ")) header.value)
    (text "\r\n")

def appendFields (output : Bytes) (headers : Headers) : Bytes := headers.foldl appendField output

def appendContentLength (output : Bytes) (bodyLength : ℕ) : Bytes :=
  appendBytes (appendDecimal (appendBytes output (text "content-length: ")) bodyLength) (text "\r\n")

def appendTransferEncodingChunked (output : Bytes) : Bytes :=
  appendBytes output (text "transfer-encoding: chunked\r\n")

def appendConnectionClose (output : Bytes) : Bytes := appendBytes output (text "connection: close\r\n")

/-- A header as its constructors build it: the name and the value have been parsed. -/
def Header.Built (header : Header) : Prop :=
  (∃ name, headerName name = .ok header.name) ∧ ∃ value, headerValue value = .ok header.value

end Nocter.Http

/-!
# Reading encoded fields

A field whose name and value have been parsed is read back from its line as it
was, and a numeral is read back as its number.
-/

namespace Nocter.Http

theorem decimalByte_read : ∀ digit < 10,
    48 ≤ decimalByte digit ∧ decimalByte digit ≤ 57 ∧ (decimalByte digit - 48).toNat = digit := by
  decide

theorem hexDigit_hexadecimalByte : ∀ digit < 16, hexDigit (hexadecimalByte digit) = some digit := by
  decide

theorem decimalDigits_map {value : ℕ} {digits : List ℕ} (hdigits : ∀ digit ∈ digits, digit < 10)
    (h : readDigits 10 value digits ≤ 18446744073709551615) :
    decimalDigits value (digits.map decimalByte) = some (readDigits 10 value digits, []) := by
  induction digits generalizing value with
  | nil => rfl
  | cons digit digits ih =>
    rw [List.forall_mem_cons] at hdigits
    obtain ⟨hlow, hhigh, hread⟩ := decimalByte_read digit hdigits.1
    rw [readDigits] at h
    have hle := (le_readDigits (by decide) (value * 10 + digit) digits).trans h
    rw [List.map_cons, decimalDigits, if_pos ⟨hlow, hhigh⟩, hread, if_neg (by omega),
      ih hdigits.2 h, readDigits]

theorem hexValue_map {value : ℕ} {digits : List ℕ} (hdigits : ∀ digit ∈ digits, digit < 16)
    (h : readDigits 16 value digits ≤ 18446744073709551615) :
    hexValue value (digits.map hexadecimalByte) = some (readDigits 16 value digits) := by
  induction digits generalizing value with
  | nil => rfl
  | cons digit digits ih =>
    rw [List.forall_mem_cons] at hdigits
    rw [readDigits] at h
    have hle := (le_readDigits (by decide) (value * 16 + digit) digits).trans h
    rw [List.map_cons, hexValue, hexDigit_hexadecimalByte digit hdigits.1]
    dsimp only
    rw [if_neg (by omega), ih hdigits.2 h, readDigits]

/-- The bytes of a decimal numeral. -/
abbrev decimalText (value : ℕ) : Bytes := (numeral 10 value).map decimalByte

/-- The bytes of a hexadecimal numeral. -/
abbrev hexadecimalText (value : ℕ) : Bytes := (numeral 16 value).map hexadecimalByte

theorem decimalByte_plain : ∀ digit < 10,
    isBlank (decimalByte digit) = false ∧ validHeaderValueByte (decimalByte digit) = true := by
  decide

theorem mem_decimalText {value : ℕ} {byte : UInt8} (h : byte ∈ decimalText value) :
    isBlank byte = false ∧ validHeaderValueByte byte = true := by
  obtain ⟨digit, hdigit, rfl⟩ := List.mem_map.mp h
  exact decimalByte_plain digit (lt_of_mem_numeral (by decide) hdigit)

theorem hexadecimalByte_plain : ∀ digit < 16, hexadecimalByte digit ≠ 10 ∧
    hexadecimalByte digit ≠ 13 ∧ hexadecimalByte digit ≠ 59 ∧ isBlank (hexadecimalByte digit) = false := by
  decide

theorem mem_hexadecimalText {value : ℕ} {byte : UInt8} (h : byte ∈ hexadecimalText value) :
    byte ≠ 10 ∧ byte ≠ 13 ∧ byte ≠ 59 ∧ isBlank byte = false := by
  obtain ⟨digit, hdigit, rfl⟩ := List.mem_map.mp h
  exact hexadecimalByte_plain digit (lt_of_mem_numeral (by decide) hdigit)

theorem decimalText_length (value : ℕ) : (decimalText value).length = countDecimalDigits value := by
  rw [List.length_map]
  induction value using Nat.strong_induction_on with
  | _ value ih =>
    rw [countDecimalDigits]
    by_cases h : value < 10
    · rw [if_pos h, numeral_of_lt h, List.length_singleton]
    · rw [if_neg h, numeral_of_le (by decide) (by omega), List.length_append, List.length_singleton,
      ih (value / 10) (by omega)]

/-- No byte of a text without blanks is trimmed. -/
theorem dropWhile_of_forall_not {p : UInt8 → Bool} {bytes : Bytes} (h : ∀ byte ∈ bytes, p byte = false) :
    bytes.dropWhile p = bytes := by
  cases bytes with
  | nil => rfl
  | cons byte bytes =>
    rw [List.dropWhile_cons_of_neg]
    rw [h byte List.mem_cons_self]
    exact Bool.false_ne_true

theorem rdropWhile_of_forall_not {p : UInt8 → Bool} {bytes : Bytes}
    (h : ∀ byte ∈ bytes, p byte = false) : bytes.rdropWhile p = bytes := by
  rw [List.rdropWhile, dropWhile_of_forall_not fun byte hmem => h byte (List.mem_reverse.mp hmem),
    List.reverse_reverse]

theorem parseHexSize_hexadecimalText {value : ℕ} (h : value ≤ 18446744073709551615) :
    parseHexSize (hexadecimalText value) = some value := by
  have hplain : ∀ byte ∈ hexadecimalText value, (decide (byte ≠ 59)) = true := by
    intro byte hmem
    exact decide_eq_true (mem_hexadecimalText hmem).2.2.1
  have hread : hexValue 0 (hexadecimalText value) = some value := by
    rw [hexValue_map (fun digit hmem => lt_of_mem_numeral (by decide) hmem), readDigits_numeral]
    rw [readDigits_numeral]
    exact h
  unfold parseHexSize
  rw [List.takeWhile_eq_self_iff.mpr hplain, List.dropWhile_eq_nil_iff.mpr hplain]
  dsimp only
  rw [rdropWhile_of_forall_not fun byte hmem => (mem_hexadecimalText hmem).2.2.2,
    if_neg (by rw [List.map_eq_nil_iff]; exact numeral_ne_nil _ _), hread]
  dsimp only
  rw [if_neg (by simp), if_neg (by simp)]

theorem parseDecimalList_decimalText {value : ℕ} (h : value ≤ 18446744073709551615) :
    parseDecimalList (decimalText value) = some value := by
  have hne : decimalText value ≠ [] := by
    rw [ne_eq, List.map_eq_nil_iff]
    exact numeral_ne_nil _ _
  have hread : decimalDigits 0 (decimalText value) = some (value, []) := by
    rw [decimalDigits_map (fun digit hmem => lt_of_mem_numeral (by decide) hmem), readDigits_numeral]
    rw [readDigits_numeral]
    exact h
  refine Loop.iterate_of_done ?_
  unfold decimalListStep
  dsimp only
  rw [dropWhile_of_forall_not fun byte hmem => (mem_decimalText hmem).1, if_neg hne, hread]
  dsimp only
  rw [if_neg fun hlength => hne (List.length_eq_zero_iff.mp hlength.symm), if_neg (by simp)]
  rfl

/-- The bytes of a field as it is written, without the line end. -/
def Header.line (header : Header) : Bytes := header.name ++ 58 :: 32 :: header.value

/-- A header whose name and value are read from its line as they are. -/
structure Header.Canonical (header : Header) : Prop where
  name : headerName header.name = .ok header.name
  value : headerValue (32 :: header.value) = .ok header.value

theorem headerName_ok {bytes name : Bytes} (h : headerName bytes = .ok name) :
    bytes ≠ [] ∧ bytes.all isTokenByte = true ∧ name = bytes.map asciiLower := by
  unfold headerName at h
  split at h
  · cases h
  · next hne =>
    split at h
    · cases h
    · next htoken =>
      cases h
      exact ⟨hne, by rwa [Bool.not_eq_false] at htoken, rfl⟩

theorem headerValue_ok {bytes value : Bytes} (h : headerValue bytes = .ok value) :
    value.all validHeaderValueByte = true ∧
      value = (bytes.dropWhile isBlank).rdropWhile isBlank := by
  unfold headerValue at h
  dsimp only at h
  split at h
  · cases h
  · next hvalid =>
    cases h
    exact ⟨by rwa [Bool.not_eq_false] at hvalid, rfl⟩

theorem asciiLower_token : ∀ byte : UInt8, isTokenByte byte = true →
    isTokenByte (asciiLower byte) = true ∧ asciiLower (asciiLower byte) = asciiLower byte := by
  rintro ⟨⟨byte⟩⟩
  revert byte
  decide +kernel

/-- What is left of a text whose blanks have been trimmed at both ends is trimmed. -/
theorem dropWhile_rdropWhile {p : UInt8 → Bool} (bytes : Bytes) :
    ((bytes.dropWhile p).rdropWhile p).dropWhile p = (bytes.dropWhile p).rdropWhile p := by
  cases htrim : (bytes.dropWhile p).rdropWhile p with
  | nil => rfl
  | cons byte rest =>
    obtain ⟨tail, htail⟩ := List.rdropWhile_prefix p (bytes.dropWhile p)
    rw [htrim, List.cons_append] at htail
    have hbyte := List.head_dropWhile_not p (l := bytes) (by rw [← htail]; exact List.cons_ne_nil _ _)
    rw [List.dropWhile_cons_of_neg]
    simp only [← htail, List.head_cons] at hbyte
    rw [hbyte]
    exact Bool.false_ne_true

theorem headerName_lower {name : Bytes} (hne : name ≠ []) (htoken : name.all isTokenByte = true) :
    headerName (name.map asciiLower) = .ok (name.map asciiLower) := by
  rw [List.all_eq_true] at htoken
  have htoken' : (name.map asciiLower).all isTokenByte = true := by
    rw [List.all_eq_true]
    intro byte hmem
    obtain ⟨upper, hupper, rfl⟩ := List.mem_map.mp hmem
    exact (asciiLower_token upper (htoken upper hupper)).1
  have hlower : (name.map asciiLower).map asciiLower = name.map asciiLower := by
    rw [List.map_map, List.map_inj_left]
    exact fun byte hmem => (asciiLower_token byte (htoken byte hmem)).2
  unfold headerName
  rw [if_neg (by rwa [List.map_eq_nil_iff]), htoken', if_neg (by decide), hlower]

theorem headerValue_trimmed {value : Bytes} (hvalid : value.all validHeaderValueByte = true)
    (hfront : value.dropWhile isBlank = value) (hback : value.rdropWhile isBlank = value) :
    headerValue (32 :: value) = .ok value := by
  unfold headerValue
  rw [List.dropWhile_cons_of_pos (by decide), hfront, hback]
  dsimp only
  rw [hvalid, if_neg (by decide)]

theorem Header.Built.canonical {header : Header} (h : header.Built) : header.Canonical := by
  obtain ⟨⟨name, hname⟩, value, hvalue⟩ := h
  constructor
  · obtain ⟨hne, htoken, hlower⟩ := headerName_ok hname
    rw [hlower]
    exact headerName_lower hne htoken
  · obtain ⟨hvalid, htrim⟩ := headerValue_ok hvalue
    refine headerValue_trimmed hvalid ?_ ?_
    · rw [htrim]
      exact dropWhile_rdropWhile value
    · rw [htrim]
      exact List.rdropWhile_idempotent ..

theorem token_plain : ∀ byte : UInt8, isTokenByte byte = true → byte ≠ 10 ∧ byte ≠ 13 ∧ byte ≠ 58 := by
  rintro ⟨⟨byte⟩⟩
  revert byte
  decide +kernel

theorem value_plain : ∀ byte : UInt8, validHeaderValueByte byte = true → byte ≠ 10 ∧ byte ≠ 13 := by
  rintro ⟨⟨byte⟩⟩
  revert byte
  decide +kernel

theorem Header.line_ne_nil (header : Header) : header.line ≠ [] := by
  rw [Header.line]
  exact List.append_ne_nil_of_right_ne_nil _ (List.cons_ne_nil _ _)

/-- The evidence for the framing in one field. -/
def retainEvidence (fields : MessageFields) (header : Header) : Except HttpError MessageFields :=
  if header.name = text "content-length" then retainContentLength fields header.value
  else if header.name = text "transfer-encoding" then retainTransferEncoding fields header.value
  else .ok fields

namespace Header.Canonical

variable {header : Header} (h : header.Canonical)

include h

theorem mem_name {byte : UInt8} (hmem : byte ∈ header.name) : byte ≠ 10 ∧ byte ≠ 13 ∧ byte ≠ 58 :=
  token_plain byte (List.all_eq_true.mp (headerName_ok h.name).2.1 byte hmem)

theorem mem_line {byte : UInt8} (hmem : byte ∈ header.line) : byte ≠ 10 ∧ byte ≠ 13 := by
  rw [Header.line, List.mem_append, List.mem_cons, List.mem_cons] at hmem
  rcases hmem with hname | rfl | rfl | hvalue
  · exact ⟨(h.mem_name hname).1, (h.mem_name hname).2.1⟩
  · decide
  · decide
  · exact value_plain byte (List.all_eq_true.mp (headerValue_ok h.value).1 byte hvalue)

theorem takeWhile_line : header.line.takeWhile (· ≠ 58) = header.name := by
  rw [Header.line, List.takeWhile_append_of_pos fun byte hmem => decide_eq_true (h.mem_name hmem).2.2,
    List.takeWhile_cons_of_neg (by decide), List.append_nil]

/-- What the line of a field adds to the fields read so far. -/
theorem retain_line {fields : MessageFields} {limits : Limits}
    (hcount : fields.headers.length ≠ limits.headerCount) :
    retainMessageField fields header.line limits = (retainEvidence fields header).map
      fun fields => { fields with headers := fields.headers ++ [header] } := by
  have hname : header.name ≠ header.line := by
    intro heq
    have hlength := congrArg List.length heq
    rw [Header.line, List.length_append, List.length_cons] at hlength
    omega
  have hvalue : header.line.drop (header.name.length + 1) = 32 :: header.value := by
    rw [Header.line, List.drop_append, List.drop_eq_nil_of_le (by omega), List.nil_append,
      Nat.add_sub_cancel_left]
    rfl
  unfold retainMessageField retainEvidence
  rw [if_neg hcount]
  dsimp only
  rw [h.takeWhile_line, if_neg hname, hvalue, h.name, h.value]
  simp only [bind, Except.bind, pure, Except.pure]
  by_cases hlength : header.name = text "content-length"
  · have htransfer : header.name ≠ text "transfer-encoding" := by
      rw [hlength]
      decide
    simp only [if_pos hlength, if_neg htransfer]
    cases retainContentLength fields header.value <;> rfl
  · simp only [if_neg hlength]
    by_cases htransfer : header.name = text "transfer-encoding"
    · simp only [if_pos htransfer]
      cases retainTransferEncoding fields header.value <;> rfl
    · simp only [if_neg htransfer]
      rfl

end Header.Canonical

/-- A field that has nothing to do with the framing is only retained. -/
theorem Header.Canonical.retain_plain {header : Header} (h : header.Canonical)
    {fields : MessageFields} {limits : Limits} (hcount : fields.headers.length ≠ limits.headerCount)
    (hplain : reservedProtocolField header.name .requestFraming = false) :
    retainMessageField fields header.line limits =
      .ok { fields with headers := fields.headers ++ [header] } := by
  simp only [reservedProtocolField, Bool.or_eq_false_iff, decide_eq_false_iff_not] at hplain
  rw [h.retain_line hcount, retainEvidence, if_neg hplain.1.1, if_neg hplain.1.2]
  rfl

/-- What follows a line and its line end. -/
theorem drop_line (line rest : Bytes) : (line ++ 13 :: 10 :: rest).drop (line.length + 2) = rest := by
  rw [List.drop_append, List.drop_eq_nil_of_le (by omega), List.nil_append, Nat.add_sub_cancel_left]
  rfl

/-- The section of a head in which these fields stand. -/
def encodeFields (headers : Headers) : Bytes := headers.flatMap fun header => header.line ++ [13, 10]

@[simp] theorem encodeFields_nil : encodeFields [] = [] := rfl

theorem encodeFields_cons (header : Header) (headers : Headers) :
    encodeFields (header :: headers) = header.line ++ 13 :: 10 :: encodeFields headers := by
  rw [encodeFields, List.flatMap_cons, List.append_assoc]
  rfl

theorem encodeFields_append (headers more : Headers) :
    encodeFields (headers ++ more) = encodeFields headers ++ encodeFields more := List.flatMap_append

theorem appendField_eq (output : Bytes) (header : Header) :
    appendField output header = output ++ (header.line ++ [13, 10]) := by
  rw [appendField, appendBytes, appendBytes, appendBytes, appendBytes, Header.line, List.append_assoc,
    List.append_assoc, List.append_assoc, List.append_assoc]
  rfl

theorem appendFields_eq (output : Bytes) (headers : Headers) :
    appendFields output headers = output ++ encodeFields headers := by
  induction headers generalizing output with
  | nil => exact (List.append_nil output).symm
  | cons header headers ih =>
    rw [appendFields, List.foldl_cons, appendField_eq]
    refine (ih _).trans ?_
    rw [List.append_assoc, List.append_assoc, encodeFields_cons]
    rfl

theorem Header.line_length (header : Header) : header.line.length = header.fieldBytes := by
  rw [Header.line, Header.fieldBytes, List.length_append, List.length_cons, List.length_cons]
  omega

/-- What a head has that passes the loop of the capacity check. -/
theorem headCapacityLoop_ok {limits : Limits} {policy : ReservedFieldPolicy} {estimate total : ℕ}
    {headers : Headers} (h : headCapacityLoop limits policy estimate headers = .ok total) :
    total = estimate + (encodeFields headers).length ∧
      ∀ header ∈ headers, reservedProtocolField header.name policy = false ∧
        header.line.length ≤ limits.fieldBytes := by
  induction headers generalizing estimate with
  | nil =>
    cases h
    exact ⟨rfl, fun header hmem => by cases hmem⟩
  | cons header headers ih =>
    rw [headCapacityLoop] at h
    split at h
    · cases h
    next hreserved =>
    split at h
    · cases h
    next hfield =>
    split at h
    · cases h
    obtain ⟨htotal, hrest⟩ := ih h
    constructor
    · rw [htotal, encodeFields_cons, List.length_append, List.length_cons, List.length_cons,
        header.line_length]
      omega
    · rw [List.forall_mem_cons, header.line_length]
      exact ⟨⟨by rwa [Bool.not_eq_true] at hreserved, Nat.not_lt.mp hfield⟩, hrest⟩

theorem checkedHeadCapacity_ok {startLineBytes generatedCount generatedBytes capacity : ℕ}
    {headers : Headers} {limits : Limits} {policy : ReservedFieldPolicy}
    (h : checkedHeadCapacity startLineBytes headers generatedCount generatedBytes limits policy =
      .ok capacity) :
    startLineBytes ≤ limits.startLineBytes ∧ headers.length + generatedCount ≤ limits.headerCount ∧
      capacity = startLineBytes + 2 + (encodeFields headers).length + generatedBytes + 2 ∧
      capacity ≤ limits.headerBytes ∧
      ∀ header ∈ headers, reservedProtocolField header.name policy = false ∧
        header.line.length ≤ limits.fieldBytes := by
  unfold checkedHeadCapacity at h
  split at h
  · cases h
  split at h
  · cases h
  split at h
  · cases h
  next estimate hloop =>
  obtain ⟨hestimate, hfields⟩ := headCapacityLoop_ok hloop
  split at h
  · cases h
  cases h
  exact ⟨by omega, by omega, by omega, by omega, hfields⟩

/-- The fields behind these lines. -/
def retainLines (limits : Limits) (fields : MessageFields) (headers : Headers) :
    Except HttpError MessageFields :=
  headers.foldlM (fun fields header => retainMessageField fields header.line limits) fields

theorem retainLines_cons {limits : Limits} {fields fields' : MessageFields} {header : Header}
    (headers : Headers) (h : retainMessageField fields header.line limits = .ok fields') :
    retainLines limits fields (header :: headers) = retainLines limits fields' headers := by
  rw [retainLines, List.foldlM_cons, h]
  rfl

theorem retainLines_append {limits : Limits} {fields fields' : MessageFields} {headers : Headers}
    (more : Headers) (h : retainLines limits fields headers = .ok fields') :
    retainLines limits fields (headers ++ more) = retainLines limits fields' more := by
  unfold retainLines at h ⊢
  rw [List.foldlM_append, h]
  rfl

theorem retainLines_plain {limits : Limits} {fields : MessageFields} {headers : Headers}
    (hcanonical : ∀ header ∈ headers, header.Canonical)
    (hplain : ∀ header ∈ headers, reservedProtocolField header.name .requestFraming = false)
    (hcount : fields.headers.length + headers.length ≤ limits.headerCount) :
    retainLines limits fields headers = .ok { fields with headers := fields.headers ++ headers } := by
  induction headers generalizing fields with
  | nil =>
    rw [List.append_nil]
    rfl
  | cons header headers ih =>
    rw [List.forall_mem_cons] at hcanonical hplain
    rw [List.length_cons] at hcount
    rw [retainLines_cons headers (hcanonical.1.retain_plain (by omega) hplain.1),
      ih hcanonical.2 hplain.2 (by rw [List.length_append, List.length_singleton]; omega),
      List.append_assoc]
    rfl

section OnWire

universe u v

variable {κ : Type u} {ρ : Type v} {grammar : HeadSyntax κ ρ} {limits : Limits}

theorem fieldLine_step (grammar : HeadSyntax κ ρ) (start : κ) (count : ℕ) {used : ℕ}
    {fields fields' : MessageFields} {header : Header} (rest : Bytes) (h : header.Canonical)
    (hlength : header.line.length ≤ limits.fieldBytes)
    (hused : used + header.line.length + 2 ≤ limits.headerBytes)
    (hretain : retainMessageField fields header.line limits = .ok fields') :
    headStep grammar limits (.fields start used fields count) (header.line ++ 13 :: 10 :: rest) =
      .take (header.line.length + 2) []
        (.fields start (used + header.line.length + 2) fields' count) := by
  rw [headStep, scanLine_of_line rest hlength (fun hmem => (h.mem_line hmem).1 rfl)
    (fun hmem => (h.mem_line hmem).2 rfl), onLine]
  rw [List.take_left, fieldLineStep, if_neg (by omega), if_neg header.line_ne_nil, hretain]

/-- The decoder reads a section of fields line by line. -/
theorem reaches_fields (grammar : HeadSyntax κ ρ) (start : κ) (count : ℕ) {used : ℕ}
    {fields fields' : MessageFields} {headers : Headers} (rest : Bytes) (hcanonical : ∀ header ∈ headers, header.Canonical)
    (hlength : ∀ header ∈ headers, header.line.length ≤ limits.fieldBytes)
    (hused : used + (encodeFields headers).length ≤ limits.headerBytes)
    (hretain : retainLines limits fields headers = .ok fields') :
    (headWire grammar limits).Reaches (.fields start used fields count)
      (encodeFields headers ++ rest) [] (encodeFields headers).length
      (.fields start (used + (encodeFields headers).length) fields' count) := by
  induction headers generalizing fields used with
  | nil =>
    cases hretain
    exact .refl _ _
  | cons header headers ih =>
    rw [List.forall_mem_cons] at hcanonical hlength
    have hsize : (encodeFields (header :: headers)).length =
        header.line.length + 2 + (encodeFields headers).length := by
      rw [encodeFields_cons, List.length_append, List.length_cons, List.length_cons]
      omega
    cases hline : retainMessageField fields header.line limits with
    | error failure =>
      rw [retainLines, List.foldlM_cons, hline] at hretain
      cases hretain
    | ok next =>
      rw [retainLines_cons headers hline] at hretain
      have hroom : used + header.line.length + 2 + (encodeFields headers).length ≤
          limits.headerBytes := by omega
      have hstep := fieldLine_step grammar start count (encodeFields headers ++ rest) hcanonical.1
        hlength.1 (Nat.le_of_add_right_le hroom) hline
      have htail := ih hcanonical.2 hlength.2 hroom hretain
      have hinput : encodeFields (header :: headers) ++ rest =
          header.line ++ 13 :: 10 :: (encodeFields headers ++ rest) := by
        rw [encodeFields_cons, List.append_assoc]
        rfl
      rw [← drop_line header.line (encodeFields headers ++ rest)] at htail
      have hreach := StreamDecoder.Reaches.take (D := headWire grammar limits)
        (s := .fields start used fields count) hstep htail
      rw [hsize, hinput, ← Nat.add_assoc, ← Nat.add_assoc]
      exact hreach

end OnWire

end Nocter.Http
