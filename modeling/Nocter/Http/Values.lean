import Nocter.Http.Body

/-!
# Message values

Methods, statuses, targets and header fields as they are read from a range of
the input. A text that consists of checked ASCII bytes is the list of its bytes.
-/

namespace Nocter.Http

def invalidMethod : HttpError :=
  ⟨"std.http.invalid_method", "HTTP method must be a non-empty token"⟩

def invalidStatus : HttpError :=
  ⟨"std.http.invalid_status", "HTTP status must contain three decimal digits"⟩

def invalidHeaderName : HttpError :=
  ⟨"std.http.invalid_header_name", "HTTP field name must be a non-empty token"⟩

def invalidHeaderValue : HttpError :=
  ⟨"std.http.invalid_header_value", "HTTP field value contains a forbidden control byte"⟩

def invalidTarget : HttpError :=
  ⟨"std.http.invalid_target", "HTTP request target must use non-empty origin form"⟩

def invalidHost : HttpError :=
  ⟨"std.http.invalid_host", "HTTP/1.1 request must contain exactly one non-empty Host field"⟩

abbrev Method := Bytes

/-- A status code of three digits. -/
structure Status where
  code : ℕ
  deriving DecidableEq

def Status.new (code : ℕ) : Except HttpError Status :=
  if code < 100 ∨ code > 999 then .error invalidStatus else .ok ⟨code⟩

def Status.isInformational (status : Status) : Bool := 100 ≤ status.code && status.code < 200

structure Header where
  name : Bytes
  value : Bytes
  deriving DecidableEq

abbrev Headers := List Header

/-- `header_name_from_range` on the bytes of the range. -/
def headerName (bytes : Bytes) : Except HttpError Bytes :=
  if bytes = [] then .error invalidHeaderName
  else if bytes.all isTokenByte = false then .error invalidHeaderName
  else .ok (bytes.map asciiLower)

/-- `header_value_from_range` on the bytes of the range. -/
def headerValue (bytes : Bytes) : Except HttpError Bytes :=
  let trimmed := (bytes.dropWhile isBlank).rdropWhile isBlank
  if trimmed.all validHeaderValueByte = false then .error invalidHeaderValue else .ok trimmed

/-- `method_from_range` on the bytes of the range. -/
def methodFromRange (bytes : Bytes) : Except HttpError Method :=
  if bytes = [] then .error invalidMethod
  else if bytes.all isTokenByte = false then .error invalidMethod
  else .ok bytes

structure RequestTargetSegment where
  start : ℕ
  stop : ℕ
  deriving DecidableEq

structure RequestTarget where
  text : Bytes
  queryStart : ℕ
  pathSegments : List RequestTargetSegment
  deriving DecidableEq

/-- A byte that a request target may hold outside a percent triplet. -/
def validTargetByte (value : UInt8) : Bool :=
  let alpha := (65 ≤ value && value ≤ 90) || (97 ≤ value && value ≤ 122)
  let digit := 48 ≤ value && value ≤ 57
  let unreserved := alpha || digit || value = 45 || value = 46 || value = 95 || value = 126
  let subDelimiter := value = 33 || value = 36 || value = 38 || value = 39 || value = 40 ||
    value = 41 || value = 42 || value = 43 || value = 44 || value = 59 || value = 61
  let pathOrQuery := value = 47 || value = 58 || value = 64 || value = 63
  unreserved || subDelimiter || pathOrQuery

/-- The loop of `valid_request_target_range`. -/
def validTargetBytes : Bytes → Bool
  | [] => true
  | 37 :: high :: low :: rest =>
    (hexDigit high).isSome && (hexDigit low).isSome && validTargetBytes rest
  | 37 :: _ => false
  | value :: rest => validTargetByte value && validTargetBytes rest

def validRequestTarget (bytes : Bytes) : Bool :=
  bytes.head? = some 47 && validTargetBytes bytes

def requestTargetQueryStart (text : Bytes) : ℕ := text.findIdx (· = 63) + 1

/-- The segments of the rest of a path whose current segment began at `start`. -/
def pathSegmentsLoop (start : ℕ) : ℕ → Bytes → List RequestTargetSegment
  | offset, [] => [⟨start, offset⟩]
  | offset, value :: rest =>
    if value = 47 then ⟨start, offset⟩ :: pathSegmentsLoop (offset + 1) (offset + 1) rest
    else pathSegmentsLoop start (offset + 1) rest

def requestTargetPathSegments (text : Bytes) (pathEnd : ℕ) : List RequestTargetSegment :=
  if pathEnd = 1 then [] else pathSegmentsLoop 1 1 ((text.take pathEnd).drop 1)

def requestTargetFromValidated (text : Bytes) : RequestTarget :=
  let queryStart := requestTargetQueryStart text
  let pathEnd := if queryStart ≤ text.length then queryStart - 1 else text.length
  { text := text, queryStart := queryStart, pathSegments := requestTargetPathSegments text pathEnd }

structure RequestHead where
  method : Method
  target : RequestTarget
  headers : Headers
  deriving DecidableEq

structure ResponseHead where
  status : Status
  headers : Headers
  deriving DecidableEq

/-- `request_head_from_ranges` on the bytes of the ranges. -/
def requestHeadFromRanges (method target : Bytes) (headers : Headers) :
    Except HttpError RequestHead :=
  if validRequestTarget target = false then .error invalidTarget
  else
    match methodFromRange method with
    | .error error => .error error
    | .ok method => .ok ⟨method, requestTargetFromValidated target, headers⟩

end Nocter.Http

/-!
# Header fields and body framing

A field block is read line by line. Each field is retained and the evidence that
decides the body framing is collected from the fields that carry it.
-/

namespace Nocter.Http

def unsupportedTransferCoding : HttpError :=
  ⟨"std.http.unsupported_transfer_coding", "HTTP transfer coding is unsupported"⟩

/-- The digit loop of `parse_decimal_list`: the number and the bytes behind it. -/
def decimalDigits : ℕ → Bytes → Option (ℕ × Bytes)
  | value, [] => some (value, [])
  | value, byte :: rest =>
    if 48 ≤ byte ∧ byte ≤ 57 then
      if value > (18446744073709551615 - (byte - 48).toNat) / 10 then none
      else decimalDigits (value * 10 + (byte - 48).toNat) rest
    else some (value, byte :: rest)

/-- One pass of the loop of `parse_decimal_list`; none is `DecimalList.invalid`. -/
def decimalListStep (loop : Bytes × Option ℕ) : (Bytes × Option ℕ) ⊕ Option ℕ :=
  let rest := loop.1.dropWhile isBlank
  if rest = [] then .inr none
  else
    match decimalDigits 0 rest with
    | none => .inr none
    | some (value, behind) =>
      if behind.length = rest.length then .inr none
      else
        let behind := behind.dropWhile isBlank
        if loop.2.isSome ∧ loop.2 ≠ some value then .inr none
        else
          match behind with
          | [] => .inr (some value)
          | separator :: rest => if separator ≠ 44 then .inr none else .inl (rest, some value)

theorem decimalDigits_length_le {value result : ℕ} {bytes rest : Bytes}
    (h : decimalDigits value bytes = some (result, rest)) : rest.length ≤ bytes.length := by
  induction bytes generalizing value with
  | nil =>
    cases h
    exact Nat.le_refl _
  | cons byte bytes ih =>
    rw [decimalDigits] at h
    split at h
    · split at h
      · cases h
      · have := ih h
        rw [List.length_cons]
        omega
    · cases h
      exact Nat.le_refl _

theorem decimalListStep_decreases : Loop.Decreases decimalListStep fun loop => loop.1.length := by
  rintro ⟨bytes, selected⟩ ⟨rest', selected'⟩ h
  have hblank := length_dropWhile_le isBlank bytes
  unfold decimalListStep at h
  dsimp only at h
  split at h
  · cases h
  split at h
  · cases h
  next value behind hdigits =>
  have hdigit := decimalDigits_length_le hdigits
  have hblank' := length_dropWhile_le isBlank behind
  split at h
  · cases h
  split at h
  · cases h
  split at h
  · cases h
  next separator tail htail =>
  split at h
  · cases h
  · cases h
    rw [htail, List.length_cons] at hblank'
    dsimp only
    omega

def parseDecimalList (bytes : Bytes) : Option ℕ :=
  Loop.iterate decimalListStep (fun loop => loop.1.length) decimalListStep_decreases (bytes, none)

/-- One pass of the loop of `transfer_coding_kind` over the rest of the value, with the
number of codings already read. -/
def transferCodingStep (loop : Bytes × ℕ) : (Bytes × ℕ) ⊕ ℕ :=
  let rest := loop.1.dropWhile isBlank
  if rest = [] then .inr 2
  else
    let coding := rest.takeWhile (· ≠ 44)
    if 59 ∈ coding then .inr 1
    else if asciiEqual (coding.rdropWhile isBlank) (text "chunked") = false then .inr 1
    else if loop.2 + 1 ≠ 1 then .inr 2
    else
      match rest.drop coding.length with
      | [] => .inr 0
      | _ :: rest => .inl (rest, loop.2 + 1)

theorem transferCodingStep_decreases :
    Loop.Decreases transferCodingStep fun loop => loop.1.length := by
  rintro ⟨bytes, count⟩ ⟨rest', count'⟩ h
  have hblank := length_dropWhile_le isBlank bytes
  unfold transferCodingStep at h
  dsimp only at h
  repeat (split at h; · cases h)
  next tail htail =>
  cases h
  have hlength := congrArg List.length htail
  rw [List.length_drop, List.length_cons] at hlength
  dsimp only
  omega

def transferCodingKind (bytes : Bytes) : ℕ :=
  Loop.iterate transferCodingStep (fun loop => loop.1.length) transferCodingStep_decreases (bytes, 0)

def bodylessResponse (requestMethod : Method) (status : Status) : Bool :=
  asciiEqual requestMethod (text "HEAD") ||
    (100 ≤ status.code && status.code < 200) ||
    status.code = 204 || status.code = 205 || status.code = 304

structure MessageFields where
  headers : Headers
  contentLength : ℕ
  hasContentLength : Bool
  hasTransferEncoding : Bool
  transferKind : ℕ
  deriving DecidableEq

def MessageFields.empty : MessageFields where
  headers := []
  contentLength := 0
  hasContentLength := false
  hasTransferEncoding := false
  transferKind := 0

/-- The evidence of a content length in one field. -/
def retainContentLength (fields : MessageFields) (value : Bytes) : Except HttpError MessageFields :=
  match parseDecimalList value with
  | none => .error ambiguousFraming
  | some length =>
    if fields.hasContentLength = true ∧ fields.contentLength ≠ length then .error ambiguousFraming
    else .ok { fields with contentLength := length, hasContentLength := true }

/-- The evidence of a transfer coding in one field. -/
def retainTransferEncoding (fields : MessageFields) (value : Bytes) :
    Except HttpError MessageFields :=
  if fields.hasTransferEncoding then .error ambiguousFraming
  else .ok { fields with transferKind := transferCodingKind value, hasTransferEncoding := true }

/-- `retain_message_field` on the bytes of a line. -/
def retainMessageField (fields : MessageFields) (line : Bytes) (limits : Limits) :
    Except HttpError MessageFields :=
  if fields.headers.length = limits.headerCount then .error syntaxLimit
  else
    let nameBytes := line.takeWhile (· ≠ 58)
    if nameBytes = line then .error invalidSyntax
    else do
      let name ← headerName nameBytes
      let value ← headerValue (line.drop (nameBytes.length + 1))
      let fields ← if name = text "content-length" then retainContentLength fields value
        else pure fields
      let fields ← if name = text "transfer-encoding" then retainTransferEncoding fields value
        else pure fields
      pure { fields with headers := fields.headers ++ [⟨name, value⟩] }

structure FieldBlockState where
  headStart : ℕ
  lineStart : ℕ
  scanOffset : ℕ
  fields : MessageFields
  limits : Limits
  deriving DecidableEq

inductive FieldBlockAttempt where
  | incomplete
  | ready (consumed : ℕ)
  | failed (failure : HttpError)
  deriving DecidableEq

def fieldBlockState (headStart lineStart : ℕ) (limits : Limits) : FieldBlockState where
  headStart := headStart
  lineStart := lineStart
  scanOffset := lineStart
  fields := .empty
  limits := limits

/-- One pass of the loop of `advance_field_block`. -/
def advanceFieldBlockStep (input : Bytes) (state : FieldBlockState) :
    FieldBlockState ⊕ (FieldBlockAttempt × FieldBlockState) :=
  match advanceLine input state.lineStart state.scanOffset state.limits.fieldBytes with
  | .incomplete next =>
    if input.length - state.headStart > state.limits.headerBytes then .inr (.failed syntaxLimit, state)
    else .inr (.incomplete, { state with scanOffset := next })
  | .malformed => .inr (.failed invalidSyntax, state)
  | .tooLong => .inr (.failed syntaxLimit, state)
  | .ready lineEnd =>
    if lineEnd + 2 - state.headStart > state.limits.headerBytes then .inr (.failed syntaxLimit, state)
    else if lineEnd = state.lineStart then .inr (.ready (lineEnd + 2), state)
    else
      match retainMessageField state.fields (slice input state.lineStart lineEnd) state.limits with
      | .error failure => .inr (.failed failure, state)
      | .ok fields =>
        .inl { state with fields := fields, lineStart := lineEnd + 2, scanOffset := lineEnd + 2 }

/-- A complete line ends inside the input, at or behind the offset where the scan began. -/
theorem advanceLine_ready {input : Bytes} {start next limit stop : ℕ}
    (h : advanceLine input start next limit = .ready stop) :
    start ≤ next ∧ next ≤ stop ∧ stop + 2 ≤ input.length := by
  unfold advanceLine at h
  split at h
  · cases h
  · next hbounds =>
    obtain ⟨line, tail, hrest, hstop, _⟩ := advanceLineLoop_ready h
    have hlength := congrArg List.length hrest
    rw [List.length_drop, List.length_append, List.length_cons, List.length_cons] at hlength
    omega

theorem advanceFieldBlockStep_decreases (input : Bytes) :
    Loop.Decreases (advanceFieldBlockStep input) fun state => input.length - state.lineStart := by
  intro state state' h
  unfold advanceFieldBlockStep at h
  split at h
  · split at h <;> cases h
  · cases h
  · cases h
  · next lineEnd hline =>
    obtain ⟨hstart, hnext, hend⟩ := advanceLine_ready hline
    repeat (split at h; · cases h)
    cases h
    dsimp only
    omega

def advanceFieldBlock (state : FieldBlockState) (input : Bytes) :
    FieldBlockAttempt × FieldBlockState :=
  if state.headStart > state.lineStart ∨ state.lineStart > input.length then
    (.failed invalidSyntax, state)
  else
    Loop.iterate (advanceFieldBlockStep input) (fun state => input.length - state.lineStart)
      (advanceFieldBlockStep_decreases input) state

/-- A field block never goes back to an earlier line. -/
theorem advanceFieldBlock_lineStart_le (state : FieldBlockState) (input : Bytes) :
    state.lineStart ≤ (advanceFieldBlock state input).2.lineStart := by
  unfold advanceFieldBlock
  split
  · exact Nat.le_refl _
  refine (Loop.iterate_returns (advanceFieldBlockStep input) _ _ state).invariant
    (P := fun state' => state.lineStart ≤ state'.lineStart)
    (Q := fun result => state.lineStart ≤ result.2.lineStart) ?_ ?_ (Nat.le_refl _)
  · intro before after hle hbody
    unfold advanceFieldBlockStep at hbody
    split at hbody
    · split at hbody <;> cases hbody
    · cases hbody
    · cases hbody
    · next lineEnd hline =>
      obtain ⟨hstart, hnext, _⟩ := advanceLine_ready hline
      repeat (split at hbody; · cases hbody)
      cases hbody
      dsimp only
      omega
  · intro before result hle hbody
    unfold advanceFieldBlockStep at hbody
    split at hbody
    · split at hbody <;> cases hbody <;> exact hle
    · cases hbody
      exact hle
    · cases hbody
      exact hle
    · split at hbody
      · cases hbody
        exact hle
      split at hbody
      · cases hbody
        exact hle
      split at hbody
      · cases hbody
        exact hle
      · cases hbody

def validateFramingEvidence (fields : MessageFields) : Except HttpError Unit :=
  if fields.hasTransferEncoding = true ∧ fields.hasContentLength = true then .error ambiguousFraming
  else if fields.hasTransferEncoding = true ∧ fields.transferKind = 1 then
    .error unsupportedTransferCoding
  else if fields.hasTransferEncoding = true ∧ fields.transferKind ≠ 0 then .error ambiguousFraming
  else .ok ()

def responseBodyFraming (fields : MessageFields) (requestMethod : Method) (status : Status)
    (limits : Limits) : Except HttpError BodyFraming := do
  validateFramingEvidence fields
  if bodylessResponse requestMethod status then pure .bodyless
  else if fields.hasTransferEncoding then pure .chunked
  else if fields.hasContentLength then
    if fields.contentLength > limits.bodyBytes then .error bodyLimit
    else pure (.fixed fields.contentLength)
  else pure .closeDelimited

def requestBodyFraming (fields : MessageFields) (limits : Limits) : Except HttpError BodyFraming := do
  validateFramingEvidence fields
  if fields.hasTransferEncoding then pure .chunked
  else if fields.hasContentLength then
    if fields.contentLength > limits.bodyBytes then .error bodyLimit
    else pure (.fixed fields.contentLength)
  else pure .bodyless

end Nocter.Http
