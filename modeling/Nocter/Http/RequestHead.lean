import Nocter.Http.Values

/-!
# Request heads

The decoder owns the bytes received so far and remembers where the line that it
could not complete begins and how far that line has been scanned.
-/

namespace Nocter.Http

inductive ConnectionDisposition where
  | reuse
  | close
  deriving DecidableEq

/-- One pass of the loop of `connection_value_requests_close`. -/
def connectionValueStep (loop : Bytes × Bool) : (Bytes × Bool) ⊕ Except HttpError Bool :=
  let rest := loop.1.dropWhile isBlank
  if rest = [] then .inr (.error invalidSyntax)
  else
    let name := rest.takeWhile fun byte => byte ≠ 44 && !isBlank byte
    if name.all isTokenByte = false then .inr (.error invalidSyntax)
    else if name = [] then .inr (.error invalidSyntax)
    else
      let requestsClose := loop.2 || asciiEqual name (text "close")
      match (rest.drop name.length).dropWhile isBlank with
      | [] => .inr (.ok requestsClose)
      | separator :: rest =>
        if separator ≠ 44 then .inr (.error invalidSyntax) else .inl (rest, requestsClose)

theorem connectionValueStep_decreases :
    Loop.Decreases connectionValueStep fun loop => loop.1.length := by
  rintro ⟨bytes, requested⟩ ⟨rest', requested'⟩ h
  have hblank := length_dropWhile_le isBlank bytes
  unfold connectionValueStep at h
  dsimp only at h
  split at h
  · cases h
  split at h
  · cases h
  split at h
  · cases h
  split at h
  · cases h
  next separator tail htail =>
  split at h
  · cases h
  · cases h
    have hlength := (congrArg List.length htail).symm.le.trans (length_dropWhile_le isBlank _)
    rw [List.length_cons, List.length_drop] at hlength
    dsimp only
    omega

def connectionValueRequestsClose (bytes : Bytes) : Except HttpError Bool :=
  Loop.iterate connectionValueStep (fun loop => loop.1.length) connectionValueStep_decreases
    (bytes, false)

/-- The loop over the fields in `request_connection_disposition`. -/
def requestsCloseLoop (requestsClose : Bool) : Headers → Except HttpError Bool
  | [] => .ok requestsClose
  | header :: headers =>
    if header.name = text "connection" then
      match connectionValueRequestsClose header.value with
      | .error failure => .error failure
      | .ok close => requestsCloseLoop (requestsClose || close) headers
    else requestsCloseLoop requestsClose headers

def requestConnectionDisposition (headers : Headers) : Except HttpError ConnectionDisposition :=
  match requestsCloseLoop false headers with
  | .error failure => .error failure
  | .ok requestsClose => .ok (if requestsClose then .close else .reuse)

/-- The ends of the method and of the target and the start of the target in a request line. -/
def requestLineParts (input : Bytes) (start stop : ℕ) : Except HttpError (ℕ × ℕ × ℕ) :=
  let line := slice input start stop
  let method := line.takeWhile (· ≠ 32)
  if method = [] ∨ method = line then .error invalidSyntax
  else
    let behind := line.drop (method.length + 1)
    let target := behind.takeWhile (· ≠ 32)
    if target = [] ∨ target = behind then .error invalidSyntax
    else if behind.drop (target.length + 1) ≠ text "HTTP/1.1" then .error invalidSyntax
    else
      .ok (start + method.length, start + method.length + 1,
        start + method.length + 1 + target.length)

/-- The loop of `valid_request_host`. -/
def validRequestHostLoop (count : ℕ) : Headers → Bool
  | [] => count = 1
  | header :: headers =>
    if header.name = text "host" then
      if header.value.length = 0 then false else validRequestHostLoop (count + 1) headers
    else validRequestHostLoop count headers

def validRequestHost (headers : Headers) : Bool := validRequestHostLoop 0 headers

inductive RequestHeadPhase where
  | requestLine
  | fields (methodEnd targetStart targetEnd : ℕ)
  deriving DecidableEq

structure RequestHeadDecoder where
  input : Bytes
  phase : RequestHeadPhase
  fieldBlock : FieldBlockState
  deriving DecidableEq

structure ParsedRequestHead where
  head : RequestHead
  decoder : BodyDecoder
  pending : Bytes
  consumed : ℕ
  disposition : ConnectionDisposition
  deriving DecidableEq

inductive RequestHeadAttempt where
  | incomplete (decoder : RequestHeadDecoder)
  | ready (parsed : ParsedRequestHead)
  | failed (failure : HttpError)
  deriving DecidableEq

def requestHeadDecoderWithInput (limits : Limits) (input : Bytes) : RequestHeadDecoder where
  input := input
  phase := .requestLine
  fieldBlock := fieldBlockState 0 0 limits

def requestHeadDecoder (limits : Limits) : RequestHeadDecoder :=
  requestHeadDecoderWithInput limits []

def appendRequestHeadInputRange (decoder : RequestHeadDecoder) (input : Bytes) (start stop : ℕ) :
    Except HttpError RequestHeadDecoder :=
  if start > stop ∨ stop > input.length then .error invalidSyntax
  else .ok { decoder with input := decoder.input ++ slice input start stop }

/-- The checks of a head whose fields are complete. -/
def finishRequestHead (input : Bytes) (block : FieldBlockState)
    (methodEnd targetStart targetEnd consumed : ℕ) : RequestHeadAttempt :=
  if validRequestHost block.fields.headers = false then .failed invalidHost
  else
    match requestBodyFraming block.fields block.limits with
    | .error failure => .failed failure
    | .ok framing =>
      match requestConnectionDisposition block.fields.headers with
      | .error failure => .failed failure
      | .ok disposition =>
        match requestHeadFromRanges (slice input block.headStart methodEnd)
            (slice input targetStart targetEnd) block.fields.headers with
        | .error failure => .failed failure
        | .ok head => .ready {
            head := head
            decoder := bodyDecoder framing block.limits
            pending := input
            consumed := consumed
            disposition := disposition }

/-- The arm of `advance_request_head` for the fields. -/
def advanceRequestFields (owner : RequestHeadDecoder) (methodEnd targetStart targetEnd : ℕ) :
    RequestHeadAttempt :=
  match advanceFieldBlock owner.fieldBlock owner.input with
  | (.incomplete, block) => .incomplete { owner with fieldBlock := block }
  | (.failed failure, _) => .failed failure
  | (.ready consumed, block) =>
    finishRequestHead owner.input block methodEnd targetStart targetEnd consumed

/-- `advance_request_head`: its loop is taken at most twice, from the request line to the fields. -/
def advanceRequestHead (owner : RequestHeadDecoder) : RequestHeadAttempt :=
  match owner.phase with
  | .fields methodEnd targetStart targetEnd =>
    advanceRequestFields owner methodEnd targetStart targetEnd
  | .requestLine =>
    let block := owner.fieldBlock
    match advanceLine owner.input block.lineStart block.scanOffset block.limits.startLineBytes with
    | .incomplete next =>
      .incomplete { owner with fieldBlock := { block with scanOffset := next } }
    | .malformed => .failed invalidSyntax
    | .tooLong => .failed syntaxLimit
    | .ready lineEnd =>
      if lineEnd + 2 > block.limits.headerBytes then .failed syntaxLimit
      else
        match requestLineParts owner.input block.lineStart lineEnd with
        | .error failure => .failed failure
        | .ok (methodEnd, targetStart, targetEnd) =>
          advanceRequestFields { owner with
            phase := .fields methodEnd targetStart targetEnd
            fieldBlock := { block with lineStart := lineEnd + 2, scanOffset := lineEnd + 2 } }
            methodEnd targetStart targetEnd

end Nocter.Http
