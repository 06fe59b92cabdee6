import Nocter.Http.EncodedFields
import Nocter.Http.RequestHead

/-!
# Response plans

The framing of a server response is frozen before its head is written. The plan
checks the status, the framing and the size of the head and appends the fields
that the protocol owns.
-/

namespace Nocter.Http

def invalidResponseStatus : HttpError :=
  ⟨"std.http.invalid_response_status",
    "server response status must be a final code from 200 through 599"⟩

def invalidResponseBody : HttpError :=
  ⟨"std.http.invalid_response_body", "HTTP status forbids a response body"⟩

def responseBodyOverflow : HttpError :=
  ⟨"std.http.response_body_overflow", "response body exceeds its frozen length"⟩

def incompleteResponseBody : HttpError :=
  ⟨"std.http.incomplete_response_body", "fixed-length response ended before its frozen length"⟩

inductive ResponseFraming where
  | fixed (length : ℕ)
  | chunked
  deriving DecidableEq

inductive ResponseOutputState where
  | fixed (remaining : ℕ)
  | chunked (written : ℕ)
  | failed
  deriving DecidableEq

structure ResponsePlan where
  head : Bytes
  state : ResponseOutputState
  deriving DecidableEq

def statusForbidsBody (status : Status) : Bool :=
  status.code = 204 || status.code = 205 || status.code = 304

def statusOmitsContentLength (status : Status) : Bool := status.code = 204 || status.code = 304

/-- The match on the framing in `plan_server_response`: the number and the size of the fields
that it generates, and the state of the output. -/
def planFraming (status : Status) (framing : ResponseFraming) (limits : Limits) :
    Except HttpError ((ℕ × ℕ) × ResponseOutputState) :=
  match framing with
  | .fixed length =>
    if length > limits.bodyBytes then .error bodyLimit
    else if statusForbidsBody status = true ∧ length ≠ 0 then .error invalidResponseBody
    else if statusOmitsContentLength status then .ok ((0, 0), .fixed length)
    else if contentLengthFieldBytes length > limits.fieldBytes then .error syntaxLimit
    else .ok ((1, contentLengthFieldBytes length + 2), .fixed length)
  | .chunked =>
    if statusForbidsBody status then .error invalidResponseBody
    else if 26 > limits.fieldBytes then .error syntaxLimit
    else .ok ((1, 26 + 2), .chunked 0)

def appendFraming (output : Bytes) (status : Status) : ResponseFraming → Bytes
  | .fixed length =>
    if statusOmitsContentLength status then output else appendContentLength output length
  | .chunked => appendTransferEncodingChunked output

/-- The output of `plan_server_response`. -/
def appendResponseHead (head : ResponseHead) (framing : ResponseFraming) (closeConnection : Bool) :
    Bytes :=
  let output := appendDecimal (appendBytes [] (text "HTTP/1.1 ")) head.status.code
  let output := appendFields (appendBytes output (text " \r\n")) head.headers
  let output := appendFraming output head.status framing
  let output := if closeConnection then appendConnectionClose output else output
  appendBytes output (text "\r\n")

def planServerResponse (head : ResponseHead) (framing : ResponseFraming)
    (disposition : ConnectionDisposition) (limits : Limits) : Except HttpError ResponsePlan :=
  if head.status.code < 200 ∨ head.status.code > 599 then .error invalidResponseStatus
  else
    let closeConnection : Bool := disposition = .close
    match planFraming head.status framing limits with
    | .error failure => .error failure
    | .ok ((count, sectionBytes), state) =>
      if closeConnection = true ∧ 17 > limits.fieldBytes then .error syntaxLimit
      else
        match checkedHeadCapacity 13 head.headers ((if closeConnection then 1 else 0) + count)
          ((if closeConnection then 17 + 2 else 0) + sectionBytes) limits .serverResponse with
        | .error failure => .error failure
        | .ok _ => .ok ⟨appendResponseHead head framing closeConnection, state⟩

def planFixedResponseFragment (remaining length : ℕ) : Except HttpError ℕ :=
  if length > remaining then .error responseBodyOverflow else .ok (remaining - length)

def planChunkedResponseFragment (written length : ℕ) (limits : Limits) : Except HttpError ℕ :=
  if written > limits.bodyBytes ∨ length > limits.bodyBytes - written then .error bodyLimit
  else .ok (written + length)

def validateFixedResponseFinish (remaining : ℕ) : Except HttpError Unit :=
  if remaining ≠ 0 then .error incompleteResponseBody else .ok ()

/-- A response head as its constructors build it. -/
structure BuiltResponseHead where
  head : ResponseHead
  built : ∀ header ∈ head.headers, header.Built

/-- The fields that a plan appends to those of the head. -/
def generatedFields (status : Status) (framing : ResponseFraming)
    (disposition : ConnectionDisposition) : Headers :=
  (match framing with
    | .fixed length =>
      if statusOmitsContentLength status then []
      else [⟨text "content-length", decimalText length⟩]
    | .chunked => [⟨text "transfer-encoding", text "chunked"⟩]) ++
  if disposition = .close then [⟨text "connection", text "close"⟩] else []

/-- The status line without its line end. -/
def statusLine (status : Status) : Bytes := text "HTTP/1.1 " ++ decimalText status.code ++ [32]

theorem appendFraming_eq (output : Bytes) (status : Status) (framing : ResponseFraming) :
    appendFraming output status framing = output ++ encodeFields (generatedFields status framing .reuse) := by
  cases framing with
  | fixed length =>
    simp only [appendFraming, generatedFields]
    split
    · exact (List.append_nil output).symm
    · rw [appendContentLength, appendBytes, appendBytes, appendDecimal, if_neg (by decide),
        List.append_nil, encodeFields_cons, encodeFields_nil, Header.line, List.append_assoc,
        List.append_assoc, List.append_assoc]
      rfl
  | chunked => rfl

theorem generatedFields_close (status : Status) (framing : ResponseFraming) :
    generatedFields status framing .close =
      generatedFields status framing .reuse ++ [⟨text "connection", text "close"⟩] := by
  simp only [generatedFields, if_pos, List.append_assoc]
  rfl

/-- The head on the wire: the status line, the fields and an empty line. -/
theorem appendResponseHead_eq (head : ResponseHead) (framing : ResponseFraming)
    (disposition : ConnectionDisposition) :
    appendResponseHead head framing (decide (disposition = .close)) =
      statusLine head.status ++ 13 :: 10 ::
        (encodeFields (head.headers ++ generatedFields head.status framing disposition) ++
          [13, 10]) := by
  have hfields : appendFields (appendBytes (appendDecimal (appendBytes [] (text "HTTP/1.1 "))
      head.status.code) (text " \r\n")) head.headers =
      statusLine head.status ++ 13 :: 10 :: encodeFields head.headers := by
    rw [appendFields_eq, appendBytes, appendBytes, appendDecimal, statusLine, List.nil_append,
      List.append_assoc, List.append_assoc, List.append_assoc, List.append_assoc]
    rfl
  unfold appendResponseHead
  dsimp only
  rw [hfields, appendFraming_eq, encodeFields_append]
  cases disposition with
  | reuse =>
    simp only [reduceCtorEq, decide_false, Bool.false_eq_true, if_false, appendBytes,
      List.append_assoc, List.cons_append]
    rfl
  | close =>
    rw [generatedFields_close, encodeFields_append]
    simp only [decide_true, if_true, appendConnectionClose, appendBytes, List.append_assoc,
      List.cons_append]
    rfl

/-- The state of the output before any fragment. -/
def ResponseFraming.output : ResponseFraming → ResponseOutputState
  | .fixed length => .fixed length
  | .chunked => .chunked 0

/-- The framing does not contradict the status and fits the body limit. -/
def ResponseFraming.Permitted (status : Status) (limits : Limits) : ResponseFraming → Prop
  | .fixed length => length ≤ limits.bodyBytes ∧ (statusForbidsBody status = true → length = 0)
  | .chunked => statusForbidsBody status = false

theorem planFraming_ok {status : Status} {framing : ResponseFraming} {limits : Limits}
    {count sectionBytes : ℕ} {state : ResponseOutputState}
    (h : planFraming status framing limits = .ok ((count, sectionBytes), state)) :
    state = framing.output ∧ framing.Permitted status limits ∧
      count = (generatedFields status framing .reuse).length ∧
      sectionBytes = (encodeFields (generatedFields status framing .reuse)).length ∧
      ∀ header ∈ generatedFields status framing .reuse, header.line.length ≤ limits.fieldBytes := by
  cases framing with
  | fixed length =>
    simp only [planFraming] at h
    split at h
    · cases h
    next hlimit =>
    split at h
    · cases h
    next hforbids =>
    have hpermitted : (ResponseFraming.fixed length).Permitted status limits := by
      refine ⟨Nat.not_lt.mp hlimit, fun hstatus => ?_⟩
      by_contra hlength
      exact hforbids ⟨hstatus, hlength⟩
    split at h
    · next homits =>
      cases h
      have hnone : generatedFields status (.fixed length) .reuse = [] := by
        simp only [generatedFields, homits, if_true, reduceCtorEq, if_false, List.append_nil]
      rw [hnone]
      exact ⟨rfl, hpermitted, rfl, rfl, fun header hmem => by cases hmem⟩
    next homits =>
    split at h
    · cases h
    next hfield =>
    cases h
    have hone : generatedFields status (.fixed length) .reuse =
        [⟨text "content-length", decimalText length⟩] := by
      simp only [generatedFields, homits, if_false, reduceCtorEq, List.append_nil]
    have hline : (⟨text "content-length", decimalText length⟩ : Header).line.length =
        contentLengthFieldBytes length := by
      rw [Header.line_length, Header.fieldBytes, decimalText_length]
      rfl
    rw [hone, List.forall_mem_singleton, encodeFields_cons, List.length_append, hline]
    exact ⟨rfl, hpermitted, rfl, rfl, Nat.not_lt.mp hfield⟩
  | chunked =>
    simp only [planFraming] at h
    split at h
    · cases h
    next hforbids =>
    split at h
    · cases h
    next hfield =>
    cases h
    refine ⟨rfl, by rwa [Bool.not_eq_true] at hforbids, rfl, rfl, ?_⟩
    rw [show generatedFields status .chunked .reuse =
      [⟨text "transfer-encoding", text "chunked"⟩] from rfl, List.forall_mem_singleton]
    exact Nat.not_lt.mp hfield

/-- What an accepted plan promises about its head and its framing. -/
structure Planned (head : ResponseHead) (framing : ResponseFraming)
    (disposition : ConnectionDisposition) (limits : Limits) (plan : ResponsePlan) : Prop where
  status : 200 ≤ head.status.code ∧ head.status.code ≤ 599
  bytes : plan.head = statusLine head.status ++ 13 :: 10 ::
    (encodeFields (head.headers ++ generatedFields head.status framing disposition) ++ [13, 10])
  state : plan.state = framing.output
  permitted : framing.Permitted head.status limits
  startLine : 13 ≤ limits.startLineBytes
  count : (head.headers ++ generatedFields head.status framing disposition).length ≤
    limits.headerCount
  size : 17 + (encodeFields (head.headers ++ generatedFields head.status framing disposition)).length ≤
    limits.headerBytes
  fields : ∀ header ∈ head.headers ++ generatedFields head.status framing disposition,
    header.line.length ≤ limits.fieldBytes
  plain : ∀ header ∈ head.headers, reservedProtocolField header.name .serverResponse = false

theorem planServerResponse_ok {head : ResponseHead} {framing : ResponseFraming}
    {disposition : ConnectionDisposition} {limits : Limits} {plan : ResponsePlan}
    (h : planServerResponse head framing disposition limits = .ok plan) :
    Planned head framing disposition limits plan := by
  unfold planServerResponse at h
  split at h
  · cases h
  next hstatus =>
  dsimp only at h
  split at h
  · cases h
  next count sectionBytes state hframing =>
  obtain ⟨rfl, hpermitted, rfl, rfl, hgenerated⟩ := planFraming_ok hframing
  split at h
  · cases h
  next hclose =>
  split at h
  · cases h
  next capacity hcapacity =>
  cases h
  obtain ⟨hstart, hcount, hsize, hlimit, hfields⟩ := checkedHeadCapacity_ok hcapacity
  have hbytes := appendResponseHead_eq head framing disposition
  have hplain := fun header hmem => (hfields header hmem).1
  cases disposition with
  | reuse =>
    simp only [reduceCtorEq, decide_false, Bool.false_eq_true, if_false, Nat.zero_add] at hcount hsize
    refine ⟨by omega, hbytes, rfl, hpermitted, hstart, ?_, ?_, ?_, hplain⟩
    · rwa [List.length_append]
    · rw [encodeFields_append, List.length_append]
      omega
    · rw [List.forall_mem_append]
      exact ⟨fun header hmem => (hfields header hmem).2, hgenerated⟩
  | close =>
    simp only [decide_true, if_true] at hcount hsize hclose
    refine ⟨by omega, hbytes, rfl, hpermitted, hstart, ?_, ?_, ?_, hplain⟩
    · rw [generatedFields_close, List.length_append, List.length_append, List.length_singleton]
      omega
    · rw [generatedFields_close, encodeFields_append, encodeFields_append, List.length_append,
        List.length_append, encodeFields_cons, encodeFields_nil, List.length_append]
      have hconnection : (⟨text "connection", text "close"⟩ : Header).line.length = 17 := rfl
      rw [hconnection, List.length_cons, List.length_cons, List.length_nil]
      omega
    · rw [generatedFields_close, List.forall_mem_append, List.forall_mem_append,
        List.forall_mem_singleton]
      refine ⟨fun header hmem => (hfields header hmem).2, hgenerated, ?_⟩
      exact Nat.not_lt.mp fun hlt => hclose ⟨trivial, hlt⟩

end Nocter.Http
