import Nocter.Http.BodyCursor
import Nocter.Http.ResponsePlan

/-!
# The response writer

The writer sends the planned head and then the fragments of the body in the
frozen framing. While a write is under way its state is failed, so a failed
write leaves it so.
-/

namespace Nocter.Http

def responseWriterFailed : HttpError :=
  ⟨"std.http.response_writer_failed", "response writer has already failed"⟩

/-- The output side of a connection. A write takes all its bytes, unless `faults` says
behind how many of them it fails and how. -/
structure TcpStream where
  sent : Bytes
  faults : List (Option (ℕ × HttpError))
  closed : Bool
  deriving DecidableEq

/-- An error, in the context of the operation that it ended. -/
structure WriterFailure where
  error : HttpError
  context : Option String
  deriving DecidableEq

def TcpStream.write (stream : TcpStream) (bytes : Bytes) : Except HttpError Unit × TcpStream :=
  match stream.faults with
  | some (count, failure) :: faults =>
    (.error failure, { stream with sent := stream.sent ++ bytes.take count, faults := faults })
  | none :: faults => (.ok (), { stream with sent := stream.sent ++ bytes, faults := faults })
  | [] => (.ok (), { stream with sent := stream.sent ++ bytes })

def TcpStream.close (stream : TcpStream) : TcpStream := { stream with closed := true }

/-- Writes with `catch`: a failure closes the stream and is returned in its context. -/
def TcpStream.writeAll (stream : TcpStream) : List (Bytes × String) → Except WriterFailure Unit × TcpStream
  | [] => (.ok (), stream)
  | (bytes, context) :: rest =>
    match stream.write bytes with
    | (.error failure, stream) => (.error ⟨failure, some context⟩, stream.close)
    | (.ok (), stream) => stream.writeAll rest

structure Responder where
  stream : TcpStream
  requestBody : BodyCursor
  suppressBody : Bool
  disposition : ConnectionDisposition
  limits : Limits
  deriving DecidableEq

structure ResponseWriter where
  stream : TcpStream
  requestBody : BodyCursor
  state : ResponseOutputState
  suppressBody : Bool
  disposition : ConnectionDisposition
  limits : Limits
  deriving DecidableEq

structure ConnectionInput where
  pending : Bytes
  pendingStart : ℕ
  deriving DecidableEq

structure ServerConnection where
  stream : TcpStream
  input : ConnectionInput
  limits : Limits
  deriving DecidableEq

def connectionInputFromBodyCursor (cursor : BodyCursor) : Except HttpError ConnectionInput :=
  if bodyCursorComplete cursor = false then .error invalidSyntax
  else .ok ⟨cursor.pending, cursor.pendingStart⟩

def responseWriterFromPlan (responder : Responder) (plan : ResponsePlan) : ResponseWriter where
  stream := responder.stream
  requestBody := responder.requestBody
  state := plan.state
  suppressBody := responder.suppressBody
  disposition := responder.disposition
  limits := responder.limits

/-- The writer, or the failure and the stream that it leaves. -/
def beginResponseWriter (responder : Responder) (head : ResponseHead) (framing : ResponseFraming) :
    (WriterFailure × TcpStream) ⊕ ResponseWriter :=
  match planServerResponse head framing responder.disposition responder.limits with
  | .error failure => .inl (⟨failure, none⟩, responder.stream)
  | .ok plan =>
    match responder.stream.writeAll [(plan.head, "while writing the HTTP response head")] with
    | (.error failure, stream) => .inl (failure, stream)
    | (.ok (), stream) => .inr (responseWriterFromPlan { responder with stream := stream } plan)

/-- Behind the plan of a fragment: the writes, and then the state that they lead to. -/
def ResponseWriter.send (writer : ResponseWriter) (writes : List (Bytes × String))
    (next : ResponseOutputState) : Except WriterFailure Unit × ResponseWriter :=
  match writer.stream.writeAll (if writer.suppressBody then [] else writes) with
  | (.error failure, stream) => (.error failure, { writer with stream := stream, state := .failed })
  | (.ok (), stream) => (.ok (), { writer with stream := stream, state := next })

/-- The bytes of `write_chunk_prefix`. -/
def chunkPrefix (length : ℕ) : Bytes := appendBytes (appendHexadecimal [] length) (text "\r\n")

def writeResponseFragment (writer : ResponseWriter) (bytes : Bytes) :
    Except WriterFailure Unit × ResponseWriter :=
  match writer.state with
  | .failed => (.error ⟨responseWriterFailed, none⟩, writer)
  | .fixed remaining =>
    if bytes.length = 0 then (.ok (), writer)
    else
      match planFixedResponseFragment remaining bytes.length with
      | .error failure => (.error ⟨failure, none⟩, writer)
      | .ok nextRemaining =>
        writer.send [(bytes, "while writing the fixed HTTP response body")] (.fixed nextRemaining)
  | .chunked written =>
    if bytes.length = 0 then (.ok (), writer)
    else
      match planChunkedResponseFragment written bytes.length writer.limits with
      | .error failure => (.error ⟨failure, none⟩, writer)
      | .ok nextWritten =>
        writer.send [
          (chunkPrefix bytes.length, "while writing the HTTP response chunk size"),
          (bytes, "while writing the HTTP response chunk body"),
          (text "\r\n", "while completing the HTTP response chunk")] (.chunked nextWritten)

/-- The match on the disposition in `finish_response_writer`. -/
def releaseConnection (owner : ResponseWriter) :
    Except WriterFailure (Option ServerConnection) × TcpStream :=
  match owner.disposition with
  | .close => (.ok none, owner.stream.close)
  | .reuse =>
    match connectionInputFromBodyCursor owner.requestBody with
    | .error failure => (.error ⟨failure, none⟩, owner.stream)
    | .ok input => (.ok (some ⟨owner.stream, input, owner.limits⟩), owner.stream)

/-- What finishing returns, with the stream as it leaves it. -/
def finishResponseWriter (owner : ResponseWriter) :
    Except WriterFailure (Option ServerConnection) × TcpStream :=
  match owner.state with
  | .failed => (.error ⟨responseWriterFailed, none⟩, owner.stream.close)
  | .fixed remaining =>
    match validateFixedResponseFinish remaining with
    | .error failure => (.error ⟨failure, none⟩, owner.stream.close)
    | .ok () => releaseConnection owner
  | .chunked _ =>
    match owner.send [(text "0\r\n\r\n", "while completing the chunked HTTP response body")]
        .failed with
    | (.error failure, owner) => (.error failure, owner.stream)
    | (.ok (), owner) => releaseConnection owner

/-- A sequence of writes, with the fragments that the writer has accepted. -/
def writeFragments (writer : ResponseWriter) : List Bytes → ResponseWriter × List Bytes
  | [] => (writer, [])
  | bytes :: rest =>
    match writeResponseFragment writer bytes with
    | (.error _, writer) => writeFragments writer rest
    | (.ok (), writer) =>
      let (writer, accepted) := writeFragments writer rest
      (writer, bytes :: accepted)

theorem TcpStream.write_ok {stream stream' : TcpStream} {bytes : Bytes}
    (h : stream.write bytes = (.ok (), stream')) : stream'.sent = stream.sent ++ bytes := by
  unfold TcpStream.write at h
  split at h <;> cases h <;> rfl

theorem TcpStream.writeAll_ok {stream stream' : TcpStream} {writes : List (Bytes × String)}
    (h : stream.writeAll writes = (.ok (), stream')) :
    stream'.sent = stream.sent ++ (writes.map Prod.fst).flatten := by
  induction writes generalizing stream with
  | nil =>
    cases h
    exact (List.append_nil _).symm
  | cons write writes ih =>
    rw [TcpStream.writeAll] at h
    split at h
    · cases h
    · next next hwrite =>
      rw [ih h, TcpStream.write_ok hwrite, List.map_cons, List.flatten_cons, List.append_assoc]

namespace ResponseWriter

/-- A transfer either fails and leaves a failed writer or sends its writes. -/
theorem send_cases (writer : ResponseWriter) (writes : List (Bytes × String))
    (next : ResponseOutputState) :
    (∃ failure stream, writer.send writes next =
      (.error failure, { writer with stream := stream, state := .failed })) ∨
    ∃ stream, writer.send writes next = (.ok (), { writer with stream := stream, state := next }) ∧
      (writer.suppressBody = false →
        stream.sent = writer.stream.sent ++ (writes.map Prod.fst).flatten) := by
  unfold send
  split
  · exact Or.inl ⟨_, _, rfl⟩
  · next stream hwrites =>
    refine Or.inr ⟨stream, rfl, fun hsuppress => ?_⟩
    rw [hsuppress] at hwrites
    exact TcpStream.writeAll_ok hwrites

end ResponseWriter

/-- A fragment as a chunk; the empty fragment is not sent. -/
def encodeChunk (bytes : Bytes) : Bytes :=
  if bytes = [] then [] else hexadecimalText bytes.length ++ 13 :: 10 :: (bytes ++ [13, 10])

/-- The fragments in the framing, without what ends the body. -/
def ResponseFraming.encode (framing : ResponseFraming) (fragments : List Bytes) : Bytes :=
  match framing with
  | .fixed _ => fragments.flatten
  | .chunked => fragments.flatMap encodeChunk

/-- What ends the body. -/
def ResponseFraming.ending : ResponseFraming → Bytes
  | .fixed _ => []
  | .chunked => text "0\r\n\r\n"

/-- The state after `count` bytes in the framing. -/
def ResponseFraming.Accounts (framing : ResponseFraming) (limits : Limits) (count : ℕ)
    (state : ResponseOutputState) : Prop :=
  match framing with
  | .fixed length => ∃ remaining, state = .fixed remaining ∧ remaining + count = length
  | .chunked => state = .chunked count ∧ count ≤ limits.bodyBytes

/-- The writer `writer` has accepted these fragments since `start`. -/
structure Wrote (framing : ResponseFraming) (start : ResponseWriter) (accepted : List Bytes)
    (writer : ResponseWriter) : Prop where
  limits : writer.limits = start.limits
  suppressBody : writer.suppressBody = start.suppressBody
  state : writer.state ≠ .failed → framing.Accounts start.limits accepted.flatten.length writer.state
  sent : writer.state ≠ .failed → start.suppressBody = false →
    writer.stream.sent = start.stream.sent ++ framing.encode accepted

namespace Wrote

variable {framing : ResponseFraming} {start writer writer' : ResponseWriter} {accepted : List Bytes}

theorem failed (h : Wrote framing start accepted writer) (stream : TcpStream) :
    Wrote framing start accepted { writer with stream := stream, state := .failed } :=
  ⟨h.limits, h.suppressBody, fun hstate => absurd rfl hstate, fun hstate => absurd rfl hstate⟩

/-- An empty fragment sends nothing in either framing. -/
theorem empty (h : Wrote framing start accepted writer) :
    Wrote framing start (accepted ++ [[]]) writer := by
  have hflatten : (accepted ++ [[]]).flatten = accepted.flatten := by
    rw [List.flatten_append, List.flatten_singleton, List.append_nil]
  have hencode : framing.encode (accepted ++ [[]]) = framing.encode accepted := by
    cases framing with
    | fixed length => exact hflatten
    | chunked =>
      simp only [ResponseFraming.encode, List.flatMap_append, List.flatMap_singleton, encodeChunk,
        if_pos, List.append_nil]
  exact ⟨h.limits, h.suppressBody, by rw [hflatten]; exact h.state, by rw [hencode]; exact h.sent⟩

/-- One write: an accepted fragment is accounted for and sent, a refused one changes nothing
but, where a transfer failed, the state. -/
theorem write (h : Wrote framing start accepted writer) (bytes : Bytes) :
    (∃ failure writer', writeResponseFragment writer bytes = (.error failure, writer') ∧
      Wrote framing start accepted writer') ∨
    ∃ writer', writeResponseFragment writer bytes = (.ok (), writer') ∧
      Wrote framing start (accepted ++ [bytes]) writer' := by
  have hflatten : (accepted ++ [bytes]).flatten.length = accepted.flatten.length + bytes.length := by
    rw [List.flatten_append, List.flatten_singleton, List.length_append]
  unfold writeResponseFragment
  split
  · exact Or.inl ⟨_, _, rfl, h⟩
  · next remaining hstate =>
    have hne : writer.state ≠ .failed := by
      rw [hstate]
      exact fun hfailed => by cases hfailed
    split
    · next hempty =>
      rw [List.length_eq_zero_iff.mp hempty]
      exact Or.inr ⟨_, rfl, h.empty⟩
    next hbytes =>
    have hplan := h.state hne
    unfold planFixedResponseFragment
    by_cases hover : bytes.length > remaining
    · rw [if_pos hover]
      exact Or.inl ⟨_, _, rfl, h⟩
    rw [if_neg hover]
    dsimp only
    rcases writer.send_cases [(bytes, "while writing the fixed HTTP response body")]
      (.fixed (remaining - bytes.length)) with ⟨failure, stream, hsend⟩ | ⟨stream, hsend, hsent⟩
    · exact Or.inl ⟨_, _, hsend, h.failed stream⟩
    refine Or.inr ⟨_, hsend, h.limits, h.suppressBody, fun _ => ?_, fun _ hsuppress => ?_⟩
    · rw [hflatten]
      cases framing with
      | fixed length =>
        obtain ⟨before, hbefore, hsum⟩ := hplan
        cases hstate.symm.trans hbefore
        exact ⟨_, rfl, by omega⟩
      | chunked => cases hstate.symm.trans hplan.1
    · dsimp only
      rw [hsent (h.suppressBody.trans hsuppress), h.sent hne hsuppress, List.append_assoc]
      cases framing with
      | fixed length =>
        simp only [ResponseFraming.encode, List.flatten_append, List.map_cons, List.map_nil]
      | chunked => cases hstate.symm.trans hplan.1
  · next written hstate =>
    have hne : writer.state ≠ .failed := by
      rw [hstate]
      exact fun hfailed => by cases hfailed
    split
    · next hempty =>
      rw [List.length_eq_zero_iff.mp hempty]
      exact Or.inr ⟨_, rfl, h.empty⟩
    next hbytes =>
    have hplan := h.state hne
    unfold planChunkedResponseFragment
    by_cases hover : written > writer.limits.bodyBytes ∨
        bytes.length > writer.limits.bodyBytes - written
    · rw [if_pos hover]
      exact Or.inl ⟨_, _, rfl, h⟩
    rw [if_neg hover]
    rw [h.limits] at hover
    dsimp only
    rcases writer.send_cases [
        (chunkPrefix bytes.length, "while writing the HTTP response chunk size"),
        (bytes, "while writing the HTTP response chunk body"),
        (text "\r\n", "while completing the HTTP response chunk")] (.chunked (written + bytes.length))
      with ⟨failure, stream, hsend⟩ | ⟨stream, hsend, hsent⟩
    · exact Or.inl ⟨_, _, hsend, h.failed stream⟩
    refine Or.inr ⟨_, hsend, h.limits, h.suppressBody, fun _ => ?_, fun _ hsuppress => ?_⟩
    · rw [hflatten]
      cases framing with
      | fixed length =>
        obtain ⟨before, hbefore, _⟩ := hplan
        cases hstate.symm.trans hbefore
      | chunked =>
        cases hstate.symm.trans hplan.1
        exact ⟨rfl, by omega⟩
    · dsimp only
      rw [hsent (h.suppressBody.trans hsuppress), h.sent hne hsuppress, List.append_assoc]
      cases framing with
      | fixed length =>
        obtain ⟨before, hbefore, _⟩ := hplan
        cases hstate.symm.trans hbefore
      | chunked =>
        have hchunk : encodeChunk bytes = chunkPrefix bytes.length ++ (bytes ++ text "\r\n") := by
          rw [encodeChunk, if_neg fun hnil => hbytes (List.length_eq_zero_iff.mpr hnil), chunkPrefix,
            appendBytes, appendHexadecimal, List.nil_append, List.append_assoc]
          rfl
        simp only [ResponseFraming.encode, List.flatMap_append, List.flatMap_singleton, hchunk,
          List.map_cons, List.map_nil, List.flatten_cons, List.flatten_nil, List.append_nil]

/-- Any sequence of writes accounts for exactly the fragments that it has accepted. -/
theorem writes (h : Wrote framing start accepted writer) (fragments : List Bytes) :
    Wrote framing start (accepted ++ (writeFragments writer fragments).2)
      (writeFragments writer fragments).1 := by
  induction fragments generalizing writer accepted with
  | nil =>
    rw [writeFragments, List.append_nil]
    exact h
  | cons bytes fragments ih =>
    rw [writeFragments]
    rcases h.write bytes with ⟨failure, next, hwrite, hnext⟩ | ⟨next, hwrite, hnext⟩
    · rw [hwrite]
      exact ih hnext
    · rw [hwrite]
      have htail := ih hnext
      rw [List.append_assoc] at htail
      exact htail

theorem nothing (framing : ResponseFraming) (writer : ResponseWriter)
    (hstate : writer.state = framing.output) : Wrote framing writer [] writer := by
  refine ⟨rfl, rfl, fun _ => ?_, fun _ _ => ?_⟩
  · rw [hstate]
    cases framing with
    | fixed length => exact ⟨length, rfl, rfl⟩
    | chunked => exact ⟨rfl, Nat.zero_le _⟩
  · cases framing <;> exact (List.append_nil _).symm

end Wrote

theorem releaseConnection_sent {owner : ResponseWriter} {connection : Option ServerConnection}
    {stream : TcpStream} (h : releaseConnection owner = (.ok connection, stream)) :
    stream.sent = owner.stream.sent := by
  unfold releaseConnection at h
  split at h
  · cases h
    rfl
  · split at h <;> cases h
    rfl

/-- A writer that finishes has not failed, has written what a fixed framing announces and
sends what ends the body. -/
theorem finishResponseWriter_ok {framing : ResponseFraming} {start writer : ResponseWriter}
    {accepted : List Bytes} (hwrote : Wrote framing start accepted writer)
    {connection : Option ServerConnection} {stream : TcpStream}
    (h : finishResponseWriter writer = (.ok connection, stream)) :
    (∀ length, framing = .fixed length → accepted.flatten.length = length) ∧
      (framing = .chunked → accepted.flatten.length ≤ start.limits.bodyBytes) ∧
      (start.suppressBody = false →
        stream.sent = start.stream.sent ++ (framing.encode accepted ++ framing.ending)) := by
  unfold finishResponseWriter at h
  split at h
  · cases h
  · next remaining hstate =>
    have hne : writer.state ≠ .failed := by
      rw [hstate]
      exact fun hfailed => by cases hfailed
    have hplan := hwrote.state hne
    split at h
    · cases h
    next hfinish =>
    cases framing with
    | chunked => cases hstate.symm.trans hplan.1
    | fixed length =>
      obtain ⟨before, hbefore, hsum⟩ := hplan
      cases hstate.symm.trans hbefore
      unfold validateFixedResponseFinish at hfinish
      split at hfinish
      · cases hfinish
      next hzero =>
      refine ⟨?_, (fun hchunked => by cases hchunked), fun hsuppress => ?_⟩
      · rintro _ ⟨⟩
        omega
      · rw [releaseConnection_sent h, hwrote.sent hne hsuppress, ResponseFraming.ending,
          List.append_nil]
  · next written hstate =>
    have hne : writer.state ≠ .failed := by
      rw [hstate]
      exact fun hfailed => by cases hfailed
    have hplan := hwrote.state hne
    cases framing with
    | fixed length =>
      obtain ⟨before, hbefore, _⟩ := hplan
      cases hstate.symm.trans hbefore
    | chunked =>
      rcases writer.send_cases
        [(text "0\r\n\r\n", "while completing the chunked HTTP response body")] .failed with
        ⟨failure, after, hsend⟩ | ⟨after, hsend, hsent⟩
      · rw [hsend] at h
        cases h
      · rw [hsend] at h
        refine ⟨(fun length hfixed => by cases hfixed), fun _ => hplan.2, fun hsuppress => ?_⟩
        rw [releaseConnection_sent h, hsent (hwrote.suppressBody.trans hsuppress),
          hwrote.sent hne hsuppress, List.append_assoc]
        simp only [ResponseFraming.ending, List.map_cons, List.map_nil, List.flatten_cons,
          List.flatten_nil, List.append_nil]

end Nocter.Http
