import Nocter.Http.ServerBody

/-!
# Sequential requests on one connection

A server reads a request, reads or finishes its body, completes a response and goes on with
the connection that it gets back. The messages of the peer follow each other on the stream
without anything between them.
-/

namespace Nocter.Http

open StreamDecoder

/-- The owner of the connection between two calls, with the scratch storage of the
transport. -/
inductive Phase where
  | connection (connection : ServerConnection) (scratch : Bytes)
  | incoming (request : IncomingRequest) (scratch : Bytes)
  | responder (responder : Responder) (scratch : Bytes)
  | writer (writer : ResponseWriter) (scratch : Bytes)
  | closed
  deriving DecidableEq

/-- What the server has obtained of one request, and what finishing its body threw away. -/
structure Exchange where
  head : RequestHead
  read : Bytes
  discarded : Bytes
  deriving DecidableEq

/-- A connection with its finished exchanges, the current one, and the failures of calls
that read a request. -/
structure ServerWorld where
  phase : Phase
  transport : Transport
  finished : List Exchange
  current : Option Exchange
  failures : List CallFailure

namespace ServerWorld

inductive Next : ServerWorld → ServerWorld → Prop
  | readRequest {world : ServerWorld} {connection : ServerConnection} {scratch : Bytes}
      {parsed : ParsedRequestHead} {last : HeadReading}
      (hphase : world.phase = .connection connection scratch)
      (hread : ReadsHead (connection.headReading scratch world.transport) (.ok parsed) last) :
      Next world { world with
        phase := .incoming (connection.request parsed) last.scratch
        transport := last.transport
        current := some ⟨parsed.head, [], []⟩ }
  | requestFailed {world : ServerWorld} {connection : ServerConnection} {scratch : Bytes}
      {failure : CallFailure} {last : HeadReading}
      (hphase : world.phase = .connection connection scratch)
      (hread : ReadsHead (connection.headReading scratch world.transport) (.error failure) last) :
      Next world { world with
        phase := .closed
        transport := last.transport
        failures := world.failures ++ [failure] }
  | readBody {world : ServerWorld} {request : IncomingRequest} {exchange : Exchange}
      {scratch : Bytes} {count : ℕ} {last : BodyReading} (output : Bytes)
      (hphase : world.phase = .incoming request scratch) (hcurrent : world.current = some exchange)
      (hread : ReadServerRequestBody ⟨request.body, scratch, output, world.transport⟩
        (.ok count) last) :
      Next world { world with
        phase := .incoming { request with body := last.cursor } last.scratch
        transport := last.transport
        current := some { exchange with read := exchange.read ++ last.output.take count } }
  | bodyFailed {world : ServerWorld} {request : IncomingRequest} {scratch : Bytes}
      {failure : CallFailure} {last : BodyReading} (output : Bytes)
      (hphase : world.phase = .incoming request scratch)
      (hread : ReadServerRequestBody ⟨request.body, scratch, output, world.transport⟩
        (.error failure) last) :
      Next world { world with
        phase := .incoming
          { request with body := last.cursor, stream := request.stream.close } last.scratch
        transport := last.transport
        failures := world.failures ++ [failure] }
  | finishBody {world : ServerWorld} {request : IncomingRequest} {exchange : Exchange}
      {scratch discarded : Bytes} {last : BodyReading}
      (hphase : world.phase = .incoming request scratch) (hcurrent : world.current = some exchange)
      (hfinish : FinishesBody
        ⟨request.body, scratch, initializedBytes httpBufferBytes, world.transport⟩ discarded
        (.ok ()) last) :
      Next world { world with
        phase := .responder (request.responder last.cursor) last.scratch
        transport := last.transport
        current := some { exchange with discarded := discarded } }
  | finishFailed {world : ServerWorld} {request : IncomingRequest} {exchange : Exchange}
      {scratch discarded : Bytes} {failure : CallFailure} {last : BodyReading}
      (hphase : world.phase = .incoming request scratch) (hcurrent : world.current = some exchange)
      (hfinish : FinishesBody
        ⟨request.body, scratch, initializedBytes httpBufferBytes, world.transport⟩ discarded
        (.error failure) last) :
      Next world { world with
        phase := .closed
        transport := last.transport
        current := some { exchange with discarded := discarded }
        failures := world.failures ++ [failure] }
  | closeAfterResponse {world : ServerWorld} {responder : Responder} {scratch : Bytes}
      (hphase : world.phase = .responder responder scratch) :
      Next world { world with phase := .responder { responder with disposition := .close } scratch }
  | begin {world : ServerWorld} {responder : Responder} {scratch : Bytes} {writer : ResponseWriter}
      (head : ResponseHead) (framing : ResponseFraming)
      (hphase : world.phase = .responder responder scratch)
      (hbegin : beginResponseWriter responder head framing = .inr writer) :
      Next world { world with phase := .writer writer scratch }
  | write {world : ServerWorld} {writer : ResponseWriter} {scratch : Bytes} (bytes : Bytes)
      (hphase : world.phase = .writer writer scratch) :
      Next world { world with phase := .writer (writeResponseFragment writer bytes).2 scratch }
  | writeTimedOut {world : ServerWorld} {writer : ResponseWriter} {scratch : Bytes}
      (hphase : world.phase = .writer writer scratch) :
      Next world { world with
        phase := .writer { writer with stream := writer.stream.close, state := .failed } scratch }
  | finish {world : ServerWorld} {writer : ResponseWriter} {connection : ServerConnection}
      {exchange : Exchange} {scratch : Bytes} {stream : TcpStream}
      (hphase : world.phase = .writer writer scratch) (hcurrent : world.current = some exchange)
      (hfinish : finishResponseWriter writer = (.ok (some connection), stream)) :
      Next world { world with
        phase := .connection connection scratch
        finished := world.finished ++ [exchange]
        current := none }
  /-- The caller closes the connection, or a response ends without handing it back. -/
  | close {world : ServerWorld} : Next world { world with phase := .closed }

/-- A connection whose peer sends these messages one behind the other. -/
def system (limits : Limits) (messages : List Message) (reliable : Bool) :
    TransitionSystem ServerWorld where
  initial world := ∃ stream : TcpStream, world =
    { phase := .connection ⟨stream, emptyConnectionInput.1, limits⟩ emptyConnectionInput.2
      transport := ⟨(messages.map Message.wire).flatten, reliable⟩
      finished := []
      current := none
      failures := [] }
  next := Next

end ServerWorld

/-- The exchange has obtained the whole message. -/
def Exchange.Completes (exchange : Exchange) (message : Message) : Prop :=
  exchange.head = message.head ∧ exchange.read ++ exchange.discarded = message.payload

/-- The exchange has obtained the head and a beginning of the body. -/
def Exchange.Begins (exchange : Exchange) (message : Message) : Prop :=
  exchange.head = message.head ∧ exchange.read ++ exchange.discarded <+: message.payload

/-! ### Responses leave the request body alone -/

theorem send_request (writer : ResponseWriter) (writes : List (Bytes × String))
    (next : ResponseOutputState) : (writer.send writes next).2.requestBody = writer.requestBody ∧
      (writer.send writes next).2.limits = writer.limits ∧
      (writer.send writes next).2.disposition = writer.disposition := by
  rcases writer.send_cases writes next with ⟨failure, stream, hsend⟩ | ⟨stream, hsend, _⟩
  · rw [hsend]
    exact ⟨rfl, rfl, rfl⟩
  · rw [hsend]
    exact ⟨rfl, rfl, rfl⟩

theorem writeResponseFragment_request (writer : ResponseWriter) (bytes : Bytes) :
    (writeResponseFragment writer bytes).2.requestBody = writer.requestBody ∧
      (writeResponseFragment writer bytes).2.limits = writer.limits := by
  unfold writeResponseFragment
  split
  · exact ⟨rfl, rfl⟩
  · split
    · exact ⟨rfl, rfl⟩
    · split
      · exact ⟨rfl, rfl⟩
      · next nextRemaining _ =>
        have hsend := send_request writer
          [(bytes, "while writing the fixed HTTP response body")] (.fixed nextRemaining)
        exact ⟨hsend.1, hsend.2.1⟩
  · split
    · exact ⟨rfl, rfl⟩
    · split
      · exact ⟨rfl, rfl⟩
      · next nextWritten _ =>
        have hsend := send_request writer [
          (chunkPrefix bytes.length, "while writing the HTTP response chunk size"),
          (bytes, "while writing the HTTP response chunk body"),
          (text "\r\n", "while completing the HTTP response chunk")] (.chunked nextWritten)
        exact ⟨hsend.1, hsend.2.1⟩

theorem beginResponseWriter_request {responder : Responder} {head : ResponseHead}
    {framing : ResponseFraming} {writer : ResponseWriter}
    (h : beginResponseWriter responder head framing = .inr writer) :
    writer.requestBody = responder.requestBody ∧ writer.limits = responder.limits := by
  unfold beginResponseWriter at h
  split at h
  · cases h
  · split at h
    · cases h
    · cases h
      exact ⟨rfl, rfl⟩

/-- A connection is handed back behind a complete request body only, with its unread bytes. -/
theorem releaseConnection_input {owner : ResponseWriter} {connection : ServerConnection}
    {stream : TcpStream} (h : releaseConnection owner = (.ok (some connection), stream)) :
    bodyCursorComplete owner.requestBody = true ∧
      connection.input = ⟨owner.requestBody.pending, owner.requestBody.pendingStart⟩ ∧
      connection.limits = owner.limits := by
  unfold releaseConnection at h
  split at h
  · cases (Prod.mk.inj h).1
  · unfold connectionInputFromBodyCursor at h
    by_cases hcomplete : bodyCursorComplete owner.requestBody = false
    · rw [if_pos hcomplete] at h
      cases h
    · rw [if_neg hcomplete] at h
      cases h
      exact ⟨Bool.not_eq_false _ ▸ hcomplete, rfl, rfl⟩

theorem finishResponseWriter_input {owner : ResponseWriter} {connection : ServerConnection}
    {stream : TcpStream} (h : finishResponseWriter owner = (.ok (some connection), stream)) :
    bodyCursorComplete owner.requestBody = true ∧
      connection.input = ⟨owner.requestBody.pending, owner.requestBody.pendingStart⟩ ∧
      connection.limits = owner.limits := by
  unfold finishResponseWriter at h
  split at h
  · cases h
  · split at h
    · cases h
    · exact releaseConnection_input h
  · have hsend := send_request owner
      [(text "0\r\n\r\n", "while completing the chunked HTTP response body")] .failed
    split at h
    · cases h
    · rename_i sent heq
      rw [heq] at hsend
      have hreleased := releaseConnection_input h
      rw [hsend.1, hsend.2.1] at hreleased
      exact hreleased

/-! ### What holds between two calls -/

/-- A complete cursor exactly behind its message, with the other messages to come. -/
structure Behind (cursor : BodyCursor) (incoming : Bytes) (rest : List Message) : Prop where
  complete : bodyCursorComplete cursor = true
  unread : cursor.unread ++ incoming = (rest.map Message.wire).flatten

/-- Where a connection stands on the stream, `served` being the messages of its finished
exchanges. -/
inductive PhaseAt (limits : Limits) (messages served : List Message) (transport : Transport) :
    Phase → Option Exchange → Prop
  | connection {connection : ServerConnection} {scratch : Bytes} {rest : List Message}
      (hmessages : messages = served ++ rest) (hlimits : connection.limits = limits)
      (hunread : connection.input.pending.drop connection.input.pendingStart ++
        transport.incoming = (rest.map Message.wire).flatten) :
      PhaseAt limits messages served transport (.connection connection scratch) none
  | incoming {request : IncomingRequest} {scratch read : Bytes} {message : Message}
      {rest : List Message} {result : RequestResult} {headLength : ℕ} {final : WireState}
      (hmessages : messages = served ++ message :: rest) (hlimits : request.limits = limits)
      (hfollows : message.Follows limits result headLength final)
      (hat : message.BodyAt limits result headLength (rest.map Message.wire).flatten request.body
        transport.incoming read) :
      PhaseAt limits messages served transport (.incoming request scratch)
        (some ⟨message.head, read, []⟩)
  | broken {request : IncomingRequest} {scratch read : Bytes} {message : Message}
      {rest : List Message} (hmessages : messages = served ++ message :: rest)
      (hstate : request.body.decoder.state = .failed) (hread : read <+: message.payload)
      (hreliable : transport.reliable = false) :
      PhaseAt limits messages served transport (.incoming request scratch)
        (some ⟨message.head, read, []⟩)
  | responder {responder : Responder} {scratch : Bytes} {exchange : Exchange} {message : Message}
      {rest : List Message} (hmessages : messages = served ++ message :: rest)
      (hcompletes : exchange.Completes message) (hlimits : responder.limits = limits)
      (hbehind : Behind responder.requestBody transport.incoming rest) :
      PhaseAt limits messages served transport (.responder responder scratch) (some exchange)
  | writer {writer : ResponseWriter} {scratch : Bytes} {exchange : Exchange} {message : Message}
      {rest : List Message} (hmessages : messages = served ++ message :: rest)
      (hcompletes : exchange.Completes message) (hlimits : writer.limits = limits)
      (hbehind : Behind writer.requestBody transport.incoming rest) :
      PhaseAt limits messages served transport (.writer writer scratch) (some exchange)
  | closed {current : Option Exchange}
      (hserved : served <+: messages)
      (hcurrent : ∀ exchange, current = some exchange →
        ∃ message, served ++ [message] <+: messages ∧ exchange.Begins message) :
      PhaseAt limits messages served transport .closed current

theorem Exchange.Completes.begins {exchange : Exchange} {message : Message}
    (h : exchange.Completes message) : exchange.Begins message :=
  ⟨h.1, h.2 ▸ List.prefix_refl _⟩

theorem served_prefix {messages served rest : List Message} {message : Message}
    (h : messages = served ++ message :: rest) : served ++ [message] <+: messages :=
  ⟨rest, by rw [h, List.append_assoc, List.singleton_append]⟩

/-- A connection can be closed wherever it stands. -/
theorem PhaseAt.close {limits : Limits} {messages served : List Message} {transport : Transport}
    {phase : Phase} {current : Option Exchange}
    (h : PhaseAt limits messages served transport phase current) (after : Transport) :
    PhaseAt limits messages served after .closed current := by
  cases h with
  | connection hmessages =>
    exact .closed ⟨_, hmessages.symm⟩ fun exchange hno => by cases hno
  | incoming hmessages hlimits hfollows hat =>
    refine .closed ⟨_, hmessages.symm⟩ ?_
    rintro exchange ⟨⟩
    refine ⟨_, served_prefix hmessages, rfl, ?_⟩
    rw [List.append_nil]
    exact hfollows.delivered_prefix hat
  | broken hmessages hstate hread =>
    refine .closed ⟨_, hmessages.symm⟩ ?_
    rintro exchange ⟨⟩
    refine ⟨_, served_prefix hmessages, rfl, ?_⟩
    rw [List.append_nil]
    exact hread
  | responder hmessages hcompletes =>
    refine .closed ⟨_, hmessages.symm⟩ ?_
    rintro exchange ⟨⟩
    exact ⟨_, served_prefix hmessages, hcompletes.begins⟩
  | writer hmessages hcompletes =>
    refine .closed ⟨_, hmessages.symm⟩ ?_
    rintro exchange ⟨⟩
    exact ⟨_, served_prefix hmessages, hcompletes.begins⟩
  | closed hserved hcurrent => exact .closed hserved hcurrent

/-! ### Calls keep the place on the stream -/

section Calls

variable {limits : Limits} {messages served : List Message}

/-- A cursor that has failed delivers nothing any more. -/
theorem readServerRequestBody_broken {reading last : BodyReading} {outcome : Except CallFailure ℕ}
    (hstate : reading.cursor.decoder.state = .failed)
    (hread : ReadServerRequestBody reading outcome last) :
    last.cursor.decoder.state = .failed ∧ last.transport = reading.transport ∧
      (∀ count, outcome = .ok count → count = 0 ∧ reading.output.length = 0) := by
  rw [ReadServerRequestBody] at hread
  split at hread
  · rename_i hnothing
    obtain ⟨rfl, rfl⟩ := hread
    refine ⟨hstate, rfl, fun count hcount => ?_⟩
    refine ⟨(Except.ok.inj hcount).symm, hnothing.resolve_left fun hcomplete => ?_⟩
    rw [bodyCursorComplete, decide_eq_true_eq, hstate] at hcomplete
    cases hcomplete
  · rename_i hsome
    have hcalls : ∀ call, AdvanceBodyCursor reading.cursor reading.output false call →
        call = ⟨.failed (.error bodyCursorFailed), reading.cursor, reading.output⟩ := by
      intro call hcall
      rw [AdvanceBodyCursor, if_neg (fun hlength => hsome (Or.inr hlength)), hstate] at hcall
      exact hcall
    cases hread with
    | written hcall hattempt =>
      rw [hcalls _ hcall] at hattempt
      rcases hattempt with h | h <;> cases h
    | malformed hcall hattempt =>
      rw [hcalls _ hcall]
      exact ⟨hstate, rfl, fun count hno => by cases hno⟩
    | more hcall hattempt =>
      rw [hcalls _ hcall] at hattempt
      cases hattempt
    | unreadable hcall hattempt =>
      rw [hcalls _ hcall] at hattempt
      cases hattempt
    | endedWritten hcall hattempt =>
      rw [hcalls _ hcall] at hattempt
      cases hattempt
    | endedMalformed hcall hattempt =>
      rw [hcalls _ hcall] at hattempt
      cases hattempt
    | endedEarly hcall hattempt =>
      rw [hcalls _ hcall] at hattempt
      cases hattempt

theorem finishesBody_broken {reading last : BodyReading} {discarded : Bytes}
    {outcome : Except CallFailure Unit} (hstate : reading.cursor.decoder.state = .failed)
    (houtput : reading.output.length ≠ 0) (hfinish : FinishesBody reading discarded outcome last) :
    (∃ failure, outcome = .error failure) ∧ discarded = [] ∧
      last.transport = reading.transport := by
  cases hfinish with
  | complete hcomplete =>
    rw [bodyCursorComplete, decide_eq_true_eq, hstate] at hcomplete
    cases hcomplete
  | again _ hread =>
    exact absurd ((readServerRequestBody_broken hstate hread).2.2 _ rfl).2 houtput
  | failed _ hread =>
    exact ⟨⟨_, rfl⟩, rfl, (readServerRequestBody_broken hstate hread).2.1⟩

/-- A message in front of the stream of a connection is its next request. -/
theorem connection_reads {connection : ServerConnection} {scratch : Bytes} {transport : Transport}
    {last : HeadReading} {outcome : Except CallFailure ParsedRequestHead} {rest : List Message}
    (halone : ∀ message ∈ messages, message.DecodesAlone limits)
    (hmessages : messages = served ++ rest) (hlimits : connection.limits = limits)
    (hunread : connection.input.pending.drop connection.input.pendingStart ++ transport.incoming =
      (rest.map Message.wire).flatten)
    (hread : ReadsHead (connection.headReading scratch transport) outcome last) :
    last.transport.reliable = transport.reliable ∧
      (∀ parsed, outcome = .ok parsed → PhaseAt limits messages served last.transport
        (.incoming (connection.request parsed) last.scratch) (some ⟨parsed.head, [], []⟩)) ∧
      ∀ failure, outcome = .error failure → transport.reliable = false ∨ messages = served := by
  have hinput : (connection.headReading scratch transport).decoder =
      requestHeadDecoderWithInput limits
        (connection.input.pending.drop connection.input.pendingStart) := by
    unfold ServerConnection.headReading requestHeadDecoderFromConnectionInput
    by_cases hempty : connection.input.pendingStart = connection.input.pending.length
    · simp only [if_pos hempty, hlimits]
      rw [hempty, List.drop_length]
    · simp only [if_neg hempty, hlimits]
      rw [slice, ← List.length_drop, List.take_length]
  have hpath : RequestPath limits (connection.headReading scratch transport).decoder := by
    rw [hinput]
    exact requestPath_start limits _
  have hstream : (connection.headReading scratch transport).decoder.input ++
      (connection.headReading scratch transport).transport.incoming =
        (rest.map Message.wire).flatten := by
    rw [hinput]
    exact hunread
  have hends := readsHead_ends hread hpath hstream
  refine ⟨hends.reliable_eq, ?_, ?_⟩
  · intro parsed hparsed
    obtain ⟨result, hreach, hhead, hdecoder, hdisposition, hconsumed, hpending⟩ :=
      hends.ready parsed hparsed
    cases rest with
    | nil =>
      -- no head can be read from an empty stream
      have hneed : (requestWire limits).step (.startLine 0) [] = .need := rfl
      cases (halts_of_need hneed).reaches hreach |>.2.2
    | cons message rest =>
      have hmem : message ∈ messages := by
        rw [hmessages]
        exact List.mem_append_right _ List.mem_cons_self
      obtain ⟨result', headLength, final, hfollows⟩ :=
        Message.follows_of_decodesAlone (halone message hmem)
      rw [List.map_cons, List.flatten_cons] at hreach hpending
      have hdone : ∀ (result : RequestResult) (rest : Bytes),
          (requestWire limits).step (.done result) rest = .done := fun _ _ => rfl
      obtain ⟨_, hlength, hsame⟩ := hreach.halts_unique (halts_of_done (hdone _ _))
        (hfollows.head_append _) (halts_of_done (hdone _ _))
      cases hsame
      rw [hhead, hfollows.head_eq]
      refine .incoming hmessages hlimits hfollows ⟨?_, hconsumed, 0, ?_, ?_⟩
      · change parsed.decoder.limits = limits
        rw [hdecoder]
        rfl
      · change (bodyWire limits).Reaches _ _ [] 0 parsed.decoder.wire
        rw [hdecoder]
        exact .refl _ _
      · change _ = parsed.pending.drop parsed.consumed ++ last.transport.incoming
        rw [List.drop_zero, ← hfollows.drop_head, ← hlength, ← hpending,
          List.drop_append_of_le_length hconsumed]
  · intro failure hfailure
    rcases hends.failed failure hfailure with hreliable | hnever
    · exact Or.inl hreliable
    · right
      cases rest with
      | nil => rw [hmessages, List.append_nil]
      | cons message rest =>
        have hmem : message ∈ messages := by
          rw [hmessages]
          exact List.mem_append_right _ List.mem_cons_self
        obtain ⟨result, headLength, final, hfollows⟩ :=
          Message.follows_of_decodesAlone (halone message hmem)
        rw [List.map_cons, List.flatten_cons] at hnever
        exact absurd (hfollows.head_append _) (hnever headLength result)

end Calls

namespace ServerWorld

/-- The finished exchanges are the messages served, and the connection stands behind them.
While the transport works, a call on a request fails behind the last message only. -/
structure Sound (limits : Limits) (messages : List Message) (reliable : Bool)
    (served : List Message) (world : ServerWorld) : Prop where
  finished : List.Forall₂ Exchange.Completes world.finished served
  sameTransport : world.transport.reliable = reliable
  place : PhaseAt limits messages served world.transport world.phase world.current
  failures : world.failures ≠ [] → reliable = false ∨ messages = served

variable {limits : Limits} {messages served : List Message} {reliable : Bool}
  {world after : ServerWorld}

theorem Sound.readBody {request : IncomingRequest} {exchange : Exchange} {scratch output : Bytes}
    {outcome : Except CallFailure ℕ} {last : BodyReading}
    (h : world.Sound limits messages reliable served)
    (hphase : world.phase = .incoming request scratch) (hcurrent : world.current = some exchange)
    (hread : ReadServerRequestBody ⟨request.body, scratch, output, world.transport⟩ outcome last) :
    last.transport.reliable = reliable ∧
      (∀ count, outcome = .ok count → PhaseAt limits messages served last.transport
        (.incoming { request with body := last.cursor } last.scratch)
        (some { exchange with read := exchange.read ++ last.output.take count })) ∧
      ∀ failure, outcome = .error failure → reliable = false ∧
        PhaseAt limits messages served last.transport (.incoming
          { request with body := last.cursor, stream := request.stream.close } last.scratch)
          (some exchange) := by
  have hplace := h.place
  have hreliable := h.sameTransport
  rw [hphase, hcurrent] at hplace
  cases hplace with
  | incoming hmessages hlimits hfollows hat =>
    have hend := readServerRequestBody_end hfollows hread hat
    cases hend with
    | ok hat' _ hsame =>
      refine ⟨hsame.trans hreliable, ?_, fun failure hno => by cases hno⟩
      rintro count ⟨⟩
      exact .incoming hmessages hlimits hfollows hat'
    | failed hunreliable hlast hstate =>
      refine ⟨hlast.trans hreliable, fun count hno => (by cases hno), fun failure _ => ?_⟩
      exact ⟨hreliable.symm.trans hunreliable,
        .broken hmessages hstate (hfollows.delivered_prefix hat) (hlast.trans hunreliable)⟩
  | broken hmessages hstate hfront hunreliable =>
    obtain ⟨hstate', htransport, hnothing⟩ := readServerRequestBody_broken hstate hread
    have hsame : last.transport = world.transport := htransport
    rw [hsame]
    refine ⟨hreliable, fun count hcount => ?_, fun failure _ => ?_⟩
    · obtain ⟨rfl, _⟩ := hnothing count hcount
      rw [List.take_zero, List.append_nil]
      exact .broken hmessages hstate' hfront hunreliable
    · exact ⟨hreliable.symm.trans hunreliable, .broken hmessages hstate' hfront hunreliable⟩

theorem Sound.finishBody {request : IncomingRequest} {exchange : Exchange}
    {scratch discarded : Bytes} {outcome : Except CallFailure Unit} {last : BodyReading}
    (h : world.Sound limits messages reliable served)
    (hphase : world.phase = .incoming request scratch) (hcurrent : world.current = some exchange)
    (hfinish : FinishesBody
      ⟨request.body, scratch, initializedBytes httpBufferBytes, world.transport⟩ discarded outcome
      last) :
    last.transport.reliable = reliable ∧
      (∀ value, outcome = .ok value → PhaseAt limits messages served last.transport
        (.responder (request.responder last.cursor) last.scratch)
        (some { exchange with discarded := discarded })) ∧
      ∀ failure, outcome = .error failure → reliable = false ∧
        PhaseAt limits messages served last.transport .closed
          (some { exchange with discarded := discarded }) := by
  have hplace := h.place
  have hreliable := h.sameTransport
  rw [hphase, hcurrent] at hplace
  cases hplace with
  | incoming hmessages hlimits hfollows hat =>
    obtain ⟨hsame, hok, herror⟩ := finishesBody_end hfollows hfinish hat
    refine ⟨hsame.trans hreliable, fun value hvalue => ?_, fun failure hfailure => ?_⟩
    · obtain ⟨hcomplete, hat'⟩ := hok value hvalue
      obtain ⟨hpayload, hunread⟩ := hfollows.delivered_all hat' hcomplete
      exact .responder hmessages ⟨rfl, hpayload⟩ hlimits ⟨hcomplete, hunread⟩
    · obtain ⟨hunreliable, hfront⟩ := herror failure hfailure
      refine ⟨hreliable.symm.trans hunreliable, .closed ⟨_, hmessages.symm⟩ ?_⟩
      rintro exchange ⟨⟩
      exact ⟨_, served_prefix hmessages, rfl, hfront⟩
  | broken hmessages hstate hfront hunreliable =>
    obtain ⟨⟨failure, hfailure⟩, hnone, htransport⟩ := finishesBody_broken hstate
      (by rw [initializedBytes, List.length_replicate]; decide) hfinish
    have hsame : last.transport = world.transport := htransport
    rw [hsame]
    refine ⟨hreliable, fun value hvalue => ?_, fun failure' _ => ?_⟩
    · rw [hfailure] at hvalue
      cases hvalue
    · refine ⟨hreliable.symm.trans hunreliable, .closed ⟨_, hmessages.symm⟩ ?_⟩
      rintro exchange ⟨⟩
      refine ⟨_, served_prefix hmessages, rfl, ?_⟩
      rw [hnone, List.append_nil]
      exact hfront

theorem Sound.next (halone : ∀ message ∈ messages, message.DecodesAlone limits)
    (h : world.Sound limits messages reliable served) (hnext : Next world after) :
    ∃ served', after.Sound limits messages reliable served' := by
  have hplace := h.place
  cases hnext with
  | readRequest hphase hread =>
    rw [hphase] at hplace
    generalize hcurrent : world.current = current at hplace
    cases hplace with
    | connection hmessages hlimits hunread =>
      obtain ⟨hsame, hok, _⟩ := connection_reads halone hmessages hlimits hunread hread
      exact ⟨served, h.finished, hsame.trans h.sameTransport, hok _ rfl, h.failures⟩
  | requestFailed hphase hread =>
    rw [hphase] at hplace
    generalize hcurrent : world.current = current at hplace
    cases hplace with
    | connection hmessages hlimits hunread =>
      obtain ⟨hsame, _, herror⟩ := connection_reads halone hmessages hlimits hunread hread
      refine ⟨served, h.finished, hsame.trans h.sameTransport, ?_, fun _ => ?_⟩
      · exact .closed ⟨_, hmessages.symm⟩ fun exchange hno => by cases hno
      · rw [← h.sameTransport]
        exact herror _ rfl
  | readBody output hphase hcurrent hread =>
    obtain ⟨hsame, hok, _⟩ := h.readBody hphase hcurrent hread
    exact ⟨served, h.finished, hsame, hok _ rfl, h.failures⟩
  | bodyFailed output hphase hread =>
    rw [hphase] at hplace
    obtain ⟨exchange, hcurrent⟩ : ∃ exchange, world.current = some exchange := by
      generalize hcurrent : world.current = current at hplace
      cases hplace <;> exact ⟨_, rfl⟩
    obtain ⟨hsame, _, herror⟩ := h.readBody hphase hcurrent hread
    obtain ⟨hunreliable, hplace'⟩ := herror _ rfl
    rw [← hcurrent] at hplace'
    exact ⟨served, h.finished, hsame, hplace', fun _ => Or.inl hunreliable⟩
  | finishBody hphase hcurrent hfinish =>
    obtain ⟨hsame, hok, _⟩ := h.finishBody hphase hcurrent hfinish
    exact ⟨served, h.finished, hsame, hok _ rfl, h.failures⟩
  | finishFailed hphase hcurrent hfinish =>
    obtain ⟨hsame, _, herror⟩ := h.finishBody hphase hcurrent hfinish
    obtain ⟨hunreliable, hplace'⟩ := herror _ rfl
    exact ⟨served, h.finished, hsame, hplace', fun _ => Or.inl hunreliable⟩
  | closeAfterResponse hphase =>
    rw [hphase] at hplace
    generalize hcurrent : world.current = current at hplace
    cases hplace with
    | responder hmessages hcompletes hlimits hbehind =>
      refine ⟨served, h.finished, h.sameTransport, ?_, h.failures⟩
      exact .responder hmessages hcompletes hlimits hbehind
  | begin head framing hphase hbegin =>
    rw [hphase] at hplace
    generalize hcurrent : world.current = current at hplace
    obtain ⟨hbody, hlimits'⟩ := beginResponseWriter_request hbegin
    cases hplace with
    | responder hmessages hcompletes hlimits hbehind =>
      rw [← hbody] at hbehind
      refine ⟨served, h.finished, h.sameTransport, ?_, h.failures⟩
      exact .writer hmessages hcompletes (hlimits'.trans hlimits) hbehind
  | @write writer _ bytes hphase =>
    rw [hphase] at hplace
    generalize hcurrent : world.current = current at hplace
    obtain ⟨hbody, hlimits'⟩ := writeResponseFragment_request writer bytes
    cases hplace with
    | writer hmessages hcompletes hlimits hbehind =>
      rw [← hbody] at hbehind
      refine ⟨served, h.finished, h.sameTransport, ?_, h.failures⟩
      exact .writer hmessages hcompletes (hlimits'.trans hlimits) hbehind
  | writeTimedOut hphase =>
    rw [hphase] at hplace
    generalize hcurrent : world.current = current at hplace
    cases hplace with
    | writer hmessages hcompletes hlimits hbehind =>
      refine ⟨served, h.finished, h.sameTransport, ?_, h.failures⟩
      exact .writer hmessages hcompletes hlimits hbehind
  | finish hphase hcurrent hfinish =>
    rw [hphase, hcurrent] at hplace
    obtain ⟨_, hinput, hlimits'⟩ := finishResponseWriter_input hfinish
    cases hplace with
    | @writer _ _ _ message rest hmessages hcompletes hlimits hbehind =>
      have hserved : messages = served ++ [message] ++ rest := by
        rw [hmessages, List.append_assoc, List.singleton_append]
      refine ⟨served ++ [message], ?_, h.sameTransport, ?_, fun hfailed => ?_⟩
      · exact List.rel_append h.finished (.cons hcompletes .nil)
      · refine .connection hserved (hlimits'.trans hlimits) ?_
        rw [hinput]
        exact hbehind.unread
      · refine (h.failures hfailed).imp_right fun hall => ?_
        have hlong := congrArg List.length (hall.symm.trans hmessages)
        rw [List.length_append, List.length_cons] at hlong
        omega
  | close => exact ⟨served, h.finished, h.sameTransport, hplace.close _, h.failures⟩

theorem sound_of_reachable (halone : ∀ message ∈ messages, message.DecodesAlone limits)
    (h : (system limits messages reliable).Reachable world) :
    ∃ served, world.Sound limits messages reliable served := by
  refine h.invariant (P := fun world => ∃ served, world.Sound limits messages reliable served)
    ?_ fun world after hsound hnext => ?_
  · rintro world ⟨stream, rfl⟩
    refine ⟨[], .nil, rfl, .connection (List.nil_append _).symm rfl rfl, fun hno => ?_⟩
    exact absurd rfl hno
  · obtain ⟨served, hsound⟩ := hsound
    exact hsound.next halone hnext

/-- What a server has obtained of messages sent one behind the other. -/
structure Exact (messages : List Message) (reliable : Bool) (world : ServerWorld)
    (served rest : List Message) : Prop where
  split : messages = served ++ rest
  finished : List.Forall₂ Exchange.Completes world.finished served
  current : ∀ exchange, world.current = some exchange →
    ∃ message later, rest = message :: later ∧ exchange.Begins message
  /-- The body of a request is complete only when all of it has been obtained. -/
  complete : ∀ request scratch exchange, world.phase = .incoming request scratch →
    world.current = some exchange → bodyCursorComplete request.body = true →
      ∃ message later, rest = message :: later ∧ exchange.Completes message
  /-- A read that returns no bytes although it has space for some is behind the body. -/
  ended : ∀ request scratch output last, world.phase = .incoming request scratch → output ≠ [] →
    ReadServerRequestBody ⟨request.body, scratch, output, world.transport⟩ (.ok 0) last →
      bodyCursorComplete last.cursor = true
  /-- A response is written behind a complete request only. -/
  answered : ∀ exchange, (∃ responder scratch, world.phase = .responder responder scratch) ∨
      (∃ writer scratch, world.phase = .writer writer scratch) → world.current = some exchange →
    ∃ message later, rest = message :: later ∧ exchange.Completes message
  /-- A connection handed back has all bytes of the other messages before it. -/
  released : ∀ connection scratch, world.phase = .connection connection scratch →
    world.current = none ∧ connection.input.pending.drop connection.input.pendingStart ++
      world.transport.incoming = (rest.map Message.wire).flatten
  failures : world.failures ≠ [] → reliable = false ∨ rest = []

theorem Sound.exact (h : world.Sound limits messages reliable served) :
    ∃ rest, world.Exact messages reliable served rest := by
  have hplace := h.place
  have hserved : served <+: messages := by
    generalize world.phase = phase, world.current = current at hplace
    cases hplace.close world.transport with
    | closed hserved => exact hserved
  obtain ⟨rest, hsplit⟩ := hserved
  have hrest : ∀ {more : List Message}, messages = served ++ more → more = rest := by
    intro more hmore
    exact List.append_cancel_left (hmore.symm.trans hsplit.symm)
  refine ⟨rest, hsplit.symm, h.finished, ?_, ?_, ?_, ?_, ?_, fun hfailed => ?_⟩
  · intro exchange hcurrent
    have hclosed := hplace.close world.transport
    rw [hcurrent] at hclosed
    cases hclosed with
    | closed _ hall =>
      obtain ⟨message, ⟨later, hlater⟩, hbegins⟩ := hall exchange rfl
      rw [List.append_assoc, List.singleton_append] at hlater
      exact ⟨message, later, (hrest hlater.symm).symm, hbegins⟩
  · intro request scratch exchange hphase hcurrent hcomplete
    rw [hphase, hcurrent] at hplace
    cases hplace with
    | incoming hmessages hlimits hfollows hat =>
      refine ⟨_, _, (hrest hmessages).symm, rfl, ?_⟩
      rw [List.append_nil]
      exact (hfollows.delivered_all hat hcomplete).1
    | broken hmessages hstate =>
      rw [bodyCursorComplete, decide_eq_true_eq, hstate] at hcomplete
      cases hcomplete
  · intro request scratch output last hphase houtput hread
    rw [hphase] at hplace
    generalize world.current = current at hplace
    cases hplace with
    | incoming hmessages hlimits hfollows hat =>
      cases readServerRequestBody_end hfollows hread hat with
      | ok _ hprogress => exact hprogress houtput rfl
    | broken hmessages hstate =>
      have hnone := ((readServerRequestBody_broken hstate hread).2.2 0 rfl).2
      exact absurd (List.length_eq_zero_iff.mp hnone) houtput
  · intro exchange hphase hcurrent
    rw [hcurrent] at hplace
    rcases hphase with ⟨responder, scratch, hphase⟩ | ⟨writer, scratch, hphase⟩
    · rw [hphase] at hplace
      cases hplace with
      | responder hmessages hcompletes => exact ⟨_, _, (hrest hmessages).symm, hcompletes⟩
    · rw [hphase] at hplace
      cases hplace with
      | writer hmessages hcompletes => exact ⟨_, _, (hrest hmessages).symm, hcompletes⟩
  · intro connection scratch hphase
    rw [hphase] at hplace
    generalize world.current = current at hplace
    cases hplace with
    | connection hmessages hlimits hunread =>
      rw [← hrest hmessages]
      exact ⟨rfl, hunread⟩
  · refine (h.failures hfailed).imp_right fun hall => ?_
    rw [hall] at hsplit
    exact List.append_right_eq_self.mp hsplit

end ServerWorld

/-- Whatever the fragments and the outputs, the exchanges of a reused connection are the
messages in order, and it is handed back behind a complete request body only. -/
theorem reused_connection_exact (limits : Limits) (messages : List Message) (reliable : Bool)
    (halone : ∀ message ∈ messages, message.DecodesAlone limits) {world : ServerWorld}
    (h : (ServerWorld.system limits messages reliable).Reachable world) :
    (∃ served rest, world.Exact messages reliable served rest) ∧
      ∀ (writer : ResponseWriter) (connection : ServerConnection) (stream : TcpStream),
        finishResponseWriter writer = (.ok (some connection), stream) →
          bodyCursorComplete writer.requestBody = true := by
  obtain ⟨served, hsound⟩ := ServerWorld.sound_of_reachable halone h
  obtain ⟨rest, hexact⟩ := hsound.exact
  exact ⟨⟨served, rest, hexact⟩, fun writer connection stream hfinish =>
    (finishResponseWriter_input hfinish).1⟩

/-- A request without a body. -/
def plainRequest : Message where
  wire := text "GET / HTTP/1.1\r\nHost: a\r\n\r\n"
  head := ⟨text "GET", requestTargetFromValidated (text "/"), [⟨text "host", text "a"⟩]⟩
  payload := []

theorem plainRequest_decodesAlone : plainRequest.DecodesAlone Limits.standard :=
  ⟨_, [], rfl, rfl, rfl, rfl⟩

/-- Two requests of which one read delivers the first and three bytes of the second. -/
theorem plainRequests_exact :
    ∃ (world : ServerWorld) (request : IncomingRequest) (scratch : Bytes),
      world.phase = .incoming request scratch ∧
      request.body.unread = text "GET" ∧
      ∃ served rest, world.Exact [plainRequest, plainRequest] true served rest := by
  have hstart : (ServerWorld.system Limits.standard [plainRequest, plainRequest] true).Reachable _ :=
    TransitionSystem.Reachable.of_initial ⟨⟨[], [], false⟩, rfl⟩
  have hread := hstart.next (.readRequest rfl (.more
    (show advanceRequestHead _ = .incomplete _ from rfl)
    (.received 30 (by decide)
      (by change 30 ≤ (initializedBytes httpBufferBytes).length
          rw [initializedBytes, List.length_replicate]
          decide)
      (by decide))
    (by decide) (appendRequestHeadInputRange_filled _ _ _)
    (.ready (show advanceRequestHead _ = .ready _ from rfl))))
  refine ⟨_, _, _, rfl, ?_, (reused_connection_exact Limits.standard [plainRequest, plainRequest]
    true ?_ hread).1⟩
  · rfl
  · intro message hmem
    rcases List.mem_cons.mp hmem with rfl | hmem
    · exact plainRequest_decodesAlone
    · rw [List.mem_singleton.mp hmem]
      exact plainRequest_decodesAlone

end Nocter.Http
