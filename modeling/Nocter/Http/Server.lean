import Nocter.Http.ResponseWriter

/-!
# Requests on a server connection

The bytes of a connection pass from its input to the decoder of a head, to the cursor of
the body and back to the input of the next exchange. The scratch storage of the transport
travels beside them. Calls that read the transport are relations: the transport decides how
many bytes a read delivers, and a call of the body cursor need not return.
-/

namespace Nocter.Http

/-- `HTTP_BUFFER_BYTES`. -/
def httpBufferBytes : ℕ := 8192

def initializedBytes (size : ℕ) : Bytes := List.replicate size 0

/-- Why a call on a request fails, in the context of the operation that failed. -/
structure CallFailure where
  failure : Failure
  context : Option String
  deriving DecidableEq

def CallFailure.of (error : HttpError) : CallFailure := ⟨.error error, none⟩

/-- The input side of a connection: what the peer has sent and no read has delivered. Only
an unreliable transport fails or exceeds a deadline. -/
structure Transport where
  incoming : Bytes
  reliable : Bool
  deriving DecidableEq

/-- A read into a buffer of `capacity` bytes; it delivers no bytes at the end only. -/
inductive TransportRead (capacity : ℕ) : Transport → Except HttpError Bytes → Transport → Prop
  | received {transport : Transport} (count : ℕ) (hpos : 0 < count) (hcapacity : count ≤ capacity)
      (hcount : count ≤ transport.incoming.length) :
      TransportRead capacity transport (.ok (transport.incoming.take count))
        { transport with incoming := transport.incoming.drop count }
  | ended {transport : Transport} (hend : transport.incoming = []) :
      TransportRead capacity transport (.ok []) transport
  | failed {transport : Transport} (error : HttpError) (hfails : transport.reliable = false) :
      TransportRead capacity transport (.error error) transport

/-- The scratch storage after a read has put `bytes` at its front. -/
def fillScratch (scratch bytes : Bytes) : Bytes := bytes ++ scratch.drop bytes.length

def emptyConnectionInput : ConnectionInput × Bytes :=
  (⟨[], 0⟩, initializedBytes httpBufferBytes)

/-- Retained bytes move into the scratch storage, and the storage that held them becomes
the scratch of the next exchange. -/
def requestHeadDecoderFromConnectionInput (limits : Limits) (owner : ConnectionInput)
    (transportScratch : Bytes) : RequestHeadDecoder × Bytes :=
  if owner.pendingStart = owner.pending.length then
    (requestHeadDecoderWithInput limits [], transportScratch)
  else
    (requestHeadDecoderWithInput limits
      (slice owner.pending owner.pendingStart owner.pending.length),
      initializedBytes httpBufferBytes)

def bodyCursorFromConnectionInput (owner : ParsedRequestHead) :
    RequestHead × BodyCursor × ConnectionDisposition :=
  (owner.head, ⟨owner.decoder, owner.pending, owner.consumed⟩, owner.disposition)

def appendBodyCursorScratch (cursor : BodyCursor) (transportScratch : Bytes) (count : ℕ) :
    BodyCursor :=
  let cursor := if cursor.pendingStart = cursor.pending.length then
    { cursor with pending := [], pendingStart := 0 } else cursor
  { cursor with pending := cursor.pending ++ transportScratch.take count }

structure IncomingRequest where
  stream : TcpStream
  headValue : RequestHead
  body : BodyCursor
  suppressBody : Bool
  disposition : ConnectionDisposition
  limits : Limits
  deriving DecidableEq

/-! ### Reading a head -/

/-- The variables of the loop of `read_server_connection`. -/
structure HeadReading where
  decoder : RequestHeadDecoder
  scratch : Bytes
  transport : Transport
  deriving DecidableEq

inductive ReadsHead : HeadReading → Except CallFailure ParsedRequestHead → HeadReading → Prop
  | ready {reading : HeadReading} {parsed : ParsedRequestHead}
      (hadvance : advanceRequestHead reading.decoder = .ready parsed) :
      ReadsHead reading (.ok parsed) reading
  | malformed {reading : HeadReading} {error : HttpError}
      (hadvance : advanceRequestHead reading.decoder = .failed error) :
      ReadsHead reading (.error (.of error)) reading
  | more {reading last : HeadReading} {next decoder : RequestHeadDecoder} {bytes : Bytes}
      {transport : Transport} {result : Except CallFailure ParsedRequestHead}
      (hadvance : advanceRequestHead reading.decoder = .incomplete next)
      (hread : TransportRead reading.scratch.length reading.transport (.ok bytes) transport)
      (hbytes : bytes ≠ [])
      (happend : appendRequestHeadInputRange next (fillScratch reading.scratch bytes) 0
        bytes.length = .ok decoder)
      (hrest : ReadsHead ⟨decoder, fillScratch reading.scratch bytes, transport⟩ result last) :
      ReadsHead reading result last
  | refused {reading : HeadReading} {next : RequestHeadDecoder} {bytes : Bytes}
      {transport : Transport} {error : HttpError}
      (hadvance : advanceRequestHead reading.decoder = .incomplete next)
      (hread : TransportRead reading.scratch.length reading.transport (.ok bytes) transport)
      (hbytes : bytes ≠ [])
      (happend : appendRequestHeadInputRange next (fillScratch reading.scratch bytes) 0
        bytes.length = .error error) :
      ReadsHead reading (.error (.of error))
        ⟨next, fillScratch reading.scratch bytes, transport⟩
  | ended {reading : HeadReading} {next : RequestHeadDecoder} {transport : Transport}
      (hadvance : advanceRequestHead reading.decoder = .incomplete next)
      (hread : TransportRead reading.scratch.length reading.transport (.ok []) transport) :
      ReadsHead reading (.error (.of prematureEof)) ⟨next, reading.scratch, transport⟩
  | unreadable {reading : HeadReading} {next : RequestHeadDecoder} {transport : Transport}
      {error : HttpError} (hadvance : advanceRequestHead reading.decoder = .incomplete next)
      (hread : TransportRead reading.scratch.length reading.transport (.error error) transport) :
      ReadsHead reading (.error ⟨.error error, some "while reading the HTTP request head"⟩)
        ⟨next, reading.scratch, transport⟩

/-- The start of the loop of `read_server_connection`. -/
def ServerConnection.headReading (owner : ServerConnection) (scratch : Bytes)
    (transport : Transport) : HeadReading :=
  let prepared := requestHeadDecoderFromConnectionInput owner.limits owner.input scratch
  ⟨prepared.1, prepared.2, transport⟩

/-- The request that `read_server_connection` returns for a complete head. -/
def ServerConnection.request (owner : ServerConnection) (parsed : ParsedRequestHead) :
    IncomingRequest :=
  let request := bodyCursorFromConnectionInput parsed
  { stream := owner.stream
    headValue := request.1
    body := request.2.1
    suppressBody := asciiEqual request.1.method (text "HEAD")
    disposition := request.2.2
    limits := owner.limits }

/-! ### Reading a body -/

/-- A request body with the storage and the transport that a read of it uses. -/
structure BodyReading where
  cursor : BodyCursor
  scratch : Bytes
  output : Bytes
  transport : Transport
  deriving DecidableEq

namespace BodyReading

def after (reading : BodyReading) (call : CursorCall) : BodyReading :=
  { reading with cursor := call.cursor, output := call.output }

/-- The reading behind a call that asked for input and a read that has delivered some. -/
def received (reading : BodyReading) (call : CursorCall) (bytes : Bytes)
    (transport : Transport) : BodyReading :=
  let scratch := fillScratch reading.scratch bytes
  { cursor := appendBodyCursorScratch call.cursor scratch bytes.length
    scratch
    output := call.output
    transport }

end BodyReading

inductive ReadsBody : BodyReading → Except CallFailure ℕ → BodyReading → Prop
  | written {reading : BodyReading} {call : CursorCall} {count : ℕ}
      (hcall : AdvanceBodyCursor reading.cursor reading.output false call)
      (hattempt : call.attempt = .ready count ∨ call.attempt = .complete count) :
      ReadsBody reading (.ok count) (reading.after call)
  | malformed {reading : BodyReading} {call : CursorCall} {failure : Failure}
      (hcall : AdvanceBodyCursor reading.cursor reading.output false call)
      (hattempt : call.attempt = .failed failure) :
      ReadsBody reading (.error ⟨failure, some "while decoding the HTTP request body"⟩)
        (reading.after call)
  | more {reading last : BodyReading} {call : CursorCall} {bytes : Bytes}
      {transport : Transport} {result : Except CallFailure ℕ}
      (hcall : AdvanceBodyCursor reading.cursor reading.output false call)
      (hattempt : call.attempt = .input)
      (hread : TransportRead reading.scratch.length reading.transport (.ok bytes) transport)
      (hbytes : bytes ≠ [])
      (hrest : ReadsBody (reading.received call bytes transport) result last) :
      ReadsBody reading result last
  | unreadable {reading : BodyReading} {call : CursorCall} {transport : Transport}
      {error : HttpError} (hcall : AdvanceBodyCursor reading.cursor reading.output false call)
      (hattempt : call.attempt = .input)
      (hread : TransportRead reading.scratch.length reading.transport (.error error) transport) :
      ReadsBody reading (.error ⟨.error error, some "while reading the HTTP request body"⟩)
        { cursor := failBodyCursor call.cursor
          scratch := reading.scratch
          output := call.output
          transport }
  | endedWritten {reading : BodyReading} {call ending : CursorCall} {count : ℕ}
      {transport : Transport}
      (hcall : AdvanceBodyCursor reading.cursor reading.output false call)
      (hattempt : call.attempt = .input)
      (hread : TransportRead reading.scratch.length reading.transport (.ok []) transport)
      (hending : AdvanceBodyCursor call.cursor call.output true ending)
      (hcount : ending.attempt = .complete count ∨ ending.attempt = .ready count) :
      ReadsBody reading (.ok count) ({ reading with transport }.after ending)
  | endedMalformed {reading : BodyReading} {call ending : CursorCall} {failure : Failure}
      {transport : Transport}
      (hcall : AdvanceBodyCursor reading.cursor reading.output false call)
      (hattempt : call.attempt = .input)
      (hread : TransportRead reading.scratch.length reading.transport (.ok []) transport)
      (hending : AdvanceBodyCursor call.cursor call.output true ending)
      (hfailure : ending.attempt = .failed failure) :
      ReadsBody reading (.error ⟨failure, some "at the end of the HTTP request body"⟩)
        ({ reading with transport }.after ending)
  | endedEarly {reading : BodyReading} {call ending : CursorCall} {transport : Transport}
      (hcall : AdvanceBodyCursor reading.cursor reading.output false call)
      (hattempt : call.attempt = .input)
      (hread : TransportRead reading.scratch.length reading.transport (.ok []) transport)
      (hending : AdvanceBodyCursor call.cursor call.output true ending)
      (hinput : ending.attempt = .input) :
      ReadsBody reading (.error (.of prematureEof))
        { cursor := failBodyCursor ending.cursor
          scratch := reading.scratch
          output := ending.output
          transport }

def ReadServerRequestBody (reading : BodyReading) (result : Except CallFailure ℕ)
    (last : BodyReading) : Prop :=
  if bodyCursorComplete reading.cursor = true ∨ reading.output.length = 0 then
    result = .ok 0 ∧ last = reading
  else ReadsBody reading result last

/-- The loop of `finish_server_request`, with the bytes that it throws away. -/
inductive FinishesBody : BodyReading → Bytes → Except CallFailure Unit → BodyReading → Prop
  | complete {reading : BodyReading} (hcomplete : bodyCursorComplete reading.cursor = true) :
      FinishesBody reading [] (.ok ()) reading
  | again {reading next last : BodyReading} {count : ℕ} {discarded : Bytes}
      {result : Except CallFailure Unit}
      (hincomplete : bodyCursorComplete reading.cursor = false)
      (hread : ReadServerRequestBody reading (.ok count) next)
      (hrest : FinishesBody next discarded result last) :
      FinishesBody reading (next.output.take count ++ discarded) result last
  | failed {reading last : BodyReading} {failure : CallFailure}
      (hincomplete : bodyCursorComplete reading.cursor = false)
      (hread : ReadServerRequestBody reading (.error failure) last) :
      FinishesBody reading [] (.error failure) last

/-- The responder that `finish_server_request` returns for a complete body. -/
def IncomingRequest.responder (owner : IncomingRequest) (body : BodyCursor) : Responder where
  stream := owner.stream
  requestBody := body
  suppressBody := owner.suppressBody
  disposition := owner.disposition
  limits := owner.limits

end Nocter.Http
