import Nocter.Text.Utf8

/-!
# Storage and sources of the buffered readers

A source answers each read with the bytes it put into the buffer or with a failure; one
without another answer leaves its reader waiting. The storage functions are the ones
the blocking and the asynchronous reader share.
-/

namespace Nocter.Buffering

/-- Why a call of a buffered reader fails. -/
inductive Failure where
  | source
  | invalidReadCount
  | lineTooLong
  | invalidUtf8
  | outOfMemory
  deriving DecidableEq, Repr

/-- Code and message of the failures that the readers construct themselves. -/
def Failure.report : Failure → Option (String × String)
  | .invalidReadCount => some ("std.io.invalid_read_count",
      "reader returned more bytes than the supplied buffer can hold")
  | .lineTooLong => some ("std.io.line_too_long",
      "line exceeded the configured encoded-byte limit")
  | _ => none

inductive SourceAnswer where
  | report (bytes : List UInt8)
  | failure
  deriving DecidableEq, Repr

/-- What the next reads of a source give, in order. -/
structure Source where
  answers : List SourceAnswer
  deriving DecidableEq, Repr

namespace Source

def read (source : Source) : Option (SourceAnswer × Source) :=
  match source.answers with
  | [] => none
  | answer :: answers => some (answer, ⟨answers⟩)

end Source

/-- The bytes of a source up to its end, its first failure or its first report of more
bytes than the buffer holds. -/
def promised (capacity : ℕ) : List SourceAnswer → List UInt8
  | [] => []
  | .failure :: _ => []
  | .report bytes :: answers =>
    if bytes = [] ∨ capacity < bytes.length then [] else bytes ++ promised capacity answers

def validateReadCount (received capacity : ℕ) : Except Failure ℕ :=
  if capacity < received then .error .invalidReadCount else .ok received

/-- How a call ends: with a value, with a failure, or not at all because the source
has not answered when the call is dropped. -/
inductive Completion (α : Type) where
  | returned (value : α)
  | failed (failure : Failure)
  | suspended
  deriving DecidableEq, Repr

namespace Completion

def isFailure {α : Type} : Completion α → Bool
  | failed _ => true
  | _ => false

end Completion

def normalizedCapacity (requested : ℕ) : ℕ :=
  if requested = 0 then 1 else requested

def initializedByteStorage (capacity : ℕ) : List UInt8 := List.replicate capacity 0

/-- The copying loop of `discard_byte_prefix` with `count` bytes left to move. -/
def moveForward : ℕ → List UInt8 → ℕ → ℕ → List UInt8 × ℕ
  | 0, storage, _, destination => (storage, destination)
  | count + 1, storage, source, destination =>
    moveForward count (storage.set destination (storage.getD source 0)) (source + 1)
      (destination + 1)

def discardBytePrefix (storage : List UInt8) (consumed : ℕ) : List UInt8 :=
  if consumed = 0 then storage
  else if storage.length ≤ consumed then []
  else
    let (storage, destination) :=
      moveForward (storage.length - consumed) storage consumed 0
    storage.take destination

/-- What memory allows during one call: one more byte in a line buffer of each length, and
the text of the finished line in the caller's string. -/
structure Memory where
  lineByte : ℕ → Bool
  lineText : Bool

/-- The text of a line goes to the cleared destination, which a failure leaves empty. -/
def writeValidatedLine (memory : Memory) (line : List UInt8) :
    Except Failure (List UInt8) :=
  if Text.isValidUtf8 line then
    if memory.lineText then .ok line else .error .outOfMemory
  else .error .invalidUtf8

theorem moveForward_destination (count : ℕ) (storage : List UInt8) (source destination : ℕ) :
    (moveForward count storage source destination).2 = destination + count := by
  induction count generalizing storage source destination with
  | zero => rfl
  | succ count ih =>
    rw [moveForward, ih]
    omega

/-- Bytes move forward over bytes that have been moved, so every one arrives as it was. -/
theorem moveForward_take (count : ℕ) (storage : List UInt8) (source destination : ℕ)
    (hbehind : destination < source) (hcount : source + count ≤ storage.length) :
    (moveForward count storage source destination).1.take (destination + count) =
      storage.take destination ++ (storage.drop source).take count := by
  induction count generalizing storage source destination with
  | zero => simp [moveForward]
  | succ count ih =>
    have hsource : source < storage.length := by omega
    have hdestination : destination < storage.length := by omega
    have hmoved := ih (storage.set destination (storage.getD source 0)) (source + 1)
      (destination + 1) (by omega) (by rw [List.length_set]; omega)
    have hgrown : (storage.set destination (storage.getD source 0)).take (destination + 1) =
        storage.take destination ++ [storage.getD source 0] := by
      rw [List.take_add_one, List.take_set_of_le (by omega)]
      simp [hdestination]
    have hbeyond : (storage.set destination (storage.getD source 0)).drop (source + 1) =
        storage.drop (source + 1) := List.drop_set_of_lt (by omega)
    have hfirst : storage.getD source 0 = storage[source] := by
      rw [List.getD_eq_getElem?_getD, List.getElem?_eq_getElem hsource, Option.getD_some]
    have hnext : (storage.drop source).take (count + 1) =
        storage.getD source 0 :: (storage.drop (source + 1)).take count := by
      rw [List.drop_eq_getElem_cons hsource, List.take_succ_cons, hfirst]
    rw [moveForward, show destination + (count + 1) = destination + 1 + count by omega,
      hmoved, hgrown, hbeyond, hnext, List.append_assoc, List.singleton_append]

theorem discardBytePrefix_eq_drop (storage : List UInt8) (consumed : ℕ) :
    discardBytePrefix storage consumed = storage.drop consumed := by
  unfold discardBytePrefix
  by_cases hzero : consumed = 0
  · rw [if_pos hzero, hzero, List.drop_zero]
  · rw [if_neg hzero]
    by_cases hall : storage.length ≤ consumed
    · rw [if_pos hall, List.drop_eq_nil_of_le hall]
    · have hlen : (storage.drop consumed).length = storage.length - consumed :=
        List.length_drop
      have hmoved := moveForward_take (storage.length - consumed) storage consumed 0 (by omega)
        (by omega)
      rw [if_neg hall]
      simp only [moveForward_destination]
      rw [hmoved, List.take_zero, List.nil_append, ← hlen, List.take_length]

theorem writeValidatedLine_ok {memory : Memory} {line text : List UInt8}
    (h : writeValidatedLine memory line = .ok text) : text = line := by
  unfold writeValidatedLine at h
  split at h
  · split at h
    · exact (Except.ok.inj h).symm
    · cases h
  · cases h

end Nocter.Buffering

/-!
# The asynchronous buffered reader

A call is dropped at the suspension where its source does not answer any more: `patience`
counts the reads that are answered while the call runs. What a dropped call has accepted
stays in the line buffer and in the read buffer.
-/

namespace Nocter.Buffering

structure LineLimit where
  isBounded : Bool
  maximumEncodedBytes : ℕ

def unboundedLineLimit : LineLimit := ⟨false, 0⟩

def boundedLineLimit (maximumEncodedBytes : ℕ) : LineLimit := ⟨true, maximumEncodedBytes⟩

def lineLimitReached (limit : LineLimit) (retained : ℕ) : Bool :=
  limit.isBounded && decide (limit.maximumEncodedBytes ≤ retained)

/-- A line as it is returned, with the line ending that was removed from it. -/
structure Line where
  text : List UInt8
  terminator : List UInt8
  deriving DecidableEq, Repr

structure BufReader where
  source : Source
  buffer : List UInt8
  next : ℕ
  validLen : ℕ
  lineBuffer : List UInt8
  lineNext : ℕ
  isFinished : Bool
  deriving DecidableEq, Repr

/-- Where the bytes of one refill leave a call that collects a line. -/
inductive LineScan where
  | drained (reader : BufReader)
  | lineFeed (reader : BufReader)
  | failed (failure : Failure) (reader : BufReader)

namespace BufReader

def withCapacity (source : Source) (requestedCapacity : ℕ) : BufReader where
  source := source
  buffer := initializedByteStorage (normalizedCapacity requestedCapacity)
  next := 0
  validLen := 0
  lineBuffer := []
  lineNext := 0
  isFinished := false

def endAsyncReader (reader : BufReader) : BufReader :=
  { reader with isFinished := true, buffer := [], next := 0, validLen := 0 }

def terminateAsyncReader (reader : BufReader) : BufReader :=
  { reader.endAsyncReader with lineBuffer := [], lineNext := 0 }

/-- The source writes into the front of the read buffer. -/
def fill (reader : BufReader) (source : Source) (bytes : List UInt8) : BufReader :=
  { reader with
    source := source
    buffer := bytes.take reader.buffer.length ++ reader.buffer.drop bytes.length }

def refillAsyncBuffer (reader : BufReader) : Completion ℕ × BufReader :=
  if reader.isFinished then (.returned 0, reader)
  else
    match reader.source.read with
    | none => (.suspended, reader)
    | some (.failure, source) =>
      (.failed .source, { reader with source := source }.terminateAsyncReader)
    | some (.report bytes, source) =>
      match validateReadCount bytes.length reader.buffer.length with
      | .error failure => (.failed failure, (reader.fill source bytes).terminateAsyncReader)
      | .ok received =>
        let reader := { reader.fill source bytes with next := 0, validLen := received }
        (.returned received, if received = 0 then reader.endAsyncReader else reader)

/-- A refill that the caller may drop before the source has answered. -/
def refillWithin : ℕ → BufReader → Completion ℕ × BufReader
  | 0, reader => (.suspended, reader)
  | _ + 1, reader => reader.refillAsyncBuffer

/-- The loop of a read that copies what an interrupted line has left. -/
def copyLine : ℕ → BufReader → List UInt8 × BufReader
  | 0, reader => ([], reader)
  | room + 1, reader =>
    if reader.lineNext < reader.lineBuffer.length then
      let (bytes, after) := copyLine room { reader with lineNext := reader.lineNext + 1 }
      (reader.lineBuffer.getD reader.lineNext 0 :: bytes, after)
    else ([], reader)

def copyBuffer : ℕ → BufReader → List UInt8 × BufReader
  | 0, reader => ([], reader)
  | room + 1, reader =>
    if reader.next < reader.validLen then
      let (bytes, after) := copyBuffer room { reader with next := reader.next + 1 }
      (reader.buffer.getD reader.next 0 :: bytes, after)
    else ([], reader)

def releaseLine (reader : BufReader) : BufReader :=
  if reader.lineNext = reader.lineBuffer.length then
    { reader with lineBuffer := [], lineNext := 0 }
  else reader

/-- A read into a destination of `room` bytes; it gives the bytes it wrote there. -/
def readAsyncBuffer (patience room : ℕ) (reader : BufReader) :
    Completion (List UInt8) × BufReader :=
  if reader.isFinished = true ∨ room = 0 then (.returned [], reader)
  else if reader.lineNext < reader.lineBuffer.length then
    let (bytes, reader) := reader.copyLine room
    (.returned bytes, reader.releaseLine)
  else if reader.next = reader.validLen then
    match reader.refillWithin patience with
    | (.failed failure, reader) => (.failed failure, reader)
    | (.suspended, reader) => (.suspended, reader)
    | (.returned received, reader) =>
      if received = 0 then (.returned [], reader)
      else
        let (bytes, reader) := reader.copyBuffer room
        (.returned bytes, reader)
  else
    let (bytes, reader) := reader.copyBuffer room
    (.returned bytes, reader)

/-- The line loop over the `unread` bytes of the read buffer. -/
def lineBytes (limit : LineLimit) (memory : Memory) : ℕ → BufReader → LineScan
  | 0, reader => .drained reader
  | unread + 1, reader =>
    let byte := reader.buffer.getD reader.next 0
    let reader := { reader with next := reader.next + 1 }
    if byte = 10 then .lineFeed reader
    else if lineLimitReached limit reader.lineBuffer.length then
      .failed .lineTooLong reader.terminateAsyncReader
    else if memory.lineByte reader.lineBuffer.length then
      lineBytes limit memory unread { reader with lineBuffer := reader.lineBuffer ++ [byte] }
    else .failed .outOfMemory reader.terminateAsyncReader

def commitAsyncLine (memory : Memory) (terminator : List UInt8) (reader : BufReader) :
    Completion (Option Line) × BufReader :=
  match writeValidatedLine memory reader.lineBuffer with
  | .error failure => (.failed failure, reader.terminateAsyncReader)
  | .ok text =>
    (.returned (some ⟨text, terminator⟩), { reader with lineBuffer := [], lineNext := 0 })

/-- A line feed ends the line; a carriage return in front of it goes with it. -/
def completeLine (memory : Memory) (reader : BufReader) :
    Completion (Option Line) × BufReader :=
  if reader.lineBuffer.getLast? = some 13 then
    commitAsyncLine memory [13, 10] { reader with lineBuffer := reader.lineBuffer.dropLast }
  else commitAsyncLine memory [10] reader

/-- The source has ended: what has been collected is the last line. -/
def completeRest (memory : Memory) (reader : BufReader) :
    Completion (Option Line) × BufReader :=
  if reader.lineBuffer.length = 0 then (.returned none, reader)
  else commitAsyncLine memory [] reader

def lineLoop (limit : LineLimit) (memory : Memory) :
    ℕ → BufReader → Completion (Option Line) × BufReader
  | 0, reader =>
    match lineBytes limit memory (reader.validLen - reader.next) reader with
    | .failed failure reader => (.failed failure, reader)
    | .lineFeed reader => completeLine memory reader
    | .drained reader => (.suspended, reader)
  | patience + 1, reader =>
    match lineBytes limit memory (reader.validLen - reader.next) reader with
    | .failed failure reader => (.failed failure, reader)
    | .lineFeed reader => completeLine memory reader
    | .drained reader =>
      match reader.refillAsyncBuffer with
      | (.failed failure, reader) => (.failed failure, reader)
      | (.suspended, reader) => (.suspended, reader)
      | (.returned received, reader) =>
        if received = 0 then completeRest memory reader
        else lineLoop limit memory patience reader

/-- `some line` is `true` with the text of the line in the destination, which every other
outcome leaves cleared. -/
def readAsyncLineIntoWithLimit (patience : ℕ) (memory : Memory) (limit : LineLimit)
    (reader : BufReader) : Completion (Option Line) × BufReader :=
  if reader.isFinished then (.returned none, reader)
  else lineLoop limit memory patience { reader with
    lineBuffer := discardBytePrefix reader.lineBuffer reader.lineNext
    lineNext := 0 }

/-- The line goes into a new string, which is the result if a line is present. -/
def readAsyncLineWithLimit (patience : ℕ) (memory : Memory) (limit : LineLimit)
    (reader : BufReader) : Completion (Option Line) × BufReader :=
  readAsyncLineIntoWithLimit patience memory limit reader

def readLine (patience : ℕ) (memory : Memory) (reader : BufReader) :
    Completion (Option Line) × BufReader :=
  readAsyncLineWithLimit patience memory unboundedLineLimit reader

def readLineInto (patience : ℕ) (memory : Memory) (reader : BufReader) :
    Completion (Option Line) × BufReader :=
  readAsyncLineIntoWithLimit patience memory unboundedLineLimit reader

def readLineBounded (patience : ℕ) (memory : Memory) (maximumEncodedLineBytes : ℕ)
    (reader : BufReader) : Completion (Option Line) × BufReader :=
  readAsyncLineWithLimit patience memory (boundedLineLimit maximumEncodedLineBytes) reader

def readLineIntoBounded (patience : ℕ) (memory : Memory) (maximumEncodedLineBytes : ℕ)
    (reader : BufReader) : Completion (Option Line) × BufReader :=
  readAsyncLineIntoWithLimit patience memory (boundedLineLimit maximumEncodedLineBytes) reader

end BufReader

end Nocter.Buffering
