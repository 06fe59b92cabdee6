import Nocter.Buffering.AsyncCalls

/-!
# The blocking buffered reader

The same state without a cursor into the line buffer: a blocking call is never dropped, so
no line stays interrupted. A call whose source never answers does not return.
-/

namespace Nocter.Buffering

structure BlockingBufReader where
  source : Source
  buffer : List UInt8
  next : ℕ
  validLen : ℕ
  lineBuffer : List UInt8
  isFinished : Bool
  deriving DecidableEq, Repr

inductive BlockingScan where
  | drained (reader : BlockingBufReader)
  | lineFeed (reader : BlockingBufReader)
  | failed (failure : Failure) (reader : BlockingBufReader)

namespace BlockingBufReader

def withCapacity (source : Source) (requestedCapacity : ℕ) : BlockingBufReader where
  source := source
  buffer := initializedByteStorage (normalizedCapacity requestedCapacity)
  next := 0
  validLen := 0
  lineBuffer := []
  isFinished := false

def endReader (reader : BlockingBufReader) : BlockingBufReader :=
  { reader with isFinished := true, buffer := [], next := 0, validLen := 0 }

def terminateReader (reader : BlockingBufReader) : BlockingBufReader :=
  { reader.endReader with lineBuffer := [] }

def fill (reader : BlockingBufReader) (source : Source) (bytes : List UInt8) :
    BlockingBufReader :=
  { reader with
    source := source
    buffer := bytes.take reader.buffer.length ++ reader.buffer.drop bytes.length }

def refill (reader : BlockingBufReader) : Completion ℕ × BlockingBufReader :=
  if reader.isFinished then (.returned 0, reader)
  else
    match reader.source.read with
    | none => (.suspended, reader)
    | some (.failure, source) =>
      (.failed .source, { reader with source := source }.terminateReader)
    | some (.report bytes, source) =>
      match validateReadCount bytes.length reader.buffer.length with
      | .error failure => (.failed failure, (reader.fill source bytes).terminateReader)
      | .ok received =>
        let reader := { reader.fill source bytes with next := 0, validLen := received }
        (.returned received, if received = 0 then reader.endReader else reader)

/-- The head of the read loop: the bytes that can be copied, after a refill if there were
none. -/
def available (reader : BlockingBufReader) : Completion ℕ × BlockingBufReader :=
  if reader.next = reader.validLen then reader.refill
  else (.returned (reader.validLen - reader.next), reader)

/-- The loop of `read` for `room` more bytes. A failure takes the bytes with it that the
call has copied. -/
def readLoop : ℕ → BlockingBufReader → Completion (List UInt8) × BlockingBufReader
  | 0, reader => (.returned [], reader)
  | room + 1, reader =>
    match reader.available with
    | (.failed failure, reader) => (.failed failure, reader)
    | (.suspended, reader) => (.suspended, reader)
    | (.returned received, reader) =>
      if received = 0 then (.returned [], reader)
      else
        match readLoop room { reader with next := reader.next + 1 } with
        | (.failed failure, after) => (.failed failure, after)
        | (.suspended, after) => (.suspended, after)
        | (.returned bytes, after) =>
          (.returned (reader.buffer.getD reader.next 0 :: bytes), after)

def read (room : ℕ) (reader : BlockingBufReader) :
    Completion (List UInt8) × BlockingBufReader :=
  if reader.isFinished then (.returned [], reader) else readLoop room reader

def lineBytes (memory : Memory) : ℕ → BlockingBufReader → BlockingScan
  | 0, reader => .drained reader
  | unread + 1, reader =>
    let byte := reader.buffer.getD reader.next 0
    let reader := { reader with next := reader.next + 1 }
    if byte = 10 then .lineFeed reader
    else if memory.lineByte reader.lineBuffer.length then
      lineBytes memory unread { reader with lineBuffer := reader.lineBuffer ++ [byte] }
    else .failed .outOfMemory reader.terminateReader

def commitLine (memory : Memory) (terminator : List UInt8) (reader : BlockingBufReader) :
    Completion (Option Line) × BlockingBufReader :=
  match writeValidatedLine memory reader.lineBuffer with
  | .error failure => (.failed failure, reader.terminateReader)
  | .ok text => (.returned (some ⟨text, terminator⟩), { reader with lineBuffer := [] })

def completeLine (memory : Memory) (reader : BlockingBufReader) :
    Completion (Option Line) × BlockingBufReader :=
  if reader.lineBuffer.getLast? = some 13 then
    commitLine memory [13, 10] { reader with lineBuffer := reader.lineBuffer.dropLast }
  else commitLine memory [10] reader

def completeRest (memory : Memory) (reader : BlockingBufReader) :
    Completion (Option Line) × BlockingBufReader :=
  if reader.lineBuffer.length = 0 then (.returned none, reader)
  else commitLine memory [] reader

/-- The line loop with as many refills as the source has answers. -/
def lineLoop (memory : Memory) :
    ℕ → BlockingBufReader → Completion (Option Line) × BlockingBufReader
  | 0, reader =>
    match lineBytes memory (reader.validLen - reader.next) reader with
    | .failed failure reader => (.failed failure, reader)
    | .lineFeed reader => completeLine memory reader
    | .drained reader => (.suspended, reader)
  | answers + 1, reader =>
    match lineBytes memory (reader.validLen - reader.next) reader with
    | .failed failure reader => (.failed failure, reader)
    | .lineFeed reader => completeLine memory reader
    | .drained reader =>
      match reader.refill with
      | (.failed failure, reader) => (.failed failure, reader)
      | (.suspended, reader) => (.suspended, reader)
      | (.returned received, reader) =>
        if received = 0 then completeRest memory reader else lineLoop memory answers reader

def readLineInto (memory : Memory) (reader : BlockingBufReader) :
    Completion (Option Line) × BlockingBufReader :=
  if reader.isFinished then (.returned none, reader)
  else lineLoop memory reader.source.answers.length reader

def readLine (memory : Memory) (reader : BlockingBufReader) :
    Completion (Option Line) × BlockingBufReader :=
  readLineInto memory reader

end BlockingBufReader

namespace BufReader

/-- The blocking reader in the same state, between calls that were not dropped. -/
def blocking (reader : BufReader) : BlockingBufReader where
  source := reader.source
  buffer := reader.buffer
  next := reader.next
  validLen := reader.validLen
  lineBuffer := reader.lineBuffer
  isFinished := reader.isFinished

/-- The result of an asynchronous call as the blocking reader would give it. -/
def mirror {α : Type} (result : Completion α × BufReader) : Completion α × BlockingBufReader :=
  (result.1, result.2.blocking)

theorem blocking_refill (reader : BufReader) :
    reader.blocking.refill = mirror reader.refillAsyncBuffer := by
  rw [BlockingBufReader.refill, refillAsyncBuffer]
  by_cases hfinished : reader.isFinished = true
  · rw [if_pos hfinished, if_pos (show reader.blocking.isFinished = true from hfinished)]
    rfl
  · rw [if_neg hfinished, if_neg (show ¬ reader.blocking.isFinished = true from hfinished),
      show reader.blocking.source.read = reader.source.read from rfl]
    cases reader.source.read with
    | none => rfl
    | some answered =>
        obtain ⟨answer, source⟩ := answered
        cases answer with
        | failure => rfl
        | report bytes =>
          simp only [show reader.blocking.buffer.length = reader.buffer.length from rfl]
          cases validateReadCount bytes.length reader.buffer.length with
          | error failure => rfl
          | ok received =>
            by_cases hend : received = 0
            · simp only [if_pos hend]
              rfl
            · simp only [if_neg hend]
              rfl

/-- The scan of the asynchronous reader as the blocking reader would make it. -/
def mirrorScan : LineScan → BlockingScan
  | .drained reader => .drained reader.blocking
  | .lineFeed reader => .lineFeed reader.blocking
  | .failed failure reader => .failed failure reader.blocking

theorem blocking_lineBytes (memory : Memory) (count : ℕ) (reader : BufReader) :
    reader.blocking.lineBytes memory count =
      mirrorScan (reader.lineBytes unboundedLineLimit memory count) := by
  induction count generalizing reader with
  | zero => rfl
  | succ count ih =>
    rw [BlockingBufReader.lineBytes, lineBytes]
    have hbyte : reader.blocking.buffer.getD reader.blocking.next 0 =
        reader.buffer.getD reader.next 0 := rfl
    simp only [hbyte]
    by_cases hfeed : reader.buffer.getD reader.next 0 = 10
    · rw [if_pos hfeed, if_pos hfeed]
      rfl
    · have hfree : ¬ lineLimitReached unboundedLineLimit reader.lineBuffer.length = true :=
        Bool.false_ne_true
      rw [if_neg hfeed, if_neg hfeed, if_neg hfree,
        show reader.blocking.lineBuffer = reader.lineBuffer from rfl]
      by_cases hroom : memory.lineByte reader.lineBuffer.length = true
      · rw [if_pos hroom, if_pos hroom]
        exact ih { reader with
          next := reader.next + 1
          lineBuffer := reader.lineBuffer ++ [reader.buffer.getD reader.next 0] }
      · rw [if_neg hroom, if_neg hroom]
        rfl

theorem blocking_commitLine (memory : Memory) (terminator : List UInt8) (reader : BufReader) :
    reader.blocking.commitLine memory terminator =
      mirror (reader.commitAsyncLine memory terminator) := by
  rw [BlockingBufReader.commitLine, commitAsyncLine,
    show reader.blocking.lineBuffer = reader.lineBuffer from rfl]
  cases writeValidatedLine memory reader.lineBuffer <;> rfl

theorem blocking_completeLine (memory : Memory) (reader : BufReader) :
    reader.blocking.completeLine memory = mirror (reader.completeLine memory) := by
  rw [BlockingBufReader.completeLine, completeLine,
    show reader.blocking.lineBuffer = reader.lineBuffer from rfl]
  split
  · exact blocking_commitLine memory [13, 10]
      { reader with lineBuffer := reader.lineBuffer.dropLast }
  · exact blocking_commitLine memory [10] reader

theorem blocking_completeRest (memory : Memory) (reader : BufReader) :
    reader.blocking.completeRest memory = mirror (reader.completeRest memory) := by
  rw [BlockingBufReader.completeRest, completeRest,
    show reader.blocking.lineBuffer = reader.lineBuffer from rfl]
  split
  · rfl
  · exact blocking_commitLine memory [] reader

theorem blocking_lineLoop (memory : Memory) (answers : ℕ) (reader : BufReader) :
    reader.blocking.lineLoop memory answers =
      mirror (reader.lineLoop unboundedLineLimit memory answers) := by
  induction answers generalizing reader with
  | zero =>
    rw [BlockingBufReader.lineLoop, lineLoop]
    simp only [show reader.blocking.validLen = reader.validLen from rfl,
      show reader.blocking.next = reader.next from rfl, blocking_lineBytes]
    cases lineBytes unboundedLineLimit memory (reader.validLen - reader.next) reader with
    | drained after => rfl
    | lineFeed after => exact blocking_completeLine memory after
    | failed failure after => rfl
  | succ answers ih =>
    rw [BlockingBufReader.lineLoop, lineLoop]
    simp only [show reader.blocking.validLen = reader.validLen from rfl,
      show reader.blocking.next = reader.next from rfl, blocking_lineBytes]
    cases lineBytes unboundedLineLimit memory (reader.validLen - reader.next) reader with
    | lineFeed after => exact blocking_completeLine memory after
    | failed failure after => rfl
    | drained after =>
        simp only [mirrorScan, blocking_refill, mirror]
        rcases after.refillAsyncBuffer with ⟨completion, refilled⟩
        cases completion with
        | failed failure => rfl
        | suspended => rfl
        | returned received =>
          simp only
          split
          · exact blocking_completeRest memory refilled
          · exact ih refilled

end BufReader

end Nocter.Buffering
