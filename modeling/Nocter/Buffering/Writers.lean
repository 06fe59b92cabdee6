import Nocter.Library.TransitionSystem
import Nocter.Buffering.AsyncReader

/-!
# Buffered writers

A writer hands its buffer to a destination whenever the buffer is full and at every flush. The
destination answers each of its calls in turn; one without another answer leaves the writer
waiting, and the caller may drop the call there.
-/

namespace Nocter.Buffering

inductive WriterFailure where
  | closed
  | destination
  deriving DecidableEq, Repr

/-- Code and message of the failure that the writers construct themselves. -/
def WriterFailure.report : WriterFailure → Option (String × String)
  | .closed => some ("std.io.closed", "I/O stream is closed")
  | .destination => none

inductive Answer where
  | done
  | failure
  deriving DecidableEq, Repr

/-- A call of the destination with its answer, if there was one. -/
inductive DestinationEvent where
  | write (bytes : List UInt8) (answer : Option Answer)
  | flush (answer : Option Answer)
  deriving DecidableEq, Repr

namespace DestinationEvent

/-- The bytes of a write that succeeded. -/
def written : DestinationEvent → List UInt8
  | .write bytes (some .done) => bytes
  | _ => []

/-- The bytes of a write, whatever came of it. -/
def handed : DestinationEvent → List UInt8
  | .write bytes _ => bytes
  | .flush _ => []

end DestinationEvent

structure Destination where
  log : List DestinationEvent
  deriving DecidableEq, Repr

namespace Destination

def written (destination : Destination) : List UInt8 := destination.log.flatMap (·.written)

def handed (destination : Destination) : List UInt8 := destination.log.flatMap (·.handed)

/-- A call of the destination takes its next answer. -/
def call (destination : Destination) (event : Option Answer → DestinationEvent) :
    List Answer → Option Answer × Destination × List Answer
  | [] => (none, ⟨destination.log ++ [event none]⟩, [])
  | answer :: answers => (some answer, ⟨destination.log ++ [event (some answer)]⟩, answers)

def write (destination : Destination) (bytes : List UInt8) :
    List Answer → Option Answer × Destination × List Answer :=
  destination.call (.write bytes)

def flush (destination : Destination) : List Answer → Option Answer × Destination × List Answer :=
  destination.call .flush

end Destination

/-- The fields of `BufWriter` and of `BlockingBufWriter`. -/
structure BufWriter where
  destination : Destination
  buffer : List UInt8
  limit : ℕ
  isOpen : Bool
  deriving DecidableEq, Repr

/-- How a call ends: with success, with a failure, or not at all because the destination has
not answered when the call is dropped. -/
inductive Ending where
  | returned
  | failed (failure : WriterFailure)
  | suspended
  deriving DecidableEq, Repr

/-- What a call leaves, with the answers of the destination that it did not take. -/
structure WriterResult where
  ending : Ending
  writer : BufWriter
  answers : List Answer
  deriving DecidableEq, Repr

namespace BufWriter

def withCapacity (destination : Destination) (requestedCapacity : ℕ) : BufWriter where
  destination := destination
  buffer := []
  limit := normalizedCapacity requestedCapacity
  isOpen := true

/-- `terminate_async_writer` and `terminate_writer`. -/
def terminate (writer : BufWriter) : BufWriter := { writer with buffer := [], isOpen := false }

def push (writer : BufWriter) (byte : UInt8) : BufWriter :=
  { writer with buffer := writer.buffer ++ [byte] }

/-- The end of a flush: the writer is open again once the destination is flushed. -/
def flushAsyncDestination (writer : BufWriter) (answers : List Answer) : WriterResult :=
  match writer.destination.flush answers with
  | (none, destination, answers) => ⟨.suspended, { writer with destination }, answers⟩
  | (some .failure, destination, answers) =>
    ⟨.failed .destination, { writer with destination }.terminate, answers⟩
  | (some .done, destination, answers) =>
    ⟨.returned, { writer with destination, isOpen := true }, answers⟩

def flushAsyncBuffer (writer : BufWriter) (answers : List Answer) : WriterResult :=
  if !writer.isOpen then ⟨.failed .closed, writer, answers⟩
  else
    let writer := { writer with isOpen := false }
    if writer.buffer.length ≠ 0 then
      match writer.destination.write writer.buffer answers with
      | (none, destination, answers) => ⟨.suspended, { writer with destination }, answers⟩
      | (some .failure, destination, answers) =>
        ⟨.failed .destination, { writer with destination }.terminate, answers⟩
      | (some .done, destination, answers) =>
        { writer with destination, buffer := [] }.flushAsyncDestination answers
    else writer.flushAsyncDestination answers

def flushBlockingDestination (writer : BufWriter) (answers : List Answer) : WriterResult :=
  match writer.destination.flush answers with
  | (none, destination, answers) => ⟨.suspended, { writer with destination }, answers⟩
  | (some .failure, destination, answers) =>
    ⟨.failed .destination, { writer with destination }.terminate, answers⟩
  | (some .done, destination, answers) => ⟨.returned, { writer with destination }, answers⟩

/-- `flush` of the blocking writer, which nobody drops, stays open while it waits. -/
def flushBlocking (writer : BufWriter) (answers : List Answer) : WriterResult :=
  if !writer.isOpen then ⟨.failed .closed, writer, answers⟩
  else if writer.buffer.length ≠ 0 then
    match writer.destination.write writer.buffer answers with
    | (none, destination, answers) => ⟨.suspended, { writer with destination }, answers⟩
    | (some .failure, destination, answers) =>
      ⟨.failed .destination, { writer with destination }.terminate, answers⟩
    | (some .done, destination, answers) =>
      { writer with destination, buffer := [] }.flushBlockingDestination answers
  else writer.flushBlockingDestination answers

/-- The loop of a write over the bytes that are left. -/
def writeLoop (flush : BufWriter → List Answer → WriterResult) :
    List UInt8 → BufWriter → List Answer → WriterResult
  | [], writer, answers => ⟨.returned, writer, answers⟩
  | byte :: rest, writer, answers =>
    if writer.buffer.length = writer.limit then
      match flush writer answers with
      | ⟨.returned, writer, answers⟩ => writeLoop flush rest (writer.push byte) answers
      | result => result
    else writeLoop flush rest (writer.push byte) answers

def writeAsyncBuffer (writer : BufWriter) (bytes : List UInt8) (answers : List Answer) :
    WriterResult :=
  if !writer.isOpen then ⟨.failed .closed, writer, answers⟩
  else writeLoop flushAsyncBuffer bytes writer answers

def writeBlocking (writer : BufWriter) (bytes : List UInt8) (answers : List Answer) :
    WriterResult :=
  if !writer.isOpen then ⟨.failed .closed, writer, answers⟩
  else writeLoop flushBlocking bytes writer answers

/-- `finish` takes the writer; on success it is left closed beside its destination. -/
def finishWith (flush : BufWriter → List Answer → WriterResult) (writer : BufWriter)
    (answers : List Answer) : WriterResult :=
  match flush writer answers with
  | ⟨.returned, writer, answers⟩ => ⟨.returned, { writer with isOpen := false }, answers⟩
  | result => result

def finishAsync (writer : BufWriter) (answers : List Answer) : WriterResult :=
  finishWith flushAsyncBuffer writer answers

def finishBlocking (writer : BufWriter) (answers : List Answer) : WriterResult :=
  finishWith flushBlocking writer answers

end BufWriter

inductive WriterCall where
  | write (bytes : List UInt8)
  | flush
  | finish
  deriving DecidableEq, Repr

namespace WriterCall

/-- The bytes that a call passes to the writer. -/
def passed : WriterCall → List UInt8
  | .write bytes => bytes
  | _ => []

def performAsync (call : WriterCall) (writer : BufWriter) (answers : List Answer) : WriterResult :=
  match call with
  | .write bytes => writer.writeAsyncBuffer bytes answers
  | .flush => writer.flushAsyncBuffer answers
  | .finish => writer.finishAsync answers

def performBlocking (call : WriterCall) (writer : BufWriter) (answers : List Answer) :
    WriterResult :=
  match call with
  | .write bytes => writer.writeBlocking bytes answers
  | .flush => writer.flushBlocking answers
  | .finish => writer.finishBlocking answers

end WriterCall

/-! ### What calls hand over -/

namespace Destination

variable (destination : Destination) (event : DestinationEvent)

def logged : Destination := ⟨destination.log ++ [event]⟩

@[simp] theorem written_logged :
    (destination.logged event).written = destination.written ++ event.written := by
  rw [written, written, logged, List.flatMap_append, List.flatMap_singleton]

@[simp] theorem handed_logged :
    (destination.logged event).handed = destination.handed ++ event.handed := by
  rw [handed, handed, logged, List.flatMap_append, List.flatMap_singleton]

end Destination

namespace BufWriter

variable {base : List UInt8} {writer : BufWriter} {result : WriterResult}

/-- What a writer has done with the bytes that have been passed to it. -/
structure Accounts (base : List UInt8) (writer : BufWriter) : Prop where
  written : writer.destination.written <+: writer.destination.handed
  handed : writer.destination.handed <+: base
  whole : writer.isOpen = true →
    writer.destination.written ++ writer.buffer = base ∧
      writer.destination.handed = writer.destination.written

/-- What a call leaves that nothing follows: a closed writer. -/
structure Stopped (base : List UInt8) (result : WriterResult) : Prop where
  ending : result.ending ≠ .returned
  isClosed : result.writer.isOpen = false
  accounts : Accounts base result.writer

/-- A successful flush has handed over everything. -/
inductive Flushed (base : List UInt8) : WriterResult → Prop
  | returned {writer : BufWriter} {answers : List Answer} (hopen : writer.isOpen = true)
      (hbuffer : writer.buffer = []) (h : Accounts base writer) :
      Flushed base ⟨.returned, writer, answers⟩
  | stopped {result : WriterResult} (h : Stopped base result) : Flushed base result

theorem accounts_closed {destination : Destination} {buffer : List UInt8} {limit : ℕ}
    (hwritten : destination.written <+: destination.handed)
    (hhanded : destination.handed <+: base) : Accounts base ⟨destination, buffer, limit, false⟩ :=
  ⟨hwritten, hhanded, (by cases ·)⟩

theorem flushAsyncDestination_flushed {destination : Destination} {limit : ℕ}
    (hwritten : destination.written = base) (hhanded : destination.handed = base)
    (answers : List Answer) :
    Flushed base (flushAsyncDestination ⟨destination, [], limit, false⟩ answers) := by
  have hlogged : ∀ answer, (destination.logged (.flush answer)).written = base ∧
      (destination.logged (.flush answer)).handed = base := by
    intro answer
    rw [Destination.written_logged, Destination.handed_logged, hwritten, hhanded]
    exact ⟨List.append_nil _, List.append_nil _⟩
  have hclosed : ∀ answer,
      Accounts base ⟨destination.logged (.flush answer), [], limit, false⟩ := by
    intro answer
    obtain ⟨hnow, hall⟩ := hlogged answer
    have hsame : (destination.logged (.flush answer)).written =
        (destination.logged (.flush answer)).handed := hnow.trans hall.symm
    exact accounts_closed (hsame ▸ List.prefix_rfl) (hall ▸ List.prefix_rfl)
  cases answers with
  | nil => exact .stopped ⟨(by cases ·), rfl, hclosed none⟩
  | cons answer answers =>
    cases answer with
    | failure => exact .stopped ⟨(by cases ·), rfl, hclosed (some .failure)⟩
    | done =>
      refine .returned rfl rfl ⟨(hclosed _).written, (hclosed _).handed, fun _ => ⟨?_, ?_⟩⟩
      · exact (List.append_nil _).trans (hlogged _).1
      · exact (hlogged _).2.trans (hlogged _).1.symm

theorem flushAsyncBuffer_flushed (h : Accounts base writer) (hopen : writer.isOpen = true)
    (answers : List Answer) : Flushed base (writer.flushAsyncBuffer answers) := by
  obtain ⟨destination, buffer, limit, isOpen⟩ := writer
  obtain rfl : isOpen = true := hopen
  obtain ⟨hbase, hhanded⟩ := h.whole rfl
  dsimp only at hbase hhanded
  unfold flushAsyncBuffer
  rw [if_neg (by simp)]
  dsimp only
  by_cases hbuffer : buffer.length ≠ 0
  · rw [if_pos hbuffer]
    have hclosed : ∀ answer (kept : List UInt8), answer ≠ some .done →
        Accounts base ⟨destination.logged (.write buffer answer), kept, limit, false⟩ := by
      intro answer kept hanswer
      have hnothing : (DestinationEvent.write buffer answer).written = [] := by
        cases answer with
        | none => rfl
        | some answer =>
          cases answer with
          | done => exact absurd rfl hanswer
          | failure => rfl
      apply accounts_closed
      · rw [Destination.written_logged, Destination.handed_logged, hnothing, List.append_nil,
          hhanded]
        exact List.prefix_append _ _
      · rw [Destination.handed_logged, hhanded]
        exact hbase ▸ List.prefix_rfl
    cases answers with
    | nil => exact .stopped ⟨(by cases ·), rfl, hclosed none buffer (by decide)⟩
    | cons answer answers =>
      cases answer with
      | failure => exact .stopped ⟨(by cases ·), rfl, hclosed (some .failure) [] (by decide)⟩
      | done =>
        refine @flushAsyncDestination_flushed base
          (destination.logged (.write buffer (some .done))) limit ?_ ?_ answers
        · rw [Destination.written_logged]
          exact hbase
        · rw [Destination.handed_logged, hhanded]
          exact hbase
  · have hempty : buffer = [] := List.eq_nil_of_length_eq_zero (not_not.mp hbuffer)
    rw [if_neg hbuffer]
    subst hempty
    rw [List.append_nil] at hbase
    exact flushAsyncDestination_flushed hbase (hhanded.trans hbase) answers

theorem Accounts.push (h : Accounts base writer) (hopen : writer.isOpen = true) (byte : UInt8) :
    Accounts (base ++ [byte]) (writer.push byte) where
  written := h.written
  handed := h.handed.trans (List.prefix_append _ _)
  whole _ := by
    obtain ⟨hbase, hhanded⟩ := h.whole hopen
    refine ⟨?_, hhanded⟩
    rw [← hbase, List.append_assoc]
    rfl

theorem Accounts.extend (h : Accounts base writer) (hclosed : writer.isOpen = false)
    (more : List UInt8) : Accounts (base ++ more) writer where
  written := h.written
  handed := h.handed.trans (List.prefix_append _ _)
  whole hopen := by
    rw [hclosed] at hopen
    cases hopen

/-- A write leaves an open writer that has all bytes, or a closed one. -/
inductive Wrote (base : List UInt8) : WriterResult → Prop
  | returned {writer : BufWriter} {answers : List Answer} (hopen : writer.isOpen = true)
      (h : Accounts base writer) : Wrote base ⟨.returned, writer, answers⟩
  | stopped {result : WriterResult} (h : Stopped base result) : Wrote base result

theorem writeLoop_wrote (h : Accounts base writer) (hopen : writer.isOpen = true)
    (bytes : List UInt8) (answers : List Answer) :
    Wrote (base ++ bytes) (writeLoop flushAsyncBuffer bytes writer answers) := by
  induction bytes generalizing base writer answers with
  | nil =>
    rw [List.append_nil]
    exact .returned hopen h
  | cons byte rest ih =>
    have hnext : base ++ byte :: rest = base ++ [byte] ++ rest := by simp
    rw [writeLoop, hnext]
    by_cases hfull : writer.buffer.length = writer.limit
    · rw [if_pos hfull]
      have hflushed := flushAsyncBuffer_flushed h hopen answers
      cases hresult : writer.flushAsyncBuffer answers with
      | mk ending flushed left =>
        rw [hresult] at hflushed
        cases hflushed with
        | returned hopen' _ h' => exact ih (h'.push hopen' byte) hopen' left
        | stopped hstopped =>
          have hkept : Stopped (base ++ [byte] ++ rest) ⟨ending, flushed, left⟩ := by
            refine ⟨hstopped.ending, hstopped.isClosed, ?_⟩
            rw [← hnext]
            exact hstopped.accounts.extend hstopped.isClosed _
          cases ending with
          | returned => exact absurd rfl hstopped.ending
          | failed failure => exact .stopped hkept
          | suspended => exact .stopped hkept
    · rw [if_neg hfull]
      exact ih (h.push hopen byte) hopen answers

/-- Nothing is done by a closed writer. -/
theorem performAsync_closed (hclosed : writer.isOpen = false) (call : WriterCall)
    (answers : List Answer) :
    call.performAsync writer answers = ⟨.failed .closed, writer, answers⟩ := by
  have hflush : writer.flushAsyncBuffer answers = ⟨.failed .closed, writer, answers⟩ :=
    if_pos (by rw [hclosed]; rfl)
  cases call with
  | write bytes => exact if_pos (by rw [hclosed]; rfl)
  | flush => exact hflush
  | finish => rw [WriterCall.performAsync, finishAsync, finishWith, hflush]

theorem performBlocking_closed (hclosed : writer.isOpen = false) (call : WriterCall)
    (answers : List Answer) :
    call.performBlocking writer answers = ⟨.failed .closed, writer, answers⟩ := by
  have hflush : writer.flushBlocking answers = ⟨.failed .closed, writer, answers⟩ :=
    if_pos (by rw [hclosed]; rfl)
  cases call with
  | write bytes => exact if_pos (by rw [hclosed]; rfl)
  | flush => exact hflush
  | finish => rw [WriterCall.performBlocking, finishBlocking, finishWith, hflush]

/-- What a call of an open writer leaves. -/
inductive Performed (base : List UInt8) (call : WriterCall) : WriterResult → Prop
  | returned {writer : BufWriter} {answers : List Answer}
      (h : Accounts (base ++ call.passed) writer)
      (hopen : call ≠ .finish → writer.isOpen = true)
      (hflushed : call = .flush ∨ call = .finish → writer.destination.written = base) :
      Performed base call ⟨.returned, writer, answers⟩
  | stopped {result : WriterResult} (h : Stopped (base ++ call.passed) result) :
      Performed base call result

theorem performAsync_performed (h : Accounts base writer) (hopen : writer.isOpen = true)
    (call : WriterCall) (answers : List Answer) :
    Performed base call (call.performAsync writer answers) := by
  have hstopped : ∀ {result : WriterResult}, Stopped base result →
      ∀ call : WriterCall, Stopped (base ++ call.passed) result := fun hresult call =>
    ⟨hresult.ending, hresult.isClosed, hresult.accounts.extend hresult.isClosed _⟩
  have hflushed := flushAsyncBuffer_flushed h hopen answers
  have hall : ∀ {writer : BufWriter}, writer.isOpen = true → writer.buffer = [] →
      Accounts base writer → writer.destination.written = base := by
    intro writer hopen hbuffer h
    rw [← (h.whole hopen).1, hbuffer, List.append_nil]
  have hsame : base ++ [] = base := List.append_nil base
  cases call with
  | write bytes =>
    have hwrote := writeLoop_wrote h hopen bytes answers
    rw [WriterCall.performAsync, writeAsyncBuffer, if_neg (by rw [hopen]; simp)]
    generalize writeLoop flushAsyncBuffer bytes writer answers = result at *
    cases hwrote with
    | returned hopen' h' =>
      apply Performed.returned h' (fun _ => hopen')
      intro hcall
      rcases hcall with hcall | hcall <;> cases hcall
    | stopped hresult => exact .stopped hresult
  | flush =>
    rw [WriterCall.performAsync]
    generalize writer.flushAsyncBuffer answers = result at *
    cases hflushed with
    | @returned flushed left hopen' hbuffer h' =>
      have haccounts : Accounts (base ++ WriterCall.flush.passed) flushed := by
        change Accounts (base ++ []) flushed
        rwa [hsame]
      exact .returned haccounts (fun _ => hopen') (fun _ => hall hopen' hbuffer h')
    | stopped hresult => exact .stopped (hstopped hresult .flush)
  | finish =>
    rw [WriterCall.performAsync, finishAsync, finishWith]
    generalize writer.flushAsyncBuffer answers = result at *
    cases hflushed with
    | @returned flushed left hopen' hbuffer h' =>
      have hwritten : flushed.destination.written = base := hall hopen' hbuffer h'
      have haccounts : Accounts (base ++ WriterCall.finish.passed)
          { flushed with isOpen := false } := by
        change Accounts (base ++ []) _
        rw [hsame]
        exact accounts_closed h'.written h'.handed
      exact .returned haccounts (fun hcall => absurd rfl hcall) (fun _ => hwritten)
    | stopped hresult =>
      obtain ⟨ending, flushed, left⟩ := result
      cases ending with
      | returned => exact absurd rfl hresult.ending
      | failed failure => exact .stopped (hstopped hresult .finish)
      | suspended => exact .stopped (hstopped hresult .finish)

/-! ### The blocking writer -/

/-- A blocking call does what the asynchronous one does; while it waits, its writer may still be
open. -/
inductive Matches : WriterResult → WriterResult → Prop
  | ended (result : WriterResult) : Matches result result
  | suspended {blocking async : BufWriter} {left left' : List Answer}
      (h : blocking.destination = async.destination) :
      Matches ⟨.suspended, blocking, left⟩ ⟨.suspended, async, left'⟩

theorem Matches.eq {blocking async : WriterResult} (h : Matches blocking async)
    (hended : blocking.ending ≠ .suspended) : blocking = async := by
  cases h with
  | ended => rfl
  | suspended _ => exact absurd rfl hended

theorem Matches.destination {blocking async : WriterResult} (h : Matches blocking async) :
    blocking.writer.destination = async.writer.destination := by
  cases h with
  | ended => rfl
  | suspended h => exact h

theorem flushBlocking_matches (writer : BufWriter) (answers : List Answer) :
    Matches (writer.flushBlocking answers) (writer.flushAsyncBuffer answers) := by
  obtain ⟨destination, buffer, limit, isOpen⟩ := writer
  cases isOpen with
  | false => exact .ended _
  | true =>
    have hflush : ∀ (destination : Destination) (buffer : List UInt8) (answers : List Answer),
        Matches (flushBlockingDestination ⟨destination, buffer, limit, true⟩ answers)
          (flushAsyncDestination ⟨destination, buffer, limit, false⟩ answers) := by
      intro destination buffer answers
      cases answers with
      | nil => exact .suspended rfl
      | cons answer answers =>
        cases answer with
        | done => exact .ended _
        | failure => exact .ended _
    cases buffer with
    | nil => exact hflush destination [] answers
    | cons byte buffer =>
      cases answers with
      | nil => exact .suspended rfl
      | cons answer answers =>
        cases answer with
        | done => exact hflush _ [] answers
        | failure => exact .ended _

theorem writeLoop_matches (bytes : List UInt8) (writer : BufWriter) (answers : List Answer) :
    Matches (writeLoop flushBlocking bytes writer answers)
      (writeLoop flushAsyncBuffer bytes writer answers) := by
  induction bytes generalizing writer answers with
  | nil => exact .ended _
  | cons byte rest ih =>
    rw [writeLoop, writeLoop]
    by_cases hfull : writer.buffer.length = writer.limit
    · rw [if_pos hfull, if_pos hfull]
      have hflush := flushBlocking_matches writer answers
      generalize writer.flushBlocking answers = blocking at *
      generalize writer.flushAsyncBuffer answers = async at *
      cases hflush with
      | suspended h => exact .suspended h
      | ended =>
        obtain ⟨ending, flushed, left⟩ := blocking
        cases ending with
        | returned => exact ih (flushed.push byte) left
        | failed failure => exact .ended _
        | suspended => exact .ended _
    · rw [if_neg hfull, if_neg hfull]
      exact ih (writer.push byte) answers

theorem performBlocking_matches (call : WriterCall) (writer : BufWriter) (answers : List Answer) :
    Matches (call.performBlocking writer answers) (call.performAsync writer answers) := by
  cases call with
  | write bytes =>
    rw [WriterCall.performBlocking, writeBlocking, WriterCall.performAsync, writeAsyncBuffer]
    split
    · exact .ended _
    · exact writeLoop_matches bytes writer answers
  | flush => exact flushBlocking_matches writer answers
  | finish =>
    rw [WriterCall.performBlocking, finishBlocking, finishWith, WriterCall.performAsync,
      finishAsync, finishWith]
    have hflush := flushBlocking_matches writer answers
    generalize writer.flushBlocking answers = blocking at *
    generalize writer.flushAsyncBuffer answers = async at *
    cases hflush with
    | suspended h => exact .suspended h
    | ended => exact .ended _

end BufWriter

/-! ### Runs of calls -/

/-- A writer with everything that has been passed to it, whether its owner still has it and
whether a call has failed or was dropped. -/
structure WriterWorld where
  writer : BufWriter
  passed : List UInt8
  owned : Bool
  broken : Bool
  deriving DecidableEq, Repr

namespace WriterWorld

def start (capacity : ℕ) : WriterWorld where
  writer := .withCapacity ⟨[]⟩ capacity
  passed := []
  owned := true
  broken := false

def after (world : WriterWorld) (call : WriterCall) (result : WriterResult) : WriterWorld where
  writer := result.writer
  passed := world.passed ++ call.passed
  owned := call ≠ .finish
  broken := world.broken || result.ending ≠ .returned

/-- A call with the answers that the destination gives before the call is dropped. -/
def asyncStep (world : WriterWorld) (op : WriterCall × List Answer) : Option WriterWorld :=
  if world.owned then some (world.after op.1 (op.1.performAsync world.writer op.2)) else none

/-- A call that waits forever is no step. -/
def blockingStep (world : WriterWorld) (op : WriterCall × List Answer) : Option WriterWorld :=
  if world.owned then
    let result := op.1.performBlocking world.writer op.2
    if result.ending = .suspended then none else some (world.after op.1 result)
  else none

def asyncSystem (capacity : ℕ) : TransitionSystem WriterWorld :=
  .ofPartial (start capacity) asyncStep

def blockingSystem (capacity : ℕ) : TransitionSystem WriterWorld :=
  .ofPartial (start capacity) blockingStep

/-- What the calls keep: a writer without failure and without a dropped call is open for its
owner, any other one is closed for good. -/
structure Sound (world : WriterWorld) : Prop where
  accounts : BufWriter.Accounts world.passed world.writer
  isOpen : world.owned = true → world.broken = false → world.writer.isOpen = true
  isClosed : world.broken = true → world.writer.isOpen = false

theorem sound_start (capacity : ℕ) : Sound (start capacity) where
  accounts := ⟨List.prefix_rfl, List.prefix_rfl, fun _ => ⟨rfl, rfl⟩⟩
  isOpen _ _ := rfl
  isClosed := (by cases ·)

variable {world later : WriterWorld}

theorem Sound.after (h : world.Sound) (howned : world.owned = true) (call : WriterCall)
    (answers : List Answer) :
    (world.after call (call.performAsync world.writer answers)).Sound := by
  cases hbroken : world.broken with
  | true =>
    have hclosed := h.isClosed hbroken
    rw [BufWriter.performAsync_closed hclosed]
    constructor
    · exact h.accounts.extend hclosed _
    · intro _ hwhole
      have hlater : (world.broken || true) = false := hwhole
      rw [hbroken] at hlater
      cases hlater
    · exact fun _ => hclosed
  | false =>
    have hperformed :=
      BufWriter.performAsync_performed h.accounts (h.isOpen howned hbroken) call answers
    generalize call.performAsync world.writer answers = result at *
    cases hperformed with
    | returned haccounts hopen _ =>
      constructor
      · exact haccounts
      · exact fun hcall _ => hopen (of_decide_eq_true hcall)
      · intro hlater
        have hwhole : (world.broken || false) = true := hlater
        rw [hbroken] at hwhole
        cases hwhole
    | stopped hstopped =>
      constructor
      · exact hstopped.accounts
      · intro _ hlater
        have hwhole : (world.broken || decide (result.ending ≠ .returned)) = false := hlater
        rw [decide_eq_true hstopped.ending, Bool.or_true] at hwhole
        cases hwhole
      · exact fun _ => hstopped.isClosed

/-- A step of either system is a call of an owned writer that may be dropped where it waits. -/
theorem asyncStep_eq {op : WriterCall × List Answer} (h : world.asyncStep op = some later) :
    world.owned = true ∧ later = world.after op.1 (op.1.performAsync world.writer op.2) := by
  unfold asyncStep at h
  split at h
  · next howned => exact ⟨howned, (Option.some.inj h).symm⟩
  · cases h

theorem blockingStep_eq {op : WriterCall × List Answer} (h : world.blockingStep op = some later) :
    world.asyncStep op = some later := by
  unfold blockingStep at h
  unfold asyncStep
  split at h
  · next howned =>
    rw [if_pos howned]
    dsimp only at h
    split at h
    · cases h
    · next hended =>
      rwa [(BufWriter.performBlocking_matches op.1 world.writer op.2).eq hended] at h
  · cases h

theorem Sound.step {op : WriterCall × List Answer} (h : world.Sound)
    (hstep : world.asyncStep op = some later) : later.Sound := by
  obtain ⟨howned, rfl⟩ := asyncStep_eq hstep
  exact h.after howned op.1 op.2

/-- Nothing is handed over after a failure or a dropped call. -/
def Kept (world later : WriterWorld) : Prop :=
  world.broken = true →
    later.broken = true ∧ later.writer.destination = world.writer.destination

theorem Sound.kept {op : WriterCall × List Answer} (h : world.Sound)
    (hstep : world.asyncStep op = some later) : Kept world later := by
  intro hbroken
  obtain ⟨_, rfl⟩ := asyncStep_eq hstep
  rw [BufWriter.performAsync_closed (h.isClosed hbroken)]
  exact ⟨(congrArg (· || _) hbroken).trans (Bool.true_or _), rfl⟩

theorem Sound.complete (h : world.Sound) (howned : world.owned = true) {call : WriterCall}
    (hcall : call = .flush ∨ call = .finish) {answers : List Answer}
    (hreturned : (call.performAsync world.writer answers).ending = .returned) :
    (call.performAsync world.writer answers).writer.destination.written = world.passed := by
  cases hbroken : world.broken with
  | true =>
    rw [BufWriter.performAsync_closed (h.isClosed hbroken)] at hreturned
    cases hreturned
  | false =>
    have hperformed :=
      BufWriter.performAsync_performed h.accounts (h.isOpen howned hbroken) call answers
    generalize call.performAsync world.writer answers = result at *
    cases hperformed with
    | returned _ _ hflushed => exact hflushed hcall
    | stopped hstopped => exact absurd hreturned hstopped.ending

/-- After each of its calls a destination has taken the first of the bytes that were passed, and
no byte has been handed over twice, even by writes that failed or were dropped. -/
structure Receives (passed : List UInt8) (destination : Destination) : Prop where
  written : ∀ log, log <+: destination.log → (Destination.mk log).written <+: passed
  handed : destination.handed <+: passed

theorem Sound.receives (h : world.Sound) : Receives world.passed world.writer.destination where
  handed := h.accounts.handed
  written := by
    rintro log ⟨rest, hrest⟩
    have hnow : (Destination.mk log).written <+: world.writer.destination.written := by
      unfold Destination.written
      rw [← hrest, List.flatMap_append]
      exact List.prefix_append _ _
    exact (hnow.trans h.accounts.written).trans h.accounts.handed

/-- What a writer whose calls run by `perform` has made of its bytes in one state of a run. -/
structure Delivers (S : TransitionSystem WriterWorld)
    (perform : WriterCall → BufWriter → List Answer → WriterResult) (world : WriterWorld) :
    Prop where
  receives : Receives world.passed world.writer.destination
  /-- The same holds while a call waits for any answer of the destination. -/
  meanwhile : world.owned = true → ∀ (call : WriterCall) (answers : List Answer),
    Receives (world.passed ++ call.passed) (perform call world.writer answers).writer.destination
  complete : world.owned = true → ∀ (call : WriterCall) (answers : List Answer),
    call = .flush ∨ call = .finish → (perform call world.writer answers).ending = .returned →
      (perform call world.writer answers).writer.destination.written = world.passed
  broken : world.broken = true → ∀ later, S.Steps world later →
    later.writer.destination = world.writer.destination ∧ later.writer.isOpen = false ∧
      ∀ (call : WriterCall) (answers : List Answer),
        perform call later.writer answers = ⟨.failed .closed, later.writer, answers⟩

section Runs

variable {S : TransitionSystem WriterWorld}

/-- Facts about runs hold of every system whose steps are calls that may be dropped. -/
theorem sound_of_reachable {capacity : ℕ}
    (hinitial : ∀ world, S.initial world → world = start capacity)
    (hnext : ∀ world later, S.next world later → ∃ op, world.asyncStep op = some later)
    (h : S.Reachable world) : world.Sound := by
  apply h.invariant
  · intro first hfirst
    rw [hinitial first hfirst]
    exact sound_start capacity
  · intro world later hsound hstep
    obtain ⟨op, hop⟩ := hnext world later hstep
    exact hsound.step hop

theorem kept_of_steps
    (hnext : ∀ world later, S.next world later → ∃ op, world.asyncStep op = some later)
    (h : world.Sound) (hrun : S.Steps world later) : later.Sound ∧ Kept world later := by
  have hstep : ∀ world later, world.Sound → S.next world later → later.Sound := by
    intro world later hsound hstep
    obtain ⟨op, hop⟩ := hnext world later hstep
    exact hsound.step hop
  refine ⟨hrun.invariant hstep h, hrun.refines hstep ?_ ?_ ?_ h⟩
  · exact fun world hbroken => ⟨hbroken, rfl⟩
  · intro first second third hfirst hsecond hbroken
    obtain ⟨hnow, hsame⟩ := hfirst hbroken
    obtain ⟨hthen, hagain⟩ := hsecond hnow
    exact ⟨hthen, hagain.trans hsame⟩
  · intro world later hsound hstep
    obtain ⟨op, hop⟩ := hnext world later hstep
    exact hsound.kept hop

theorem delivers_of_sound {perform : WriterCall → BufWriter → List Answer → WriterResult}
    (hnext : ∀ world later, S.next world later → ∃ op, world.asyncStep op = some later)
    (hperform : ∀ (call : WriterCall) (writer : BufWriter) (answers : List Answer),
      BufWriter.Matches (perform call writer answers) (call.performAsync writer answers))
    (hclosed : ∀ (call : WriterCall) (writer : BufWriter) (answers : List Answer),
      writer.isOpen = false → perform call writer answers = ⟨.failed .closed, writer, answers⟩)
    (h : world.Sound) : Delivers S perform world where
  receives := h.receives
  meanwhile howned call answers := by
    rw [(hperform call world.writer answers).destination]
    exact (h.after howned call answers).receives
  complete howned call answers hcall hreturned := by
    have hsame := (hperform call world.writer answers).eq (by rw [hreturned]; simp)
    rw [hsame] at hreturned ⊢
    exact h.complete howned hcall hreturned
  broken hbroken later hrun := by
    obtain ⟨hlater, hkept⟩ := kept_of_steps hnext h hrun
    obtain ⟨hstill, hdestination⟩ := hkept hbroken
    have hwriter := hlater.isClosed hstill
    exact ⟨hdestination, hwriter, fun call answers => hclosed call later.writer answers hwriter⟩

end Runs

end WriterWorld

open WriterWorld in
/-- Of every capacity, with every answer of the destination and every call that is dropped where
it waits: what the destination has taken is the beginning of what was passed to the writer, each
byte once; a flush or a finish that succeeds has handed over everything; and after a failure or
a dropped call the destination is left alone and every call fails. -/
theorem buffered_writers_exact (capacity : ℕ) (world : WriterWorld) :
    ((asyncSystem capacity).Reachable world →
      world.Delivers (asyncSystem capacity) WriterCall.performAsync) ∧
    ((blockingSystem capacity).Reachable world →
      world.Delivers (blockingSystem capacity) WriterCall.performBlocking) := by
  have hblocking : ∀ world later, (blockingSystem capacity).next world later →
      ∃ op, world.asyncStep op = some later := by
    rintro world later ⟨op, hop⟩
    exact ⟨op, blockingStep_eq hop⟩
  constructor
  · intro hworld
    apply delivers_of_sound (fun _ _ hstep => hstep) (fun _ _ _ => .ended _)
    · exact fun call writer answers hclosed => BufWriter.performAsync_closed hclosed call answers
    · exact sound_of_reachable (fun _ hfirst => hfirst) (fun _ _ hstep => hstep) hworld
  · intro hworld
    apply delivers_of_sound hblocking BufWriter.performBlocking_matches
    · exact fun call writer answers hclosed => BufWriter.performBlocking_closed hclosed call answers
    · exact sound_of_reachable (fun _ hfirst => hfirst) hblocking hworld

/-- Three bytes reach a writer of capacity two; the flush in the middle succeeds and the flush
after it is dropped while the destination writes the third byte. -/
def droppedFlush : List (WriterCall × List Answer) :=
  [(.write [97, 98, 99], [.done, .done]), (.flush, []), (.write [100], [])]

open WriterWorld TransitionSystem in
theorem dropped_flush_exact :
    ∃ world, droppedFlush.foldlM asyncStep (start 2) = some world ∧
      world.broken = true ∧ world.passed = [97, 98, 99, 100] ∧
      world.writer.destination.written = [97, 98] ∧
      world.Delivers (asyncSystem 2) WriterCall.performAsync := by
  obtain ⟨world, hrun, hshape⟩ : ∃ world, droppedFlush.foldlM asyncStep (start 2) = some world ∧
      (world.broken = true ∧ world.passed = [97, 98, 99, 100] ∧
        world.writer.destination.written = [97, 98]) := ⟨_, rfl, by decide⟩
  exact ⟨world, hrun, hshape.1, hshape.2.1, hshape.2.2,
    (buffered_writers_exact 2 world).1 (reachable_of_run hrun)⟩

end Nocter.Buffering
