import Nocter.Library.TransitionSystem
import Nocter.Buffering.Agreement

/-!
# Runs of the buffered readers

A run of the asynchronous reader is any sequence of calls, each with as many answered reads
of its source as its caller waits for. The blocking reader is compared with the asynchronous
one on sequences of calls that no caller drops.
-/

namespace Nocter.Buffering

open Completion

inductive Call where
  | read (room : ℕ)
  | readLine
  | readLineInto
  | readLineBounded (maximumEncodedLineBytes : ℕ)
  | readLineIntoBounded (maximumEncodedLineBytes : ℕ)
  deriving DecidableEq, Repr

/-- What a call returns: the bytes it wrote or the line it found, if any. -/
inductive Item where
  | bytes (bytes : List UInt8)
  | line (line : Option Line)
  deriving DecidableEq, Repr

def Item.restored : Item → List UInt8
  | .bytes written => written
  | .line found => restoredLine found

/-- The report of the end: no bytes, or no line. -/
def Call.endOfStream : Call → Item
  | .read _ => .bytes []
  | _ => .line none

/-- A call with the number of source reads that are answered before its caller drops it. -/
structure Attempt where
  call : Call
  patience : ℕ
  memory : Memory

def BufReader.perform (reader : BufReader) (attempt : Attempt) : Completion Item × BufReader :=
  match attempt.call with
  | .read room =>
    let (completion, reader) := reader.readAsyncBuffer attempt.patience room
    (completion.map .bytes, reader)
  | .readLine =>
    let (completion, reader) := reader.readLine attempt.patience attempt.memory
    (completion.map .line, reader)
  | .readLineInto =>
    let (completion, reader) := reader.readLineInto attempt.patience attempt.memory
    (completion.map .line, reader)
  | .readLineBounded maximum =>
    let (completion, reader) := reader.readLineBounded attempt.patience attempt.memory maximum
    (completion.map .line, reader)
  | .readLineIntoBounded maximum =>
    let (completion, reader) := reader.readLineIntoBounded attempt.patience attempt.memory maximum
    (completion.map .line, reader)

/-- A reader with everything its calls have returned, lines with their endings. -/
structure AsyncWorld where
  reader : BufReader
  returned : List UInt8
  failed : Bool

namespace AsyncWorld

def restoredBy : Completion Item → List UInt8
  | .returned item => item.restored
  | _ => []

def step (world : AsyncWorld) (attempt : Attempt) : AsyncWorld :=
  let (completion, reader) := world.reader.perform attempt
  { reader
    returned := world.returned ++ restoredBy completion
    failed := world.failed || completion.isFailure }

def start (source : Source) (capacity : ℕ) : AsyncWorld where
  reader := BufReader.withCapacity source capacity
  returned := []
  failed := false

def system (source : Source) (capacity : ℕ) : TransitionSystem AsyncWorld :=
  .ofStep (start source capacity) step

end AsyncWorld

/-! ### Calls as one family -/

namespace BufReader

theorem Accounts.mapped {α : Type} {stream : List UInt8} {restored : α → List UInt8}
    {result : Completion α × BufReader} (h : Accounts stream restored result)
    {make : α → Item} (hmake : ∀ value, (make value).restored = restored value) :
    Accounts stream Item.restored (result.1.map make, result.2) := by
  obtain ⟨completion, reader⟩ := result
  cases completion with
  | returned value => exact ⟨h.1, by rw [hmake]; exact h.2⟩
  | failed failure => exact h
  | suspended => exact h

theorem accounts_perform {reader : BufReader} (attempt : Attempt) (hvalid : reader.Valid) :
    Accounts reader.stream Item.restored (reader.perform attempt) := by
  obtain ⟨call, patience, memory⟩ := attempt
  have hline : ∀ limit : LineLimit, Accounts reader.stream Item.restored
      ((reader.readAsyncLineIntoWithLimit patience memory limit).1.map Item.line,
        (reader.readAsyncLineIntoWithLimit patience memory limit).2) := fun limit =>
    (accounts_readLine patience memory limit hvalid).mapped fun _ => rfl
  cases call with
  | read room =>
      exact (accounts_readAsyncBuffer patience room hvalid).mapped fun _ => rfl
  | readLine => exact hline unboundedLineLimit
  | readLineInto => exact hline unboundedLineLimit
  | readLineBounded maximum => exact hline (boundedLineLimit maximum)
  | readLineIntoBounded maximum => exact hline (boundedLineLimit maximum)

/-- A finished reader reports the end to every call. -/
theorem perform_finished {reader : BufReader} (attempt : Attempt)
    (hfinished : reader.isFinished = true) :
    reader.perform attempt = (.returned attempt.call.endOfStream, reader) := by
  obtain ⟨call, patience, memory⟩ := attempt
  have hline : ∀ limit : LineLimit, reader.readAsyncLineIntoWithLimit patience memory limit =
      (.returned none, reader) := fun limit => if_pos hfinished
  have hread : ∀ room : ℕ, reader.readAsyncBuffer patience room = (.returned [], reader) :=
    fun room => if_pos (Or.inl hfinished)
  cases call with
  | read room =>
      simp only [perform, hread]
      rfl
  | readLine =>
      simp only [perform, readLine, readAsyncLineWithLimit, hline]
      rfl
  | readLineInto =>
      simp only [perform, readLineInto, hline]
      rfl
  | readLineBounded maximum =>
      simp only [perform, readLineBounded, readAsyncLineWithLimit, hline]
      rfl
  | readLineIntoBounded maximum =>
      simp only [perform, readLineIntoBounded, hline]
      rfl

end BufReader

namespace AsyncWorld

/-- Unless a call has failed, the bytes returned and the bytes to come are all the bytes of
the source; a failed call has finished the reader. -/
structure Sound (whole : List UInt8) (world : AsyncWorld) : Prop where
  valid : world.reader.Valid
  begins : world.returned <+: whole
  whole : world.failed = false → world.returned ++ world.reader.stream = whole
  finished : world.failed = true → world.reader.isFinished = true

theorem Sound.step {whole : List UInt8} {world : AsyncWorld} (h : world.Sound whole)
    (attempt : Attempt) : (world.step attempt).Sound whole := by
  have haccounts := BufReader.accounts_perform attempt h.valid
  rw [AsyncWorld.step]
  rcases hperform : world.reader.perform attempt with ⟨completion, after⟩
  rw [hperform] at haccounts
  cases hfailed : world.failed with
  | true =>
    have hended := BufReader.perform_finished attempt (h.finished hfailed)
    rw [hperform] at hended
    obtain ⟨hcompletion, hafter⟩ := Prod.mk.inj hended
    have hnothing : attempt.call.endOfStream.restored = [] := by
      cases attempt.call <;> rfl
    rw [hcompletion, hafter]
    refine ⟨h.valid, ?_, fun hno => (by cases hno), fun _ => h.finished hfailed⟩
    simp only [restoredBy, hnothing, List.append_nil]
    exact h.begins
  | false =>
    have hwhole := h.whole hfailed
    cases completion with
    | failed failure =>
        refine ⟨haccounts.1, ?_, fun hno => (by cases hno), fun _ => haccounts.2⟩
        simp only [restoredBy, List.append_nil]
        exact h.begins
    | suspended =>
        have hsame : world.returned ++ after.stream = whole := by
          rw [haccounts.2]
          exact hwhole
        refine ⟨haccounts.1, ?_, fun _ => ?_, fun hno => (by cases hno)⟩
        · simp only [restoredBy, List.append_nil]
          exact h.begins
        · simp only [restoredBy, List.append_nil]
          exact hsame
    | returned item =>
        have hsame : world.returned ++ item.restored ++ after.stream = whole := by
          rw [List.append_assoc, haccounts.2]
          exact hwhole
        exact ⟨haccounts.1, ⟨after.stream, hsame⟩, fun _ => hsame, fun hno => (by cases hno)⟩

theorem sound_start (source : Source) (capacity : ℕ) :
    (start source capacity).Sound (promised (normalizedCapacity capacity) source.answers) := by
  have hstream : (BufReader.withCapacity source capacity).stream =
      promised (normalizedCapacity capacity) source.answers := by
    rw [BufReader.stream, BufReader.ahead, BufReader.unread_of_le le_rfl,
      BufReader.pending_open rfl]
    simp only [BufReader.withCapacity, initializedByteStorage, List.length_replicate,
      List.drop_nil, List.nil_append]
  exact ⟨BufReader.valid_withCapacity source capacity, List.nil_prefix, fun _ => hstream,
    fun hno => (by cases hno)⟩

theorem sound_of_reachable {source : Source} {capacity : ℕ} {world : AsyncWorld}
    (h : (system source capacity).Reachable world) :
    world.Sound (promised (normalizedCapacity capacity) source.answers) := by
  refine TransitionSystem.Reachable.invariant ?_ ?_ h
  · rintro world rfl
    exact sound_start source capacity
  · rintro world after hsound ⟨attempt, rfl⟩
    exact hsound.step attempt

end AsyncWorld

/-! ### Calls that are not dropped -/

inductive BlockingCall where
  | read (room : ℕ)
  | readLine
  | readLineInto
  deriving DecidableEq, Repr

def BlockingBufReader.perform (reader : BlockingBufReader) (call : BlockingCall × Memory) :
    Completion Item × BlockingBufReader :=
  match call.1 with
  | .read room =>
    let (completion, reader) := reader.read room
    (completion.map .bytes, reader)
  | .readLine =>
    let (completion, reader) := reader.readLine call.2
    (completion.map .line, reader)
  | .readLineInto =>
    let (completion, reader) := reader.readLineInto call.2
    (completion.map .line, reader)

/-- The same call on the asynchronous reader, waiting for every answer of the source. -/
def BufReader.performFilling (reader : BufReader) (call : BlockingCall × Memory) :
    Completion Item × BufReader :=
  match call.1 with
  | .read room =>
    let (completion, reader) := reader.readFilling room room
    (completion.map .bytes, reader)
  | .readLine =>
    let (completion, reader) := reader.readLine reader.source.answers.length call.2
    (completion.map .line, reader)
  | .readLineInto =>
    let (completion, reader) := reader.readLineInto reader.source.answers.length call.2
    (completion.map .line, reader)

section
variable {α κ σ τ : Type}

/-- The results of a sequence of calls, up to the first that does not return. -/
def outcomes (perform : σ → κ → Completion α × σ) : σ → List κ → List (Completion α)
  | _, [] => []
  | state, call :: calls =>
    match perform state call with
    | (.suspended, _) => [.suspended]
    | (outcome, state) => outcome :: outcomes perform state calls

/-- Two components with the same result for every call, and related states after each that
returns, have the same results. -/
theorem outcomes_eq {first : σ → κ → Completion α × σ} {second : τ → κ → Completion α × τ}
    (R : σ → τ → Prop) (hsame : ∀ s t call, R s t → (first s call).1 = (second t call).1)
    (hrelated : ∀ s t call, R s t → (first s call).1 ≠ .suspended →
      R (first s call).2 (second t call).2) (calls : List κ) (s : σ) (t : τ) (h : R s t) :
    outcomes first s calls = outcomes second t calls := by
  induction calls generalizing s t with
  | nil => rfl
  | cons call calls ih =>
    have houtcome := hsame s t call h
    have hafter := hrelated s t call h
    rw [outcomes, outcomes]
    rcases hfirst : first s call with ⟨outcome, s'⟩
    rcases hsecond : second t call with ⟨outcome', t'⟩
    rw [hfirst, hsecond] at houtcome hafter
    have heq : outcome = outcome' := houtcome
    rw [← heq]
    cases outcome with
    | suspended => rfl
    | returned value => exact congrArg _ (ih s' t' (hafter (fun hno => by cases hno)))
    | failed failure => exact congrArg _ (ih s' t' (hafter (fun hno => by cases hno)))

end

namespace BufReader

/-- The blocking reader beside the asynchronous one between two calls. -/
def Beside (reader : BufReader) (other : BlockingBufReader) : Prop :=
  reader.Valid ∧ reader.Settled ∧ other = reader.blocking

theorem beside_of_mirror {α : Type} {result : Completion α × BufReader} (make : α → Item)
    (hvalid : result.2.Valid) (hsettles : Settles result)
    (hreturns : result.1.map make ≠ .suspended) : result.2.Beside (mirror result).2 := by
  obtain ⟨completion, reader⟩ := result
  cases completion with
  | suspended => exact absurd rfl hreturns
  | returned value => exact ⟨hvalid, hsettles, rfl⟩
  | failed failure => exact ⟨hvalid, hsettles, rfl⟩

theorem outcomes_filling (source : Source) (capacity : ℕ) (calls : List (BlockingCall × Memory)) :
    outcomes performFilling (withCapacity source capacity) calls =
      outcomes BlockingBufReader.perform (BlockingBufReader.withCapacity source capacity)
        calls := by
  apply outcomes_eq Beside
  · rintro reader other ⟨call, memory⟩ ⟨hvalid, hsettled, rfl⟩
    cases call with
    | read room =>
        simp only [performFilling, BlockingBufReader.perform, blocking_read room hvalid hsettled,
          mirror]
    | readLine =>
        simp only [performFilling, BlockingBufReader.perform, BlockingBufReader.readLine,
          blocking_readLineInto memory hsettled, mirror]
        rfl
    | readLineInto =>
        simp only [performFilling, BlockingBufReader.perform,
          blocking_readLineInto memory hsettled, mirror]
  · rintro reader other ⟨call, memory⟩ ⟨hvalid, hsettled, rfl⟩ hreturns
    have hline := (accounts_readLine reader.source.answers.length memory unboundedLineLimit
      hvalid).valid
    have hsettles := settles_readLineInto reader.source.answers.length memory hvalid hsettled
    cases call with
    | read room =>
        simp only [performFilling, BlockingBufReader.perform, blocking_read room hvalid hsettled]
          at hreturns ⊢
        have hfilling := settles_readFilling room room hvalid hsettled
        exact beside_of_mirror Item.bytes hfilling.1 hfilling.2 hreturns
    | readLine =>
        simp only [performFilling, BlockingBufReader.perform, BlockingBufReader.readLine,
          blocking_readLineInto memory hsettled] at hreturns ⊢
        exact beside_of_mirror Item.line hline hsettles hreturns
    | readLineInto =>
        simp only [performFilling, BlockingBufReader.perform,
          blocking_readLineInto memory hsettled] at hreturns ⊢
        exact beside_of_mirror Item.line hline hsettles hreturns
  · exact ⟨valid_withCapacity source capacity, ⟨rfl, rfl⟩, rfl⟩

end BufReader

/-- Memory for every line. -/
def ampleMemory : Memory := ⟨fun _ => true, true⟩

/-- A line read that is dropped behind "ab", a byte read of one byte, and a line read that
goes on with the line. -/
def interruptedAttempts : List Attempt :=
  [⟨.readLine, 1, ampleMemory⟩, ⟨.read 1, 1, ampleMemory⟩, ⟨.readLine, 1, ampleMemory⟩]

def interruptedSource : Source := ⟨[.report [97, 98], .report [99, 10, 100]]⟩

end Nocter.Buffering
