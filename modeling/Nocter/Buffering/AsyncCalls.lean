import Mathlib.Order.Lattice
import Nocter.Buffering.AsyncReader

/-!
# What one call of the asynchronous reader keeps

A reader holds the rest of an interrupted line and, behind it, the unread part of its
buffer. Every call moves bytes from the source through what is held to its caller; only a
failing call drops what is held, and it finishes the reader.
-/

namespace Nocter.Buffering

/-- The bytes that a returned line stands for in the source. -/
def Line.restored (line : Line) : List UInt8 := line.text ++ line.terminator

def restoredLine : Option Line → List UInt8
  | none => []
  | some line => line.restored

namespace BufReader

/-- The bytes of the read buffer that no call has taken. -/
def unread (reader : BufReader) : List UInt8 := (reader.buffer.take reader.validLen).drop reader.next

/-- What the source has still to give. -/
def pending (reader : BufReader) : List UInt8 :=
  if reader.isFinished then [] else promised reader.buffer.length reader.source.answers

/-- What follows the collected part of a line. -/
def ahead (reader : BufReader) : List UInt8 := reader.unread ++ reader.pending

/-- All bytes that calls have still to return: what the reader holds, in the order of its
buffers, and what the source will give. -/
def stream (reader : BufReader) : List UInt8 :=
  reader.lineBuffer.drop reader.lineNext ++ reader.ahead

structure Valid (reader : BufReader) : Prop where
  next_le : reader.next ≤ reader.validLen
  valid_le : reader.validLen ≤ reader.buffer.length
  line_le : reader.lineNext ≤ reader.lineBuffer.length
  finished : reader.isFinished = true → reader.stream = []

/-- The result of a call in front of `stream`: what it returns is the beginning of it, and
the reader goes on with the rest. -/
def Accounts {α : Type} (stream : List UInt8) (restored : α → List UInt8) :
    Completion α × BufReader → Prop
  | (.returned value, reader) => reader.Valid ∧ restored value ++ reader.stream = stream
  | (.suspended, reader) => reader.Valid ∧ reader.stream = stream
  | (.failed _, reader) => reader.Valid ∧ reader.isFinished = true

theorem valid_withCapacity (source : Source) (capacity : ℕ) :
    (withCapacity source capacity).Valid :=
  ⟨le_rfl, Nat.zero_le _, le_rfl, fun h => by cases h⟩

theorem valid_of_open {reader : BufReader} (hopen : reader.isFinished = false)
    (hnext : reader.next ≤ reader.validLen) (hvalid : reader.validLen ≤ reader.buffer.length)
    (hline : reader.lineNext ≤ reader.lineBuffer.length) : reader.Valid := by
  refine ⟨hnext, hvalid, hline, fun h => ?_⟩
  rw [hopen] at h
  cases h

theorem valid_terminate (reader : BufReader) : reader.terminateAsyncReader.Valid :=
  ⟨le_rfl, le_rfl, le_rfl, fun _ => rfl⟩

theorem Accounts.terminated {α : Type} {restored : α → List UInt8} {stream : List UInt8}
    (failure : Failure) (reader : BufReader) :
    Accounts stream restored (.failed failure, reader.terminateAsyncReader) :=
  ⟨reader.valid_terminate, rfl⟩

theorem pending_open {reader : BufReader} (hopen : reader.isFinished = false) :
    reader.pending = promised reader.buffer.length reader.source.answers := by
  rw [pending, if_neg (by rw [hopen]; exact Bool.false_ne_true)]

/-! ### Copying out -/

theorem unread_of_lt {reader : BufReader} (hnext : reader.next < reader.validLen)
    (hvalid : reader.validLen ≤ reader.buffer.length) :
    reader.unread = reader.buffer.getD reader.next 0 ::
      { reader with next := reader.next + 1 }.unread := by
  have hlen : reader.next < (reader.buffer.take reader.validLen).length := by
    rw [List.length_take]
    omega
  have hbyte : reader.buffer.getD reader.next 0 = (reader.buffer.take reader.validLen)[reader.next] := by
    rw [List.getElem_take, List.getD_eq_getElem?_getD,
      List.getElem?_eq_getElem (by omega), Option.getD_some]
  rw [hbyte]
  exact List.drop_eq_getElem_cons hlen

theorem unread_of_le {reader : BufReader} (h : reader.validLen ≤ reader.next) :
    reader.unread = [] :=
  List.drop_eq_nil_of_le ((List.length_take_le _ _).trans h)

theorem length_unread {reader : BufReader} (hvalid : reader.validLen ≤ reader.buffer.length) :
    reader.unread.length = reader.validLen - reader.next := by
  rw [unread, List.length_drop, List.length_take, min_eq_left hvalid]

theorem copyLine_eq (room : ℕ) (reader : BufReader)
    (hle : reader.lineNext ≤ reader.lineBuffer.length) :
    reader.copyLine room = ((reader.lineBuffer.drop reader.lineNext).take room,
      { reader with
        lineNext := min (reader.lineNext + room) reader.lineBuffer.length }) := by
  induction room generalizing reader with
  | zero => rw [copyLine, List.take_zero, Nat.add_zero, min_eq_left hle]
  | succ room ih =>
    rw [copyLine]
    by_cases hlt : reader.lineNext < reader.lineBuffer.length
    · have hbyte : reader.lineBuffer.getD reader.lineNext 0 = reader.lineBuffer[reader.lineNext] := by
        rw [List.getD_eq_getElem?_getD, List.getElem?_eq_getElem hlt, Option.getD_some]
      rw [if_pos hlt, ih { reader with lineNext := reader.lineNext + 1 } hlt,
        List.drop_eq_getElem_cons hlt, List.take_succ_cons, hbyte]
      simp only [Nat.add_assoc, Nat.add_comm 1 room]
    · have hend : reader.lineNext = reader.lineBuffer.length := by omega
      rw [if_neg hlt, List.drop_eq_nil_of_le (by omega), List.take_nil,
        min_eq_right (by omega), ← hend]

theorem copyBuffer_eq (room : ℕ) (reader : BufReader) (hle : reader.next ≤ reader.validLen)
    (hvalid : reader.validLen ≤ reader.buffer.length) :
    reader.copyBuffer room = (reader.unread.take room,
      { reader with next := min (reader.next + room) reader.validLen }) := by
  induction room generalizing reader with
  | zero => rw [copyBuffer, List.take_zero, Nat.add_zero, min_eq_left hle]
  | succ room ih =>
    rw [copyBuffer]
    by_cases hlt : reader.next < reader.validLen
    · rw [if_pos hlt, ih { reader with next := reader.next + 1 } hlt hvalid,
        unread_of_lt hlt hvalid, List.take_succ_cons]
      simp only [Nat.add_assoc, Nat.add_comm 1 room]
    · have hend : reader.next = reader.validLen := by omega
      rw [if_neg hlt, unread_of_le (by omega), List.take_nil, min_eq_right (by omega)]
      exact congrArg (fun next => ([], { reader with next := next })) hend

/-! ### Refilling -/

/-- The reader after the source has put `bytes` into its buffer. -/
def accepted (reader : BufReader) (source : Source) (bytes : List UInt8) : BufReader :=
  { reader with
    source := source
    buffer := bytes ++ reader.buffer.drop bytes.length
    next := 0
    validLen := bytes.length }

/-- What a refill gives to a reader that is not finished and has no unread bytes. -/
def Refilled (reader : BufReader) : Completion ℕ × BufReader → Prop
  | (.suspended, after) => after = reader
  | (.failed _, after) => ∃ source, after = { reader with source := source }.terminateAsyncReader
  | (.returned received, after) =>
      (received = 0 ∧ reader.pending = [] ∧
        ∃ source, after = { reader with source := source }.endAsyncReader) ∨
      (received ≠ 0 ∧ ∃ source bytes, bytes.length = received ∧
        after = reader.accepted source bytes ∧
        reader.pending = bytes ++ (reader.accepted source bytes).pending)

theorem length_accepted (reader : BufReader) (source : Source) {bytes : List UInt8}
    (hfits : bytes.length ≤ reader.buffer.length) :
    (reader.accepted source bytes).buffer.length = reader.buffer.length := by
  simp only [accepted, List.length_append, List.length_drop]
  omega

theorem refillAsyncBuffer_refilled {reader : BufReader} (hopen : reader.isFinished = false) :
    reader.Refilled reader.refillAsyncBuffer := by
  have hpending := pending_open hopen
  rw [refillAsyncBuffer, if_neg (by rw [hopen]; exact Bool.false_ne_true)]
  unfold Source.read
  rcases hanswers : reader.source.answers with _ | ⟨answer, answers⟩
  · exact rfl
  · rw [hanswers] at hpending
    cases answer with
    | failure => exact ⟨⟨answers⟩, rfl⟩
    | report bytes =>
      by_cases hfits : bytes.length ≤ reader.buffer.length
      · have hcount : validateReadCount bytes.length reader.buffer.length = .ok bytes.length :=
          if_neg (by omega)
        simp only [hcount]
        by_cases hend : bytes.length = 0
        · rw [if_pos hend]
          refine Or.inl ⟨hend, ?_, ⟨answers⟩, rfl⟩
          rw [hpending, promised, if_pos (Or.inl (List.length_eq_zero_iff.mp hend))]
        · rw [if_neg hend]
          refine Or.inr ⟨hend, ⟨answers⟩, bytes, rfl, ?_, ?_⟩
          · simp only [fill, accepted, List.take_of_length_le hfits]
          · have hmore : ¬ (bytes = [] ∨ reader.buffer.length < bytes.length) := by
              rintro (hnil | hlong)
              · exact hend (List.length_eq_zero_iff.mpr hnil)
              · omega
            rw [hpending, promised, if_neg hmore,
              pending_open (show (reader.accepted ⟨answers⟩ bytes).isFinished = false from hopen),
              length_accepted reader _ hfits]
            rfl
      · have hcount : validateReadCount bytes.length reader.buffer.length =
            .error .invalidReadCount := if_pos (by omega)
        simp only [hcount]
        exact ⟨⟨answers⟩, rfl⟩

theorem refillWithin_refilled {reader : BufReader} (patience : ℕ)
    (hopen : reader.isFinished = false) : reader.Refilled (reader.refillWithin patience) := by
  cases patience with
  | zero => exact rfl
  | succ patience => exact refillAsyncBuffer_refilled hopen

theorem unread_accepted (reader : BufReader) (source : Source) (bytes : List UInt8) :
    (reader.accepted source bytes).unread = bytes := by
  rw [unread]
  simp only [accepted, List.drop_zero, List.take_left]

theorem accepted_le (reader : BufReader) (source : Source) (bytes : List UInt8) :
    (reader.accepted source bytes).validLen ≤ (reader.accepted source bytes).buffer.length := by
  simp only [accepted, List.length_append]
  omega

theorem valid_end {reader : BufReader} (hle : reader.lineNext ≤ reader.lineBuffer.length)
    (hline : reader.lineBuffer.drop reader.lineNext = []) : reader.endAsyncReader.Valid :=
  ⟨le_rfl, le_rfl, hle, fun _ => (List.append_nil _).trans hline⟩

/-! ### Byte reads -/

theorem accounts_copyBuffer {reader : BufReader} (room : ℕ) (hopen : reader.isFinished = false)
    (hnext : reader.next ≤ reader.validLen) (hvalid : reader.validLen ≤ reader.buffer.length)
    (hle : reader.lineNext ≤ reader.lineBuffer.length)
    (hline : reader.lineBuffer.drop reader.lineNext = []) :
    Accounts reader.ahead id (.returned (reader.copyBuffer room).1, (reader.copyBuffer room).2) := by
  have hrest : { reader with next := min (reader.next + room) reader.validLen }.unread =
      reader.unread.drop room := by
    have hlen : (reader.buffer.take reader.validLen).length = reader.validLen := by
      rw [List.length_take, min_eq_left hvalid]
    by_cases hle : reader.next + room ≤ reader.validLen
    · rw [min_eq_left hle, unread, unread, List.drop_drop]
    · rw [unread_of_le (by simp only; omega), unread, List.drop_drop,
        List.drop_eq_nil_of_le (by omega)]
  rw [copyBuffer_eq room reader hnext hvalid]
  refine ⟨valid_of_open hopen (min_le_right _ _) hvalid hle, ?_⟩
  rw [id_eq, stream, ahead, hrest, hline, List.nil_append, ← List.append_assoc,
    List.take_append_drop]
  rfl

theorem stream_releaseLine (reader : BufReader) : reader.releaseLine.stream = reader.stream := by
  rw [releaseLine]
  split
  · rename_i hend
    rw [stream, stream, hend, List.drop_length]
    rfl
  · rfl

theorem valid_releaseLine {reader : BufReader} (hvalid : reader.Valid) :
    reader.releaseLine.Valid := by
  have hkept := stream_releaseLine reader
  rw [releaseLine] at hkept ⊢
  split at hkept
  · rename_i hend
    rw [if_pos hend]
    exact ⟨hvalid.next_le, hvalid.valid_le, le_rfl, fun h => hkept.trans (hvalid.finished h)⟩
  · rename_i hend
    rw [if_neg hend]
    exact hvalid

theorem accounts_copyLine {reader : BufReader} (room : ℕ) (hvalid : reader.Valid)
    (hopen : reader.isFinished = false) : Accounts reader.stream id
      (.returned (reader.copyLine room).1, (reader.copyLine room).2.releaseLine) := by
  have hrest : reader.lineBuffer.drop (min (reader.lineNext + room) reader.lineBuffer.length) =
      (reader.lineBuffer.drop reader.lineNext).drop room := by
    rw [List.drop_drop]
    by_cases hle : reader.lineNext + room ≤ reader.lineBuffer.length
    · rw [min_eq_left hle]
    · rw [min_eq_right (by omega), List.drop_eq_nil_of_le le_rfl,
        List.drop_eq_nil_of_le (by omega)]
  have hcopied := copyLine_eq room reader hvalid.line_le
  constructor
  · apply valid_releaseLine
    rw [hcopied]
    exact valid_of_open hopen hvalid.next_le hvalid.valid_le (min_le_right _ _)
  · rw [stream_releaseLine, hcopied, id_eq, stream, stream, hrest]
    calc (reader.lineBuffer.drop reader.lineNext).take room ++
          ((reader.lineBuffer.drop reader.lineNext).drop room ++ reader.ahead)
        = ((reader.lineBuffer.drop reader.lineNext).take room ++
            (reader.lineBuffer.drop reader.lineNext).drop room) ++ reader.ahead :=
          (List.append_assoc _ _ _).symm
      _ = reader.lineBuffer.drop reader.lineNext ++ reader.ahead := by
          rw [List.take_append_drop]

theorem accounts_readAsyncBuffer {reader : BufReader} (patience room : ℕ) (hvalid : reader.Valid) :
    Accounts reader.stream id (reader.readAsyncBuffer patience room) := by
  rw [readAsyncBuffer]
  by_cases hnothing : reader.isFinished = true ∨ room = 0
  · rw [if_pos hnothing]
    exact ⟨hvalid, rfl⟩
  · have hopen : reader.isFinished = false := by
      cases h : reader.isFinished with
      | false => rfl
      | true => exact absurd (Or.inl h) hnothing
    rw [if_neg hnothing]
    by_cases hline : reader.lineNext < reader.lineBuffer.length
    · rw [if_pos hline]
      exact accounts_copyLine room hvalid hopen
    · have hnoline : reader.lineBuffer.drop reader.lineNext = [] :=
        List.drop_eq_nil_of_le (by omega)
      have hstream : reader.stream = reader.ahead := by
        rw [stream, hnoline, List.nil_append]
      rw [if_neg hline, hstream]
      by_cases hempty : reader.next = reader.validLen
      · rw [if_pos hempty]
        have hahead : reader.ahead = reader.pending := by
          rw [ahead, unread_of_le hempty.ge, List.nil_append]
        have hrefilled := refillWithin_refilled patience hopen
        rcases hrefill : reader.refillWithin patience with ⟨completion, after⟩
        rw [hrefill] at hrefilled
        rw [hahead]
        cases completion with
        | suspended =>
            have hsame : after = reader := hrefilled
            rw [hsame]
            exact ⟨hvalid, hstream.trans hahead⟩
        | failed failure =>
            obtain ⟨source, hafter⟩ := hrefilled
            rw [hafter]
            exact Accounts.terminated failure _
        | returned received =>
            obtain ⟨hend, hnone, source, hafter⟩ | ⟨hmore, source, bytes, _, hafter, hpending⟩ :=
              hrefilled
            · simp only [if_pos hend, hafter]
              refine ⟨valid_end hvalid.line_le hnoline, ?_⟩
              rw [hnone]
              exact (List.append_nil _).trans hnoline
            · simp only [if_neg hmore, hafter]
              have hfront : (reader.accepted source bytes).ahead = reader.pending := by
                rw [ahead, unread_accepted, hpending]
              rw [← hfront]
              exact accounts_copyBuffer room hopen (Nat.zero_le _) (accepted_le _ _ _)
                hvalid.line_le hnoline
      · rw [if_neg hempty]
        exact accounts_copyBuffer room hopen hvalid.next_le hvalid.valid_le hvalid.line_le hnoline

/-! ### Line reads -/

/-- The reader after all its unread bytes have joined the line. -/
def collected (reader : BufReader) : BufReader :=
  { reader with next := reader.validLen, lineBuffer := reader.lineBuffer ++ reader.unread }

/-- How far the unread bytes of a reader take a line. -/
def Scanned (reader : BufReader) : LineScan → Prop
  | .drained after => after = reader.collected
  | .lineFeed after => ∃ taken, reader.unread = taken ++ 10 :: after.unread ∧
      reader.next + taken.length + 1 ≤ reader.validLen ∧ after = { reader with
        next := reader.next + taken.length + 1
        lineBuffer := reader.lineBuffer ++ taken }
  | .failed _ after => after = reader.terminateAsyncReader

theorem lineBytes_scanned (limit : LineLimit) (memory : Memory) (count : ℕ)
    (reader : BufReader) (hcount : reader.next + count = reader.validLen)
    (hvalid : reader.validLen ≤ reader.buffer.length) :
    reader.Scanned (reader.lineBytes limit memory count) := by
  induction count generalizing reader with
  | zero =>
    have hnone : reader.unread = [] := unread_of_le (by omega)
    rw [lineBytes, Scanned, collected, hnone, List.append_nil]
    exact congrArg (fun next => { reader with next := next }) hcount
  | succ count ih =>
    have hlt : reader.next < reader.validLen := by omega
    have hunread := unread_of_lt hlt hvalid
    rw [lineBytes]
    by_cases hfeed : reader.buffer.getD reader.next 0 = 10
    · simp only [if_pos hfeed]
      refine ⟨[], ?_, hlt, ?_⟩
      · rw [hunread, hfeed]
        rfl
      · rw [List.append_nil]
        rfl
    · simp only [if_neg hfeed]
      split
      · rfl
      · split
        · have hrest := ih { reader with
            next := reader.next + 1
            lineBuffer := reader.lineBuffer ++ [reader.buffer.getD reader.next 0] }
            (by simp only; omega) hvalid
          rcases hscan : lineBytes limit memory count { reader with
            next := reader.next + 1
            lineBuffer := reader.lineBuffer ++ [reader.buffer.getD reader.next 0] } with
            after | after | ⟨failure, after⟩
          · rw [hscan] at hrest
            rw [Scanned, collected, hunread]
            simp only [Scanned, collected, List.append_assoc, List.singleton_append] at hrest
            exact hrest
          · rw [hscan] at hrest
            obtain ⟨taken, htaken, hle, hafter⟩ := hrest
            refine ⟨reader.buffer.getD reader.next 0 :: taken, ?_, ?_, ?_⟩
            · rw [hunread, List.cons_append]
              exact congrArg _ htaken
            · simp only [List.length_cons] at hle ⊢
              omega
            · rw [hafter]
              simp only [List.append_assoc, List.singleton_append, List.length_cons,
                Nat.add_comm, Nat.add_left_comm]
          · rw [hscan] at hrest
            exact hrest
        · rfl

theorem accounts_commit (reader : BufReader) (memory : Memory) (terminator : List UInt8)
    (hnext : reader.next ≤ reader.validLen) (hvalid : reader.validLen ≤ reader.buffer.length)
    (hahead : reader.isFinished = true → reader.ahead = []) :
    Accounts (reader.lineBuffer ++ terminator ++ reader.ahead)
      restoredLine (reader.commitAsyncLine memory terminator) := by
  rw [commitAsyncLine]
  cases hwrite : writeValidatedLine memory reader.lineBuffer with
  | error failure => exact Accounts.terminated failure reader
  | ok text =>
    have htext : text = reader.lineBuffer := writeValidatedLine_ok hwrite
    refine ⟨⟨hnext, hvalid, le_rfl, hahead⟩, ?_⟩
    rw [htext]
    rfl

theorem accounts_completeLine {reader : BufReader} (memory : Memory)
    (hopen : reader.isFinished = false)
    (hnext : reader.next ≤ reader.validLen) (hvalid : reader.validLen ≤ reader.buffer.length) :
    Accounts (reader.lineBuffer ++ 10 :: reader.ahead) restoredLine
      (reader.completeLine memory) := by
  have hahead : reader.isFinished = true → reader.ahead = [] := fun h => by
    rw [hopen] at h
    cases h
  rw [completeLine]
  by_cases hreturn : reader.lineBuffer.getLast? = some 13
  · rw [if_pos hreturn]
    have hline : reader.lineBuffer.dropLast ++ [13] = reader.lineBuffer :=
      List.dropLast_append_getLast? 13 hreturn
    have hheld : reader.lineBuffer.dropLast ++ [13, 10] ++ reader.ahead =
        reader.lineBuffer ++ 10 :: reader.ahead := by
      calc reader.lineBuffer.dropLast ++ [13, 10] ++ reader.ahead
          = (reader.lineBuffer.dropLast ++ [13]) ++ 10 :: reader.ahead := by
            simp only [List.append_assoc, List.cons_append, List.nil_append]
        _ = reader.lineBuffer ++ 10 :: reader.ahead := by rw [hline]
    rw [← hheld]
    exact accounts_commit { reader with lineBuffer := reader.lineBuffer.dropLast }
      memory [13, 10] hnext hvalid hahead
  · rw [if_neg hreturn]
    have hheld : reader.lineBuffer ++ [10] ++ reader.ahead =
        reader.lineBuffer ++ 10 :: reader.ahead := by
      rw [List.append_assoc]
      rfl
    rw [← hheld]
    exact accounts_commit reader memory [10] hnext hvalid hahead

/-- A source that has ended leaves only the collected line. -/
theorem accounts_completeRest {reader : BufReader} (memory : Memory) (source : Source)
    (hline : reader.lineNext = 0) : Accounts reader.lineBuffer restoredLine
      (completeRest memory { reader with source := source }.endAsyncReader) := by
  have hdrop : reader.lineBuffer.drop reader.lineNext = reader.lineBuffer := by
    rw [hline, List.drop_zero]
  rw [completeRest]
  split
  · rename_i hempty
    have hnil : reader.lineBuffer = [] := List.length_eq_zero_iff.mp hempty
    refine ⟨valid_end (by rw [hline]; exact Nat.zero_le _) (hdrop.trans hnil), ?_⟩
    exact (List.append_nil _).trans hdrop
  · have hcommitted := accounts_commit { reader with source := source }.endAsyncReader
      memory [] le_rfl le_rfl (fun _ => rfl)
    have hnone : { reader with source := source }.endAsyncReader.ahead = [] := rfl
    rw [List.append_nil, hnone, List.append_nil] at hcommitted
    exact hcommitted

theorem accounts_lineFeed {reader after : BufReader} (memory : Memory)
    (hopen : reader.isFinished = false) (hvalid : reader.validLen ≤ reader.buffer.length)
    (hscanned : reader.Scanned (.lineFeed after)) :
    Accounts (reader.lineBuffer ++ reader.ahead) restoredLine (after.completeLine memory) := by
  obtain ⟨taken, hunread, hle, hafter⟩ := hscanned
  have hpending : after.pending = reader.pending := by
    rw [hafter]
    rfl
  have hline : after.lineBuffer = reader.lineBuffer ++ taken := by rw [hafter]
  have hheld : after.lineBuffer ++ 10 :: after.ahead = reader.lineBuffer ++ reader.ahead := by
    rw [ahead, ahead, hunread, hpending, hline]
    simp only [List.append_assoc, List.cons_append]
  rw [← hheld]
  apply accounts_completeLine memory
  · rw [hafter]
    exact hopen
  · rw [hafter]
    exact hle
  · rw [hafter]
    exact hvalid

theorem ahead_collected (reader : BufReader) : reader.collected.ahead = reader.pending := by
  rw [ahead, unread_of_le (Nat.le_refl reader.validLen), List.nil_append]
  rfl

/-- A call dropped while it waits for the source keeps everything it has accepted. -/
theorem accounts_collected {reader : BufReader} (hopen : reader.isFinished = false)
    (hline : reader.lineNext = 0) (hvalid : reader.validLen ≤ reader.buffer.length) :
    Accounts (reader.lineBuffer ++ reader.ahead) restoredLine (.suspended, reader.collected) := by
  have hstart : reader.collected.lineNext = 0 := hline
  have hcollected : reader.collected.Valid :=
    valid_of_open (show reader.collected.isFinished = false from hopen)
      (Nat.le_refl reader.validLen) hvalid (by rw [hstart]; exact Nat.zero_le _)
  refine ⟨hcollected, ?_⟩
  rw [stream, hstart, ahead_collected, List.drop_zero, ahead, ← List.append_assoc]
  rfl

theorem accounts_lineLoop (limit : LineLimit) (memory : Memory) (patience : ℕ)
    (reader : BufReader) (hopen : reader.isFinished = false) (hline : reader.lineNext = 0)
    (hnext : reader.next ≤ reader.validLen) (hvalid : reader.validLen ≤ reader.buffer.length) :
    Accounts (reader.lineBuffer ++ reader.ahead) restoredLine
      (reader.lineLoop limit memory patience) := by
  induction patience generalizing reader with
  | zero =>
    have hscanned := lineBytes_scanned limit memory (reader.validLen - reader.next) reader
      (by omega) hvalid
    rw [lineLoop]
    rcases hscan : lineBytes limit memory (reader.validLen - reader.next) reader with
      after | after | ⟨failure, after⟩
    · rw [hscan] at hscanned
      have hafter : after = reader.collected := hscanned
      rw [hafter]
      exact accounts_collected hopen hline hvalid
    · rw [hscan] at hscanned
      exact accounts_lineFeed memory hopen hvalid hscanned
    · rw [hscan] at hscanned
      have hafter : after = reader.terminateAsyncReader := hscanned
      rw [hafter]
      exact Accounts.terminated failure reader
  | succ patience ih =>
    have hscanned := lineBytes_scanned limit memory (reader.validLen - reader.next) reader
      (by omega) hvalid
    rw [lineLoop]
    rcases hscan : lineBytes limit memory (reader.validLen - reader.next) reader with
      after | after | ⟨failure, after⟩
    · rw [hscan] at hscanned
      have hafter : after = reader.collected := hscanned
      have hrefilled := refillAsyncBuffer_refilled
        (show reader.collected.isFinished = false from hopen)
      have hheld : reader.lineBuffer ++ reader.ahead =
          reader.collected.lineBuffer ++ reader.collected.pending := by
        rw [ahead, ← List.append_assoc]
        rfl
      rw [hafter]
      rcases hrefill : reader.collected.refillAsyncBuffer with ⟨completion, refilled⟩
      rw [hrefill] at hrefilled
      cases completion with
      | suspended =>
          have hsame : refilled = reader.collected := hrefilled
          simp only [hrefill, hsame]
          exact accounts_collected hopen hline hvalid
      | failed failure =>
          obtain ⟨source, hrefilled⟩ := hrefilled
          simp only [hrefill, hrefilled]
          exact Accounts.terminated failure _
      | returned received =>
          simp only [hrefill, hheld]
          obtain ⟨hend, hnone, source, hrefilled⟩ |
            ⟨hmore, source, bytes, _, hrefilled, hpending⟩ := hrefilled
          · rw [if_pos hend, hrefilled, hnone, List.append_nil]
            exact accounts_completeRest memory source
              (show reader.collected.lineNext = 0 from hline)
          · have hrest := ih (reader.collected.accepted source bytes) hopen hline
              (Nat.zero_le _) (accepted_le _ _ _)
            rw [ahead, unread_accepted, ← hpending] at hrest
            rw [if_neg hmore, hrefilled]
            exact hrest
    · rw [hscan] at hscanned
      exact accounts_lineFeed memory hopen hvalid hscanned
    · rw [hscan] at hscanned
      have hafter : after = reader.terminateAsyncReader := hscanned
      rw [hafter]
      exact Accounts.terminated failure reader

theorem accounts_readLine {reader : BufReader} (patience : ℕ) (memory : Memory)
    (limit : LineLimit) (hvalid : reader.Valid) : Accounts reader.stream restoredLine
      (reader.readAsyncLineIntoWithLimit patience memory limit) := by
  rw [readAsyncLineIntoWithLimit]
  by_cases hfinished : reader.isFinished = true
  · rw [if_pos hfinished]
    exact ⟨hvalid, rfl⟩
  · rw [if_neg hfinished, discardBytePrefix_eq_drop]
    exact accounts_lineLoop limit memory patience
      { reader with lineBuffer := reader.lineBuffer.drop reader.lineNext, lineNext := 0 }
      (Bool.eq_false_iff.mpr hfinished) rfl hvalid.next_le hvalid.valid_le

end BufReader

end Nocter.Buffering
