import Nocter.Buffering.BlockingReader

/-!
# The blocking and the asynchronous reader side by side

A blocking read fills its destination, while an asynchronous one returns what its buffer
holds. The asynchronous reader is therefore driven the blocking way: every read is repeated
until the destination is full, the end is reported or a call fails.
-/

namespace Nocter.Buffering

namespace Completion
variable {α β σ : Type}

def map (f : α → β) : Completion α → Completion β
  | returned value => returned (f value)
  | failed failure => failed failure
  | suspended => suspended

/-- A read that has copied `bytes` goes on with `result`. -/
def prepend (bytes : List UInt8) (result : Completion (List UInt8) × σ) :
    Completion (List UInt8) × σ :=
  (result.1.map (bytes ++ ·), result.2)

theorem prepend_prepend (first second : List UInt8) (result : Completion (List UInt8) × σ) :
    prepend first (prepend second result) = prepend (first ++ second) result := by
  obtain ⟨completion, state⟩ := result
  cases completion with
  | returned bytes => simp only [prepend, map, List.append_assoc]
  | failed failure => rfl
  | suspended => rfl

theorem prepend_nil (result : Completion (List UInt8) × σ) : prepend [] result = result := by
  obtain ⟨completion, state⟩ := result
  cases completion <;> rfl

end Completion

open Completion

namespace BlockingBufReader

theorem readLoop_succ (room : ℕ) (reader : BlockingBufReader)
    (hne : reader.next ≠ reader.validLen) (hle : reader.next ≤ reader.validLen) :
    reader.readLoop (room + 1) = prepend [reader.buffer.getD reader.next 0]
      ({ reader with next := reader.next + 1 }.readLoop room) := by
  have havailable : reader.available = (.returned (reader.validLen - reader.next), reader) :=
    if_neg hne
  have hsome : reader.validLen - reader.next ≠ 0 := by omega
  rw [readLoop, havailable]
  simp only [if_neg hsome]
  rcases readLoop room { reader with next := reader.next + 1 } with ⟨completion, after⟩
  cases completion <;> rfl

theorem readLoop_refill (room : ℕ) {reader : BlockingBufReader} {received : ℕ}
    {after : BlockingBufReader} (hempty : reader.next = reader.validLen)
    (hrefill : reader.refill = (.returned received, after)) (hmore : received ≠ 0)
    (hnext : after.next < after.validLen) :
    reader.readLoop (room + 1) = after.readLoop (room + 1) := by
  have havailable : reader.available = (.returned received, after) := by
    rw [available, if_pos hempty, hrefill]
  have hafter : after.available = (.returned (after.validLen - after.next), after) :=
    if_neg (by omega)
  have hsome : after.validLen - after.next ≠ 0 := by omega
  rw [readLoop, readLoop, havailable, hafter]
  simp only [if_neg hmore, if_neg hsome]

end BlockingBufReader

namespace BufReader

/-- Repeats the read with the space that is left, for at most `calls` calls. -/
def readFilling : ℕ → ℕ → BufReader → Completion (List UInt8) × BufReader
  | 0, _, reader => (.returned [], reader)
  | calls + 1, room, reader =>
    match reader.readAsyncBuffer reader.source.answers.length room with
    | (.failed failure, reader) => (.failed failure, reader)
    | (.suspended, reader) => (.suspended, reader)
    | (.returned bytes, reader) =>
      if bytes = [] then (.returned [], reader)
      else prepend bytes (readFilling calls (room - bytes.length) reader)

/-- No line of the reader is interrupted. -/
def Settled (reader : BufReader) : Prop := reader.lineBuffer = [] ∧ reader.lineNext = 0

theorem mirror_prepend (bytes : List UInt8) (result : Completion (List UInt8) × BufReader) :
    mirror (prepend bytes result) = prepend bytes (mirror result) := rfl

theorem readLoop_buffered (count room : ℕ) (reader : BufReader)
    (hle : reader.next + count ≤ reader.validLen)
    (hvalid : reader.validLen ≤ reader.buffer.length) :
    reader.blocking.readLoop (count + room) = prepend (reader.unread.take count)
      ({ reader with next := reader.next + count }.blocking.readLoop room) := by
  induction count generalizing reader with
  | zero =>
    rw [List.take_zero, Nat.zero_add, Nat.add_zero]
    exact (prepend_nil _).symm
  | succ count ih =>
    have hlt : reader.next < reader.validLen := by omega
    have hrest := ih { reader with next := reader.next + 1 } (by simp only; omega) hvalid
    rw [show count + 1 + room = (count + room) + 1 by omega,
      BlockingBufReader.readLoop_succ (count + room) reader.blocking
        (show reader.next ≠ reader.validLen by omega) (show reader.next ≤ reader.validLen by omega),
      unread_of_lt hlt hvalid, List.take_succ_cons]
    have hnext : { reader.blocking with next := reader.blocking.next + 1 } =
        { reader with next := reader.next + 1 }.blocking := rfl
    rw [hnext, hrest, prepend_prepend]
    simp only [List.singleton_append, Nat.add_assoc, Nat.add_comm 1 count]
    rfl

/-- Reading goes on after the buffer has given what it holds. -/
theorem readLoop_copied {calls room : ℕ} {reader : BufReader}
    (hlt : reader.next < reader.validLen) (hvalid : reader.validLen ≤ reader.buffer.length)
    (hroom : 0 < room)
    (hgoes : ({ reader with
        next := min (reader.next + room) reader.validLen }.blocking.readLoop
          (room - (reader.unread.take room).length)) =
      mirror (readFilling calls (room - (reader.unread.take room).length)
        { reader with next := min (reader.next + room) reader.validLen })) :
    reader.blocking.readLoop room = mirror
      (if (reader.copyBuffer room).1 = [] then (.returned [], (reader.copyBuffer room).2)
        else prepend (reader.copyBuffer room).1
          (readFilling calls (room - (reader.copyBuffer room).1.length)
            (reader.copyBuffer room).2)) := by
  have hlen : reader.unread.length = reader.validLen - reader.next := length_unread hvalid
  have hsome : reader.unread.take room ≠ [] := by
    intro h
    have hzero := congrArg List.length h
    rw [List.length_take, List.length_nil, hlen] at hzero
    omega
  have htaken : (reader.unread.take room).length = min room (reader.validLen - reader.next) := by
    rw [List.length_take, hlen]
  have hnext : min (reader.next + room) reader.validLen =
      reader.next + (reader.unread.take room).length := by
    rw [htaken]
    omega
  have hexact : reader.unread.take (reader.unread.take room).length = reader.unread.take room := by
    rw [List.length_take, ← List.take_take, List.take_length]
  rw [copyBuffer_eq room reader hlt.le hvalid]
  simp only [if_neg hsome]
  rw [mirror_prepend, ← hgoes]
  have hsplit : room = (reader.unread.take room).length +
      (room - (reader.unread.take room).length) := by
    rw [htaken]
    omega
  have hbuffered := readLoop_buffered (reader.unread.take room).length
    (room - (reader.unread.take room).length) reader (by rw [htaken]; omega) hvalid
  rw [← hsplit, hexact, ← hnext] at hbuffered
  exact hbuffered

/-- A refill waits for the source exactly as long as it has no answer. -/
theorem refillWithin_answers {reader : BufReader} (hopen : reader.isFinished = false) :
    reader.refillWithin reader.source.answers.length = reader.refillAsyncBuffer := by
  rcases hanswers : reader.source.answers with _ | ⟨answer, answers⟩
  · rw [refillAsyncBuffer, if_neg (by rw [hopen]; exact Bool.false_ne_true), Source.read, hanswers]
    rfl
  · rfl

theorem readLoop_eq (calls room : ℕ) (reader : BufReader) (hroom : room ≤ calls)
    (hopen : reader.isFinished = false) (hsettled : reader.Settled)
    (hnext : reader.next ≤ reader.validLen) (hvalid : reader.validLen ≤ reader.buffer.length) :
    reader.blocking.readLoop room = mirror (readFilling calls room reader) := by
  induction calls generalizing room reader with
  | zero =>
    have hzero : room = 0 := by omega
    rw [hzero]
    rfl
  | succ calls ih =>
    have hnoline : ¬ reader.lineNext < reader.lineBuffer.length := by
      rw [hsettled.1, hsettled.2]
      exact Nat.lt_irrefl 0
    rcases Nat.eq_zero_or_pos room with hzero | hpos
    · rw [hzero, readFilling, readAsyncBuffer, if_pos (Or.inr rfl)]
      rfl
    · have hsome : ¬ (reader.isFinished = true ∨ room = 0) := by
        rintro (hfinished | hnone)
        · rw [hopen] at hfinished
          cases hfinished
        · omega
      rw [readFilling, readAsyncBuffer, if_neg hsome, if_neg hnoline]
      have hcopied : ∀ filled : BufReader, filled.isFinished = false → filled.Settled →
          filled.next < filled.validLen → filled.validLen ≤ filled.buffer.length →
          filled.blocking.readLoop room = mirror
            (if (filled.copyBuffer room).1 = [] then (.returned [], (filled.copyBuffer room).2)
              else prepend (filled.copyBuffer room).1
                (readFilling calls (room - (filled.copyBuffer room).1.length)
                  (filled.copyBuffer room).2)) := by
        intro filled hopen hsettled hlt hvalid
        apply readLoop_copied hlt hvalid hpos
        apply ih _ { filled with next := min (filled.next + room) filled.validLen }
        · have hlen : filled.unread.length = filled.validLen - filled.next :=
            length_unread hvalid
          rw [List.length_take, hlen]
          omega
        · exact hopen
        · exact hsettled
        · exact min_le_right _ _
        · exact hvalid
      by_cases hempty : reader.next = reader.validLen
      · rw [if_pos hempty, refillWithin_answers hopen]
        have hrefilled := refillAsyncBuffer_refilled hopen
        have hblocking := blocking_refill reader
        obtain ⟨more, rfl⟩ : ∃ more, room = more + 1 := ⟨room - 1, by omega⟩
        rcases hrefill : reader.refillAsyncBuffer with ⟨completion, after⟩
        rw [hrefill] at hrefilled hblocking
        have havailable : reader.blocking.available = mirror (completion, after) := by
          rw [BlockingBufReader.available, if_pos (show reader.blocking.next =
            reader.blocking.validLen from hempty), hblocking]
        cases completion with
        | suspended =>
            rw [BlockingBufReader.readLoop, havailable]
            rfl
        | failed failure =>
            rw [BlockingBufReader.readLoop, havailable]
            rfl
        | returned received =>
            obtain ⟨hend, _, source, hafter⟩ | ⟨hmore, source, bytes, hcount, hafter, _⟩ := hrefilled
            · rw [BlockingBufReader.readLoop, havailable]
              simp only [mirror, if_pos hend]
              rfl
            · have hfilled : after.next < after.validLen := by
                rw [hafter]
                simp only [accepted]
                omega
              simp only [if_neg hmore]
              rw [BlockingBufReader.readLoop_refill more hempty hblocking hmore hfilled, hafter]
              rw [hafter] at hfilled
              exact hcopied (reader.accepted source bytes) hopen hsettled hfilled
                (accepted_le _ _ _)
      · rw [if_neg hempty]
        exact hcopied reader hopen hsettled (by omega) hvalid

theorem blocking_read (room : ℕ) {reader : BufReader} (hvalid : reader.Valid)
    (hsettled : reader.Settled) :
    reader.blocking.read room = mirror (readFilling room room reader) := by
  rw [BlockingBufReader.read]
  by_cases hfinished : reader.isFinished = true
  · rw [if_pos (show reader.blocking.isFinished = true from hfinished)]
    cases room with
    | zero => rfl
    | succ room =>
        rw [readFilling, readAsyncBuffer, if_pos (Or.inl hfinished)]
        rfl
  · rw [if_neg (show ¬ reader.blocking.isFinished = true from hfinished)]
    exact readLoop_eq room room reader le_rfl (Bool.eq_false_iff.mpr hfinished) hsettled
      hvalid.next_le hvalid.valid_le

theorem blocking_readLineInto (memory : Memory) {reader : BufReader} (hsettled : reader.Settled) :
    reader.blocking.readLineInto memory =
      mirror (reader.readLineInto reader.source.answers.length memory) := by
  rw [BlockingBufReader.readLineInto, readLineInto, readAsyncLineIntoWithLimit]
  by_cases hfinished : reader.isFinished = true
  · rw [if_pos hfinished, if_pos (show reader.blocking.isFinished = true from hfinished)]
    rfl
  · have hsame : { reader with
        lineBuffer := discardBytePrefix reader.lineBuffer reader.lineNext
        lineNext := 0 } = reader := by
      rw [discardBytePrefix_eq_drop, hsettled.1, List.drop_nil, ← hsettled.1, ← hsettled.2]
    rw [if_neg hfinished, if_neg (show ¬ reader.blocking.isFinished = true from hfinished), hsame]
    exact blocking_lineLoop memory reader.source.answers.length reader

/-! ### What an uncancelled call leaves -/

/-- A call that is not dropped leaves no interrupted line. -/
def Settles {α : Type} : Completion α × BufReader → Prop
  | (.suspended, _) => True
  | (_, reader) => reader.Settled

theorem settles_commit (memory : Memory) (terminator : List UInt8) (reader : BufReader) :
    Settles (reader.commitAsyncLine memory terminator) := by
  rw [commitAsyncLine]
  cases writeValidatedLine memory reader.lineBuffer with
  | error failure => exact ⟨rfl, rfl⟩
  | ok text => exact ⟨rfl, rfl⟩

theorem settles_completeLine (memory : Memory) (reader : BufReader) :
    Settles (reader.completeLine memory) := by
  rw [completeLine]
  split
  · exact settles_commit memory [13, 10] _
  · exact settles_commit memory [10] reader

theorem settles_completeRest (memory : Memory) {reader : BufReader}
    (hline : reader.lineNext = 0) : Settles (reader.completeRest memory) := by
  rw [completeRest]
  split
  · rename_i hempty
    exact ⟨List.length_eq_zero_iff.mp hempty, hline⟩
  · exact settles_commit memory [] reader

theorem settles_lineLoop (limit : LineLimit) (memory : Memory) (patience : ℕ)
    (reader : BufReader) (hopen : reader.isFinished = false) (hline : reader.lineNext = 0)
    (hnext : reader.next ≤ reader.validLen) (hvalid : reader.validLen ≤ reader.buffer.length) :
    Settles (reader.lineLoop limit memory patience) := by
  induction patience generalizing reader with
  | zero =>
    have hscanned := lineBytes_scanned limit memory (reader.validLen - reader.next) reader
      (by omega) hvalid
    rw [lineLoop]
    rcases hscan : lineBytes limit memory (reader.validLen - reader.next) reader with
      after | after | ⟨failure, after⟩
    · trivial
    · exact settles_completeLine memory after
    · rw [hscan] at hscanned
      have hafter : after = reader.terminateAsyncReader := hscanned
      rw [hafter]
      exact ⟨rfl, rfl⟩
  | succ patience ih =>
    have hscanned := lineBytes_scanned limit memory (reader.validLen - reader.next) reader
      (by omega) hvalid
    rw [lineLoop]
    rcases hscan : lineBytes limit memory (reader.validLen - reader.next) reader with
      after | after | ⟨failure, after⟩
    · rw [hscan] at hscanned
      have hafter : after = reader.collected := hscanned
      have hrefilled := refillAsyncBuffer_refilled
        (show reader.collected.isFinished = false from hopen)
      rw [hafter]
      rcases hrefill : reader.collected.refillAsyncBuffer with ⟨completion, refilled⟩
      rw [hrefill] at hrefilled
      simp only [hrefill]
      cases completion with
      | suspended => trivial
      | failed failure =>
          obtain ⟨source, hrefilled⟩ := hrefilled
          rw [hrefilled]
          exact ⟨rfl, rfl⟩
      | returned received =>
          obtain ⟨hend, _, source, hrefilled⟩ | ⟨hmore, source, bytes, _, hrefilled, _⟩ := hrefilled
          · simp only [if_pos hend, hrefilled]
            exact settles_completeRest memory hline
          · simp only [if_neg hmore, hrefilled]
            exact ih (reader.collected.accepted source bytes) hopen hline (Nat.zero_le _)
              (accepted_le _ _ _)
    · exact settles_completeLine memory after
    · rw [hscan] at hscanned
      have hafter : after = reader.terminateAsyncReader := hscanned
      rw [hafter]
      exact ⟨rfl, rfl⟩

theorem settles_readLineInto (patience : ℕ) (memory : Memory) {reader : BufReader}
    (hvalid : reader.Valid) (hsettled : reader.Settled) :
    Settles (reader.readLineInto patience memory) := by
  rw [readLineInto, readAsyncLineIntoWithLimit]
  by_cases hfinished : reader.isFinished = true
  · rw [if_pos hfinished]
    exact hsettled
  · rw [if_neg hfinished]
    exact settles_lineLoop unboundedLineLimit memory patience _
      (Bool.eq_false_iff.mpr hfinished) rfl hvalid.next_le hvalid.valid_le

theorem settled_copyBuffer (room : ℕ) {reader : BufReader} (hsettled : reader.Settled)
    (hnext : reader.next ≤ reader.validLen) (hvalid : reader.validLen ≤ reader.buffer.length) :
    (reader.copyBuffer room).2.Settled := by
  rw [copyBuffer_eq room reader hnext hvalid]
  exact hsettled

theorem settles_readAsyncBuffer (patience room : ℕ) {reader : BufReader}
    (hvalid : reader.Valid) (hsettled : reader.Settled) :
    Settles (reader.readAsyncBuffer patience room) := by
  rw [readAsyncBuffer]
  by_cases hnothing : reader.isFinished = true ∨ room = 0
  · rw [if_pos hnothing]
    exact hsettled
  · have hopen : reader.isFinished = false := by
      cases h : reader.isFinished with
      | false => rfl
      | true => exact absurd (Or.inl h) hnothing
    have hnoline : ¬ reader.lineNext < reader.lineBuffer.length := by
      rw [hsettled.1, hsettled.2]
      exact Nat.lt_irrefl 0
    rw [if_neg hnothing, if_neg hnoline]
    by_cases hempty : reader.next = reader.validLen
    · have hrefilled := refillWithin_refilled patience hopen
      rw [if_pos hempty]
      rcases hrefill : reader.refillWithin patience with ⟨completion, after⟩
      rw [hrefill] at hrefilled
      cases completion with
      | suspended => trivial
      | failed failure =>
        obtain ⟨source, hafter⟩ := hrefilled
        rw [hafter]
        exact ⟨rfl, rfl⟩
      | returned received =>
        obtain ⟨hend, _, source, hafter⟩ | ⟨hmore, source, bytes, _, hafter, _⟩ := hrefilled
        · simp only [if_pos hend, hafter]
          exact hsettled
        · simp only [if_neg hmore, hafter]
          exact settled_copyBuffer room hsettled (Nat.zero_le _) (accepted_le _ _ _)
    · rw [if_neg hempty]
      exact settled_copyBuffer room hsettled hvalid.next_le hvalid.valid_le

theorem Accounts.valid {α : Type} {stream : List UInt8} {restored : α → List UInt8}
    {result : Completion α × BufReader} (h : Accounts stream restored result) : result.2.Valid := by
  obtain ⟨completion, reader⟩ := result
  cases completion with
  | returned value => exact h.1
  | failed failure => exact h.1
  | suspended => exact h.1

theorem settles_readFilling (calls room : ℕ) {reader : BufReader} (hvalid : reader.Valid)
    (hsettled : reader.Settled) :
    (readFilling calls room reader).2.Valid ∧ Settles (readFilling calls room reader) := by
  induction calls generalizing room reader with
  | zero => exact ⟨hvalid, hsettled⟩
  | succ calls ih =>
    have hread := settles_readAsyncBuffer reader.source.answers.length room hvalid hsettled
    have hafter := (accounts_readAsyncBuffer reader.source.answers.length room hvalid).valid
    rw [readFilling]
    rcases hcall : readAsyncBuffer reader.source.answers.length room reader with
      ⟨completion, after⟩
    rw [hcall] at hread hafter
    cases completion with
    | suspended => exact ⟨hafter, trivial⟩
    | failed failure => exact ⟨hafter, hread⟩
    | returned bytes =>
        by_cases hnone : bytes = []
        · simp only [if_pos hnone]
          exact ⟨hafter, hread⟩
        · simp only [if_neg hnone]
          have hrest := ih (room - bytes.length) hafter hread
          rcases hlast : readFilling calls (room - bytes.length) after with ⟨completion, last⟩
          rw [hlast] at hrest
          cases completion <;> exact hrest

end BufReader

end Nocter.Buffering
