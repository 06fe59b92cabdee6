import Nocter.Http.Values
import Nocter.Library.StreamDecoder

/-!
# Heads on the wire

A head is a start line, fields and an empty line. The decoder takes one line at
a time; what a start line says and what follows a complete head is left to the
kind of message.
-/

namespace Nocter.Http

universe u v

/-- What follows the empty line of a head. -/
inductive HeadEnd (ρ : Type v) where
  | refused
  | informational (status : Status)
  | ready (result : ρ)

structure HeadSyntax (κ : Type u) (ρ : Type v) where
  startLine : Bytes → Option κ
  finish : κ → MessageFields → ℕ → HeadEnd ρ

/-- In the fields, `used` bytes of the head have been taken; `count` informational heads
came before it. -/
inductive HeadWire (κ : Type u) (ρ : Type v) where
  | startLine (count : ℕ)
  | fields (start : κ) (used : ℕ) (fields : MessageFields) (count : ℕ)
  | done (result : ρ)

section Decoder

variable {κ : Type u} {ρ : Type v} (grammar : HeadSyntax κ ρ) (limits : Limits)

def startLineStep (count : ℕ) (line : Bytes) : StreamStep (HeadWire κ ρ) Status :=
  if line.length + 2 > limits.headerBytes then .fail
  else
    match grammar.startLine line with
    | none => .fail
    | some start => .take (line.length + 2) [] (.fields start (line.length + 2) .empty count)

def headEndStep (count : ℕ) : HeadEnd ρ → StreamStep (HeadWire κ ρ) Status
  | .refused => .fail
  | .informational status => .take 2 [status] (.startLine (count + 1))
  | .ready result => .take 2 [] (.done result)

def fieldLineStep (start : κ) (used : ℕ) (fields : MessageFields) (count : ℕ) (line : Bytes) :
    StreamStep (HeadWire κ ρ) Status :=
  if used + line.length + 2 > limits.headerBytes then .fail
  else if line = [] then headEndStep count (grammar.finish start fields count)
  else
    match retainMessageField fields line limits with
    | .error _ => .fail
    | .ok fields => .take (line.length + 2) [] (.fields start (used + line.length + 2) fields count)

/-- The step on the line that a scan finds. -/
def onLine (scan : LineScan) (incomplete : StreamStep (HeadWire κ ρ) Status)
    (ready : ℕ → StreamStep (HeadWire κ ρ) Status) : StreamStep (HeadWire κ ρ) Status :=
  match scan with
  | .incomplete => incomplete
  | .ready stop => ready stop
  | .malformed => .fail
  | .tooLong => .fail

def headStep : HeadWire κ ρ → Bytes → StreamStep (HeadWire κ ρ) Status
  | .done _, _ => .done
  | .startLine count, rest =>
    onLine (scanLine rest 0 limits.startLineBytes) .need fun stop =>
      startLineStep grammar limits count (rest.take stop)
  | .fields start used fields count, rest =>
    onLine (scanLine rest 0 limits.fieldBytes)
      (if used + rest.length > limits.headerBytes then .fail else .need) fun stop =>
        fieldLineStep grammar limits start used fields count (rest.take stop)

variable {grammar limits}

theorem headEndStep_take {count taken : ℕ} {ending : HeadEnd ρ} {out : List Status}
    {next : HeadWire κ ρ} (h : headEndStep count ending = .take taken out next) : taken = 2 := by
  cases ending <;> cases h <;> rfl

theorem startLineStep_take {count taken : ℕ} {line : Bytes} {out : List Status}
    {next : HeadWire κ ρ} (h : startLineStep grammar limits count line = .take taken out next) :
    taken = line.length + 2 := by
  unfold startLineStep at h
  split at h
  · cases h
  · split at h <;> cases h
    rfl

theorem fieldLineStep_take {start : κ} {used count taken : ℕ} {fields : MessageFields} {line : Bytes}
    {out : List Status} {next : HeadWire κ ρ}
    (h : fieldLineStep grammar limits start used fields count line = .take taken out next) :
    taken = line.length + 2 := by
  unfold fieldLineStep at h
  split at h
  · cases h
  split at h
  · next hempty =>
    rw [headEndStep_take h, hempty, List.length_nil]
  · split at h <;> cases h
    rfl

/-- More input does not complete a line before the end of what is already there. -/
theorem scanLine_incomplete_append {rest : Bytes} {limit stop : ℕ} (more : Bytes)
    (h : scanLine rest 0 limit = .incomplete) (h' : scanLine (rest ++ more) 0 limit = .ready stop) :
    rest.length ≤ stop + 1 := by
  by_contra hlt
  obtain ⟨line, tail, happend, rfl, hle, hlf, hcr⟩ := scanLine_ready h'
  have htake := congrArg (List.take (line.length + 2)) happend
  rw [List.take_append_of_le_length (by omega), List.take_length_add_append] at htake
  have hrest : rest = line ++ 13 :: 10 :: rest.drop (line.length + 2) :=
    calc rest = rest.take (line.length + 2) ++ rest.drop (line.length + 2) :=
        (List.take_append_drop _ _).symm
      _ = line ++ 13 :: 10 :: rest.drop (line.length + 2) := by
        rw [htake, List.append_assoc]
        rfl
  rw [hrest, scanLine_of_line _ hle hlf hcr] at h
  cases h

theorem headStep_take_le {s next : HeadWire κ ρ} {rest : Bytes} {count : ℕ} {out : List Status}
    (h : headStep grammar limits s rest = .take count out next) : count ≤ rest.length := by
  have hready : ∀ {limit stop}, scanLine rest 0 limit = .ready stop →
      (rest.take stop).length + 2 ≤ rest.length := by
    intro limit stop hscan
    obtain ⟨line, tail, hrest, rfl, _⟩ := scanLine_ready hscan
    rw [hrest, List.take_left, List.length_append, List.length_cons, List.length_cons]
    omega
  unfold headStep onLine at h
  split at h
  · cases h
  · split at h
    · cases h
    · next stop hscan =>
      rw [startLineStep_take h]
      exact hready hscan
    · cases h
    · cases h
  · split at h
    · split at h <;> cases h
    · next stop hscan =>
      rw [fieldLineStep_take h]
      exact hready hscan
    · cases h
    · cases h

theorem headStep_append {s : HeadWire κ ρ} {rest : Bytes} (more : Bytes)
    (h : headStep grammar limits s rest ≠ .need) :
    headStep grammar limits s (rest ++ more) = headStep grammar limits s rest := by
  have htake : ∀ {limit stop}, scanLine rest 0 limit = .ready stop →
      (rest ++ more).take stop = rest.take stop := by
    intro limit stop hscan
    obtain ⟨line, tail, hrest, rfl, _⟩ := scanLine_ready hscan
    refine List.take_append_of_le_length ?_
    rw [hrest, List.length_append]
    omega
  cases s with
  | done result => rfl
  | startLine count =>
    simp only [headStep, onLine] at h ⊢
    cases hscan : scanLine rest 0 limits.startLineBytes with
    | incomplete => exact absurd (by rw [hscan]) h
    | ready stop =>
      rw [scanLine_append more (by rw [hscan]; simp), hscan]
      dsimp only
      rw [htake hscan]
    | malformed => rw [scanLine_append more (by rw [hscan]; simp), hscan]
    | tooLong => rw [scanLine_append more (by rw [hscan]; simp), hscan]
  | fields start used fields count =>
    simp only [headStep, onLine] at h ⊢
    cases hscan : scanLine rest 0 limits.fieldBytes with
    | incomplete =>
      rw [hscan] at h
      dsimp only at h ⊢
      -- a head that is too long already stays too long
      have hlong : used + rest.length > limits.headerBytes := by
        by_contra hle
        exact h (if_neg hle)
      rw [if_pos hlong]
      cases hscan' : scanLine (rest ++ more) 0 limits.fieldBytes with
      | incomplete =>
        dsimp only
        rw [if_pos (by rw [List.length_append]; omega)]
      | ready stop =>
        have hstop := scanLine_incomplete_append more hscan hscan'
        obtain ⟨line, tail, hrest, rfl, _⟩ := scanLine_ready hscan'
        dsimp only
        rw [hrest, List.take_left, fieldLineStep, if_pos (by omega)]
      | malformed => rfl
      | tooLong => rfl
    | ready stop =>
      rw [scanLine_append more (by rw [hscan]; simp), hscan]
      dsimp only
      rw [htake hscan]
    | malformed => rw [scanLine_append more (by rw [hscan]; simp), hscan]
    | tooLong => rw [scanLine_append more (by rw [hscan]; simp), hscan]

/-- A head as a decoder of the bytes on the wire; no head ends with the stream. -/
def headWire (grammar : HeadSyntax κ ρ) (limits : Limits) :
    StreamDecoder (HeadWire κ ρ) UInt8 Status where
  step := headStep grammar limits
  accepting _ := False
  take_le := headStep_take_le
  stable := headStep_append

end Decoder

end Nocter.Http

/-!
# Resumed scans and field blocks

A scan that resumes at a saved offset decides as one from the start of the line.
With that, a field block on the bytes received so far follows the head on the
wire.
-/

namespace Nocter.Http

universe u v

/-- Resuming at `next` decides every continuation of the input as a scan from `start`. -/
structure ScanResumes (input : Bytes) (start next limit : ℕ) : Prop where
  start_le : start ≤ next
  next_le : next ≤ input.length
  resumes : ∀ more, advanceLine (input ++ more) start next limit =
    advanceLine (input ++ more) start start limit

namespace ScanResumes

variable {input : Bytes} {start next limit : ℕ}

theorem self (limit : ℕ) (h : start ≤ input.length) : ScanResumes input start start limit :=
  ⟨Nat.le_refl _, h, fun _ => rfl⟩

theorem append (h : ScanResumes input start next limit) (more : Bytes) :
    ScanResumes (input ++ more) start next limit := by
  refine ⟨h.start_le, ?_, fun more' => ?_⟩
  · rw [List.length_append]
    exact Nat.le_add_right_of_le h.next_le
  · rw [List.append_assoc]
    exact h.resumes (more ++ more')

theorem advance (h : ScanResumes input start next limit) :
    advanceLine input start next limit = advanceLine input start start limit := by
  have hnil := h.resumes []
  rwa [List.append_nil] at hnil

theorem advance_loop (h : start ≤ input.length) :
    advanceLine input start start limit = advanceLineLoop start limit start (input.drop start) := by
  rw [advanceLine, if_neg (by omega)]

/-- The scan as a decision about the bytes from the start of the line on. -/
theorem advance_shift (h : ScanResumes input start next limit) :
    advanceLine input start next limit =
      (advanceLineLoop 0 limit 0 (input.drop start)).shift start := by
  have hstart : start ≤ input.length := h.start_le.trans h.next_le
  rw [h.advance, advance_loop hstart]
  exact advanceLineLoop_shift start limit (input.drop start) 0

/-- An incomplete scan saves an offset where it can resume. -/
theorem of_incomplete {next' : ℕ} (h : ScanResumes input start next limit)
    (hline : advanceLine input start next limit = .incomplete next') :
    ScanResumes input start next' limit := by
  have hstart : start ≤ input.length := h.start_le.trans h.next_le
  rw [h.advance, advance_loop hstart] at hline
  have hbound := advanceLineLoop_resume [] hline
  rw [List.length_drop] at hbound
  refine ⟨hbound.1, by omega, fun more => ?_⟩
  obtain ⟨_, _, hresume⟩ := advanceLineLoop_resume more hline
  have hlength : (input ++ more).length = input.length + more.length := List.length_append
  rw [← List.drop_append_of_le_length hstart, List.drop_drop] at hresume
  rw [advance_loop (by omega), ← hresume, advanceLine, if_neg (by omega)]
  congr 2
  omega

end ScanResumes

/-- The four decisions of a resumed scan. -/
theorem advanceLine_cases {input : Bytes} {start next limit : ℕ}
    (h : ScanResumes input start next limit) :
    (∃ next', advanceLine input start next limit = .incomplete next' ∧
      scanLine (input.drop start) 0 limit = .incomplete ∧ ScanResumes input start next' limit) ∨
    (∃ line tail, advanceLine input start next limit = .ready (start + line.length) ∧
      scanLine (input.drop start) 0 limit = .ready line.length ∧
      input.drop start = line ++ 13 :: 10 :: tail ∧ slice input start (start + line.length) = line) ∨
    (advanceLine input start next limit = .malformed ∧
      scanLine (input.drop start) 0 limit = .malformed) ∨
    (advanceLine input start next limit = .tooLong ∧
      scanLine (input.drop start) 0 limit = .tooLong) := by
  have hadvance := h.advance_shift
  have hscan := scanLine_zero (input.drop start) limit
  cases hloop : advanceLineLoop 0 limit 0 (input.drop start) with
  | incomplete next' =>
    rw [hloop] at hadvance hscan
    exact Or.inl ⟨_, hadvance, hscan, h.of_incomplete hadvance⟩
  | ready stop =>
    rw [hloop] at hadvance hscan
    obtain ⟨line, tail, hrest, rfl, _⟩ := scanLine_ready hscan
    refine Or.inr (Or.inl ⟨line, tail, hadvance, hscan, hrest, ?_⟩)
    rw [slice, hrest, Nat.add_sub_cancel_left, List.take_left]
  | malformed =>
    rw [hloop] at hadvance hscan
    exact Or.inr (Or.inr (Or.inl ⟨hadvance, hscan⟩))
  | tooLong =>
    rw [hloop] at hadvance hscan
    exact Or.inr (Or.inr (Or.inr ⟨hadvance, hscan⟩))

section Block

variable {κ : Type u} {ρ : Type v} {grammar : HeadSyntax κ ρ} {limits : Limits}
  {s₀ : HeadWire κ ρ} {input : Bytes}

/-- The head whose fields this block collects is on the way from `s₀`. -/
structure BlockPath (grammar : HeadSyntax κ ρ) (limits : Limits) (s₀ : HeadWire κ ρ) (input : Bytes)
    (start : κ) (count : ℕ) (out : List Status) (block : FieldBlockState) : Prop where
  reaches : (headWire grammar limits).Reaches s₀ input out block.lineStart
    (.fields start (block.lineStart - block.headStart) block.fields count)
  head_le : block.headStart ≤ block.lineStart
  sameLimits : block.limits = limits
  resumes : ScanResumes input block.lineStart block.scanOffset limits.fieldBytes

/-- What the block attempt says about the head on the wire. -/
inductive BlockEnd (grammar : HeadSyntax κ ρ) (limits : Limits) (s₀ : HeadWire κ ρ) (input : Bytes)
    (start : κ) (count : ℕ) (out : List Status) (block : FieldBlockState) : FieldBlockAttempt → Prop
  | incomplete (hneed : headStep grammar limits
      (.fields start (block.lineStart - block.headStart) block.fields count)
      (input.drop block.lineStart) = .need) :
      BlockEnd grammar limits s₀ input start count out block .incomplete
  | ready (hend : headStep grammar limits
      (.fields start (block.lineStart - block.headStart) block.fields count)
      (input.drop block.lineStart) = headEndStep count (grammar.finish start block.fields count))
      (hle : block.lineStart + 2 ≤ input.length) :
      BlockEnd grammar limits s₀ input start count out block (.ready (block.lineStart + 2))
  | failed (failure : HttpError) (hfail : headStep grammar limits
      (.fields start (block.lineStart - block.headStart) block.fields count)
      (input.drop block.lineStart) = .fail) :
      BlockEnd grammar limits s₀ input start count out block (.failed failure)

/-- The outcome of a pass over one line. -/
def BlockFollows (grammar : HeadSyntax κ ρ) (limits : Limits) (s₀ : HeadWire κ ρ) (input : Bytes)
    (start : κ) (count : ℕ) (out : List Status) (headStart : ℕ) :
    FieldBlockState ⊕ (FieldBlockAttempt × FieldBlockState) → Prop
  | .inl block => BlockPath grammar limits s₀ input start count out block ∧
      block.headStart = headStart
  | .inr (attempt, block) => BlockPath grammar limits s₀ input start count out block ∧
      block.headStart = headStart ∧
      BlockEnd grammar limits s₀ input start count out block attempt

variable {start : κ} {count : ℕ} {out : List Status} {block : FieldBlockState}

theorem advanceFieldBlockStep_follows
    (h : BlockPath grammar limits s₀ input start count out block) :
    BlockFollows grammar limits s₀ input start count out block.headStart
      (advanceFieldBlockStep input block) := by
  have hbounds : block.lineStart ≤ input.length := h.resumes.start_le.trans h.resumes.next_le
  have hhead := h.head_le
  have hstep : headStep grammar limits
      (.fields start (block.lineStart - block.headStart) block.fields count)
      (input.drop block.lineStart) =
        onLine (scanLine (input.drop block.lineStart) 0 limits.fieldBytes)
          (if block.lineStart - block.headStart + (input.drop block.lineStart).length >
            limits.headerBytes then .fail else .need) fun stop =>
          fieldLineStep grammar limits start (block.lineStart - block.headStart)
            block.fields count ((input.drop block.lineStart).take stop) := rfl
  unfold advanceFieldBlockStep
  rw [h.sameLimits]
  rcases advanceLine_cases h.resumes with ⟨next, hline, hscan, hresumes⟩ |
    ⟨line, tail, hline, hscan, hrest, hslice⟩ | ⟨hline, hscan⟩ | ⟨hline, hscan⟩
  · rw [hline]
    rw [hscan, List.length_drop] at hstep
    dsimp only [onLine] at hstep ⊢
    by_cases hlong : input.length - block.headStart > limits.headerBytes
    · rw [if_pos hlong]
      rw [if_pos (by omega)] at hstep
      exact ⟨h, rfl, .failed _ hstep⟩
    · rw [if_neg hlong]
      rw [if_neg (by omega)] at hstep
      exact ⟨⟨h.reaches, h.head_le, rfl, hresumes⟩, rfl, .incomplete hstep⟩
  · rw [hline]
    have hlength := congrArg List.length hrest
    rw [List.length_drop, List.length_append, List.length_cons, List.length_cons] at hlength
    rw [hscan] at hstep
    dsimp only [onLine] at hstep ⊢
    rw [hrest, List.take_left, ← hrest] at hstep
    rw [hslice]
    by_cases hlong : block.lineStart + line.length + 2 - block.headStart > limits.headerBytes
    · rw [if_pos hlong]
      rw [fieldLineStep, if_pos (by omega)] at hstep
      exact ⟨h, rfl, .failed _ hstep⟩
    rw [if_neg hlong]
    rw [fieldLineStep, if_neg (by omega)] at hstep
    by_cases hempty : line = []
    · subst hempty
      rw [if_pos rfl] at hstep
      rw [if_pos (by rw [List.length_nil, Nat.add_zero])]
      rw [List.length_nil] at hlength
      exact ⟨h, rfl, .ready hstep (by omega)⟩
    · have hpos := List.length_pos_iff.mpr hempty
      rw [if_neg hempty] at hstep
      rw [if_neg (by omega)]
      cases hretain : retainMessageField block.fields line limits with
      | error failure =>
        rw [hretain] at hstep
        exact ⟨h, rfl, .failed failure hstep⟩
      | ok fields =>
        rw [hretain] at hstep
        dsimp only at hstep
        have hreach := h.reaches.tail hstep
        rw [List.append_nil, ← Nat.add_assoc] at hreach
        refine ⟨⟨?_, ?_, rfl, ScanResumes.self _ ?_⟩, rfl⟩
        · dsimp only
          have hused : block.lineStart + line.length + 2 - block.headStart =
              block.lineStart - block.headStart + line.length + 2 := by omega
          rw [hused]
          exact hreach
        · dsimp only
          omega
        · dsimp only
          omega
  · rw [hline]
    rw [hscan] at hstep
    exact ⟨h, rfl, .failed _ hstep⟩
  · rw [hline]
    rw [hscan] at hstep
    exact ⟨h, rfl, .failed _ hstep⟩

/-- A field block follows the head on the wire up to the line where it stops. -/
theorem advanceFieldBlock_follows (h : BlockPath grammar limits s₀ input start count out block) :
    BlockPath grammar limits s₀ input start count out (advanceFieldBlock block input).2 ∧
      (advanceFieldBlock block input).2.headStart = block.headStart ∧
      BlockEnd grammar limits s₀ input start count out (advanceFieldBlock block input).2
        (advanceFieldBlock block input).1 := by
  have hbounds : block.lineStart ≤ input.length := h.resumes.start_le.trans h.resumes.next_le
  have hhead := h.head_le
  unfold advanceFieldBlock
  rw [if_neg (by omega)]
  refine (Loop.iterate_returns (advanceFieldBlockStep input) _ _ block).invariant
    (P := fun state => BlockPath grammar limits s₀ input start count out state ∧
      state.headStart = block.headStart)
    (Q := fun result => BlockPath grammar limits s₀ input start count out result.2 ∧
      result.2.headStart = block.headStart ∧
      BlockEnd grammar limits s₀ input start count out result.2 result.1)
    ?_ ?_ ⟨h, rfl⟩
  · rintro state state' ⟨hpath, hstart⟩ hbody
    have hfollows := advanceFieldBlockStep_follows hpath
    rw [hbody, hstart] at hfollows
    exact hfollows
  · rintro state result ⟨hpath, hstart⟩ hbody
    have hfollows := advanceFieldBlockStep_follows hpath
    rw [hbody, hstart] at hfollows
    exact hfollows

end Block

end Nocter.Http
