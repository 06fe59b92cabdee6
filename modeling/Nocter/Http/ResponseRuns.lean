import Nocter.Http.HeadBlocks
import Nocter.Library.TransitionSystem

/-!
# Response heads

A response may be preceded by informational heads. The decoder reports each of
them and goes on with the head behind it.
-/

namespace Nocter.Http

inductive ResponseHeadPhase where
  | status
  | fields (status : Status)
  deriving DecidableEq

structure ResponseHeadDecoder where
  input : Bytes
  phase : ResponseHeadPhase
  fieldBlock : FieldBlockState
  informationalCount : ℕ
  deriving DecidableEq

structure ParsedResponseHead where
  head : ResponseHead
  decoder : BodyDecoder
  pending : Bytes
  consumed : ℕ
  deriving DecidableEq

inductive ResponseHeadAttempt where
  | incomplete (decoder : ResponseHeadDecoder)
  | informational (status : Status) (decoder : ResponseHeadDecoder)
  | ready (parsed : ParsedResponseHead)
  | failed (failure : HttpError)
  deriving DecidableEq

def responseHeadDecoder (limits : Limits) : ResponseHeadDecoder where
  input := []
  phase := .status
  fieldBlock := fieldBlockState 0 0 limits
  informationalCount := 0

def appendResponseHeadInputRange (decoder : ResponseHeadDecoder) (input : Bytes) (start stop : ℕ) :
    Except HttpError ResponseHeadDecoder :=
  if start > stop ∨ stop > input.length then .error invalidSyntax
  else .ok { decoder with input := decoder.input ++ slice input start stop }

def isDigit (byte : UInt8) : Bool := 48 ≤ byte && byte ≤ 57

/-- `status_from_line` on the bytes of the line. -/
def statusFromLine (line : Bytes) : Except HttpError Status :=
  match line.drop 9 with
  | hundreds :: tens :: ones :: blank :: reason =>
    if line.take 9 ≠ text "HTTP/1.1 " then .error invalidSyntax
    else if isDigit hundreds = false ∨ isDigit tens = false ∨ isDigit ones = false ∨ blank ≠ 32 then
      .error invalidSyntax
    else if reason.all validHeaderValueByte = false then .error invalidSyntax
    else
      Status.new ((hundreds - 48).toNat * 100 + (tens - 48).toNat * 10 + (ones - 48).toNat)
  | _ => .error invalidSyntax

/-- The arm of `advance_response_head` for the fields. -/
def advanceResponseFields (owner : ResponseHeadDecoder) (requestMethod : Method) (status : Status) :
    ResponseHeadAttempt :=
  match advanceFieldBlock owner.fieldBlock owner.input with
  | (.incomplete, block) => .incomplete { owner with fieldBlock := block }
  | (.failed failure, _) => .failed failure
  | (.ready consumed, block) =>
    match responseBodyFraming block.fields requestMethod status block.limits with
    | .error failure => .failed failure
    | .ok framing =>
      if status.isInformational then
        if owner.informationalCount = block.limits.informationalResponses then .failed syntaxLimit
        else
          .informational status { owner with
            phase := .status
            fieldBlock := fieldBlockState consumed consumed block.limits
            informationalCount := owner.informationalCount + 1 }
      else
        .ready {
          head := ⟨status, block.fields.headers⟩
          decoder := bodyDecoder framing block.limits
          pending := owner.input
          consumed := consumed }

/-- `advance_response_head`: its loop is taken at most twice, from the status line to the fields. -/
def advanceResponseHead (owner : ResponseHeadDecoder) (requestMethod : Method) :
    ResponseHeadAttempt :=
  match owner.phase with
  | .fields status => advanceResponseFields owner requestMethod status
  | .status =>
    let block := owner.fieldBlock
    match advanceLine owner.input block.lineStart block.scanOffset block.limits.startLineBytes with
    | .incomplete next =>
      .incomplete { owner with fieldBlock := { block with scanOffset := next } }
    | .malformed => .failed invalidSyntax
    | .tooLong => .failed syntaxLimit
    | .ready lineEnd =>
      if lineEnd + 2 - block.headStart > block.limits.headerBytes then .failed syntaxLimit
      else
        match statusFromLine (slice owner.input block.lineStart lineEnd) with
        | .error failure => .failed failure
        | .ok status =>
          advanceResponseFields { owner with
            phase := .fields status
            fieldBlock := { block with lineStart := lineEnd + 2, scanOffset := lineEnd + 2 } }
            requestMethod status

end Nocter.Http

/-!
# Response heads in fragments

The decoder of a response head follows the informational heads and the final
head on the wire, however the bytes are cut into fragments and whenever it is
asked to advance.
-/

namespace Nocter.Http

abbrev ResponseResult := ResponseHead × BodyFraming

/-- The status line and the checks behind the fields, without positions in a buffer. -/
def responseSyntax (limits : Limits) (requestMethod : Method) : HeadSyntax Status ResponseResult where
  startLine line :=
    match statusFromLine line with
    | .error _ => none
    | .ok status => some status
  finish status fields count :=
    match responseBodyFraming fields requestMethod status limits with
    | .error _ => .refused
    | .ok framing =>
      if status.isInformational then
        if count = limits.informationalResponses then .refused else .informational status
      else .ready (⟨status, fields.headers⟩, framing)

abbrev responseWire (limits : Limits) (requestMethod : Method) :=
  headWire (responseSyntax limits requestMethod) limits

/-- The decoder has followed the heads on the wire up to the line that it scans and has
reported the informational heads `out`. -/
structure ResponsePath (limits : Limits) (requestMethod : Method) (decoder : ResponseHeadDecoder)
    (out : List Status) : Prop where
  sameLimits : decoder.fieldBlock.limits = limits
  status : decoder.phase = .status →
    decoder.fieldBlock.headStart = decoder.fieldBlock.lineStart ∧
      decoder.fieldBlock.fields = .empty ∧
      (responseWire limits requestMethod).Reaches (.startLine 0) decoder.input out
        decoder.fieldBlock.lineStart (.startLine decoder.informationalCount) ∧
      ScanResumes decoder.input decoder.fieldBlock.lineStart decoder.fieldBlock.scanOffset
        limits.startLineBytes
  fields : ∀ status, decoder.phase = .fields status →
    BlockPath (responseSyntax limits requestMethod) limits (.startLine 0) decoder.input status
      decoder.informationalCount out decoder.fieldBlock

/-- What an attempt says about the heads on the wire. -/
inductive ResponseEnd (limits : Limits) (requestMethod : Method) (input : Bytes) (out : List Status)
    (before : ℕ) : ResponseHeadAttempt → Prop
  | incomplete {decoder : ResponseHeadDecoder} {count : ℕ} {t : HeadWire Status ResponseResult}
      (hinput : decoder.input = input) (hpath : ResponsePath limits requestMethod decoder out)
      (hreach : (responseWire limits requestMethod).Reaches (.startLine 0) input out count t)
      (hneed : (responseWire limits requestMethod).step t (input.drop count) = .need) :
      ResponseEnd limits requestMethod input out before (.incomplete decoder)
  | informational {decoder : ResponseHeadDecoder} {status : Status} (hinput : decoder.input = input)
      (hpath : ResponsePath limits requestMethod decoder (out ++ [status]))
      (hbefore : before < decoder.fieldBlock.lineStart)
      (hle : decoder.fieldBlock.lineStart ≤ input.length) :
      ResponseEnd limits requestMethod input out before (.informational status decoder)
  | ready {result : ResponseResult} {consumed : ℕ}
      (hreach : (responseWire limits requestMethod).Reaches (.startLine 0) input out consumed
        (.done result)) :
      ResponseEnd limits requestMethod input out before
        (.ready ⟨result.1, bodyDecoder result.2 limits, input, consumed⟩)
  | failed {count : ℕ} {t : HeadWire Status ResponseResult} (failure : HttpError)
      (hreach : (responseWire limits requestMethod).Reaches (.startLine 0) input out count t)
      (hfail : (responseWire limits requestMethod).step t (input.drop count) = .fail) :
      ResponseEnd limits requestMethod input out before (.failed failure)

section Advance

variable {limits : Limits} {requestMethod : Method} {decoder : ResponseHeadDecoder}
  {out : List Status} {before : ℕ}

theorem advanceResponseFields_end {status : Status}
    (h : ResponsePath limits requestMethod decoder out) (hphase : decoder.phase = .fields status)
    (hbefore : before ≤ decoder.fieldBlock.lineStart) :
    ResponseEnd limits requestMethod decoder.input out before
      (advanceResponseFields decoder requestMethod status) := by
  obtain ⟨hpath, hstart, hend⟩ := advanceFieldBlock_follows (h.fields _ hphase)
  have hforward := advanceFieldBlock_lineStart_le decoder.fieldBlock decoder.input
  unfold advanceResponseFields
  generalize advanceFieldBlock decoder.fieldBlock decoder.input = result at hpath hstart hend hforward
  obtain ⟨attempt, block⟩ := result
  dsimp only at hpath hstart hend hforward
  cases hend with
  | incomplete hneed =>
    refine .incomplete rfl ⟨hpath.sameLimits, ?_, ?_⟩ hpath.reaches hneed
    · intro hline
      cases hphase.symm.trans hline
    · intro status' hsame
      cases hphase.symm.trans hsame
      exact hpath
  | failed failure hfail => exact .failed failure hpath.reaches hfail
  | ready hend hle =>
    simp only [responseSyntax] at hend
    dsimp only
    rw [hpath.sameLimits]
    cases hframing : responseBodyFraming block.fields requestMethod status limits with
    | error failure =>
      rw [hframing] at hend
      exact .failed failure hpath.reaches hend
    | ok framing =>
      rw [hframing] at hend
      dsimp only at hend ⊢
      by_cases hinformational : status.isInformational = true
      · rw [if_pos hinformational] at hend ⊢
        by_cases hcount : decoder.informationalCount = limits.informationalResponses
        · rw [if_pos hcount] at hend ⊢
          exact .failed _ hpath.reaches hend
        · rw [if_neg hcount] at hend ⊢
          refine .informational rfl ⟨rfl, fun _ => ⟨rfl, rfl, hpath.reaches.tail hend, ?_⟩, ?_⟩ ?_ hle
          · exact ScanResumes.self _ hle
          · intro status' hsame
            cases hsame
          · dsimp only [fieldBlockState]
            omega
      · rw [if_neg hinformational] at hend ⊢
        have hreach := hpath.reaches.tail hend
        rw [List.append_nil] at hreach
        exact .ready hreach

/-- An attempt reports what the heads on the wire do with the bytes received so far. -/
theorem advanceResponseHead_end (h : ResponsePath limits requestMethod decoder out) :
    ResponseEnd limits requestMethod decoder.input out decoder.fieldBlock.lineStart
      (advanceResponseHead decoder requestMethod) := by
  unfold advanceResponseHead
  split
  · next status hphase => exact advanceResponseFields_end h hphase (Nat.le_refl _)
  next hphase =>
  obtain ⟨hhead, hfields, hreaches, hresumes⟩ := h.status hphase
  have hstep : (responseWire limits requestMethod).step
      (.startLine decoder.informationalCount) (decoder.input.drop decoder.fieldBlock.lineStart) =
      onLine (scanLine (decoder.input.drop decoder.fieldBlock.lineStart) 0 limits.startLineBytes)
        .need fun stop => startLineStep (responseSyntax limits requestMethod) limits
          decoder.informationalCount
          ((decoder.input.drop decoder.fieldBlock.lineStart).take stop) := rfl
  dsimp only
  rw [h.sameLimits]
  rcases advanceLine_cases hresumes with ⟨next, hline, hscan, hresumes'⟩ |
    ⟨line, tail, hline, hscan, hrest, hslice⟩ | ⟨hline, hscan⟩ | ⟨hline, hscan⟩
  · rw [hline]
    rw [hscan] at hstep
    refine .incomplete rfl ⟨rfl, fun _ => ⟨hhead, hfields, hreaches, hresumes'⟩, ?_⟩ hreaches hstep
    intro status hsame
    cases hphase.symm.trans hsame
  · rw [hline]
    rw [hscan] at hstep
    dsimp only [onLine] at hstep ⊢
    rw [hrest, List.take_left, ← hrest, startLineStep] at hstep
    have hlength := congrArg List.length hrest
    rw [List.length_drop, List.length_append, List.length_cons, List.length_cons] at hlength
    rw [hslice]
    by_cases hlong : line.length + 2 > limits.headerBytes
    · rw [if_pos hlong] at hstep
      rw [if_pos (by omega)]
      exact .failed _ hreaches hstep
    rw [if_neg hlong] at hstep
    rw [if_neg (by omega)]
    simp only [responseSyntax] at hstep
    cases hstatus : statusFromLine line with
    | error failure =>
      rw [hstatus] at hstep
      exact .failed _ hreaches hstep
    | ok status =>
      rw [hstatus] at hstep
      dsimp only at hstep ⊢
      have hreach := hreaches.tail hstep
      rw [List.append_nil, ← Nat.add_assoc] at hreach
      have hnext : ResponsePath limits requestMethod { decoder with
          phase := .fields status
          fieldBlock := { decoder.fieldBlock with
            limits := limits
            lineStart := decoder.fieldBlock.lineStart + line.length + 2
            scanOffset := decoder.fieldBlock.lineStart + line.length + 2 } } out := by
        refine ⟨rfl, (fun hsame => by cases hsame), ?_⟩
        rintro status' ⟨⟩
        refine ⟨?_, ?_, rfl, ScanResumes.self _ (by dsimp only; omega)⟩
        · dsimp only
          have hused : decoder.fieldBlock.lineStart + line.length + 2 - decoder.fieldBlock.headStart =
              line.length + 2 := by omega
          rw [hused, hfields]
          exact hreach
        · dsimp only
          omega
      exact advanceResponseFields_end hnext rfl (by dsimp only; omega)
  · rw [hline]
    rw [hscan] at hstep
    exact .failed _ hreaches hstep
  · rw [hline]
    rw [hscan] at hstep
    exact .failed _ hreaches hstep

end Advance

/-- Two attempts on one message: both need more input, both fail, or both accept the same
head with the same framing and the same end. -/
def ResponseHeadAttempt.Agrees : ResponseHeadAttempt → ResponseHeadAttempt → Prop
  | .incomplete _, .incomplete _ => True
  | .failed _, .failed _ => True
  | .ready parsed, .ready parsed' =>
    parsed.head = parsed'.head ∧ parsed.consumed = parsed'.consumed ∧
      parsed.decoder = parsed'.decoder
  | _, _ => False

/-- An attempt behind which the reader does not ask again without more input. -/
def ResponseHeadAttempt.isIncomplete : ResponseHeadAttempt → Bool
  | .incomplete _ => true
  | _ => false

def ResponseHeadAttempt.isInformational : ResponseHeadAttempt → Bool
  | .informational _ _ => true
  | _ => false

/-- One pass of a reader that goes on behind informational heads. -/
def responseStep (requestMethod : Method) (loop : ResponseHeadDecoder × List Status) :
    (ResponseHeadDecoder × List Status) ⊕ (ResponseHeadAttempt × List Status) :=
  match advanceResponseHead loop.1 requestMethod with
  | .informational status decoder => .inl (decoder, loop.2 ++ [status])
  | attempt => .inr (attempt, loop.2)

/-- From this decoder the reader ends in this attempt, with these informational heads. -/
def ReadsResponse (requestMethod : Method) (decoder : ResponseHeadDecoder)
    (statuses : List Status) (attempt : ResponseHeadAttempt) (statuses' : List Status) : Prop :=
  Loop.Returns (responseStep requestMethod) (decoder, statuses) (attempt, statuses')

/-- The decoder with the whole message received. -/
def responseHeadDecoderWithInput (limits : Limits) (input : Bytes) : ResponseHeadDecoder :=
  { responseHeadDecoder limits with input := input }

section Reads

variable {limits : Limits} {requestMethod : Method} {out : List Status}

theorem reads_exists {decoder : ResponseHeadDecoder}
    (h : ResponsePath limits requestMethod decoder out) :
    ∃ attempt statuses before, ReadsResponse requestMethod decoder out attempt statuses ∧
      attempt.isInformational = false ∧
      ResponseEnd limits requestMethod decoder.input statuses before attempt := by
  induction hmeasure : decoder.input.length - decoder.fieldBlock.lineStart using
    Nat.strong_induction_on generalizing decoder out with
  | _ n ih =>
    have hend := advanceResponseHead_end h
    cases hattempt : advanceResponseHead decoder requestMethod with
    | informational status next =>
      rw [hattempt] at hend
      cases hend with
      | informational hinput hpath hbefore hle =>
        obtain ⟨attempt, statuses, before, hreads, hfinal, hends⟩ :=
          ih (next.input.length - next.fieldBlock.lineStart) (by rw [hinput]; omega) hpath rfl
        refine ⟨attempt, statuses, before, .again ?_ hreads, hfinal, hinput ▸ hends⟩
        rw [responseStep, hattempt]
    | incomplete next =>
      rw [hattempt] at hend
      exact ⟨_, _, _, .done (by rw [responseStep, hattempt]), rfl, hend⟩
    | ready parsed =>
      rw [hattempt] at hend
      exact ⟨_, _, _, .done (by rw [responseStep, hattempt]), rfl, hend⟩
    | failed failure =>
      rw [hattempt] at hend
      exact ⟨_, _, _, .done (by rw [responseStep, hattempt]), rfl, hend⟩

theorem responsePath_start (limits : Limits) (requestMethod : Method) (input : Bytes) :
    ResponsePath limits requestMethod (responseHeadDecoderWithInput limits input) [] :=
  ⟨rfl, fun _ => ⟨rfl, rfl, .refl _ _, ScanResumes.self _ (Nat.zero_le _)⟩,
    fun _ hphase => by cases hphase⟩

/-- Where the heads on the wire stand when an attempt is final. -/
theorem ResponseEnd.halts {input : Bytes} {before : ℕ} {attempt : ResponseHeadAttempt}
    (h : ResponseEnd limits requestMethod input out before attempt)
    (hfinal : attempt.isInformational = false) :
    ∃ count t, (responseWire limits requestMethod).Reaches (.startLine 0) input out count t ∧
      (responseWire limits requestMethod).Halts t (input.drop count) ∧
      (attempt.isIncomplete = true ↔
        (responseWire limits requestMethod).step t (input.drop count) = .need) ∧
      ((∃ failure, attempt = .failed failure) ↔
        (responseWire limits requestMethod).step t (input.drop count) = .fail) ∧
      ∀ parsed, attempt = .ready parsed → ∃ result, t = .done result ∧ parsed.consumed = count ∧
        parsed.head = result.1 ∧ parsed.decoder = bodyDecoder result.2 limits := by
  cases h with
  | incomplete hinput hpath hreach hneed =>
    refine ⟨_, _, hreach, StreamDecoder.halts_of_need hneed, ⟨fun _ => hneed, fun _ => rfl⟩,
      ⟨?_, fun hfail => ?_⟩, ?_⟩
    · rintro ⟨_, ⟨⟩⟩
    · cases hneed.symm.trans hfail
    · rintro _ ⟨⟩
  | informational => cases hfinal
  | @ready result consumed hreach =>
    have hdone : (responseWire limits requestMethod).step (.done result) (input.drop consumed) =
        .done := rfl
    refine ⟨_, _, hreach, StreamDecoder.halts_of_done hdone, ⟨?_, fun hneed => ?_⟩,
      ⟨?_, fun hfail => ?_⟩, ?_⟩
    · rintro ⟨⟩
    · cases hdone.symm.trans hneed
    · rintro ⟨_, ⟨⟩⟩
    · cases hdone.symm.trans hfail
    · rintro _ ⟨⟩
      exact ⟨result, rfl, rfl, rfl, rfl⟩
  | failed failure hreach hfail =>
    refine ⟨_, _, hreach, StreamDecoder.halts_of_fail hfail, ⟨?_, fun hneed => ?_⟩,
      ⟨fun _ => hfail, fun _ => ⟨failure, rfl⟩⟩, ?_⟩
    · rintro ⟨⟩
    · cases hfail.symm.trans hneed
    · rintro _ ⟨⟩

/-- A final attempt that is not incomplete stands whatever is received after it. -/
theorem ResponseEnd.agrees {input more : Bytes} {out' : List Status} {before before' : ℕ}
    {attempt attempt' : ResponseHeadAttempt}
    (h : ResponseEnd limits requestMethod input out before attempt)
    (hfinal : attempt.isInformational = false) (hmore : attempt.isIncomplete = true → more = [])
    (h' : ResponseEnd limits requestMethod (input ++ more) out' before' attempt')
    (hfinal' : attempt'.isInformational = false) : attempt.Agrees attempt' ∧ out = out' := by
  obtain ⟨count, t, hreach, hhalts, hneed, hfail, hready⟩ := h.halts hfinal
  obtain ⟨count', t', hreach', hhalts', hneed', hfail', hready'⟩ := h'.halts hfinal'
  obtain ⟨rfl, rfl, rfl, hstep⟩ := hreach.settled hhalts (fun hn => hmore (hneed.mpr hn)) hreach' hhalts'
  rw [← hstep] at hneed' hfail'
  refine ⟨?_, rfl⟩
  cases attempt with
  | informational => cases hfinal
  | incomplete decoder =>
    have hsame := hneed'.mpr (hneed.mp rfl)
    cases attempt' with
    | incomplete => trivial
    | informational => cases hfinal'
    | ready => cases hsame
    | failed => cases hsame
  | failed failure =>
    obtain ⟨failure', rfl⟩ := hfail'.mpr (hfail.mp ⟨failure, rfl⟩)
    trivial
  | ready parsed =>
    obtain ⟨result, rfl, hconsumed, hhead, hdecoder⟩ := hready parsed rfl
    cases attempt' with
    | incomplete => cases hneed'.mp rfl
    | informational => cases hfinal'
    | failed failure => cases hfail'.mp ⟨failure, rfl⟩
    | ready parsed' =>
      obtain ⟨result', hresult, hconsumed', hhead', hdecoder'⟩ := hready' parsed' rfl
      cases hresult
      exact ⟨hhead.trans hhead'.symm, hconsumed.trans hconsumed'.symm, hdecoder.trans hdecoder'.symm⟩

end Reads

/-- A reader of a response: `unread` has not arrived; `statuses` came with informational heads. -/
structure ResponseDrive where
  decoder : ResponseHeadDecoder
  unread : List Bytes
  statuses : List Status
  attempt : Option ResponseHeadAttempt
  deriving DecidableEq

namespace ResponseDrive

/-- The moves of a reader. What a buffer holds behind a fragment is not read. -/
inductive Next (requestMethod : Method) : ResponseDrive → ResponseDrive → Prop
  | receive {drive : ResponseDrive} {fragment : Bytes} {unread : List Bytes}
      {decoder : ResponseHeadDecoder} (stale : Bytes) (hattempt : drive.attempt = none)
      (hunread : drive.unread = fragment :: unread)
      (happend : appendResponseHeadInputRange drive.decoder (fragment ++ stale) 0 fragment.length =
        .ok decoder) :
      Next requestMethod drive { drive with decoder := decoder, unread := unread }
  | wait {drive : ResponseDrive} {decoder : ResponseHeadDecoder} (hattempt : drive.attempt = none)
      (hadvance : advanceResponseHead drive.decoder requestMethod = .incomplete decoder) :
      Next requestMethod drive { drive with decoder := decoder }
  | inform {drive : ResponseDrive} {status : Status} {decoder : ResponseHeadDecoder}
      (hattempt : drive.attempt = none)
      (hadvance : advanceResponseHead drive.decoder requestMethod = .informational status decoder) :
      Next requestMethod drive
        { drive with decoder := decoder, statuses := drive.statuses ++ [status] }
  | finish {drive : ResponseDrive} {attempt : ResponseHeadAttempt} (hattempt : drive.attempt = none)
      (hadvance : advanceResponseHead drive.decoder requestMethod = attempt)
      (hcomplete : attempt.isIncomplete = false) (hfinal : attempt.isInformational = false) :
      Next requestMethod drive { drive with attempt := some attempt }

def system (limits : Limits) (requestMethod : Method) (fragments : List Bytes) :
    TransitionSystem ResponseDrive where
  initial drive := drive = ⟨responseHeadDecoder limits, fragments, [], none⟩
  next := Next requestMethod

/-- The result of the drive, and of reading on once everything has arrived, is that of a
reader that has received the whole message. -/
def Agrees (limits : Limits) (requestMethod : Method) (wire : Bytes) (drive : ResponseDrive) : Prop :=
  ∃ whole statuses,
    ReadsResponse requestMethod (responseHeadDecoderWithInput limits wire) [] whole statuses ∧
    (∀ attempt, drive.attempt = some attempt → attempt.Agrees whole ∧ drive.statuses = statuses) ∧
    (drive.attempt = none → drive.unread = [] → ∃ attempt,
      ReadsResponse requestMethod drive.decoder drive.statuses attempt statuses ∧
        attempt.Agrees whole)

structure Sound (limits : Limits) (requestMethod : Method) (wire : Bytes) (drive : ResponseDrive) :
    Prop where
  received : drive.decoder.input ++ drive.unread.flatten = wire
  path : drive.attempt = none → ResponsePath limits requestMethod drive.decoder drive.statuses
  ended : ∀ attempt, drive.attempt = some attempt →
    attempt.isIncomplete = false ∧ attempt.isInformational = false ∧
      ∃ before, ResponseEnd limits requestMethod drive.decoder.input drive.statuses before attempt

end ResponseDrive

theorem appendResponseHeadInputRange_eq {decoder decoder' : ResponseHeadDecoder}
    {fragment stale : Bytes}
    (h : appendResponseHeadInputRange decoder (fragment ++ stale) 0 fragment.length = .ok decoder') :
    decoder' = { decoder with input := decoder.input ++ fragment } := by
  unfold appendResponseHeadInputRange at h
  split at h
  · cases h
  · cases h
    rw [slice, List.drop_zero, Nat.sub_zero, List.take_left]

/-- Received bytes leave the decoder on the way of the heads. -/
theorem ResponsePath.append {limits : Limits} {requestMethod : Method} {decoder : ResponseHeadDecoder}
    {out : List Status} (h : ResponsePath limits requestMethod decoder out) (fragment : Bytes) :
    ResponsePath limits requestMethod { decoder with input := decoder.input ++ fragment } out := by
  refine ⟨h.sameLimits, fun hphase => ?_, fun status hphase => ?_⟩
  · obtain ⟨hhead, hfields, hreaches, hresumes⟩ := h.status hphase
    exact ⟨hhead, hfields, hreaches.append fragment, hresumes.append fragment⟩
  · have hblock := h.fields _ hphase
    exact ⟨hblock.reaches.append fragment, hblock.head_le, hblock.sameLimits,
      hblock.resumes.append fragment⟩

namespace ResponseDrive

variable {limits : Limits} {requestMethod : Method} {wire : Bytes} {drive drive' : ResponseDrive}

theorem Sound.next (h : drive.Sound limits requestMethod wire)
    (hnext : Next requestMethod drive drive') : drive'.Sound limits requestMethod wire := by
  cases hnext with
  | receive stale hattempt hunread happend =>
    obtain rfl := appendResponseHeadInputRange_eq happend
    refine ⟨?_, fun _ => (h.path hattempt).append _, fun attempt hsome => ?_⟩
    · rw [← h.received, hunread, List.flatten_cons, List.append_assoc]
    · cases hattempt.symm.trans hsome
  | wait hattempt hadvance =>
    have hend := advanceResponseHead_end (h.path hattempt)
    rw [hadvance] at hend
    cases hend with
    | incomplete hinput hpath _ _ =>
      refine ⟨?_, fun _ => hpath, fun attempt hsome => ?_⟩
      · rw [← h.received, hinput]
      · cases hattempt.symm.trans hsome
  | inform hattempt hadvance =>
    have hend := advanceResponseHead_end (h.path hattempt)
    rw [hadvance] at hend
    cases hend with
    | informational hinput hpath _ _ =>
      refine ⟨?_, fun _ => hpath, fun attempt hsome => ?_⟩
      · rw [← h.received, hinput]
      · cases hattempt.symm.trans hsome
  | finish hattempt hadvance hcomplete hfinal =>
    refine ⟨h.received, (fun hnone => by cases hnone), ?_⟩
    rintro attempt ⟨⟩
    have hend := advanceResponseHead_end (h.path hattempt)
    rw [hadvance] at hend
    exact ⟨hcomplete, hfinal, _, hend⟩

theorem reachable_sound {fragments : List Bytes}
    (h : (system limits requestMethod fragments).Reachable drive) :
    drive.Sound limits requestMethod fragments.flatten := by
  refine h.invariant (fun drive hstart => ?_) fun drive drive' hsound hnext => hsound.next hnext
  rw [show drive = _ from hstart]
  exact ⟨rfl, fun _ => responsePath_start limits requestMethod [], fun attempt hsome => by cases hsome⟩

theorem Sound.agrees (h : drive.Sound limits requestMethod wire) :
    drive.Agrees limits requestMethod wire := by
  obtain ⟨whole, statuses, before, hreads, hfinal, hwhole⟩ :=
    reads_exists (responsePath_start limits requestMethod wire)
  have hinput : (responseHeadDecoderWithInput limits wire).input =
      drive.decoder.input ++ drive.unread.flatten := h.received.symm
  rw [hinput] at hwhole
  refine ⟨whole, statuses, hreads, ?_, ?_⟩
  · intro attempt hattempt
    obtain ⟨hcomplete, hfinal', before', hend⟩ := h.ended attempt hattempt
    exact hend.agrees hfinal' (fun hincomplete => by cases hcomplete.symm.trans hincomplete)
      hwhole hfinal
  · intro hattempt hunread
    obtain ⟨attempt, statuses', before', hreads', hfinal', hend⟩ := reads_exists (h.path hattempt)
    obtain ⟨hagrees, rfl⟩ := hend.agrees hfinal' (fun _ => by rw [hunread, List.flatten_nil])
      hwhole hfinal
    exact ⟨attempt, hreads', hagrees⟩

end ResponseDrive

end Nocter.Http
