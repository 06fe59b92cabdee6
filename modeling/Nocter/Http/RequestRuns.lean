import Nocter.Http.HeadBlocks
import Nocter.Http.RequestHead
import Nocter.Library.TransitionSystem

/-!
# Request heads in fragments

The decoder of a request head follows the head on the wire, however the bytes
are cut into fragments and whenever it is asked to advance.
-/

namespace Nocter.Http

abbrev RequestResult := RequestHead × BodyFraming × ConnectionDisposition

/-- The request line and the checks behind the fields, without positions in a buffer. -/
def requestSyntax (limits : Limits) : HeadSyntax (Bytes × Bytes) RequestResult where
  startLine line :=
    match requestLineParts line 0 line.length with
    | .error _ => none
    | .ok (methodEnd, targetStart, targetEnd) =>
      some (slice line 0 methodEnd, slice line targetStart targetEnd)
  finish start fields _ :=
    if validRequestHost fields.headers = false then .refused
    else
      match requestBodyFraming fields limits with
      | .error _ => .refused
      | .ok framing =>
        match requestConnectionDisposition fields.headers with
        | .error _ => .refused
        | .ok disposition =>
          match requestHeadFromRanges start.1 start.2 fields.headers with
          | .error _ => .refused
          | .ok head => .ready (head, framing, disposition)

abbrev requestWire (limits : Limits) := headWire (requestSyntax limits) limits

/-- The parts of a request line in a buffer are those of the line, moved to its start. -/
theorem requestLineParts_shift {input line tail : Bytes} {start : ℕ}
    (h : input.drop start = line ++ tail) :
    requestLineParts input start (start + line.length) =
      match requestLineParts line 0 line.length with
      | .error failure => .error failure
      | .ok (methodEnd, targetStart, targetEnd) =>
        .ok (start + methodEnd, start + targetStart, start + targetEnd) := by
  have hline : slice input start (start + line.length) = line := by
    rw [slice, h, Nat.add_sub_cancel_left, List.take_left]
  have hself : slice line 0 line.length = line := by
    rw [slice, List.drop_zero, Nat.sub_zero, List.take_length]
  unfold requestLineParts
  rw [hline, hself]
  dsimp only
  split
  · rfl
  split
  · rfl
  split
  · rfl
  · simp only [Nat.zero_add, Nat.add_assoc]

theorem requestLineParts_bounds {line : Bytes} {methodEnd targetStart targetEnd : ℕ}
    (h : requestLineParts line 0 line.length = .ok (methodEnd, targetStart, targetEnd)) :
    methodEnd ≤ line.length ∧ targetStart ≤ targetEnd ∧ targetEnd ≤ line.length := by
  have hself : slice line 0 line.length = line := by
    rw [slice, List.drop_zero, Nat.sub_zero, List.take_length]
  unfold requestLineParts at h
  rw [hself] at h
  dsimp only at h
  split at h
  · cases h
  split at h
  · cases h
  split at h
  · cases h
  · next hmethod _ _ =>
    cases h
    have hm := (List.takeWhile_sublist (fun x : UInt8 => decide (x ≠ 32)) (l := line)).length_le
    have hlt : (line.takeWhile fun x => decide (x ≠ 32)).length ≠ line.length := by
      intro heq
      rw [not_or] at hmethod
      exact hmethod.2 ((List.takeWhile_sublist _).eq_of_length heq)
    have ht := (List.takeWhile_sublist (fun x : UInt8 => decide (x ≠ 32))
      (l := line.drop ((line.takeWhile fun x => decide (x ≠ 32)).length + 1))).length_le
    rw [List.length_drop] at ht
    omega

theorem slice_shift {input line tail : Bytes} {start i j : ℕ} (h : input.drop start = line ++ tail)
    (hj : j ≤ line.length) : slice input (start + i) (start + j) = slice line i j := by
  have hsub : start + j - (start + i) = j - i := by omega
  rw [slice, slice, hsub, ← List.drop_drop, h]
  by_cases hi : i ≤ line.length
  · rw [List.drop_append_of_le_length hi, List.take_append_of_le_length (by
      rw [List.length_drop]
      omega)]
  · have hzero : j - i = 0 := by omega
    rw [hzero, List.take_zero, List.take_zero]

theorem slice_append {input : Bytes} (more : Bytes) {i j : ℕ} (hj : j ≤ input.length) :
    slice (input ++ more) i j = slice input i j := by
  rw [slice, slice]
  by_cases hi : i ≤ input.length
  · rw [List.drop_append_of_le_length hi, List.take_append_of_le_length (by
      rw [List.length_drop]
      omega)]
  · have hzero : j - i = 0 := by omega
    rw [hzero, List.take_zero, List.take_zero]

/-- The decoder has followed the head on the wire up to the line that it scans. -/
structure RequestPath (limits : Limits) (decoder : RequestHeadDecoder) : Prop where
  head_zero : decoder.fieldBlock.headStart = 0
  sameLimits : decoder.fieldBlock.limits = limits
  requestLine : decoder.phase = .requestLine →
    decoder.fieldBlock.lineStart = 0 ∧ decoder.fieldBlock.fields = .empty ∧
      ScanResumes decoder.input 0 decoder.fieldBlock.scanOffset limits.startLineBytes
  fields : ∀ methodEnd targetStart targetEnd,
    decoder.phase = .fields methodEnd targetStart targetEnd →
      methodEnd ≤ decoder.input.length ∧ targetEnd ≤ decoder.input.length ∧
      BlockPath (requestSyntax limits) limits (.startLine 0) decoder.input
        (slice decoder.input 0 methodEnd, slice decoder.input targetStart targetEnd) 0 []
        decoder.fieldBlock

/-- What an attempt says about the head on the wire. -/
inductive RequestEnd (limits : Limits) (input : Bytes) : RequestHeadAttempt → Prop
  | incomplete {decoder : RequestHeadDecoder} {count : ℕ} {t : HeadWire (Bytes × Bytes) RequestResult}
      (hinput : decoder.input = input) (hpath : RequestPath limits decoder)
      (hreach : (requestWire limits).Reaches (.startLine 0) input [] count t)
      (hneed : (requestWire limits).step t (input.drop count) = .need) :
      RequestEnd limits input (.incomplete decoder)
  | ready {result : RequestResult} {consumed : ℕ}
      (hreach : (requestWire limits).Reaches (.startLine 0) input [] consumed (.done result)) :
      RequestEnd limits input
        (.ready ⟨result.1, bodyDecoder result.2.1 limits, input, consumed, result.2.2⟩)
  | failed {count : ℕ} {t : HeadWire (Bytes × Bytes) RequestResult} (failure : HttpError)
      (hreach : (requestWire limits).Reaches (.startLine 0) input [] count t)
      (hfail : (requestWire limits).step t (input.drop count) = .fail) :
      RequestEnd limits input (.failed failure)

section Advance

variable {limits : Limits} {decoder : RequestHeadDecoder}

theorem finishRequestHead_end {method target input : Bytes} {block : FieldBlockState}
    {methodEnd targetStart targetEnd : ℕ} (hlimits : block.limits = limits)
    (hhead : block.headStart = 0) (hmethod : slice input 0 methodEnd = method)
    (htarget : slice input targetStart targetEnd = target)
    (hpath : BlockPath (requestSyntax limits) limits (.startLine 0) input (method, target) 0 []
      block)
    (hend : headStep (requestSyntax limits) limits
      (.fields (method, target) (block.lineStart - block.headStart) block.fields 0)
      (input.drop block.lineStart) =
        headEndStep 0 ((requestSyntax limits).finish (method, target) block.fields 0)) :
    RequestEnd limits input
      (finishRequestHead input block methodEnd targetStart targetEnd (block.lineStart + 2)) := by
  have hfail : (requestSyntax limits).finish (method, target) block.fields 0 = .refused →
      (requestWire limits).step (.fields (method, target) (block.lineStart - block.headStart)
        block.fields 0) (input.drop block.lineStart) = .fail := by
    intro hrefused
    rw [hrefused] at hend
    exact hend
  have hready : ∀ result, (requestSyntax limits).finish (method, target) block.fields 0 =
      .ready result → (requestWire limits).Reaches (.startLine 0) input [] (block.lineStart + 2)
        (.done result) := by
    intro result hfinish
    rw [hfinish] at hend
    exact hpath.reaches.tail hend
  unfold finishRequestHead
  simp only [requestSyntax] at hfail hready
  rw [hlimits, hhead, hmethod, htarget]
  by_cases hhost : validRequestHost block.fields.headers = false
  · rw [if_pos hhost] at hfail ⊢
    exact .failed _ hpath.reaches (hfail rfl)
  rw [if_neg hhost] at hfail hready ⊢
  cases hframing : requestBodyFraming block.fields limits with
  | error failure =>
    rw [hframing] at hfail
    exact .failed _ hpath.reaches (hfail rfl)
  | ok framing =>
    rw [hframing] at hfail hready
    cases hdisposition : requestConnectionDisposition block.fields.headers with
    | error failure =>
      rw [hdisposition] at hfail
      exact .failed _ hpath.reaches (hfail rfl)
    | ok disposition =>
      rw [hdisposition] at hfail hready
      cases hranges : requestHeadFromRanges method target block.fields.headers with
      | error failure =>
        rw [hranges] at hfail
        exact .failed _ hpath.reaches (hfail rfl)
      | ok head =>
        rw [hranges] at hready
        exact .ready (hready _ rfl)

theorem advanceRequestFields_end {methodEnd targetStart targetEnd : ℕ}
    (h : RequestPath limits decoder)
    (hphase : decoder.phase = .fields methodEnd targetStart targetEnd) :
    RequestEnd limits decoder.input
      (advanceRequestFields decoder methodEnd targetStart targetEnd) := by
  obtain ⟨hmethod, htarget, hblock⟩ := h.fields _ _ _ hphase
  obtain ⟨hpath, hstart, hend⟩ := advanceFieldBlock_follows hblock
  rw [h.head_zero] at hstart
  unfold advanceRequestFields
  generalize advanceFieldBlock decoder.fieldBlock decoder.input = result at hpath hstart hend
  obtain ⟨attempt, block⟩ := result
  dsimp only at hpath hstart hend
  cases hend with
  | incomplete hneed =>
    refine .incomplete rfl ⟨hstart, hpath.sameLimits, ?_, ?_⟩ hpath.reaches hneed
    · intro hline
      cases hphase.symm.trans hline
    · intro methodEnd' targetStart' targetEnd' hsame
      cases hphase.symm.trans hsame
      exact ⟨hmethod, htarget, hpath⟩
  | ready hend hle => exact finishRequestHead_end hpath.sameLimits hstart rfl rfl hpath hend
  | failed failure hfail => exact .failed failure hpath.reaches hfail

/-- An attempt reports what the head on the wire does with the bytes received so far. -/
theorem advanceRequestHead_end (h : RequestPath limits decoder) :
    RequestEnd limits decoder.input (advanceRequestHead decoder) := by
  unfold advanceRequestHead
  split
  · next methodEnd targetStart targetEnd hphase => exact advanceRequestFields_end h hphase
  next hphase =>
  obtain ⟨hzero, hfields, hresumes⟩ := h.requestLine hphase
  have hstep : (requestWire limits).step (.startLine 0) decoder.input =
      onLine (scanLine decoder.input 0 limits.startLineBytes) .need fun stop =>
        startLineStep (requestSyntax limits) limits 0 (decoder.input.take stop) := rfl
  have hcases := advanceLine_cases hresumes
  rw [List.drop_zero] at hcases
  dsimp only
  rw [h.sameLimits, hzero]
  rcases hcases with ⟨next, hline, hscan, hresumes'⟩ |
    ⟨line, tail, hline, hscan, hrest, hslice⟩ | ⟨hline, hscan⟩ | ⟨hline, hscan⟩
  · rw [hline]
    rw [hscan] at hstep
    refine .incomplete rfl ⟨h.head_zero, rfl, fun _ => ⟨rfl, hfields, hresumes'⟩, ?_⟩
      (.refl _ _) hstep
    intro methodEnd targetStart targetEnd hsame
    cases hphase.symm.trans hsame
  · rw [hline, Nat.zero_add]
    rw [hscan] at hstep
    dsimp only [onLine] at hstep ⊢
    rw [hrest, List.take_left, ← hrest, startLineStep] at hstep
    by_cases hlong : line.length + 2 > limits.headerBytes
    · rw [if_pos hlong] at hstep ⊢
      exact .failed _ (.refl _ _) hstep
    rw [if_neg hlong] at hstep ⊢
    have hdrop : decoder.input.drop 0 = line ++ 13 :: 10 :: tail := by rw [List.drop_zero, hrest]
    have hparts := requestLineParts_shift hdrop
    rw [Nat.zero_add] at hparts
    rw [hparts]
    simp only [requestSyntax] at hstep
    cases hline' : requestLineParts line 0 line.length with
    | error failure =>
      rw [hline'] at hstep
      exact .failed _ (.refl _ _) hstep
    | ok parts =>
      obtain ⟨methodEnd, targetStart, targetEnd⟩ := parts
      rw [hline'] at hstep
      dsimp only at hstep ⊢
      obtain ⟨hmethod, horder, htarget⟩ := requestLineParts_bounds hline'
      have hlength := congrArg List.length hrest
      rw [List.length_append, List.length_cons, List.length_cons] at hlength
      have hsliceMethod := slice_shift (i := 0) hdrop hmethod
      have hsliceTarget := slice_shift (i := targetStart) hdrop htarget
      simp only [Nat.zero_add] at hsliceMethod hsliceTarget
      have hreach : (requestWire limits).Reaches (.startLine 0) decoder.input []
          (line.length + 2) _ := StreamDecoder.Reaches.single hstep
      have hnext : RequestPath limits { decoder with
          phase := .fields (0 + methodEnd) (0 + targetStart) (0 + targetEnd)
          fieldBlock := { decoder.fieldBlock with
            limits := limits, lineStart := line.length + 2, scanOffset := line.length + 2 } } := by
        refine ⟨h.head_zero, rfl, (fun hsame => by cases hsame), ?_⟩
        intro methodEnd' targetStart' targetEnd' hsame
        cases hsame
        simp only [Nat.zero_add, hsliceMethod, hsliceTarget]
        refine ⟨by omega, by omega, ?_, ?_, rfl, ScanResumes.self _ (by dsimp only; omega)⟩
        · dsimp only
          rw [h.head_zero, Nat.sub_zero, hfields]
          exact hreach
        · dsimp only
          rw [h.head_zero]
          exact Nat.zero_le _
      exact advanceRequestFields_end hnext rfl
  · rw [hline]
    rw [hscan] at hstep
    exact .failed _ (.refl _ _) hstep
  · rw [hline]
    rw [hscan] at hstep
    exact .failed _ (.refl _ _) hstep

end Advance

/-- Two attempts on one message: both need more input, both fail, or both accept the same
head with the same framing and the same end. -/
def RequestHeadAttempt.Agrees : RequestHeadAttempt → RequestHeadAttempt → Prop
  | .incomplete _, .incomplete _ => True
  | .failed _, .failed _ => True
  | .ready parsed, .ready parsed' =>
    parsed.head = parsed'.head ∧ parsed.consumed = parsed'.consumed ∧
      parsed.decoder = parsed'.decoder ∧ parsed.disposition = parsed'.disposition
  | _, _ => False

def RequestHeadAttempt.isIncomplete : RequestHeadAttempt → Bool
  | .incomplete _ => true
  | _ => false

/-- An attempt that is not incomplete stands whatever is received after it. -/
theorem RequestEnd.agrees {limits : Limits} {input more : Bytes} {attempt attempt' : RequestHeadAttempt}
    (h : RequestEnd limits input attempt) (hmore : attempt.isIncomplete = true → more = [])
    (h' : RequestEnd limits (input ++ more) attempt') : attempt.Agrees attempt' := by
  have hdone : ∀ (result : RequestResult) (rest : Bytes),
      (requestWire limits).step (.done result) rest = .done := fun _ _ => rfl
  cases h with
  | incomplete _ _ hreach hneed =>
    have hhalts := StreamDecoder.halts_of_need hneed
    cases h' with
    | incomplete => trivial
    | ready hreach' =>
      obtain ⟨_, _, _, hstep⟩ := hreach.settled hhalts (fun _ => hmore rfl) hreach'
        (StreamDecoder.halts_of_done (hdone _ _))
      rw [hneed, hdone] at hstep
      cases hstep
    | failed _ hreach' hfail =>
      obtain ⟨_, _, _, hstep⟩ := hreach.settled hhalts (fun _ => hmore rfl) hreach'
        (StreamDecoder.halts_of_fail hfail)
      cases hneed.symm.trans (hstep.trans hfail)
  | @ready result consumed hreach =>
    have hhalts := StreamDecoder.halts_of_done (hdone result (input.drop consumed))
    have hnever : (requestWire limits).step (.done result) (input.drop consumed) = .need →
        more = [] := fun hneed => by cases hneed
    cases h' with
    | incomplete _ _ hreach' hneed =>
      obtain ⟨_, _, _, hstep⟩ := hreach.settled hhalts hnever hreach'
        (StreamDecoder.halts_of_need hneed)
      rw [hneed, hdone] at hstep
      cases hstep
    | ready hreach' =>
      obtain ⟨_, rfl, hresult, _⟩ := hreach.settled hhalts hnever hreach'
        (StreamDecoder.halts_of_done (hdone _ _))
      cases hresult
      exact ⟨rfl, rfl, rfl, rfl⟩
    | failed _ hreach' hfail =>
      obtain ⟨_, _, _, hstep⟩ := hreach.settled hhalts hnever hreach'
        (StreamDecoder.halts_of_fail hfail)
      rw [hfail, hdone] at hstep
      cases hstep
  | @failed count t _ hreach hfail =>
    have hhalts := StreamDecoder.halts_of_fail hfail
    have hnever : (requestWire limits).step t (input.drop count) = .need → more = [] :=
      fun hneed => by cases hfail.symm.trans hneed
    cases h' with
    | incomplete _ _ hreach' hneed =>
      obtain ⟨_, _, _, hstep⟩ := hreach.settled hhalts hnever hreach'
        (StreamDecoder.halts_of_need hneed)
      cases hfail.symm.trans (hstep.trans hneed)
    | ready hreach' =>
      obtain ⟨_, _, _, hstep⟩ := hreach.settled hhalts hnever hreach'
        (StreamDecoder.halts_of_done (hdone _ _))
      rw [hfail, hdone] at hstep
      cases hstep
    | failed => trivial

/-- A reader of a request head: `unread` has not arrived. -/
structure RequestDrive where
  decoder : RequestHeadDecoder
  unread : List Bytes
  attempt : Option RequestHeadAttempt
  deriving DecidableEq

namespace RequestDrive

/-- The moves of a reader. What a buffer holds behind a fragment is not read. -/
inductive Next : RequestDrive → RequestDrive → Prop
  | receive {drive : RequestDrive} {fragment : Bytes} {unread : List Bytes}
      {decoder : RequestHeadDecoder} (stale : Bytes) (hattempt : drive.attempt = none)
      (hunread : drive.unread = fragment :: unread)
      (happend : appendRequestHeadInputRange drive.decoder (fragment ++ stale) 0 fragment.length =
        .ok decoder) :
      Next drive { drive with decoder := decoder, unread := unread }
  | wait {drive : RequestDrive} {decoder : RequestHeadDecoder} (hattempt : drive.attempt = none)
      (hadvance : advanceRequestHead drive.decoder = .incomplete decoder) :
      Next drive { drive with decoder := decoder }
  | finish {drive : RequestDrive} (hattempt : drive.attempt = none)
      (hadvance : (advanceRequestHead drive.decoder).isIncomplete = false) :
      Next drive { drive with attempt := some (advanceRequestHead drive.decoder) }

/-- The drives of a request that begins with retained bytes and arrives in these fragments. -/
def system (limits : Limits) (retained : Bytes) (fragments : List Bytes) :
    TransitionSystem RequestDrive where
  initial drive := drive = ⟨requestHeadDecoderWithInput limits retained, fragments, none⟩
  next := Next

/-- The result of the drive, and the next attempt once everything has arrived, are those of
one attempt on the whole message. -/
def Agrees (limits : Limits) (wire : Bytes) (drive : RequestDrive) : Prop :=
  let whole := advanceRequestHead (requestHeadDecoderWithInput limits wire)
  (∀ attempt, drive.attempt = some attempt → attempt.Agrees whole) ∧
    (drive.attempt = none → drive.unread = [] → (advanceRequestHead drive.decoder).Agrees whole)

structure Sound (limits : Limits) (wire : Bytes) (drive : RequestDrive) : Prop where
  received : drive.decoder.input ++ drive.unread.flatten = wire
  path : drive.attempt = none → RequestPath limits drive.decoder
  ended : ∀ attempt, drive.attempt = some attempt →
    attempt.isIncomplete = false ∧ RequestEnd limits drive.decoder.input attempt

end RequestDrive

theorem requestPath_start (limits : Limits) (input : Bytes) :
    RequestPath limits (requestHeadDecoderWithInput limits input) :=
  ⟨rfl, rfl, fun _ => ⟨rfl, rfl, ScanResumes.self _ (Nat.zero_le _)⟩,
    fun _ _ _ hphase => by cases hphase⟩

theorem appendRequestHeadInputRange_eq {decoder decoder' : RequestHeadDecoder}
    {fragment stale : Bytes}
    (h : appendRequestHeadInputRange decoder (fragment ++ stale) 0 fragment.length = .ok decoder') :
    decoder' = { decoder with input := decoder.input ++ fragment } := by
  unfold appendRequestHeadInputRange at h
  split at h
  · cases h
  · cases h
    rw [slice, List.drop_zero, Nat.sub_zero, List.take_left]

/-- Received bytes leave the decoder on the way of the head. -/
theorem RequestPath.append {limits : Limits} {decoder : RequestHeadDecoder}
    (h : RequestPath limits decoder) (fragment : Bytes) :
    RequestPath limits { decoder with input := decoder.input ++ fragment } := by
  have hlength : (decoder.input ++ fragment).length = decoder.input.length + fragment.length :=
    List.length_append
  refine ⟨h.head_zero, h.sameLimits, fun hphase => ?_, fun methodEnd targetStart targetEnd hphase => ?_⟩
  · obtain ⟨hzero, hfields, hresumes⟩ := h.requestLine hphase
    exact ⟨hzero, hfields, hresumes.append fragment⟩
  · obtain ⟨hmethod, htarget, hblock⟩ := h.fields _ _ _ hphase
    dsimp only
    rw [slice_append fragment hmethod, slice_append fragment htarget]
    exact ⟨by omega, by omega, hblock.reaches.append fragment, hblock.head_le, hblock.sameLimits,
      hblock.resumes.append fragment⟩

namespace RequestDrive

variable {limits : Limits} {wire : Bytes} {drive drive' : RequestDrive}

theorem Sound.next (h : drive.Sound limits wire) (hnext : Next drive drive') :
    drive'.Sound limits wire := by
  cases hnext with
  | receive stale hattempt hunread happend =>
    obtain rfl := appendRequestHeadInputRange_eq happend
    refine ⟨?_, fun _ => (h.path hattempt).append _, fun attempt hsome => ?_⟩
    · rw [← h.received, hunread, List.flatten_cons, List.append_assoc]
    · cases hattempt.symm.trans hsome
  | wait hattempt hadvance =>
    have hend := advanceRequestHead_end (h.path hattempt)
    rw [hadvance] at hend
    cases hend with
    | incomplete hinput hpath _ _ =>
      refine ⟨?_, fun _ => hpath, fun attempt hsome => ?_⟩
      · rw [← h.received, hinput]
      · cases hattempt.symm.trans hsome
  | finish hattempt hadvance =>
    refine ⟨h.received, (fun hnone => by cases hnone), ?_⟩
    rintro attempt ⟨⟩
    exact ⟨hadvance, advanceRequestHead_end (h.path hattempt)⟩

theorem reachable_sound {retained : Bytes} {fragments : List Bytes}
    (h : (system limits retained fragments).Reachable drive) :
    drive.Sound limits (retained ++ fragments.flatten) := by
  refine h.invariant (fun drive hstart => ?_) fun drive drive' hsound hnext => hsound.next hnext
  rw [show drive = _ from hstart]
  exact ⟨rfl, fun _ => requestPath_start limits retained, fun attempt hsome => by cases hsome⟩

theorem Sound.agrees (h : drive.Sound limits wire) : drive.Agrees limits wire := by
  have hwhole : RequestEnd limits (drive.decoder.input ++ drive.unread.flatten)
      (advanceRequestHead (requestHeadDecoderWithInput limits wire)) := by
    rw [h.received]
    exact advanceRequestHead_end (requestPath_start limits wire)
  constructor
  · intro attempt hattempt
    obtain ⟨hcomplete, hend⟩ := h.ended attempt hattempt
    refine hend.agrees (fun hincomplete => ?_) hwhole
    cases hcomplete.symm.trans hincomplete
  · intro hattempt hunread
    have hend := advanceRequestHead_end (h.path hattempt)
    exact hend.agrees (fun _ => by rw [hunread, List.flatten_nil]) hwhole

end RequestDrive

end Nocter.Http
