import Nocter.Http.BodyCalls

/-!
# The body cursor

The cursor owns a decoder and the bytes that the transport has delivered. It
calls the decoder until there is something to report. A call that leaves bytes
of a line unread and writes nothing leaves the cursor as it was, so the loop
does not end.
-/

namespace Nocter.Http

inductive BodyCursorAttempt where
  | ready (written : ℕ)
  | input
  | complete (written : ℕ)
  | failed (failure : Failure)
  deriving DecidableEq

structure BodyCursor where
  decoder : BodyDecoder
  pending : Bytes
  pendingStart : ℕ
  deriving DecidableEq

def bodyCursorComplete (cursor : BodyCursor) : Bool := cursor.decoder.state = .complete

def failBodyCursor (cursor : BodyCursor) : BodyCursor :=
  { cursor with decoder := { cursor.decoder with state := .failed } }

structure CursorCall where
  attempt : BodyCursorAttempt
  cursor : BodyCursor
  output : Bytes
  deriving DecidableEq

/-- One pass of the loop of `advance_body_cursor`. -/
def advanceStep (eof : Bool) (loop : BodyCursor × Bytes) : (BodyCursor × Bytes) ⊕ CursorCall :=
  let cursor := loop.1
  let call := decodeBody cursor.decoder cursor.pending cursor.pendingStart loop.2 eof
  let cursor := { cursor with decoder := call.decoder }
  match call.result with
  | .error failure => .inr ⟨.failed failure, failBodyCursor cursor, call.output⟩
  | .ok decoded =>
    let cursor := { cursor with pendingStart := cursor.pendingStart + decoded.consumed }
    if decoded.complete then .inr ⟨.complete decoded.written, cursor, call.output⟩
    else if decoded.written ≠ 0 then .inr ⟨.ready decoded.written, cursor, call.output⟩
    else if cursor.pendingStart = cursor.pending.length then
      .inr ⟨.input, { cursor with pending := [], pendingStart := 0 }, call.output⟩
    else .inl (cursor, call.output)

/-- `advance_body_cursor` returns with this call. -/
def AdvanceBodyCursor (cursor : BodyCursor) (output : Bytes) (endOfInput : Bool)
    (call : CursorCall) : Prop :=
  if output.length = 0 then
    if bodyCursorComplete cursor then call = ⟨.complete 0, cursor, output⟩
    else call = ⟨.ready 0, cursor, output⟩
  else
    match cursor.decoder.state with
    | .failed => call = ⟨.failed (.error bodyCursorFailed), cursor, output⟩
    | _ => Loop.Returns (advanceStep endOfInput) (cursor, output) call

/-- The bytes not yet decoded. -/
def BodyCursor.unread (cursor : BodyCursor) : Bytes := cursor.pending.drop cursor.pendingStart

/-- Up to the next payload the buffer holds a first part of a line or delimiter. -/
def BodyCursor.PartlyBuffered (cursor : BodyCursor) : Prop :=
  ∃ count t, (bodyWire cursor.decoder.limits).Reaches cursor.decoder.wire cursor.unread [] count t ∧
    wireStep cursor.decoder.limits t (cursor.unread.drop count) = .need ∧
    cursor.unread.drop count ≠ []

/-- A call with output space returns, and asks for input where the buffer ends inside a line. -/
def BodyCursor.Responds (cursor : BodyCursor) (output : Bytes) (endOfInput : Bool) : Prop :=
  (∃ call, AdvanceBodyCursor cursor output endOfInput call) ∧
    (endOfInput = false → cursor.PartlyBuffered →
      ∀ call, AdvanceBodyCursor cursor output endOfInput call → call.attempt = .input)

/-- Only a line or a delimiter can be there in part. -/
theorem partly_needed {limits : Limits} {t : WireState} {rest : Bytes}
    (h : wireStep limits t rest = .need) (hrest : rest ≠ []) :
    t.1 = .chunkSize ∨ t.1 = .chunkDataEnd ∨ ∃ bytes count, t.1 = .trailers bytes count := by
  unfold wireStep at h
  split at h
  case h_1 | h_2 | h_3 | h_4 | h_8 => cases h
  case h_5 | h_9 =>
    cases rest with
    | nil => exact absurd rfl hrest
    | cons byte tail => cases h
  case h_6 =>
    cases rest with
    | nil => exact absurd rfl hrest
    | cons byte tail => split at h <;> cases h
  case h_7 => exact Or.inl rfl
  case h_10 => exact Or.inr (Or.inl rfl)
  case h_11 bytes count _ => exact Or.inr (Or.inr ⟨bytes, count, rfl⟩)

theorem not_closeDelimited_of_partly {limits : Limits} {t : WireState} {rest : Bytes}
    (h : wireStep limits t rest = .need) (hrest : rest ≠ []) : t.1 ≠ .closeDelimited := by
  intro hclose
  rcases partly_needed h hrest with hstate | hstate | ⟨bytes, count, hstate⟩ <;>
    cases hclose.symm.trans hstate

section Pass

variable {cursor : BodyCursor} {output : Bytes} {eof : Bool}

/-- The loop is at a line of which the buffer holds a first part. -/
structure Stuck (loop : BodyCursor × Bytes) : Prop where
  start_le : loop.1.pendingStart ≤ loop.1.pending.length
  need : wireStep loop.1.decoder.limits loop.1.decoder.wire loop.1.unread = .need
  unread : loop.1.unread ≠ []
  space : loop.2 ≠ []

/-- A decoder is its state on the wire and its limits. -/
theorem decoder_ext {decoder decoder' : BodyDecoder} (hwire : decoder.wire = decoder'.wire)
    (hlimits : decoder.limits = decoder'.limits) : decoder = decoder' := by
  cases decoder
  cases decoder'
  cases hlimits
  cases hwire
  rfl

theorem advanceStep_of_stuck (h : Stuck (cursor, output)) :
    advanceStep false (cursor, output) = .inl (cursor, output) := by
  obtain ⟨hstart, hneed, hunread, hspace⟩ := h
  obtain ⟨out, count, t, hpath⟩ := decodeBody_path cursor.decoder output false hstart
  have hhalts : (bodyWire cursor.decoder.limits).Halts cursor.decoder.wire cursor.unread :=
    StreamDecoder.halts_of_need hneed
  obtain ⟨rfl, rfl, rfl⟩ := hhalts.reaches hpath.reaches
  have hdecoder : (decodeBody cursor.decoder cursor.pending cursor.pendingStart output false).decoder =
      cursor.decoder := by
    rcases hpath.agrees with hwire | ⟨heof, _⟩
    · exact decoder_ext hwire hpath.sameLimits
    · cases heof
  have houtput := hpath.content
  rw [List.nil_append, List.length_nil, List.drop_zero] at houtput
  have hne : cursor.pendingStart ≠ cursor.pending.length := by
    intro heq
    exact hunread (by rw [BodyCursor.unread, heq, List.drop_length])
  have hending := hpath.ending
  have hresult : (decodeBody cursor.decoder cursor.pending cursor.pendingStart output false).result =
      .ok ⟨0, 0, false⟩ := by
    generalize (decodeBody cursor.decoder cursor.pending cursor.pendingStart output false).result =
      result at hending
    cases hending with
    | complete hend =>
      rw [List.drop_zero] at hend
      rcases hend with hdone | ⟨heof, _⟩
      · cases hneed.symm.trans hdone
      · cases heof
    | suspended => rfl
    | malformed error hreach hfail =>
      obtain ⟨_, rfl, rfl⟩ := hhalts.reaches hreach
      cases hneed.symm.trans hfail
    | ended heof => cases heof
    | starved heof => cases heof
  unfold advanceStep
  dsimp only
  rw [hresult, hdecoder, houtput]
  dsimp only
  rw [if_neg Bool.false_ne_true, if_neg (by decide), Nat.add_zero, if_neg hne]

/-- A pass goes on only into a line of which the buffer holds a first part. -/
theorem advanceStep_again {loop' : BodyCursor × Bytes} (houtput : output ≠ [])
    (h : advanceStep eof (cursor, output) = .inl loop') :
    eof = false ∧ cursor.PartlyBuffered ∧ Stuck loop' := by
  have hstart : cursor.pendingStart ≤ cursor.pending.length := by
    by_contra hgt
    unfold advanceStep decodeBody at h
    dsimp only at h
    rw [if_pos (Nat.lt_of_not_le hgt)] at h
    cases h
  obtain ⟨out, count, t, hpath⟩ := decodeBody_path cursor.decoder output eof hstart
  have hcount := hpath.reaches.count_le
  rw [List.length_drop] at hcount
  have hending := hpath.ending
  unfold advanceStep at h
  dsimp only at h
  generalize (decodeBody cursor.decoder cursor.pending cursor.pendingStart output eof).result =
    result at h hending
  cases hending with
  | complete => cases h
  | malformed => cases h
  | ended => cases h
  | starved => cases h
  | suspended heof hend =>
    dsimp only at h
    rw [if_neg Bool.false_ne_true] at h
    split at h
    · cases h
    · next hwritten =>
      have hout : out = [] := List.length_eq_zero_iff.mp (not_not.mp hwritten)
      subst hout
      have hneed : wireStep cursor.decoder.limits t (cursor.unread.drop count) = .need := by
        refine hend.resolve_right fun hfull => houtput ?_
        exact List.length_eq_zero_iff.mp hfull.symm
      split at h
      · cases h
      · next hmore =>
        cases h
        have hunread : cursor.unread.drop count ≠ [] := by
          rw [BodyCursor.unread, List.drop_drop, ne_eq, List.drop_eq_nil_iff]
          omega
        have hstate := not_closeDelimited_of_partly hneed hunread
        refine ⟨heof.resolve_right fun hclosed => hstate hclosed.1, ⟨count, t, hpath.reaches, hneed, hunread⟩, ?_⟩
        have hwire := hpath.agrees.resolve_right fun hclosed => hstate hclosed.2.1
        have hcontent := hpath.content
        rw [List.nil_append, List.length_nil, List.drop_zero] at hcontent
        constructor
        · dsimp only
          omega
        · dsimp only [BodyCursor.unread]
          rw [hpath.sameLimits, hwire, ← List.drop_drop]
          exact hneed
        · dsimp only [BodyCursor.unread]
          rw [← List.drop_drop]
          exact hunread
        · dsimp only
          rw [hcontent]
          exact houtput

theorem advanceStep_of_partlyBuffered (output : Bytes) (h : cursor.PartlyBuffered) :
    ∃ loop', advanceStep false (cursor, output) = .inl loop' := by
  obtain ⟨n, u, hreach, hneed, hunread⟩ := h
  have hhalts : (bodyWire cursor.decoder.limits).Halts u (cursor.unread.drop n) :=
    StreamDecoder.halts_of_need hneed
  have hlength : n < cursor.pending.length - cursor.pendingStart := by
    rw [BodyCursor.unread, ne_eq, List.drop_eq_nil_iff, List.length_drop] at hunread
    omega
  obtain ⟨out, count, t, hpath⟩ := decodeBody_path cursor.decoder output false
    (show cursor.pendingStart ≤ cursor.pending.length by omega)
  -- the call puts nothing out and stops where the buffer ends inside the line
  obtain ⟨outs, rest, hout, hcount, _⟩ := hpath.reaches.of_halts hreach hhalts
  obtain ⟨rfl, -⟩ := List.append_eq_nil_iff.mp hout.symm
  have hending := hpath.ending
  unfold advanceStep
  dsimp only
  generalize (decodeBody cursor.decoder cursor.pending cursor.pendingStart output false).result =
    result at hending ⊢
  cases hending with
  | complete hend =>
    rcases hend with hdone | ⟨heof, _⟩
    · obtain ⟨_, rfl, rfl⟩ := hpath.reaches.halts_unique
        (StreamDecoder.halts_of_done hdone) hreach hhalts
      cases hneed.symm.trans hdone
    · cases heof
  | malformed error hfailed hfail =>
    obtain ⟨_, rfl, rfl⟩ := hfailed.halts_unique (StreamDecoder.halts_of_fail hfail) hreach hhalts
    cases hneed.symm.trans hfail
  | ended heof => cases heof
  | starved heof => cases heof
  | suspended =>
    dsimp only
    rw [if_neg Bool.false_ne_true, if_neg (by decide), if_neg (by omega)]
    exact ⟨_, rfl⟩

/-- Without further input the loop never leaves a line that is there in part. -/
theorem not_returns_of_partlyBuffered (houtput : output ≠ []) (h : cursor.PartlyBuffered)
    (call : CursorCall) : ¬ Loop.Returns (advanceStep false) (cursor, output) call := by
  intro hreturns
  obtain ⟨loop', hstep⟩ := advanceStep_of_partlyBuffered output h
  obtain ⟨_, _, hstuck⟩ := advanceStep_again houtput hstep
  exact Loop.not_returns_of_fixed (advanceStep_of_stuck hstuck) call (hreturns.of_next hstep)

/-- Any other loop ends after its first pass. -/
theorem returns_of_not_partlyBuffered (houtput : output ≠ [])
    (h : ¬ (eof = false ∧ cursor.PartlyBuffered)) :
    ∃ call, Loop.Returns (advanceStep eof) (cursor, output) call := by
  cases hstep : advanceStep eof (cursor, output) with
  | inr call => exact ⟨call, .done hstep⟩
  | inl loop' =>
    obtain ⟨heof, hpartly, _⟩ := advanceStep_again houtput hstep
    exact absurd ⟨heof, hpartly⟩ h

theorem partlyBuffered_not_failed (h : cursor.PartlyBuffered) : cursor.decoder.state ≠ .failed := by
  intro hfailed
  obtain ⟨count, t, hreach, hneed, _⟩ := h
  have hfail : ∀ rest, wireStep cursor.decoder.limits cursor.decoder.wire rest = .fail := by
    intro rest
    rw [BodyDecoder.wire, hfailed]
    rfl
  obtain ⟨_, rfl, rfl⟩ := (StreamDecoder.halts_of_fail (hfail _)).reaches hreach
  cases hneed.symm.trans (hfail _)

theorem advanceBodyCursor_iff_returns {call : CursorCall} (houtput : output ≠ [])
    (h : cursor.decoder.state ≠ .failed) : AdvanceBodyCursor cursor output eof call ↔
      Loop.Returns (advanceStep eof) (cursor, output) call := by
  rw [AdvanceBodyCursor, if_neg (fun hlength => houtput (List.length_eq_zero_iff.mp hlength))]
  split
  · exact absurd ‹_› h
  · rfl

end Pass

/-- Exactly where the buffer ends inside a line before the end of the input, a call
with output space does not respond. -/
theorem bodyCursor_responds_iff (cursor : BodyCursor) (output : Bytes) (endOfInput : Bool)
    (houtput : output ≠ []) :
    cursor.Responds output endOfInput ↔ ¬ (endOfInput = false ∧ cursor.PartlyBuffered) := by
  constructor
  · rintro ⟨⟨call, hcall⟩, _⟩ ⟨rfl, hpartly⟩
    rw [advanceBodyCursor_iff_returns houtput (partlyBuffered_not_failed hpartly)] at hcall
    exact not_returns_of_partlyBuffered houtput hpartly call hcall
  · intro h
    refine ⟨?_, fun heof hpartly => absurd ⟨heof, hpartly⟩ h⟩
    by_cases hfailed : cursor.decoder.state = .failed
    · refine ⟨⟨.failed (.error bodyCursorFailed), cursor, output⟩, ?_⟩
      rw [AdvanceBodyCursor, if_neg (fun hlength => houtput (List.length_eq_zero_iff.mp hlength)),
        hfailed]
    · obtain ⟨call, hcall⟩ := returns_of_not_partlyBuffered houtput h
      exact ⟨call, (advanceBodyCursor_iff_returns houtput hfailed).mpr hcall⟩

/-- A chunked body of which the bytes `5` and CR have arrived. -/
def partialSizeLine : BodyCursor where
  decoder := bodyDecoder .chunked Limits.standard
  pending := [53, 13]
  pendingStart := 0

theorem partialSizeLine_partlyBuffered : partialSizeLine.PartlyBuffered :=
  ⟨0, _, .refl _ _, rfl, by decide⟩

theorem bodyCursor_responds_exhausted :
    ({ partialSizeLine with pending := [] } : BodyCursor).Responds [0] false :=
  (bodyCursor_responds_iff _ [0] false (by decide)).mpr fun h => by
    obtain ⟨_, count, t, _, _, hrest⟩ := h
    exact hrest (by rw [BodyCursor.unread, List.drop_nil, List.drop_nil])

theorem partialSizeLine_never_responds :
    ¬ ∀ (cursor : BodyCursor) (output : Bytes) (endOfInput : Bool), output ≠ [] →
      cursor.Responds output endOfInput := by
  intro h
  obtain ⟨⟨call, hcall⟩, _⟩ := h partialSizeLine [0] false (by decide)
  rw [advanceBodyCursor_iff_returns (by decide) (by decide)] at hcall
  exact not_returns_of_partlyBuffered (by decide) partialSizeLine_partlyBuffered call hcall

end Nocter.Http
