import Nocter.Http.BodyRuns
import Nocter.Http.RequestRuns
import Nocter.Http.Server

/-!
# A message on a connection

What a connection reads is decided by the whole stream of bytes that its peer sends. A
message that decodes alone is decoded in the same way at the front of a longer stream, and
the calls that read it follow the stream exactly to its end.
-/

namespace Nocter.Http

open StreamDecoder

/-! ### The body cursor on a stream -/

section Cursor

variable {limits : Limits} {s₀ : WireState} {stream incoming delivered : Bytes} {consumed : ℕ}

/-- The cursor has followed the body on the stream; `incoming` has not arrived. -/
structure CursorAt (limits : Limits) (s₀ : WireState) (stream : Bytes) (cursor : BodyCursor)
    (incoming delivered : Bytes) : Prop where
  sameLimits : cursor.decoder.limits = limits
  start_le : cursor.pendingStart ≤ cursor.pending.length
  follows : ∃ consumed, (bodyWire limits).Follows s₀ stream cursor.decoder.wire cursor.unread
    incoming delivered consumed

/-- What a call of the cursor that is not at the end of the input says about the body. -/
inductive CursorEnd (limits : Limits) (s₀ : WireState) (stream incoming delivered output : Bytes) :
    CursorCall → Prop
  | written {call : CursorCall} {count : ℕ}
      (hattempt : call.attempt = .ready count ∨ call.attempt = .complete count)
      (hdone : call.attempt = .complete count → call.cursor.decoder.state = .complete)
      (hprogress : call.attempt = .ready count → 0 < count)
      (hat : CursorAt limits s₀ stream call.cursor incoming (delivered ++ call.output.take count)) :
      CursorEnd limits s₀ stream incoming delivered output call
  | input {call : CursorCall} (hattempt : call.attempt = .input)
      (hempty : call.cursor.unread = [])
      (hneed : wireStep limits call.cursor.decoder.wire [] = .need)
      (houtput : call.output = output)
      (hat : CursorAt limits s₀ stream call.cursor incoming delivered) :
      CursorEnd limits s₀ stream incoming delivered output call
  | failed {call : CursorCall} (failure : Failure) (hattempt : call.attempt = .failed failure)
      (hstate : call.cursor.decoder.state = .failed)
      (hrejects : (bodyWire limits).Rejects s₀ stream) :
      CursorEnd limits s₀ stream incoming delivered output call

theorem sizeLine_ne_done {decoded : ℕ} {line : Bytes} : sizeLine limits decoded line ≠ .done := by
  unfold sizeLine
  intro h
  split at h
  · cases h
  · split at h
    · cases h
    · split at h <;> cases h

theorem trailerStep_ne_done {decoded bytes count : ℕ} {line : Bytes} :
    trailerStep limits decoded bytes count line ≠ .done := by
  unfold trailerStep
  intro h
  split at h <;> cases h

theorem wireLine_ne_done {limit : ℕ} {rest : Bytes} {ready : ℕ → StreamStep WireState UInt8}
    (hready : ∀ stop, ready stop ≠ .done) : wireLine limit rest ready ≠ .done := by
  unfold wireLine
  intro h
  split at h
  · cases h
  · exact hready _ h
  · cases h
  · cases h

theorem wirePayload_ne_done {rest : Bytes} {next : WireState} : wirePayload rest next ≠ .done := by
  unfold wirePayload
  intro h
  split at h <;> cases h

theorem wireStep_done_iff {t : WireState} {rest : Bytes} :
    wireStep limits t rest = .done ↔ t.1 = .complete := by
  constructor
  · intro h
    unfold wireStep at h
    split at h
    case h_2 => rfl
    case h_1 | h_3 | h_4 | h_8 => cases h
    case h_5 | h_9 => exact absurd h wirePayload_ne_done
    case h_6 =>
      split at h
      · cases h
      · exact absurd h wirePayload_ne_done
    case h_7 => exact absurd h (wireLine_ne_done fun _ => sizeLine_ne_done)
    case h_10 =>
      split at h
      · split at h <;> cases h
      · cases h
    case h_11 => exact absurd h (wireLine_ne_done fun _ => trailerStep_ne_done)
  · obtain ⟨state, decoded⟩ := t
    rintro ⟨⟩
    rfl

variable {cursor : BodyCursor} {output : Bytes}

theorem CursorAt.drop {out : Bytes} {count : ℕ} {t : WireState} {decoder : BodyDecoder}
    (h : CursorAt limits s₀ stream cursor incoming delivered)
    (hreach : (bodyWire limits).Reaches cursor.decoder.wire cursor.unread out count t)
    (hwire : decoder.wire = t) (hlimits : decoder.limits = limits) :
    CursorAt limits s₀ stream
      { cursor with decoder := decoder, pendingStart := cursor.pendingStart + count } incoming
      (delivered ++ out) := by
  obtain ⟨consumed, hfollows⟩ := h.follows
  have hle := hreach.count_le
  rw [BodyCursor.unread, List.length_drop] at hle
  have hstart := h.start_le
  refine ⟨hlimits, ?_, consumed + count, ?_⟩
  · dsimp only
    omega
  · have hnext := hfollows.advance hreach
    dsimp only [BodyCursor.unread] at hnext ⊢
    rw [hwire, ← List.drop_drop]
    exact hnext

/-- A pass of the loop follows the stream. -/
theorem advanceStep_end (hat : CursorAt limits s₀ stream cursor incoming delivered)
    (houtput : output ≠ []) :
    (∀ loop, advanceStep false (cursor, output) = .inl loop →
      CursorAt limits s₀ stream loop.1 incoming delivered ∧ loop.2 = output) ∧
    ∀ call, advanceStep false (cursor, output) = .inr call →
      CursorEnd limits s₀ stream incoming delivered output call := by
  obtain ⟨out, count, t, hpath⟩ := decodeBody_path cursor.decoder output false hat.start_le
  have hlimits := hat.sameLimits
  have hwire : (decodeBody cursor.decoder cursor.pending cursor.pendingStart output
      false).decoder.wire = t := by
    rcases hpath.agrees with hwire | ⟨heof, _⟩
    · exact hwire
    · cases heof
  have hreach := hpath.reaches
  rw [hlimits] at hreach
  have hmoved := hat.drop hreach hwire (hpath.sameLimits.trans hlimits)
  have hcontent := hpath.content
  have hending := hpath.ending
  have htaken : (decodeBody cursor.decoder cursor.pending cursor.pendingStart output
      false).output.take out.length = out := by
    rw [hcontent, List.take_left]
  rw [hlimits] at hending
  unfold advanceStep
  dsimp only
  generalize hresult : (decodeBody cursor.decoder cursor.pending cursor.pendingStart output
    false).result = result at hending
  cases hending with
  | malformed error hreach' hfail =>
    obtain ⟨consumed, hfollows⟩ := hat.follows
    refine ⟨fun loop h => (by cases h), fun call h => ?_⟩
    cases h
    exact .failed _ rfl rfl ((hfollows.advance hreach').rejects_of_fail hfail)
  | ended heof => cases heof
  | starved heof => cases heof
  | complete hend =>
    refine ⟨fun loop h => (by cases h), fun call h => ?_⟩
    cases h
    have hdone : t.1 = .complete := by
      rcases hend with hdone | ⟨heof, _⟩
      · exact wireStep_done_iff.mp hdone
      · cases heof
    have hstate : (decodeBody cursor.decoder cursor.pending cursor.pendingStart output
        false).decoder.state = .complete := (congrArg Prod.fst hwire).trans hdone
    refine .written (Or.inr rfl) (fun _ => hstate) (fun h => by cases h) ?_
    dsimp only
    rw [htaken]
    exact hmoved
  | suspended _ hend =>
    dsimp only
    rw [if_neg Bool.false_ne_true]
    by_cases hwritten : out.length ≠ 0
    · rw [if_pos hwritten]
      refine ⟨fun loop h => (by cases h), fun call h => ?_⟩
      cases h
      refine .written (Or.inl rfl) (fun h => by cases h) (fun _ => Nat.pos_of_ne_zero hwritten) ?_
      dsimp only
      rw [htaken]
      exact hmoved
    · rw [if_neg hwritten]
      have hnone : out = [] := List.length_eq_zero_iff.mp (not_not.mp hwritten)
      subst hnone
      rw [List.append_nil] at hmoved
      have hsame : (decodeBody cursor.decoder cursor.pending cursor.pendingStart output
          false).output = output := by
        rw [hcontent]
        rfl
      by_cases hempty : cursor.pendingStart + count = cursor.pending.length
      · rw [if_pos hempty]
        refine ⟨fun loop h => (by cases h), fun call h => ?_⟩
        cases h
        have hrest : cursor.unread.drop count = [] := by
          rw [BodyCursor.unread, List.drop_drop, hempty, List.drop_length]
        have hneed : wireStep limits t [] = .need := by
          rcases hend with hneed | hfull
          · have h := hneed
            rw [show (cursor.pending.drop cursor.pendingStart).drop count = [] from hrest] at h
            exact h
          · exact absurd (List.length_eq_zero_iff.mp hfull.symm) houtput
        refine .input rfl rfl ?_ hsame ?_
        · dsimp only
          rw [hwire]
          exact hneed
        · obtain ⟨consumed, hfollows⟩ := hmoved.follows
          refine ⟨hmoved.sameLimits, le_rfl, consumed, ?_⟩
          have hunread : ({ cursor with
              decoder := (decodeBody cursor.decoder cursor.pending cursor.pendingStart output
                false).decoder
              pendingStart := cursor.pendingStart + count } : BodyCursor).unread = [] := by
            dsimp only [BodyCursor.unread]
            rw [hempty, List.drop_length]
          rw [hunread] at hfollows
          exact hfollows
      · rw [if_neg hempty]
        refine ⟨fun loop h => ?_, fun call h => (by cases h)⟩
        cases h
        exact ⟨hmoved, hsame⟩

theorem advanceBodyCursor_end {call : CursorCall}
    (hat : CursorAt limits s₀ stream cursor incoming delivered) (houtput : output ≠ [])
    (hcall : AdvanceBodyCursor cursor output false call) :
    CursorEnd limits s₀ stream incoming delivered output call := by
  by_cases hfailed : cursor.decoder.state = .failed
  · rw [AdvanceBodyCursor, if_neg (fun hlength => houtput (List.length_eq_zero_iff.mp hlength)),
      hfailed] at hcall
    obtain ⟨consumed, hfollows⟩ := hat.follows
    have hfail : wireStep limits cursor.decoder.wire cursor.unread = .fail := by
      rw [BodyDecoder.wire, hfailed]
      rfl
    rw [hcall]
    exact .failed _ rfl hfailed (hfollows.rejects_of_fail hfail)
  · rw [advanceBodyCursor_iff_returns houtput hfailed] at hcall
    refine hcall.invariant
      (P := fun loop => CursorAt limits s₀ stream loop.1 incoming delivered ∧ loop.2 = output)
      ?_ ?_ ⟨hat, rfl⟩
    · rintro ⟨cursor, output⟩ loop ⟨hat, rfl⟩ hstep
      exact (advanceStep_end hat houtput).1 loop hstep
    · rintro ⟨cursor, output⟩ call ⟨hat, rfl⟩ hstep
      exact (advanceStep_end hat houtput).2 call hstep

/-- Received bytes are appended behind what is pending. -/
theorem CursorAt.append {more : Bytes} (h : CursorAt limits s₀ stream cursor (more ++ incoming)
    delivered) (scratch : Bytes) : CursorAt limits s₀ stream
      (appendBodyCursorScratch cursor (fillScratch scratch more) more.length) incoming
      delivered := by
  obtain ⟨consumed, hfollows⟩ := h.follows
  have harrived := hfollows.arrive
  have hfront : (fillScratch scratch more).take more.length = more := by
    rw [fillScratch, List.take_left]
  unfold appendBodyCursorScratch
  rw [hfront]
  by_cases hempty : cursor.pendingStart = cursor.pending.length
  · rw [if_pos hempty]
    have hnone : cursor.unread = [] := by rw [BodyCursor.unread, hempty, List.drop_length]
    rw [hnone] at harrived
    exact ⟨h.sameLimits, Nat.zero_le _, consumed, harrived⟩
  · rw [if_neg hempty]
    refine ⟨h.sameLimits, ?_, consumed, ?_⟩
    · dsimp only
      rw [List.length_append]
      exact h.start_le.trans (Nat.le_add_right _ _)
    · rw [BodyCursor.unread] at harrived ⊢
      dsimp only
      rw [List.drop_append_of_le_length h.start_le]
      exact harrived

end Cursor

/-! ### A message in front of a stream -/

/-- A request as it is sent, with what it decodes to. -/
structure Message where
  wire : Bytes
  head : RequestHead
  payload : Bytes
  deriving DecidableEq

/-- One attempt on the head and one call on the rest, with space for the payload, decode
exactly this message. -/
def Message.DecodesAlone (limits : Limits) (message : Message) : Prop :=
  ∃ parsed output, advanceRequestHead (requestHeadDecoderWithInput limits message.wire) =
      .ready parsed ∧
    parsed.head = message.head ∧
    (decodeBody parsed.decoder parsed.pending parsed.consumed output false).result =
      .ok ⟨message.wire.length - parsed.consumed, message.payload.length, true⟩ ∧
    (decodeBody parsed.decoder parsed.pending parsed.consumed output false).output =
      message.payload ++ output.drop message.payload.length

/-- The message on the wire: a head with its result, and a body that ends with the message. -/
structure Message.Follows (limits : Limits) (message : Message) (result : RequestResult)
    (headLength : ℕ) (final : WireState) : Prop where
  head_eq : result.1 = message.head
  head : (requestWire limits).Reaches (.startLine 0) message.wire [] headLength (.done result)
  body : (bodyWire limits).Reaches (bodyDecoder result.2.1 limits).wire
    (message.wire.drop headLength) message.payload (message.wire.length - headLength) final
  complete : final.1 = .complete

theorem Message.follows_of_decodesAlone {limits : Limits} {message : Message}
    (h : message.DecodesAlone limits) :
    ∃ result headLength final, message.Follows limits result headLength final := by
  obtain ⟨parsed, output, hadvance, hhead, hresult, houtput⟩ := h
  have hend := advanceRequestHead_end (requestPath_start limits message.wire)
  rw [hadvance] at hend
  cases hend with
  | @ready result consumed hreach =>
    dsimp only at hhead hresult houtput
    have hle : consumed ≤ message.wire.length := hreach.count_le
    obtain ⟨out, count, t, hpath⟩ := decodeBody_path (bodyDecoder result.2.1 limits) output false
      hle
    have hending := hpath.ending
    have hcontent := hpath.content
    change (decodeBody (bodyDecoder result.2.1 limits) message.wire consumed output false).output =
      _ at houtput
    change (decodeBody (bodyDecoder result.2.1 limits) message.wire consumed output false).result =
      _ at hresult
    generalize hgiven : (decodeBody (bodyDecoder result.2.1 limits) message.wire consumed output
      false).result = given at hending
    have hsame := hgiven.symm.trans hresult
    cases hending with
    | malformed => cases hsame
    | suspended =>
      have hprogress := Except.ok.inj hsame
      cases congrArg BodyProgress.complete hprogress
    | ended => cases hsame
    | starved => cases hsame
    | complete hend =>
      have hprogress := Except.ok.inj hsame
      have hcount : count = message.wire.length - consumed := congrArg BodyProgress.consumed hprogress
      have hlength : out.length = message.payload.length := congrArg BodyProgress.written hprogress
      have hpayload : out = message.payload := by
        rw [hcontent] at houtput
        exact (List.append_inj houtput hlength).1
      have hdone : t.1 = .complete := by
        rcases hend with hdone | ⟨heof, _⟩
        · exact wireStep_done_iff.mp hdone
        · cases heof
      refine ⟨result, consumed, t, hhead, hreach, ?_, hdone⟩
      rw [← hcount, ← hpayload]
      exact hpath.reaches

namespace Message

variable {limits : Limits} {message : Message} {result : RequestResult} {headLength : ℕ}
  {final : WireState}

/-- What follows a message on the stream does not change its head. -/
theorem Follows.head_append (h : message.Follows limits result headLength final) (tail : Bytes) :
    (requestWire limits).Reaches (.startLine 0) (message.wire ++ tail) [] headLength
      (.done result) := h.head.append tail

theorem Follows.length_le (h : message.Follows limits result headLength final) :
    headLength ≤ message.wire.length := h.head.count_le

/-- The part of a stream behind the head of its first message. -/
theorem Follows.drop_head (h : message.Follows limits result headLength final) (tail : Bytes) :
    (message.wire ++ tail).drop headLength = message.wire.drop headLength ++ tail :=
  List.drop_append_of_le_length h.length_le

theorem Follows.accepts (h : message.Follows limits result headLength final) (tail : Bytes) :
    (bodyWire limits).Accepts (bodyDecoder result.2.1 limits).wire
      (message.wire.drop headLength ++ tail) message.payload (message.wire.length - headLength) :=
  ⟨final, h.body.append tail, Or.inl (wireStep_done_iff.mpr h.complete)⟩

variable {tail incoming delivered : Bytes} {cursor : BodyCursor}

/-- The cursor of the body of a message that more bytes follow. -/
abbrev BodyAt (limits : Limits) (message : Message) (result : RequestResult) (headLength : ℕ)
    (tail : Bytes) (cursor : BodyCursor) (incoming delivered : Bytes) : Prop :=
  CursorAt limits (bodyDecoder result.2.1 limits).wire (message.wire.drop headLength ++ tail)
    cursor incoming delivered

/-- What has been delivered of the body is a beginning of it. -/
theorem Follows.delivered_prefix (h : message.Follows limits result headLength final)
    (hat : message.BodyAt limits result headLength tail cursor incoming delivered) :
    delivered <+: message.payload := by
  obtain ⟨consumed, hfollows⟩ := hat.follows
  obtain ⟨outs, rest, hpayload, _, _⟩ := hfollows.reaches.of_accepts (h.accepts tail)
  exact ⟨outs, hpayload.symm⟩

/-- A complete cursor has delivered the body and is exactly behind the message. -/
theorem Follows.delivered_all (h : message.Follows limits result headLength final)
    (hat : message.BodyAt limits result headLength tail cursor incoming delivered)
    (hcomplete : bodyCursorComplete cursor = true) :
    delivered = message.payload ∧ cursor.unread ++ incoming = tail := by
  obtain ⟨consumed, hfollows⟩ := hat.follows
  have hdone : wireStep limits cursor.decoder.wire cursor.unread = .done :=
    wireStep_done_iff.mpr (of_decide_eq_true hcomplete)
  obtain ⟨hpayload, hconsumed⟩ := (hfollows.accepts_of_done hdone).unique (h.accepts tail)
  refine ⟨hpayload, ?_⟩
  have hlen : (message.wire.drop headLength).length = consumed := by
    rw [List.length_drop, hconsumed]
  rw [← hfollows.rest, ← hlen, List.drop_left]

theorem Follows.not_rejects (h : message.Follows limits result headLength final) (tail : Bytes) :
    ¬ (bodyWire limits).Rejects (bodyDecoder result.2.1 limits).wire
      (message.wire.drop headLength ++ tail) := fun hrejects =>
  hrejects.not_accepts _ _ (h.accepts tail)

/-- A cursor that asks for input is not at the end of the stream. -/
theorem Follows.not_ended (h : message.Follows limits result headLength final)
    (hat : message.BodyAt limits result headLength tail cursor [] delivered)
    (hempty : cursor.unread = []) (hneed : wireStep limits cursor.decoder.wire [] = .need) :
    False := by
  obtain ⟨consumed, hfollows⟩ := hat.follows
  rw [hempty] at hfollows
  have hhere : (bodyWire limits).step cursor.decoder.wire
      ((message.wire.drop headLength ++ tail).drop consumed) = .need := by
    rw [hfollows.rest]
    exact hneed
  have hdone : ∀ rest, (bodyWire limits).step final rest = .done := fun _ =>
    wireStep_done_iff.mpr h.complete
  obtain ⟨_, _, hfinal⟩ := hfollows.reaches.halts_unique (halts_of_need hhere)
    (h.body.append tail) (halts_of_done (hdone _))
  rw [hfinal] at hhere
  cases hhere.symm.trans (hdone _)

end Message

/-! ### Reads of the transport -/

section Transport

variable {capacity : ℕ} {transport after : Transport}

theorem TransportRead.ok {bytes : Bytes} (h : TransportRead capacity transport (.ok bytes) after) :
    transport.incoming = bytes ++ after.incoming ∧ after.reliable = transport.reliable := by
  cases h with
  | received count hpos hcapacity hcount => exact ⟨(List.take_append_drop _ _).symm, rfl⟩
  | ended hend => exact ⟨rfl, rfl⟩

/-- A read delivers nothing at the end only. -/
theorem TransportRead.nil (h : TransportRead capacity transport (.ok []) after) :
    transport.incoming = [] := by
  generalize hbytes : (.ok [] : Except HttpError Bytes) = result at h
  cases h with
  | received count hpos hcapacity hcount =>
    have hnone := congrArg List.length (Except.ok.inj hbytes)
    rw [List.length_nil, List.length_take, Nat.min_eq_left hcount] at hnone
    omega
  | ended hend => exact hend
  | failed => cases hbytes

theorem TransportRead.error {error : HttpError}
    (h : TransportRead capacity transport (.error error) after) :
    transport.reliable = false ∧ after = transport := by
  cases h with
  | failed error hfails => exact ⟨hfails, rfl⟩

end Transport

/-! ### Reads of a body -/

section Body

variable {limits : Limits} {message : Message} {result : RequestResult} {headLength : ℕ}
  {final : WireState} {tail delivered : Bytes}

/-- How a read of a body ends: it delivers the next bytes, none only behind the whole body,
or an unreliable transport has failed it for good. -/
inductive ReadEnd (limits : Limits) (message : Message) (result : RequestResult) (headLength : ℕ)
    (tail delivered output : Bytes) (reliable : Bool) : Except CallFailure ℕ → BodyReading → Prop
  | ok {count : ℕ} {last : BodyReading}
      (hat : message.BodyAt limits result headLength tail last.cursor last.transport.incoming
        (delivered ++ last.output.take count))
      (hprogress : output ≠ [] → count = 0 → bodyCursorComplete last.cursor = true)
      (hreliable : last.transport.reliable = reliable) :
      ReadEnd limits message result headLength tail delivered output reliable (.ok count) last
  | failed {failure : CallFailure} {last : BodyReading} (hreliable : reliable = false)
      (hlast : last.transport.reliable = reliable)
      (hstate : last.cursor.decoder.state = .failed) :
      ReadEnd limits message result headLength tail delivered output reliable (.error failure) last

/-- The body of a message does not end in the middle of the stream. -/
theorem not_ended_of_input {reading : BodyReading} {call : CursorCall} {transport : Transport}
    (h : message.Follows limits result headLength final)
    (hat : message.BodyAt limits result headLength tail reading.cursor
      reading.transport.incoming delivered) (houtput : reading.output ≠ [])
    (hcall : AdvanceBodyCursor reading.cursor reading.output false call)
    (hattempt : call.attempt = .input)
    (hread : TransportRead reading.scratch.length reading.transport (.ok []) transport) :
    False := by
  have hend := advanceBodyCursor_end hat houtput hcall
  cases hend with
  | written hattempt' => rcases hattempt' with h' | h' <;> cases hattempt.symm.trans h'
  | failed failure hfailed => cases hattempt.symm.trans hfailed
  | input _ hempty hneed _ hat' =>
    rw [hread.nil] at hat'
    exact h.not_ended hat' hempty hneed

theorem readsBody_end {reading last : BodyReading} {outcome : Except CallFailure ℕ}
    (h : message.Follows limits result headLength final) (hread : ReadsBody reading outcome last)
    (hat : message.BodyAt limits result headLength tail reading.cursor
      reading.transport.incoming delivered) (houtput : reading.output ≠ []) :
    ReadEnd limits message result headLength tail delivered reading.output
      reading.transport.reliable outcome last := by
  induction hread with
  | @written reading call count hcall hattempt =>
    have hend := advanceBodyCursor_end hat houtput hcall
    cases hend with
    | @written count' hattempt' hdone hprogress hat' =>
      have hcount : count = count' := by
        rcases hattempt with hready | hcomplete
        · rcases hattempt' with hready' | hcomplete'
          · cases hready.symm.trans hready'
            rfl
          · cases hready.symm.trans hcomplete'
        · rcases hattempt' with hready' | hcomplete'
          · cases hcomplete.symm.trans hready'
          · cases hcomplete.symm.trans hcomplete'
            rfl
      subst hcount
      refine .ok hat' (fun _ hzero => ?_) rfl
      rcases hattempt with hready | hcomplete
      · exact absurd hzero (Nat.pos_iff_ne_zero.mp (hprogress hready))
      · exact decide_eq_true (hdone hcomplete)
    | input hinput => rcases hattempt with h' | h' <;> cases hinput.symm.trans h'
    | failed failure hfailed => rcases hattempt with h' | h' <;> cases hfailed.symm.trans h'
  | malformed hcall hattempt =>
    have hend := advanceBodyCursor_end hat houtput hcall
    cases hend with
    | written hattempt' => rcases hattempt' with h' | h' <;> cases hattempt.symm.trans h'
    | input hinput => cases hinput.symm.trans hattempt
    | failed _ _ _ hrejects => exact absurd hrejects (h.not_rejects tail)
  | @more reading last call bytes transport outcome hcall hattempt hread hbytes _ ih =>
    have hend := advanceBodyCursor_end hat houtput hcall
    cases hend with
    | written hattempt' => rcases hattempt' with h' | h' <;> cases hattempt.symm.trans h'
    | failed failure hfailed => cases hattempt.symm.trans hfailed
    | input _ hempty hneed hsame hat' =>
      obtain ⟨hincoming, hreliable⟩ := hread.ok
      rw [hincoming] at hat'
      have hspace : call.output ≠ [] := by
        rw [hsame]
        exact houtput
      rw [← hreliable, ← hsame]
      exact ih (hat'.append reading.scratch) hspace
  | unreadable hcall hattempt hread =>
    obtain ⟨hreliable, hafter⟩ := hread.error
    refine .failed hreliable ?_ rfl
    dsimp only
    rw [hafter]
  | endedWritten hcall hattempt hread =>
    exact (not_ended_of_input h hat houtput hcall hattempt hread).elim
  | endedMalformed hcall hattempt hread =>
    exact (not_ended_of_input h hat houtput hcall hattempt hread).elim
  | endedEarly hcall hattempt hread =>
    exact (not_ended_of_input h hat houtput hcall hattempt hread).elim

theorem readServerRequestBody_end {reading last : BodyReading}
    {outcome : Except CallFailure ℕ} (h : message.Follows limits result headLength final)
    (hread : ReadServerRequestBody reading outcome last)
    (hat : message.BodyAt limits result headLength tail reading.cursor
      reading.transport.incoming delivered) :
    ReadEnd limits message result headLength tail delivered reading.output
      reading.transport.reliable outcome last := by
  rw [ReadServerRequestBody] at hread
  split at hread
  · rename_i hnothing
    obtain ⟨rfl, rfl⟩ := hread
    refine .ok ?_ (fun houtput _ => ?_) rfl
    · rw [List.take_zero, List.append_nil]
      exact hat
    · exact hnothing.resolve_right fun hzero => houtput (List.length_eq_zero_iff.mp hzero)
  · rename_i hsome
    exact readsBody_end h hread hat fun hnone => hsome (Or.inr (by rw [hnone]; rfl))

/-- Finishing delivers the rest of the body to nobody and leaves the cursor behind it. -/
theorem finishesBody_end {reading last : BodyReading} {discarded : Bytes}
    {outcome : Except CallFailure Unit} (h : message.Follows limits result headLength final)
    (hfinish : FinishesBody reading discarded outcome last)
    (hat : message.BodyAt limits result headLength tail reading.cursor
      reading.transport.incoming delivered) : last.transport.reliable = reading.transport.reliable ∧
      (∀ value, outcome = .ok value → bodyCursorComplete last.cursor = true ∧
        message.BodyAt limits result headLength tail last.cursor last.transport.incoming
          (delivered ++ discarded)) ∧
      (∀ failure, outcome = .error failure →
        reading.transport.reliable = false ∧ delivered ++ discarded <+: message.payload) := by
  induction hfinish generalizing delivered with
  | @complete reading hcomplete =>
    refine ⟨rfl, fun value _ => ⟨hcomplete, ?_⟩, fun failure hno => (by cases hno)⟩
    rw [List.append_nil]
    exact hat
  | again hincomplete hread _ ih =>
    have hend := readServerRequestBody_end h hread hat
    cases hend with
    | ok hat' _ hreliable =>
      have hrest := ih hat'
      rw [← List.append_assoc, ← hreliable]
      exact hrest
  | failed hincomplete hread =>
    have hend := readServerRequestBody_end h hread hat
    cases hend with
    | failed hreliable hlast _ =>
      refine ⟨hlast, fun value hno => (by cases hno), fun failure _ => ⟨hreliable, ?_⟩⟩
      rw [List.append_nil]
      exact h.delivered_prefix hat

end Body

/-! ### Reading a head -/

section Head

variable {limits : Limits} {stream : Bytes}

/-- How reading a head ends on a stream: with the first head of the stream, or with a failure
of the transport or of a stream that does not begin with a head. -/
structure HeadEnds (limits : Limits) (stream : Bytes) (reliable : Bool)
    (outcome : Except CallFailure ParsedRequestHead) (last : HeadReading) : Prop where
  reliable_eq : last.transport.reliable = reliable
  ready : ∀ parsed, outcome = .ok parsed → ∃ result,
    (requestWire limits).Reaches (.startLine 0) stream [] parsed.consumed (.done result) ∧
      parsed.head = result.1 ∧ parsed.decoder = bodyDecoder result.2.1 limits ∧
      parsed.disposition = result.2.2 ∧ parsed.consumed ≤ parsed.pending.length ∧
      parsed.pending ++ last.transport.incoming = stream
  failed : ∀ failure, outcome = .error failure → reliable = false ∨
    ∀ count result, ¬ (requestWire limits).Reaches (.startLine 0) stream [] count (.done result)

/-- The bytes that a read has put into the scratch storage are appended as they are. -/
theorem appendRequestHeadInputRange_filled (decoder : RequestHeadDecoder) (scratch bytes : Bytes) :
    appendRequestHeadInputRange decoder (fillScratch scratch bytes) 0 bytes.length =
      .ok { decoder with input := decoder.input ++ bytes } := by
  have hfits : ¬ (0 > bytes.length ∨ bytes.length > (fillScratch scratch bytes).length) := by
    rw [fillScratch, List.length_append]
    omega
  rw [appendRequestHeadInputRange, if_neg hfits, slice, fillScratch, List.drop_zero, Nat.sub_zero,
    List.take_left]

theorem readsHead_ends {reading last : HeadReading}
    {outcome : Except CallFailure ParsedRequestHead} (hread : ReadsHead reading outcome last)
    (hpath : RequestPath limits reading.decoder)
    (hstream : reading.decoder.input ++ reading.transport.incoming = stream) :
    HeadEnds limits stream reading.transport.reliable outcome last := by
  have hdone : ∀ (result : RequestResult) (rest : Bytes),
      (requestWire limits).step (.done result) rest = .done := fun _ _ => rfl
  induction hread with
  | @ready reading parsed hadvance =>
    have hend := advanceRequestHead_end hpath
    rw [hadvance] at hend
    cases hend with
    | @ready result consumed hreach =>
      refine ⟨rfl, ?_, fun failure hno => (by cases hno)⟩
      rintro parsed ⟨⟩
      refine ⟨result, ?_, rfl, rfl, rfl, hreach.count_le, hstream⟩
      rw [← hstream]
      exact hreach.append _
  | malformed hadvance =>
    have hend := advanceRequestHead_end hpath
    rw [hadvance] at hend
    cases hend with
    | @failed count t _ hreach hfail =>
      refine ⟨rfl, fun parsed hno => (by cases hno), fun failure _ => Or.inr ?_⟩
      intro count' result hready
      rw [← hstream] at hready
      obtain ⟨_, _, _, hstep⟩ := hreach.settled (halts_of_fail hfail)
        (fun hneed => by cases hfail.symm.trans hneed) hready (halts_of_done (hdone _ _))
      cases hfail.symm.trans (hstep.trans (hdone _ _))
  | more hadvance hread' hbytes happend _ ih =>
    have hend := advanceRequestHead_end hpath
    rw [hadvance] at hend
    cases hend with
    | incomplete hinput hnext _ _ =>
      obtain ⟨hincoming, hreliable⟩ := hread'.ok
      obtain rfl := Except.ok.inj (happend.symm.trans (appendRequestHeadInputRange_filled _ _ _))
      rw [← hreliable]
      apply ih (hnext.append _)
      dsimp only
      rw [hinput, List.append_assoc, ← hincoming]
      exact hstream
  | refused hadvance hread' hbytes happend =>
    cases happend.symm.trans (appendRequestHeadInputRange_filled _ _ _)
  | ended hadvance hread' =>
    have hend := advanceRequestHead_end hpath
    rw [hadvance] at hend
    cases hend with
    | incomplete hinput hnext hreach hneed =>
      refine ⟨hread'.ok.2, fun parsed hno => (by cases hno), ?_⟩
      rintro failure ⟨⟩
      right
      intro count' result hready
      rw [← hstream, hread'.nil] at hready
      obtain ⟨_, _, _, hstep⟩ := hreach.settled (halts_of_need hneed) (fun _ => rfl) hready
        (halts_of_done (hdone _ _))
      cases hneed.symm.trans (hstep.trans (hdone _ _))
  | unreadable hadvance hread' =>
    obtain ⟨hreliable, hafter⟩ := hread'.error
    refine ⟨?_, fun parsed hno => (by cases hno), fun failure _ => Or.inl hreliable⟩
    dsimp only
    rw [hafter]

end Head

end Nocter.Http
