import Nocter.Http.BodyCursor
import Nocter.Library.TransitionSystem

/-!
# Bodies in fragments

A driver receives a body in fragments and calls the decoder with outputs of any
size until the body is complete or a call fails. It may report the end of the
input once it has received every fragment.
-/

namespace Nocter.Http

inductive DriveOutcome where
  | running
  | completed
  | failed (failure : Failure)
  deriving DecidableEq

/-- The bytes in `pending` have arrived and are not consumed; `unread` has not arrived. -/
structure BodyDrive where
  decoder : BodyDecoder
  pending : Bytes
  unread : List Bytes
  payload : Bytes
  consumed : ℕ
  outcome : DriveOutcome
  deriving DecidableEq

namespace BodyDrive

def start (framing : BodyFraming) (limits : Limits) (fragments : List Bytes) : BodyDrive where
  decoder := bodyDecoder framing limits
  pending := []
  unread := fragments
  payload := []
  consumed := 0
  outcome := .running

/-- One call, on a buffer that still holds `skipped` in front of the pending bytes. -/
def call (drive : BodyDrive) (skipped output : Bytes) (eof : Bool) : BodyDrive :=
  let result := decodeBody drive.decoder (skipped ++ drive.pending) skipped.length output eof
  match result.result with
  | .error failure => { drive with decoder := result.decoder, outcome := .failed failure }
  | .ok progress => { drive with
      decoder := result.decoder
      pending := drive.pending.drop progress.consumed
      payload := drive.payload ++ result.output.take progress.written
      consumed := drive.consumed + progress.consumed
      outcome := if progress.complete then .completed else .running }

/-- The output of a call that reports the end of the input has space for the payload
of known length that is pending. -/
def Room (drive : BodyDrive) (output : Bytes) (eof : Bool) : Prop :=
  eof = true → drive.decoder.state = .closeDelimited ∨
    ∀ out count t, (bodyWire drive.decoder.limits).Reaches drive.decoder.wire drive.pending out count t →
      out.length ≤ output.length

/-- The moves of a driver whose calls all satisfy `Admitted`. -/
inductive Next (Admitted : BodyDrive → Bytes → Bool → Prop) : BodyDrive → BodyDrive → Prop
  | read {drive : BodyDrive} {fragment : Bytes} {unread : List Bytes}
      (hrunning : drive.outcome = .running) (hunread : drive.unread = fragment :: unread) :
      Next Admitted drive { drive with pending := drive.pending ++ fragment, unread := unread }
  | call {drive : BodyDrive} (skipped output : Bytes) (eof : Bool)
      (hrunning : drive.outcome = .running) (heof : eof = true → drive.unread = [])
      (hadmitted : Admitted drive output eof) : Next Admitted drive (drive.call skipped output eof)

/-- The drives of a body that arrives in these fragments. -/
def system (framing : BodyFraming) (limits : Limits) (fragments : List Bytes)
    (Admitted : BodyDrive → Bytes → Bool → Prop) : TransitionSystem BodyDrive where
  initial drive := drive = start framing limits fragments
  next := Next Admitted

/-- A finished drive has the result of one call on the whole body with enough output. -/
def Agrees (framing : BodyFraming) (limits : Limits) (wire : Bytes) (drive : BodyDrive) : Prop :=
  ∀ output : Bytes, wire.length ≤ output.length →
    let whole := decodeBody (bodyDecoder framing limits) wire 0 output true
    (drive.outcome = .completed →
      whole.result = .ok ⟨drive.consumed, drive.payload.length, true⟩ ∧
        whole.output.take drive.payload.length = drive.payload) ∧
    (∀ failure, drive.outcome = .failed failure → ∃ failure', whole.result = .error failure')

/-- Nothing outside the body or beyond the body limit is delivered and no index traps. -/
structure Bounded (limits : Limits) (wire : Bytes) (drive : BodyDrive) : Prop where
  payload_le : drive.payload.length ≤ limits.bodyBytes
  consumed_le : drive.consumed ≤ wire.length
  noTrap : drive.outcome ≠ .failed .trap

/-- What a drive has done is the beginning of what the body on the wire is. -/
structure Sound (framing : BodyFraming) (limits : Limits) (wire : Bytes) (drive : BodyDrive) :
    Prop where
  sameLimits : drive.decoder.limits = limits
  reaches : ∃ t, (bodyWire limits).Reaches (bodyDecoder framing limits).wire wire
    drive.payload drive.consumed t
  running : drive.outcome = .running → (bodyWire limits).Follows (bodyDecoder framing limits).wire
    wire drive.decoder.wire drive.pending drive.unread.flatten drive.payload drive.consumed
  completed : drive.outcome = .completed → (bodyWire limits).Accepts
    (bodyDecoder framing limits).wire wire drive.payload drive.consumed
  noTrap : drive.outcome ≠ .failed .trap

end BodyDrive

/-- A length that a message announces is checked against the limit when its framing is selected. -/
def BodyFraming.Within (limits : Limits) : BodyFraming → Prop
  | .fixed length => length ≤ limits.bodyBytes
  | _ => True

theorem bodyDecoder_within {framing : BodyFraming} {limits : Limits} (h : framing.Within limits) :
    (bodyDecoder framing limits).wire.Within limits := by
  cases framing with
  | fixed length => exact (Nat.zero_add length).trans_le h
  | bodyless | chunked | closeDelimited => exact Nat.zero_le _

theorem out_le_count {limits : Limits} {s t : WireState} {input out : Bytes} {count : ℕ}
    (h : (bodyWire limits).Reaches s input out count t) : out.length ≤ count := by
  induction h with
  | refl s input => exact Nat.le_refl _
  | @take s t u input out outs count n hstep _ ih =>
    have hout : out.length ≤ count := by
      change wireStep limits s input = _ at hstep
      unfold wireStep at hstep
      split at hstep
      case h_1 | h_4 | h_8 =>
        cases hstep
        exact Nat.le_refl _
      case h_2 | h_3 => cases hstep
      case h_5 | h_9 =>
        obtain ⟨_, _, _, rfl, rfl, _⟩ := wirePayload_take hstep
        exact Nat.le_refl _
      case h_6 =>
        split at hstep
        · cases hstep
        · obtain ⟨_, _, _, rfl, rfl, _⟩ := wirePayload_take hstep
          exact Nat.le_refl _
      case h_7 =>
        obtain ⟨_, _, _, _, _, hready⟩ := wireLine_take hstep
        obtain ⟨_, rfl, _⟩ := sizeLine_take hready
        exact Nat.zero_le _
      case h_10 =>
        split at hstep
        · split at hstep
          · cases hstep
          · cases hstep
            exact Nat.zero_le _
        · cases hstep
      case h_11 =>
        obtain ⟨_, _, _, _, _, hready⟩ := wireLine_take hstep
        obtain ⟨_, rfl, _⟩ := trailerStep_take hready
        exact Nat.zero_le _
    rw [List.length_append]
    omega

theorem CallPath.take_output {decoder : BodyDecoder} {rest output out : Bytes} {eof : Bool}
    {call : BodyCall} {count : ℕ} {t : WireState}
    (h : CallPath decoder rest output eof call out count t) :
    call.output.take out.length = out := by
  rw [h.content, List.take_left]

namespace BodyDrive

variable {framing : BodyFraming} {limits : Limits} {wire : Bytes} {drive : BodyDrive}

theorem call_path (drive : BodyDrive) (skipped output : Bytes) (eof : Bool) :
    ∃ out count t, CallPath drive.decoder drive.pending output eof
      (decodeBody drive.decoder (skipped ++ drive.pending) skipped.length output eof) out count t := by
  have hpath := decodeBody_path drive.decoder output eof
    (show skipped.length ≤ (skipped ++ drive.pending).length by rw [List.length_append]; omega)
  rw [List.drop_left] at hpath
  exact hpath

/-- A call keeps the drive on the way of the body, whatever it is given. -/
theorem Sound.call (h : drive.Sound framing limits wire) (hrunning : drive.outcome = .running)
    (skipped output : Bytes) {eof : Bool} (heof : eof = true → drive.unread = []) :
    (drive.call skipped output eof).Sound framing limits wire := by
  obtain ⟨out, count, t, hpath⟩ := call_path drive skipped output eof
  have hfollows := h.running hrunning
  have htake := hpath.take_output
  have hlimits := hpath.sameLimits.trans h.sameLimits
  have hending := hpath.ending
  have hreaches := hpath.reaches
  rw [h.sameLimits] at hending hreaches
  have hadvance := hfollows.advance hreaches
  have hagrees := hpath.agrees
  unfold BodyDrive.call
  generalize decodeBody drive.decoder (skipped ++ drive.pending) skipped.length output eof = call at *
  obtain ⟨result, decoder, written⟩ := call
  dsimp only at *
  cases hending with
  | complete hend =>
    dsimp only
    rw [htake]
    refine ⟨hlimits, ⟨t, hadvance.reaches⟩, fun hrun => ?_, fun _ => ?_, ?_⟩
    · cases hrun
    · rcases hend with hdone | ⟨hlast, hneed, hclose⟩
      · exact hadvance.accepts_of_done hdone
      · rw [heof hlast, List.flatten_nil] at hadvance
        exact hadvance.accepts_at_end hneed hclose
    · simp
  | suspended hmore hend =>
    dsimp only
    rw [htake]
    have hwire : decoder.wire = t := by
      refine hagrees.resolve_right fun hclosed => ?_
      rcases hmore with hfalse | ⟨_, hne⟩
      · cases hclosed.1.symm.trans hfalse
      · exact hne hclosed.2.2.2
    refine ⟨hlimits, ⟨t, hadvance.reaches⟩, fun _ => ?_, fun hcompleted => ?_, ?_⟩
    · rw [hwire]
      exact hadvance
    · cases hcompleted
    · simp
  | malformed error hreach hfail =>
    exact ⟨hlimits, h.reaches, (fun hrun => by cases hrun), (fun hdone => by cases hdone), by simp⟩
  | ended hlast hneed hstate =>
    exact ⟨hlimits, h.reaches, (fun hrun => by cases hrun), (fun hdone => by cases hdone), by simp⟩
  | starved hlast hfull hstate byte next htake =>
    exact ⟨hlimits, h.reaches, (fun hrun => by cases hrun), (fun hdone => by cases hdone), by simp⟩

theorem Sound.read {fragment : Bytes} {unread : List Bytes} (h : drive.Sound framing limits wire)
    (hunread : drive.unread = fragment :: unread) :
    ({ drive with pending := drive.pending ++ fragment, unread := unread } : BodyDrive).Sound
      framing limits wire := by
  refine ⟨h.sameLimits, h.reaches, fun hrun => ?_, h.completed, h.noTrap⟩
  have hfollows := h.running hrun
  rw [hunread, List.flatten_cons] at hfollows
  exact hfollows.arrive

/-- The body of the wire is closed by its end only where it was from the beginning. -/
theorem reaches_of_closeDelimited {s t : WireState} {input out : Bytes} {count : ℕ}
    (h : (bodyWire limits).Reaches s input out count t) (hs : s.1 = .closeDelimited) :
    t.1 = .closeDelimited := by
  induction h with
  | refl s input => exact hs
  | @take s t u input out outs count n hstep _ ih =>
    refine ih ?_
    obtain ⟨state, decoded⟩ := s
    dsimp only at hs
    subst hs
    change wireStep limits (.closeDelimited, decoded) input = .take count out t at hstep
    rw [wireStep] at hstep
    split at hstep
    · cases hstep
    · obtain ⟨_, _, _, _, _, rfl⟩ := wirePayload_take hstep
      rfl

/-- With room for the payload a call fails only on a body that has no decoding. -/
theorem Sound.rejects (h : drive.Sound framing limits wire) (hrunning : drive.outcome = .running)
    (skipped output : Bytes) {eof : Bool} (heof : eof = true → drive.unread = [])
    (hroom : drive.Room output eof) {failure : Failure}
    (hfailed : (drive.call skipped output eof).outcome = .failed failure) :
    (bodyWire limits).Rejects (bodyDecoder framing limits).wire wire := by
  obtain ⟨out, count, t, hpath⟩ := call_path drive skipped output eof
  have hfollows := h.running hrunning
  have hending := hpath.ending
  have hreaches := hpath.reaches
  unfold Room at hroom
  rw [h.sameLimits] at hending hreaches hroom
  have hadvance := hfollows.advance hreaches
  unfold BodyDrive.call at hfailed
  dsimp only at hfailed
  generalize (decodeBody drive.decoder (skipped ++ drive.pending) skipped.length output eof).result =
    result at hending hfailed
  cases hending with
  | complete hend => cases hfailed
  | suspended hmore hend => cases hfailed
  | malformed error hreach hfail => exact (hfollows.advance hreach).rejects_of_fail hfail
  | ended hlast hneed hstate =>
    rw [heof hlast, List.flatten_nil] at hadvance
    exact hadvance.rejects_at_end hneed hstate
  | starved hlast hfull hstate byte next htake =>
    rcases hroom hlast with hclose | hfits
    · exact absurd (reaches_of_closeDelimited hreaches hclose) hstate
    · have hle := hfits _ _ _ (hreaches.tail htake)
      rw [List.length_append, List.length_singleton] at hle
      omega

/-- One call with the whole body and enough output decodes it or fails on it. -/
theorem whole_call (framing : BodyFraming) (limits : Limits) {wire output : Bytes}
    (h : wire.length ≤ output.length) :
    let whole := decodeBody (bodyDecoder framing limits) wire 0 output true
    (∃ payload consumed,
      (bodyWire limits).Accepts (bodyDecoder framing limits).wire wire payload consumed ∧
        whole.result = .ok ⟨consumed, payload.length, true⟩ ∧
        whole.output.take payload.length = payload) ∨
    (bodyWire limits).Rejects (bodyDecoder framing limits).wire wire ∧
      ∃ failure, whole.result = .error failure := by
  obtain ⟨out, count, t, hpath⟩ :=
    decodeBody_path (bodyDecoder framing limits) output true (Nat.zero_le wire.length)
  have htake := hpath.take_output
  have hreaches := hpath.reaches
  have hending := hpath.ending
  rw [List.drop_zero] at hreaches hending
  have hout := out_le_count hreaches
  have hcount := hreaches.count_le
  dsimp only
  generalize decodeBody (bodyDecoder framing limits) wire 0 output true = call at *
  obtain ⟨result, decoder, written⟩ := call
  dsimp only at *
  cases hending with
  | complete hend =>
    exact Or.inl ⟨out, count, ⟨t, hreaches, hend.imp_right And.right⟩, rfl, htake⟩
  | suspended hmore hend =>
    exfalso
    rcases hmore with hfalse | ⟨hclose, hne⟩
    · cases hfalse
    · rcases hend with hneed | hfull
      · exact not_closeDelimited_of_partly hneed hne hclose
      · rw [ne_eq, List.drop_eq_nil_iff] at hne
        omega
  | malformed error hreach hfail =>
    exact Or.inr ⟨⟨_, _, _, hreach, Or.inl hfail⟩, _, rfl⟩
  | ended hlast hneed hstate =>
    exact Or.inr ⟨⟨_, _, _, hreaches, Or.inr ⟨hneed, hstate⟩⟩, _, rfl⟩
  | starved hlast hfull hstate byte next htake =>
    exfalso
    have htail := hreaches.tail htake
    have hle := htail.count_le
    omega

theorem start_sound (framing : BodyFraming) (limits : Limits) (fragments : List Bytes) :
    (start framing limits fragments).Sound framing limits fragments.flatten :=
  ⟨rfl, ⟨_, .refl _ _⟩, fun _ => StreamDecoder.Follows.start _ _, (fun hdone => by cases hdone),
    by simp [start]⟩

theorem reachable_sound {fragments : List Bytes} {Admitted : BodyDrive → Bytes → Bool → Prop}
    (h : (system framing limits fragments Admitted).Reachable drive) :
    drive.Sound framing limits fragments.flatten := by
  refine h.invariant (fun drive hstart => ?_) fun drive drive' hsound hnext => ?_
  · rw [show drive = start framing limits fragments from hstart]
    exact start_sound framing limits fragments
  · cases hnext with
    | read hrunning hunread => exact hsound.read hunread
    | call skipped output eof hrunning heof _ => exact hsound.call hrunning skipped output heof

/-- In a drive whose calls have room, a failure means that the body has no decoding. -/
theorem reachable_rejects {fragments : List Bytes}
    (h : (system framing limits fragments Room).Reachable drive) {failure : Failure}
    (hfailed : drive.outcome = .failed failure) :
    (bodyWire limits).Rejects (bodyDecoder framing limits).wire fragments.flatten := by
  suffices hboth : drive.Sound framing limits fragments.flatten ∧ ∀ failure,
      drive.outcome = .failed failure →
        (bodyWire limits).Rejects (bodyDecoder framing limits).wire fragments.flatten from
    hboth.2 failure hfailed
  refine h.invariant (P := fun drive => drive.Sound framing limits fragments.flatten ∧
    ∀ failure, drive.outcome = .failed failure →
      (bodyWire limits).Rejects (bodyDecoder framing limits).wire fragments.flatten)
    (fun drive hstart => ?_) ?_
  · rw [show drive = start framing limits fragments from hstart]
    exact ⟨start_sound framing limits fragments, fun failure hfailed => by cases hfailed⟩
  · rintro drive drive' ⟨hsound, _⟩ hnext
    cases hnext with
    | read hrunning hunread =>
      exact ⟨hsound.read hunread, fun failure hfailed => by cases hrunning.symm.trans hfailed⟩
    | call skipped output eof hrunning heof hroom =>
      exact ⟨hsound.call hrunning skipped output heof, fun failure hfailed =>
        hsound.rejects hrunning skipped output heof hroom hfailed⟩

theorem agrees_of_room {fragments : List Bytes}
    (h : (system framing limits fragments Room).Reachable drive) :
    drive.Agrees framing limits fragments.flatten := by
  intro output houtput
  have hsound := reachable_sound h
  rcases whole_call framing limits houtput with ⟨payload, consumed, haccepts, hresult, htake⟩ |
    ⟨hrejects, hresult⟩
  · refine ⟨fun hcompleted => ?_, fun failure hfailed => ?_⟩
    · obtain ⟨rfl, rfl⟩ := (hsound.completed hcompleted).unique haccepts
      exact ⟨hresult, htake⟩
    · exact absurd haccepts ((reachable_rejects h hfailed).not_accepts payload consumed)
  · refine ⟨fun hcompleted => ?_, fun _ _ => hresult⟩
    exact absurd (hsound.completed hcompleted) (hrejects.not_accepts _ _)

theorem Sound.bounded (hframing : framing.Within limits) (h : drive.Sound framing limits wire) :
    drive.Bounded limits wire := by
  obtain ⟨t, hreaches⟩ := h.reaches
  obtain ⟨hwithin, hdecoded⟩ := reaches_within hreaches (bodyDecoder_within hframing)
  refine ⟨?_, hreaches.count_le, h.noTrap⟩
  have hle := hwithin.decoded_le
  omega

/-- With every fragment received and space for the pending bytes, reporting the end of
the input finishes the drive. -/
theorem finishes_at_end (drive : BodyDrive) (skipped : Bytes) {output : Bytes}
    (houtput : drive.pending.length ≤ output.length) :
    (drive.call skipped output true).outcome ≠ .running := by
  obtain ⟨out, count, t, hpath⟩ := call_path drive skipped output true
  have hout := out_le_count hpath.reaches
  have hcount := hpath.reaches.count_le
  have hending := hpath.ending
  unfold BodyDrive.call
  dsimp only
  generalize (decodeBody drive.decoder (skipped ++ drive.pending) skipped.length output true).result =
    result at hending
  cases hending with
  | complete | malformed | ended | starved => simp
  | suspended hmore hend =>
    exfalso
    rcases hmore with hfalse | ⟨hclose, hne⟩
    · cases hfalse
    · rcases hend with hneed | hfull
      · exact not_closeDelimited_of_partly hneed hne hclose
      · rw [ne_eq, List.drop_eq_nil_iff] at hne
        omega

/-- Whatever calls came before, the one that reports the end of the input settles the body as one
call on the whole of it does. -/
theorem last_call_agrees {fragments : List Bytes}
    (h : (system framing limits fragments Room).Reachable drive)
    (hrunning : drive.outcome = .running) (hunread : drive.unread = []) (skipped : Bytes)
    {output : Bytes} (houtput : drive.pending.length ≤ output.length) :
    (drive.call skipped output true).outcome ≠ .running ∧
      (drive.call skipped output true).Agrees framing limits fragments.flatten := by
  refine ⟨finishes_at_end drive skipped houtput, agrees_of_room (h.next ?_)⟩
  refine .call skipped output true hrunning (fun _ => hunread) fun _ => Or.inr ?_
  intro out count t hreach
  exact (out_le_count hreach).trans (hreach.count_le.trans houtput)

theorem last_call_agrees_fixed :
    let drive : BodyDrive := { start (.fixed 2) Limits.standard [[97, 98]] with
      pending := [97, 98], unread := [] }
    (drive.call [] [0, 0] true).outcome ≠ .running ∧
      (drive.call [] [0, 0] true).Agrees (.fixed 2) Limits.standard [97, 98] := by
  intro drive
  have hreceived : (system (.fixed 2) Limits.standard [[97, 98]] Room).Reachable drive :=
    (TransitionSystem.Reachable.of_initial rfl).next (.read rfl rfl)
  exact last_call_agrees hreceived rfl rfl [] (Nat.le_refl 2)

end BodyDrive

/-- A call stays inside its input and its output and leaves the rest of the output alone. -/
theorem decodeBody_bounds (decoder : BodyDecoder) (input output : Bytes) (inputStart : ℕ)
    (eof : Bool) :
    let call := decodeBody decoder input inputStart output eof
    call.result ≠ .error .trap ∧ call.output.length = output.length ∧
      ∀ progress, call.result = .ok progress →
        inputStart + progress.consumed ≤ input.length ∧ progress.written ≤ output.length ∧
          call.output.drop progress.written = output.drop progress.written := by
  by_cases h : inputStart > input.length
  · unfold decodeBody
    rw [if_pos h]
    exact ⟨by simp, rfl, fun progress hok => by cases hok⟩
  rw [Nat.not_lt] at h
  obtain ⟨out, count, t, hpath⟩ := decodeBody_path decoder output eof h
  have hcount := hpath.reaches.count_le
  rw [List.length_drop] at hcount
  have hspace := hpath.space
  have hcontent := hpath.content
  have hending := hpath.ending
  dsimp only
  generalize decodeBody decoder input inputStart output eof = call at *
  obtain ⟨result, after, written⟩ := call
  dsimp only at *
  have hlength : written.length = output.length := by
    rw [hcontent, List.length_append, List.length_drop]
    omega
  have hdrop : written.drop out.length = output.drop out.length := by
    rw [hcontent, List.drop_left]
  cases hending with
  | complete | suspended =>
    refine ⟨by simp, hlength, ?_⟩
    rintro progress ⟨⟩
    exact ⟨by dsimp only; omega, hspace, hdrop⟩
  | malformed | ended | starved =>
    exact ⟨by simp, hlength, fun progress hok => by cases hok⟩

/-- While every call that reports the end of the input has room for the pending payload,
the fragments and the outputs do not change what a body decodes to. -/
theorem fragmented_body_agrees (framing : BodyFraming) (limits : Limits) (fragments : List Bytes)
    (hframing : framing.Within limits) :
    (∀ drive, (BodyDrive.system framing limits fragments BodyDrive.Room).Reachable drive →
      drive.Agrees framing limits fragments.flatten) ∧
    (∀ drive, (BodyDrive.system framing limits fragments fun _ _ _ => True).Reachable drive →
      drive.Bounded limits fragments.flatten) ∧
    ∀ (decoder : BodyDecoder) (input output : Bytes) (inputStart : ℕ) (eof : Bool),
      let call := decodeBody decoder input inputStart output eof
      call.result ≠ .error .trap ∧ call.output.length = output.length ∧
        ∀ progress, call.result = .ok progress →
          inputStart + progress.consumed ≤ input.length ∧ progress.written ≤ output.length ∧
            call.output.drop progress.written = output.drop progress.written :=
  ⟨fun _ h => BodyDrive.agrees_of_room h,
    fun _ h => (BodyDrive.reachable_sound h).bounded hframing,
    decodeBody_bounds⟩

/-- A fixed body in two fragments, the last call reporting the end of the input. -/
theorem fragmented_fixed_body :
    ∃ drive : BodyDrive, drive.outcome = .completed ∧
      drive.Agrees (.fixed 2) Limits.standard [97, 98] := by
  have hread := (TransitionSystem.Reachable.of_initial (S := BodyDrive.system (.fixed 2)
    Limits.standard [[97], [98]] BodyDrive.Room) rfl).next (.read rfl rfl)
  have hcall := hread.next
    (.call [] [0] false rfl (fun heof => by cases heof) (fun heof => by cases heof))
  have hread' := hcall.next (.read rfl rfl)
  have hlast := hread'.next (.call [] [0] true rfl (fun _ => rfl) fun _ => Or.inr
    fun out count t hreach => (out_le_count hreach).trans hreach.count_le)
  exact ⟨_, rfl, (fragmented_body_agrees (.fixed 2) Limits.standard [[97], [98]]
    (by change 2 ≤ Limits.standard.bodyBytes; decide)).1 _ hlast⟩

/-- Two bytes of a fixed body, the end of the input reported with space for one of them. -/
theorem early_end_fails :
    ¬ ∀ (framing : BodyFraming) (limits : Limits) (fragments : List Bytes) (drive : BodyDrive),
      framing.Within limits →
      (BodyDrive.system framing limits fragments fun _ _ _ => True).Reachable drive →
        drive.Agrees framing limits fragments.flatten := by
  intro h
  let received : BodyDrive :=
    { BodyDrive.start (.fixed 2) Limits.standard [[97, 98]] with pending := [97, 98], unread := [] }
  have hreceived : (BodyDrive.system (.fixed 2) Limits.standard [[97, 98]]
      fun _ _ _ => True).Reachable received :=
    (TransitionSystem.Reachable.of_initial rfl).next (.read rfl rfl)
  have hcalled := hreceived.next (.call [] [0] true rfl (fun _ => rfl) trivial)
  obtain ⟨_, hfailed⟩ := h (.fixed 2) Limits.standard [[97, 98]] _
    (by change 2 ≤ Limits.standard.bodyBytes; decide) hcalled [0, 0] (by decide)
  obtain ⟨failure, hwhole⟩ := hfailed (.error prematureEof) rfl
  cases hwhole

end Nocter.Http
