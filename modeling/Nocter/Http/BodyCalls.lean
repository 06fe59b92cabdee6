import Nocter.Http.BodyDecode

/-!
# What a call of the body decoder has done

A call follows the body on the wire. It stops where the body is complete, where
the bytes or the output are used up, or where it fails.
-/

namespace Nocter.Http

def BodyDecoder.wire (decoder : BodyDecoder) : WireState := (decoder.state, decoder.decodedBytes)

/-- The way of one call up to a pass of its loop: `out` is written and the body is in `t`.
At the end of the input the decoder completes a body that the end delimits. -/
structure LoopPath (decoder : BodyDecoder) (rest output : Bytes) (eof : Bool) (loop : DecodeLoop)
    (out : Bytes) (t : WireState) : Prop where
  reaches : (bodyWire decoder.limits).Reaches decoder.wire rest out loop.consumed t
  agrees : loop.decoder.wire = t ∨ eof = true ∧ t.1 = .closeDelimited ∧
    loop.decoder.state = .complete ∧ rest.drop loop.consumed = []
  sameLimits : loop.decoder.limits = decoder.limits
  written : loop.written = out.length
  space : out.length ≤ output.length
  content : loop.output = out ++ output.drop out.length

/-- How a call ends that has written `out`, consumed `count` bytes and left the body in `t`. -/
inductive CallEnd (limits : Limits) (start : WireState) (rest output : Bytes) (eof : Bool)
    (out : Bytes) (count : ℕ) (t : WireState) : Except Failure BodyProgress → Prop
  | complete (h : wireStep limits t (rest.drop count) = .done ∨
      eof = true ∧ wireStep limits t (rest.drop count) = .need ∧ t.1 = .closeDelimited) :
      CallEnd limits start rest output eof out count t (.ok ⟨count, out.length, true⟩)
  | suspended (heof : eof = false ∨ t.1 = .closeDelimited ∧ rest.drop count ≠ [])
      (h : wireStep limits t (rest.drop count) = .need ∨ out.length = output.length) :
      CallEnd limits start rest output eof out count t (.ok ⟨count, out.length, false⟩)
  | malformed (error : HttpError) {outs : Bytes} {n : ℕ} {u : WireState}
      (hreach : (bodyWire limits).Reaches start rest outs n u)
      (hfail : wireStep limits u (rest.drop n) = .fail) :
      CallEnd limits start rest output eof out count t (.error (.error error))
  | ended (heof : eof = true) (hneed : wireStep limits t (rest.drop count) = .need)
      (hstate : t.1 ≠ .closeDelimited) :
      CallEnd limits start rest output eof out count t (.error (.error prematureEof))
  /-- The end of the input is reported although payload waits for output space. -/
  | starved (heof : eof = true) (hfull : out.length = output.length)
      (hstate : t.1 ≠ .closeDelimited) (byte : UInt8) (next : WireState) (htake : wireStep limits t (rest.drop count) = .take 1 [byte] next) :
      CallEnd limits start rest output eof out count t (.error (.error prematureEof))

structure CallPath (decoder : BodyDecoder) (rest output : Bytes) (eof : Bool) (call : BodyCall)
    (out : Bytes) (count : ℕ) (t : WireState) : Prop where
  reaches : (bodyWire decoder.limits).Reaches decoder.wire rest out count t
  agrees : call.decoder.wire = t ∨ eof = true ∧ t.1 = .closeDelimited ∧
    call.decoder.state = .complete ∧ rest.drop count = []
  sameLimits : call.decoder.limits = decoder.limits
  space : out.length ≤ output.length
  content : call.output = out ++ output.drop out.length
  ending : CallEnd decoder.limits decoder.wire rest output eof out count t call.result

/-- The outcome of a pass: the loop goes on or the call returns. -/
def Follows (decoder : BodyDecoder) (rest output : Bytes) (eof : Bool) :
    DecodeLoop ⊕ BodyCall → Prop
  | .inl loop => ∃ out t, LoopPath decoder rest output eof loop out t
  | .inr call => ∃ out count t, CallPath decoder rest output eof call out count t

section Pass

variable {decoder : BodyDecoder} {input output out : Bytes} {inputStart : ℕ} {eof : Bool}
  {loop : DecodeLoop} {t : WireState}

namespace LoopPath

variable (h : LoopPath decoder (input.drop inputStart) output eof loop out t)

include h

theorem call {result : Except Failure BodyProgress}
    (hend : CallEnd decoder.limits decoder.wire (input.drop inputStart) output eof out loop.consumed t
      result) :
    Follows decoder (input.drop inputStart) output eof (.inr ⟨result, loop.decoder, loop.output⟩) :=
  ⟨out, loop.consumed, t, h.reaches, h.agrees, h.sameLimits, h.space, h.content, hend⟩

theorem fail (error : HttpError)
    (hfail : wireStep decoder.limits t ((input.drop inputStart).drop loop.consumed) = .fail) :
    Follows decoder (input.drop inputStart) output eof (loop.fail error) :=
  h.call (.malformed error h.reaches hfail)

theorem needInput
    (hneed : wireStep decoder.limits t ((input.drop inputStart).drop loop.consumed) = .need)
    (hstate : t.1 ≠ .closeDelimited) :
    Follows decoder (input.drop inputStart) output eof (loop.needInput eof) := by
  cases heof : eof with
  | true =>
    rw [DecodeLoop.needInput, if_pos rfl]
    rw [heof] at h
    exact h.call (.ended rfl hneed hstate)
  | false =>
    rw [DecodeLoop.needInput, if_neg (by decide)]
    rw [heof] at h
    have hcall := h.call (CallEnd.suspended (Or.inl rfl) (Or.inl hneed))
    rw [← h.written] at hcall
    exact hcall

/-- The loop takes the next piece of the body and puts nothing out. -/
theorem take {state : BodyState} {count consumed : ℕ} (hconsumed : consumed = loop.consumed + count)
    (hstep : wireStep decoder.limits t ((input.drop inputStart).drop loop.consumed) =
      .take count [] (state, loop.decoder.decodedBytes)) :
    Follows decoder (input.drop inputStart) output eof
      (DecodeLoop.next { loop with consumed := consumed } state) := by
  refine ⟨out, (state, loop.decoder.decodedBytes), ?_, Or.inl rfl, h.sameLimits, h.written, h.space,
    h.content⟩
  have hreach := h.reaches.tail hstep
  rw [List.append_nil] at hreach
  rw [hconsumed]
  exact hreach

/-- The loop copies as many of the next bytes as the output has space for. -/
theorem copy (hstart : inputStart ≤ input.length) (available : ℕ)
    (havailable : available ≤ ((input.drop inputStart).drop loop.consumed).length) :
    ∃ count after, loop.copy input inputStart available = some (count, after) ∧
      count ≤ available ∧ (count < available → out.length + count = output.length) ∧
      after.decoder.state = loop.decoder.state ∧ after.consumed = loop.consumed + count ∧
      after.decoder.decodedBytes = loop.decoder.decodedBytes + count ∧
      ∀ state, (bodyWire decoder.limits).Reaches t ((input.drop inputStart).drop loop.consumed)
          (((input.drop inputStart).drop loop.consumed).take count) count
          (state, loop.decoder.decodedBytes + count) →
        LoopPath decoder (input.drop inputStart) output eof
          { after with decoder := { after.decoder with state := state } }
          (out ++ ((input.drop inputStart).drop loop.consumed).take count)
          (state, loop.decoder.decodedBytes + count) := by
  rw [List.drop_drop] at havailable ⊢
  rw [List.length_drop] at havailable
  have hle : inputStart + loop.consumed ≤ input.length := by
    have hcount := h.reaches.count_le
    rw [List.length_drop] at hcount
    omega
  obtain ⟨count, hcount, hspace, hfull, hcopy⟩ :=
    copyBodyBytes_eq out (output.drop out.length)
      (show inputStart + loop.consumed + available ≤ input.length by omega)
  rw [List.length_drop] at hspace hfull
  have hlength : (((input.drop (inputStart + loop.consumed))).take count).length = count := by
    rw [List.length_take, List.length_drop]
    omega
  have hout := h.space
  unfold DecodeLoop.copy
  rw [h.content, h.written, hcopy]
  refine ⟨count, _, rfl, hcount, fun hlt => by have := hfull hlt; omega, rfl, rfl, rfl, ?_⟩
  intro state hreach
  refine ⟨?_, Or.inl rfl, h.sameLimits, ?_, ?_, ?_⟩
  · rw [← List.drop_drop] at hreach ⊢
    exact h.reaches.trans hreach
  · dsimp only
    rw [List.length_append, hlength]
  · rw [List.length_append, hlength]
    omega
  · dsimp only
    rw [List.length_append, hlength, List.drop_drop]

/-- Without a byte copied, either no byte is there or the output is full. -/
theorem notCopied {next : WireState}
    (hstep : wireStep decoder.limits t ((input.drop inputStart).drop loop.consumed) =
      wirePayload ((input.drop inputStart).drop loop.consumed) next)
    (hfull : (input.drop inputStart).drop loop.consumed ≠ [] → out.length = output.length)
    (hne : t.1 ≠ .closeDelimited) :
    Follows decoder (input.drop inputStart) output eof (loop.needInput eof) := by
  cases hrest : (input.drop inputStart).drop loop.consumed with
  | nil =>
    rw [hrest, wirePayload] at hstep
    exact h.needInput (by rw [hrest]; exact hstep) hne
  | cons byte tail =>
    have hlength := hfull (by rw [hrest]; exact List.cons_ne_nil _ _)
    rw [hrest, wirePayload] at hstep
    cases heof : eof with
    | true =>
      rw [DecodeLoop.needInput, if_pos rfl]
      rw [heof] at h
      exact h.call (.starved rfl hlength hne byte next (by rw [hrest]; exact hstep))
    | false =>
      rw [DecodeLoop.needInput, if_neg (by decide)]
      rw [heof] at h
      have hcall := h.call (CallEnd.suspended (Or.inl rfl) (Or.inr hlength))
      rw [← h.written] at hcall
      exact hcall

/-- The arms for payload of a known length: `state` counts the bytes that remain. -/
theorem payload (hstart : inputStart ≤ input.length) (hwire : loop.decoder.wire = t)
    {state : ℕ → BodyState} {finished : BodyState} {remaining : ℕ}
    (hzero : ∀ d rest, wireStep decoder.limits (state 0, d) rest = .take 0 [] (finished, d))
    (hsucc : ∀ r d rest,
      wireStep decoder.limits (state (r + 1), d) rest = wirePayload rest (state r, d + 1))
    (hne : ∀ r, state r ≠ .closeDelimited) (hstate : loop.decoder.state = state remaining) :
    Follows decoder (input.drop inputStart) output eof
      (loop.payload input inputStart eof remaining finished state) := by
  have hlen : ((input.drop inputStart).drop loop.consumed).length =
      input.length - inputStart - loop.consumed := by
    rw [List.length_drop, List.length_drop]
  obtain ⟨count, after, hcopy, hcount, hfull, hsame, hconsumed, _, hpath⟩ :=
    h.copy hstart (if input.length - inputStart - loop.consumed > remaining then
      remaining else input.length - inputStart - loop.consumed) (by split <;> omega)
  have hremaining : count ≤ remaining := by split at hcount <;> omega
  have hrest : count ≤ ((input.drop inputStart).drop loop.consumed).length := by
    split at hcount <;> omega
  have ht : t = (state remaining, loop.decoder.decodedBytes) := by
    rw [← hwire, BodyDecoder.wire, hstate]
  have hreach : (bodyWire decoder.limits).Reaches t ((input.drop inputStart).drop loop.consumed)
      (((input.drop inputStart).drop loop.consumed).take count) count
      (state (remaining - count), loop.decoder.decodedBytes + count) := by
    rw [ht]
    exact reaches_payload state hsucc hrest hremaining
  unfold DecodeLoop.payload
  dsimp only
  rw [hcopy]
  dsimp only
  by_cases hdone : remaining - count = 0
  · rw [if_pos hdone]
    rw [hdone] at hreach
    refine ⟨_, _, hpath finished ?_⟩
    have htail := hreach.tail (hzero _ _)
    rw [List.append_nil] at htail
    exact htail
  rw [if_neg hdone]
  by_cases hcopied : count = 0
  · rw [if_pos hcopied]
    subst hcopied
    obtain ⟨r, rfl⟩ : ∃ r, remaining = r + 1 := ⟨remaining - 1, by omega⟩
    have hafter := hpath (state (r + 1)) hreach
    have hself : { after with decoder := { after.decoder with state := state (r + 1) } } = after := by
      rw [← hstate, ← hsame]
    rw [hself, List.take_zero, List.append_nil] at hafter
    refine hafter.notCopied (hsucc r _ _) (fun hsome => ?_) (hne _)
    rw [hconsumed, Nat.add_zero] at hsome
    have hpos := List.length_pos_iff.mpr hsome
    have := hfull (by split <;> omega)
    omega
  · rw [if_neg hcopied]
    exact ⟨_, _, hpath (state (remaining - count)) hreach⟩

/-- The arms that read a line see the line that follows on the wire. -/
theorem line (hstart : inputStart ≤ input.length) {limit : ℕ}
    {ready : ℕ → DecodeLoop ⊕ BodyCall} {wireReady : ℕ → StreamStep WireState UInt8}
    (hstep : wireStep decoder.limits t ((input.drop inputStart).drop loop.consumed) =
      wireLine limit ((input.drop inputStart).drop loop.consumed) wireReady)
    (hne : t.1 ≠ .closeDelimited)
    (hready : ∀ line tail, (input.drop inputStart).drop loop.consumed = line ++ 13 :: 10 :: tail →
      wireStep decoder.limits t ((input.drop inputStart).drop loop.consumed) = wireReady line.length →
      Follows decoder (input.drop inputStart) output eof
        (ready (inputStart + loop.consumed + line.length))) :
    Follows decoder (input.drop inputStart) output eof
      (loop.line input inputStart eof limit ready) := by
  have hle : inputStart + loop.consumed ≤ input.length := by
    have hcount := h.reaches.count_le
    rw [List.length_drop] at hcount
    omega
  unfold DecodeLoop.line
  rw [scanLine_drop limit hle, ← List.drop_drop]
  unfold wireLine at hstep
  cases hscan : scanLine ((input.drop inputStart).drop loop.consumed) 0 limit with
  | incomplete =>
    rw [hscan] at hstep
    exact h.needInput hstep hne
  | ready stop =>
    rw [hscan] at hstep
    obtain ⟨line, tail, hrest, rfl, _⟩ := scanLine_ready hscan
    exact hready line tail hrest hstep
  | malformed =>
    rw [hscan] at hstep
    exact h.fail invalidSyntax hstep
  | tooLong =>
    rw [hscan] at hstep
    exact h.fail syntaxLimit hstep

end LoopPath

/-- Only the empty line ends the trailers. -/
theorem trailerLine_none {limits : Limits} {bytes count : ℕ} {line : Bytes}
    (h : trailerLine limits bytes count line = .ok none) : line = [] := by
  unfold trailerLine at h
  dsimp only at h
  split at h
  · cases h
  split at h
  · assumption
  · repeat (split at h; · cases h)
    cases h

/-- The bytes between the start of a line and its end. -/
theorem slice_line {line tail : Bytes} {start : ℕ} (h : input.drop start = line ++ tail) :
    slice input start (start + line.length) = line := by
  rw [slice, h, Nat.add_sub_cancel_left, List.take_left]

/-- Bytes before the end of the connection are passed through up to the limit. -/
theorem reaches_closeDelimited {limits : Limits} {decoded count : ℕ} {rest : Bytes}
    (hcount : count ≤ rest.length) (hlimit : count ≤ limits.bodyBytes - decoded) :
    (bodyWire limits).Reaches (.closeDelimited, decoded) rest (rest.take count) count
      (.closeDelimited, decoded + count) := by
  refine StreamDecoder.Reaches.copy (fun i => (BodyState.closeDelimited, decoded + i)) ?_ hcount
  intro i hi b tail
  change wireStep _ (.closeDelimited, _) _ = _
  rw [wireStep, if_neg (by omega), wirePayload]
  rfl

theorem LoopPath.closeDelimited (h : LoopPath decoder (input.drop inputStart) output eof loop out t)
    (hstart : inputStart ≤ input.length) (hstate : loop.decoder.state = .closeDelimited)
    (hwire : loop.decoder.wire = t) : Follows decoder (input.drop inputStart) output eof
      (decodeBodyStep input inputStart eof loop) := by
  have hlen : ((input.drop inputStart).drop loop.consumed).length =
      input.length - inputStart - loop.consumed := by
    rw [List.length_drop, List.length_drop]
  have hle := h.reaches.count_le
  rw [List.length_drop] at hle
  have ht : t = (.closeDelimited, loop.decoder.decodedBytes) := by
    rw [← hwire, BodyDecoder.wire, hstate]
  subst ht
  unfold decodeBodyStep
  rw [hstate]
  dsimp only
  rw [h.sameLimits]
  split
  · next hlimit =>
    have hremaining : decoder.limits.bodyBytes - loop.decoder.decodedBytes ≤
        ((input.drop inputStart).drop loop.consumed).length := by omega
    have hreach := h.reaches.trans (reaches_closeDelimited hremaining (Nat.le_refl _))
    refine h.call (.malformed bodyLimit hreach ?_)
    rw [← List.drop_drop, wireStep, if_pos]
    refine ⟨?_, by omega⟩
    rw [← List.length_pos_iff, List.length_drop]
    omega
  · next hlimit =>
    obtain ⟨count, after, hcopy, hcount, hfull, hsame, hconsumed, hdecoded, hpath⟩ :=
      h.copy hstart (input.length - inputStart - loop.consumed) (by omega)
    have hafter := hpath .closeDelimited (reaches_closeDelimited (by omega) (by omega))
    have hself : { after with decoder := { after.decoder with state := .closeDelimited } } = after := by
      rw [← hstate, ← hsame]
    rw [hself] at hafter
    rw [hcopy]
    dsimp only
    split
    · next hend =>
      refine ⟨_, _, hafter.reaches, Or.inr ⟨hend.1, rfl, rfl, ?_⟩, hafter.sameLimits,
        hafter.written, hafter.space, hafter.content⟩
      dsimp only
      rw [hend.2, ← List.length_drop, List.drop_length]
    · next hend =>
      have hmore : eof = false ∨ (input.drop inputStart).drop after.consumed ≠ [] := by
        rw [ne_eq, List.drop_eq_nil_iff, List.length_drop]
        rcases Bool.eq_false_or_eq_true eof with heof | heof
        · have := not_and.mp hend heof
          exact Or.inr (by omega)
        · exact Or.inl heof
      have hcall := hafter.call (CallEnd.suspended (hmore.imp_right fun hne => ⟨rfl, hne⟩) ?_)
      · rw [← hafter.written] at hcall
        exact hcall
      · by_cases hall : count = input.length - inputStart - loop.consumed
        · refine Or.inl ?_
          have hnil : (input.drop inputStart).drop after.consumed = [] := by
            rw [List.drop_eq_nil_iff, List.length_drop]
            omega
          rw [hnil]
          rfl
        · refine Or.inr ?_
          rw [List.length_append, List.length_take]
          have := hfull (by omega)
          omega

theorem decodeBodyStep_follows (h : LoopPath decoder (input.drop inputStart) output eof loop out t)
    (hstart : inputStart ≤ input.length) : Follows decoder (input.drop inputStart) output eof
      (decodeBodyStep input inputStart eof loop) := by
  have hlimits := h.sameLimits
  have hlen : ((input.drop inputStart).drop loop.consumed).length =
      input.length - inputStart - loop.consumed := by
    rw [List.length_drop, List.length_drop]
  have hcount := h.reaches.count_le
  rw [List.length_drop] at hcount
  unfold decodeBodyStep
  rcases h.agrees with hwire | ⟨heof, hclose, hcomplete, hend⟩
  swap
  · -- the end of the input has completed the body
    rw [hcomplete]
    have hneed : wireStep decoder.limits t ((input.drop inputStart).drop loop.consumed) = .need := by
      obtain ⟨state, decoded⟩ := t
      dsimp only at hclose
      rw [hclose, hend]
      rfl
    have hcall := h.call (CallEnd.complete (Or.inr ⟨heof, hneed, hclose⟩))
    rw [← h.written] at hcall
    exact hcall
  have ht : t = (loop.decoder.state, loop.decoder.decodedBytes) := hwire.symm
  subst ht
  dsimp only
  split
  case h_1 hstate =>
    refine h.take (Nat.add_zero _).symm ?_
    rw [hstate]
    rfl
  case h_2 hstate =>
    have hdone : wireStep decoder.limits (loop.decoder.state, loop.decoder.decodedBytes)
        ((input.drop inputStart).drop loop.consumed) = .done := by
      rw [hstate]
      rfl
    have hcall := h.call (CallEnd.complete (Or.inl hdone))
    rw [← h.written] at hcall
    exact hcall
  case h_3 hstate =>
    refine h.fail _ ?_
    rw [hstate]
    rfl
  case h_4 remaining hstate =>
    split
    · next hzero =>
      refine h.take (Nat.add_zero _).symm ?_
      rw [hstate, hzero]
      rfl
    · exact h.payload hstart hwire (fun _ _ => rfl) (fun _ _ _ => rfl) (fun _ => by simp) hstate
  case h_5 hstate =>
    have hclose := h.closeDelimited hstart hstate hwire
    unfold decodeBodyStep at hclose
    rw [hstate] at hclose
    exact hclose
  case h_6 hstate =>
    have hstep : ∀ rest, wireStep decoder.limits (loop.decoder.state, loop.decoder.decodedBytes) rest =
        wireLine decoder.limits.chunkLineBytes rest fun stop =>
          sizeLine decoder.limits loop.decoder.decodedBytes (rest.take stop) := by
      rw [hstate]
      exact fun rest => rfl
    rw [hlimits]
    refine h.line hstart (hstep _) (by rw [hstate]; simp) ?_
    intro line tail hrest hready
    rw [List.drop_drop] at hrest
    rw [List.drop_drop, hrest, List.take_left] at hready
    rw [slice_line hrest]
    unfold sizeLine at hready
    have hconsumed : inputStart + loop.consumed + line.length + 2 - inputStart =
        loop.consumed + (line.length + 2) := by omega
    split
    · next hparse =>
      rw [hparse] at hready
      exact h.fail _ (by rw [List.drop_drop, hrest]; exact hready)
    · next size hparse =>
      rw [hparse] at hready
      dsimp only at hready
      rw [hlimits] at *
      by_cases hsize : size = 0
      · rw [if_pos hsize] at hready ⊢
        exact h.take hconsumed (by rw [List.drop_drop, hrest]; exact hready)
      · rw [if_neg hsize] at hready ⊢
        by_cases hlimit : size > decoder.limits.bodyBytes - loop.decoder.decodedBytes
        · rw [if_pos hlimit] at hready ⊢
          exact h.fail _ (by rw [List.drop_drop, hrest]; exact hready)
        · rw [if_neg hlimit] at hready ⊢
          exact h.take hconsumed (by rw [List.drop_drop, hrest]; exact hready)
  case h_7 remaining hstate =>
    exact h.payload hstart hwire (fun _ _ => rfl) (fun _ _ _ => rfl) (fun _ => by simp) hstate
  case h_8 hstate =>
    have hstep : ∀ rest, wireStep decoder.limits (loop.decoder.state, loop.decoder.decodedBytes) rest =
        wireStep decoder.limits (.chunkDataEnd, loop.decoder.decodedBytes) rest := by
      rw [hstate]
      exact fun rest => rfl
    cases hrest : (input.drop inputStart).drop loop.consumed with
    | nil =>
      rw [hrest] at hlen
      rw [if_pos (by rw [← Nat.sub_sub, ← hlen]; decide)]
      exact h.needInput (by rw [hrest, hstep]; rfl) (by rw [hstate]; simp)
    | cons first rest =>
      rw [List.drop_drop] at hrest
      have hfirst : input[inputStart + loop.consumed]? = some first := by
        rw [← List.head?_drop, hrest, List.head?_cons]
      cases rest with
      | nil =>
        rw [List.drop_drop, hrest] at hlen
        rw [if_pos (by rw [← Nat.sub_sub, ← hlen]; exact Nat.lt_succ_self 1)]
        exact h.needInput (by rw [List.drop_drop, hrest, hstep]; rfl) (by rw [hstate]; simp)
      | cons second rest =>
        have hsecond : input[inputStart + loop.consumed + 1]? = some second := by
          rw [← List.head?_drop, ← List.drop_drop, hrest]
          rfl
        rw [List.drop_drop, hrest, List.length_cons, List.length_cons] at hlen
        rw [if_neg (by omega), hfirst, hsecond]
        dsimp only
        by_cases hbad : first ≠ 13 ∨ second ≠ 10
        · rw [if_pos hbad]
          refine h.fail _ ?_
          rw [List.drop_drop, hrest, hstep, wireStep, if_pos hbad]
        · rw [if_neg hbad]
          refine h.take rfl ?_
          rw [List.drop_drop, hrest, hstep, wireStep, if_neg hbad]
  case h_9 bytes count hstate =>
    have hstep : ∀ rest, wireStep decoder.limits (loop.decoder.state, loop.decoder.decodedBytes) rest =
        wireLine decoder.limits.fieldBytes rest fun stop =>
          trailerStep decoder.limits loop.decoder.decodedBytes bytes count (rest.take stop) := by
      rw [hstate]
      exact fun rest => rfl
    rw [hlimits]
    refine h.line hstart (hstep _) (by rw [hstate]; simp) ?_
    intro line tail hrest hready
    rw [List.drop_drop] at hrest
    rw [List.drop_drop, hrest, List.take_left] at hready
    rw [slice_line hrest]
    unfold trailerStep at hready
    have hconsumed : inputStart + loop.consumed + line.length + 2 - inputStart =
        loop.consumed + (line.length + 2) := by omega
    split
    · next hline =>
      rw [hline] at hready
      exact h.fail _ (by rw [List.drop_drop, hrest]; exact hready)
    · next hline =>
      have hempty := trailerLine_none hline
      rw [hline, hempty] at hready
      exact h.take rfl (by rw [List.drop_drop, hrest, hempty]; exact hready)
    · next bytes' count' hline =>
      rw [hline] at hready
      exact h.take hconsumed (by rw [List.drop_drop, hrest]; exact hready)

end Pass

/-- Every call follows the body on the wire from the bytes that it is given. -/
theorem decodeBody_path (decoder : BodyDecoder) {input : Bytes} {inputStart : ℕ} (output : Bytes)
    (eof : Bool) (h : inputStart ≤ input.length) :
    ∃ out count t, CallPath decoder (input.drop inputStart) output eof
      (decodeBody decoder input inputStart output eof) out count t := by
  have hstart : LoopPath decoder (input.drop inputStart) output eof ⟨decoder, 0, 0, output⟩ []
      decoder.wire :=
    ⟨.refl _ _, Or.inl rfl, rfl, rfl, Nat.zero_le _, rfl⟩
  unfold decodeBody
  rw [if_neg (Nat.not_lt.mpr h)]
  refine (Loop.iterate_returns (decodeBodyStep input inputStart eof) _ _ _).invariant
    (P := fun loop => ∃ out t, LoopPath decoder (input.drop inputStart) output eof loop out t)
    (Q := fun call => ∃ out count t,
      CallPath decoder (input.drop inputStart) output eof call out count t)
    ?_ ?_ ⟨[], _, hstart⟩
  · rintro loop loop' ⟨out, t, hloop⟩ hbody
    have hfollows := decodeBodyStep_follows hloop h
    rw [hbody] at hfollows
    exact hfollows
  · rintro loop call ⟨out, t, hloop⟩ hbody
    have hfollows := decodeBodyStep_follows hloop h
    rw [hbody] at hfollows
    exact hfollows

end Nocter.Http
