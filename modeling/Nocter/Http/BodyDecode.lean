import Nocter.Http.Body
import Nocter.Library.StreamDecoder

/-!
# Bodies on the wire

What a body is, apart from calls, outputs and buffers: the decoder looks at the
bytes that follow on the wire and takes the next line, delimiter or single byte
of payload. The state carries the number of payload bytes already taken.
-/

namespace Nocter.Http

abbrev WireState := BodyState × ℕ

def wireLine (limit : ℕ) (rest : Bytes) (ready : ℕ → StreamStep WireState UInt8) :
    StreamStep WireState UInt8 :=
  match scanLine rest 0 limit with
  | .incomplete => .need
  | .ready stop => ready stop
  | .malformed => .fail
  | .tooLong => .fail

def sizeLine (limits : Limits) (decoded : ℕ) (line : Bytes) : StreamStep WireState UInt8 :=
  match parseHexSize line with
  | none => .fail
  | some size =>
    if size = 0 then .take (line.length + 2) [] (.trailers 0 0, decoded)
    else if size > limits.bodyBytes - decoded then .fail
    else .take (line.length + 2) [] (.chunkData size, decoded)

def trailerStep (limits : Limits) (decoded bytes count : ℕ) (line : Bytes) :
    StreamStep WireState UInt8 :=
  match trailerLine limits bytes count line with
  | .error _ => .fail
  | .ok none => .take (line.length + 2) [] (.complete, decoded)
  | .ok (some (bytes, count)) => .take (line.length + 2) [] (.trailers bytes count, decoded)

def wirePayload (rest : Bytes) (next : WireState) : StreamStep WireState UInt8 :=
  match rest with
  | [] => .need
  | byte :: _ => .take 1 [byte] next

def wireStep (limits : Limits) : WireState → Bytes → StreamStep WireState UInt8
  | (.bodyless, decoded), _ => .take 0 [] (.complete, decoded)
  | (.complete, _), _ => .done
  | (.failed, _), _ => .fail
  | (.fixed 0, decoded), _ => .take 0 [] (.complete, decoded)
  | (.fixed (remaining + 1), decoded), rest => wirePayload rest (.fixed remaining, decoded + 1)
  | (.closeDelimited, decoded), rest =>
    if rest ≠ [] ∧ limits.bodyBytes ≤ decoded then .fail
    else wirePayload rest (.closeDelimited, decoded + 1)
  | (.chunkSize, decoded), rest =>
    wireLine limits.chunkLineBytes rest fun stop => sizeLine limits decoded (rest.take stop)
  | (.chunkData 0, decoded), _ => .take 0 [] (.chunkDataEnd, decoded)
  | (.chunkData (remaining + 1), decoded), rest =>
    wirePayload rest (.chunkData remaining, decoded + 1)
  | (.chunkDataEnd, decoded), rest =>
    match rest with
    | first :: second :: _ =>
      if first ≠ 13 ∨ second ≠ 10 then .fail else .take 2 [] (.chunkSize, decoded)
    | _ => .need
  | (.trailers bytes count, decoded), rest =>
    wireLine limits.fieldBytes rest fun stop => trailerStep limits decoded bytes count (rest.take stop)

theorem wireLine_take {limit count : ℕ} {rest : Bytes} {ready : ℕ → StreamStep WireState UInt8}
    {out : Bytes} {next : WireState} (h : wireLine limit rest ready = .take count out next) :
    ∃ line tail, rest = line ++ 13 :: 10 :: tail ∧ line.length ≤ limit ∧
      scanLine rest 0 limit = .ready line.length ∧ ready line.length = .take count out next := by
  unfold wireLine at h
  split at h
  · cases h
  · next stop hstop =>
    obtain ⟨line, tail, hrest, rfl, hle, _⟩ := scanLine_ready hstop
    exact ⟨line, tail, hrest, hle, hstop, h⟩
  · cases h
  · cases h

theorem wireLine_append {limit : ℕ} {rest : Bytes} (more : Bytes)
    {ready ready' : ℕ → StreamStep WireState UInt8} (h : wireLine limit rest ready ≠ .need)
    (hready : ∀ stop ≤ rest.length, ready' stop = ready stop) :
    wireLine limit (rest ++ more) ready' = wireLine limit rest ready := by
  have hscan : scanLine rest 0 limit ≠ .incomplete := by
    intro hincomplete
    rw [wireLine, hincomplete] at h
    exact h rfl
  rw [wireLine, wireLine, scanLine_append more hscan]
  split
  · rfl
  · next stop hstop =>
    obtain ⟨line, tail, hrest, rfl, _⟩ := scanLine_ready hstop
    refine hready _ ?_
    rw [hrest, List.length_append]
    omega
  · rfl
  · rfl

theorem sizeLine_take {limits : Limits} {decoded count : ℕ} {line out : Bytes} {next : WireState}
    (h : sizeLine limits decoded line = .take count out next) :
    count = line.length + 2 ∧ out = [] ∧ next.2 = decoded ∧
      (next.1 = .trailers 0 0 ∨
        ∃ size, next.1 = .chunkData size ∧ 0 < size ∧ size ≤ limits.bodyBytes - decoded) := by
  unfold sizeLine at h
  split at h
  · cases h
  · next size _ =>
    split at h
    · cases h
      exact ⟨rfl, rfl, rfl, Or.inl rfl⟩
    · split at h
      · cases h
      · cases h
        exact ⟨rfl, rfl, rfl, Or.inr ⟨size, rfl, by omega, by omega⟩⟩

theorem trailerStep_take {limits : Limits} {decoded bytes count taken : ℕ} {line out : Bytes}
    {next : WireState} (h : trailerStep limits decoded bytes count line = .take taken out next) :
    taken = line.length + 2 ∧ out = [] ∧ next.2 = decoded ∧
      (next.1 = .complete ∨ ∃ bytes count, next.1 = .trailers bytes count) := by
  unfold trailerStep at h
  split at h
  · cases h
  · cases h
    exact ⟨rfl, rfl, rfl, Or.inl rfl⟩
  · cases h
    exact ⟨rfl, rfl, rfl, Or.inr ⟨_, _, rfl⟩⟩

theorem wirePayload_take {rest out : Bytes} {count : ℕ} {next next' : WireState}
    (h : wirePayload rest next = .take count out next') :
    ∃ byte tail, rest = byte :: tail ∧ count = 1 ∧ out = [byte] ∧ next' = next := by
  unfold wirePayload at h
  split at h
  · cases h
  · next byte tail =>
    cases h
    exact ⟨byte, tail, rfl, rfl, rfl, rfl⟩

theorem wirePayload_append {rest : Bytes} (more : Bytes) {next : WireState}
    (h : wirePayload rest next ≠ .need) : wirePayload (rest ++ more) next = wirePayload rest next := by
  cases rest with
  | nil => exact absurd rfl h
  | cons byte tail => rfl

theorem wireStep_take_le {limits : Limits} {s next : WireState} {rest out : Bytes} {count : ℕ}
    (h : wireStep limits s rest = .take count out next) : count ≤ rest.length := by
  unfold wireStep at h
  split at h
  case h_1 | h_4 | h_8 =>
    cases h
    exact Nat.zero_le _
  case h_2 | h_3 => cases h
  case h_5 | h_9 =>
    obtain ⟨byte, tail, rfl, rfl, _⟩ := wirePayload_take h
    exact Nat.succ_le_succ (Nat.zero_le _)
  case h_6 =>
    split at h
    · cases h
    · obtain ⟨byte, tail, rfl, rfl, _⟩ := wirePayload_take h
      exact Nat.succ_le_succ (Nat.zero_le _)
  case h_7 =>
    obtain ⟨line, tail, hrest, _, _, hready⟩ := wireLine_take h
    obtain ⟨rfl, _⟩ := sizeLine_take hready
    rw [hrest, List.take_left, List.length_append, List.length_cons, List.length_cons]
    omega
  case h_10 =>
    split at h
    · split at h
      · cases h
      · cases h
        rw [List.length_cons, List.length_cons]
        omega
    · cases h
  case h_11 =>
    obtain ⟨line, tail, hrest, _, _, hready⟩ := wireLine_take h
    obtain ⟨rfl, _⟩ := trailerStep_take hready
    rw [hrest, List.take_left, List.length_append, List.length_cons, List.length_cons]
    omega

theorem wireStep_append {limits : Limits} {s : WireState} {rest : Bytes} (more : Bytes)
    (h : wireStep limits s rest ≠ .need) :
    wireStep limits s (rest ++ more) = wireStep limits s rest := by
  unfold wireStep at h ⊢
  split at h
  case h_1 | h_2 | h_3 | h_4 | h_8 => rfl
  case h_5 | h_9 => exact wirePayload_append more h
  case h_6 =>
    cases rest with
    | nil => exact absurd rfl h
    | cons byte tail => simp only [List.cons_append, wirePayload, ne_eq, reduceCtorEq,
      not_false_eq_true, true_and]
  case h_7 =>
    refine wireLine_append more h fun stop hstop => ?_
    rw [List.take_append_of_le_length hstop]
  case h_10 =>
    split at h
    · rfl
    · exact absurd rfl h
  case h_11 =>
    refine wireLine_append more h fun stop hstop => ?_
    rw [List.take_append_of_le_length hstop]

/-- The body of a message as a decoder of the bytes on the wire. Only a body
delimited by the end of the connection may end with the stream. -/
def bodyWire (limits : Limits) : StreamDecoder WireState UInt8 UInt8 where
  step := wireStep limits
  accepting s := s.1 = .closeDelimited
  take_le := wireStep_take_le
  stable := wireStep_append

/-- The payload still announced fits the body limit. -/
def WireState.Within (limits : Limits) : WireState → Prop
  | (.fixed remaining, decoded) => decoded + remaining ≤ limits.bodyBytes
  | (.chunkData remaining, decoded) => decoded + remaining ≤ limits.bodyBytes
  | (_, decoded) => decoded ≤ limits.bodyBytes

theorem WireState.Within.decoded_le {limits : Limits} {s : WireState} (h : s.Within limits) :
    s.2 ≤ limits.bodyBytes := by
  unfold WireState.Within at h
  split at h <;> dsimp only <;> omega

theorem wireStep_within {limits : Limits} {s next : WireState} {rest out : Bytes} {count : ℕ}
    (h : wireStep limits s rest = .take count out next) (hs : s.Within limits) :
    next.Within limits ∧ next.2 = s.2 + out.length := by
  have hle := hs.decoded_le
  unfold wireStep at h
  split at h
  case h_1 | h_4 | h_8 =>
    cases h
    exact ⟨hle, rfl⟩
  case h_2 | h_3 => cases h
  case h_5 | h_9 =>
    obtain ⟨byte, tail, rfl, rfl, rfl, rfl⟩ := wirePayload_take h
    simp only [WireState.Within] at hs ⊢
    exact ⟨by omega, rfl⟩
  case h_6 =>
    split at h
    · cases h
    · next hlimit =>
      obtain ⟨byte, tail, rfl, rfl, rfl, rfl⟩ := wirePayload_take h
      rw [not_and_or, not_not] at hlimit
      have hlt := hlimit.resolve_left (List.cons_ne_nil _ _)
      exact ⟨by simp only [WireState.Within]; omega, rfl⟩
  case h_7 =>
    obtain ⟨line, tail, _, _, _, hready⟩ := wireLine_take h
    obtain ⟨_, rfl, hdecoded, hstate⟩ := sizeLine_take hready
    obtain ⟨state, decoded⟩ := next
    dsimp only at hdecoded hstate
    subst hdecoded
    refine ⟨?_, rfl⟩
    rcases hstate with rfl | ⟨size, rfl, _, hsize⟩
    · exact hle
    · simp only [WireState.Within]
      dsimp only at hle
      omega
  case h_10 =>
    split at h
    · split at h
      · cases h
      · cases h
        exact ⟨hle, rfl⟩
    · cases h
  case h_11 =>
    obtain ⟨line, tail, _, _, _, hready⟩ := wireLine_take h
    obtain ⟨_, rfl, hdecoded, hstate⟩ := trailerStep_take hready
    obtain ⟨state, decoded⟩ := next
    dsimp only at hdecoded hstate
    subst hdecoded
    refine ⟨?_, rfl⟩
    rcases hstate with rfl | ⟨bytes, count, rfl⟩
    · exact hle
    · exact hle

/-- No more payload than the limit is taken. -/
theorem reaches_within {limits : Limits} {s t : WireState} {input out : Bytes} {count : ℕ}
    (h : (bodyWire limits).Reaches s input out count t) (hs : s.Within limits) :
    t.Within limits ∧ t.2 = s.2 + out.length := by
  induction h with
  | refl s input => exact ⟨hs, rfl⟩
  | take hstep _ ih =>
    obtain ⟨ht, hcount⟩ := wireStep_within hstep hs
    obtain ⟨hu, hcount'⟩ := ih ht
    refine ⟨hu, ?_⟩
    rw [hcount', hcount, List.length_append, Nat.add_assoc]

/-- Payload of a known length is passed through byte by byte; `state` counts what remains. -/
theorem reaches_payload {limits : Limits} (state : ℕ → BodyState)
    (hsucc : ∀ r d rest, wireStep limits (state (r + 1), d) rest = wirePayload rest (state r, d + 1))
    {remaining decoded count : ℕ} {rest : Bytes} (hrest : count ≤ rest.length)
    (hremaining : count ≤ remaining) :
    (bodyWire limits).Reaches (state remaining, decoded) rest (rest.take count) count
      (state (remaining - count), decoded + count) := by
  refine StreamDecoder.Reaches.copy (fun i => (state (remaining - i), decoded + i)) ?_ hrest
  intro i hi b tail
  have hsub : remaining - i = (remaining - (i + 1)) + 1 := by omega
  change wireStep _ (state (remaining - i), _) _ = _
  rw [hsub, hsucc, wirePayload]
  rfl

end Nocter.Http

/-!
# Calls of the body decoder

Every pass of the loop uses up input or leaves a state for good, so a call
returns. What it has consumed and written is a piece of the way of the body on
the wire.
-/

namespace Nocter.Http

theorem copyBodyBytesLoop_eq {input output : Bytes} {count inputOffset outputOffset : ℕ}
    (hinput : inputOffset + count ≤ input.length) (houtput : outputOffset + count ≤ output.length) :
    copyBodyBytesLoop input count inputOffset outputOffset output =
      some (output.take outputOffset ++ (input.drop inputOffset).take count ++
        output.drop (outputOffset + count)) := by
  induction count generalizing inputOffset outputOffset output with
  | zero => rw [copyBodyBytesLoop, List.take_zero, List.append_nil, Nat.add_zero,
      List.take_append_drop]
  | succ count ih =>
    have hin : inputOffset < input.length := by omega
    have hout : outputOffset < output.length := by omega
    rw [copyBodyBytesLoop, List.getElem?_eq_getElem hin]
    dsimp only
    rw [if_pos hout, ih (by omega) (by rw [List.length_set]; omega)]
    have htake : (output.set outputOffset input[inputOffset]).take (outputOffset + 1) =
        output.take outputOffset ++ [input[inputOffset]] := by
      rw [List.take_add_one, List.take_set_of_le (Nat.le_refl _), List.getElem?_set_self hout,
        Option.toList_some]
    have hdrop : (output.set outputOffset input[inputOffset]).drop (outputOffset + 1 + count) =
        output.drop (outputOffset + (count + 1)) := by
      rw [List.drop_set_of_lt (by omega)]
      congr 1
      omega
    rw [htake, hdrop, List.drop_eq_getElem_cons hin, List.take_succ_cons, List.append_assoc,
      List.append_assoc, List.append_assoc, List.singleton_append, List.cons_append]

theorem copyBodyBytes_count_le {input output result : Bytes} {inputStart available outputStart
    count : ℕ} (h : copyBodyBytes input inputStart available output outputStart = some (count, result)) :
    count ≤ available := by
  unfold copyBodyBytes at h
  rw [Option.map_eq_some_iff] at h
  obtain ⟨_, _, heq⟩ := h
  cases heq
  split <;> omega

/-- The bytes copied are the next ones of the input, as many as fit the output. -/
theorem copyBodyBytes_eq {input : Bytes} (out rest : Bytes) {inputStart available : ℕ}
    (hinput : inputStart + available ≤ input.length) :
    ∃ count, count ≤ available ∧ count ≤ rest.length ∧ (count < available → count = rest.length) ∧
      copyBodyBytes input inputStart available (out ++ rest) out.length =
        some (count, (out ++ (input.drop inputStart).take count) ++ rest.drop count) := by
  have hspace : (out ++ rest).length - out.length = rest.length := by
    rw [List.length_append]
    omega
  refine ⟨if available > rest.length then rest.length else available, by split <;> omega,
    by split <;> omega, by split <;> omega, ?_⟩
  unfold copyBodyBytes
  rw [hspace]
  dsimp only
  rw [copyBodyBytesLoop_eq (by split <;> omega) (by rw [List.length_append]; split <;> omega),
    List.take_left, List.drop_length_add_append]
  rfl

/-- What a pass of the loop can still do before it needs more bytes. -/
def BodyState.rank : BodyState → ℕ
  | .bodyless | .fixed _ | .closeDelimited | .chunkData _ => 1
  | _ => 0

def decodeMeasure (input : Bytes) (inputStart : ℕ) (loop : DecodeLoop) : ℕ :=
  2 * (input.length - inputStart - loop.consumed) + loop.decoder.state.rank

theorem BodyState.rank_le (state : BodyState) : state.rank ≤ 1 := by
  cases state <;> simp [BodyState.rank]

namespace DecodeLoop

theorem copy_eq_some {loop loop' : DecodeLoop} {input : Bytes} {inputStart available copied : ℕ}
    (h : loop.copy input inputStart available = some (copied, loop')) :
    copied ≤ available ∧ loop'.consumed = loop.consumed + copied := by
  unfold copy at h
  rw [Option.map_eq_some_iff] at h
  obtain ⟨⟨count, output⟩, hcopy, heq⟩ := h
  cases heq
  exact ⟨copyBodyBytes_count_le hcopy, rfl⟩

theorem needInput_ne_next {loop loop' : DecodeLoop} {eof : Bool} :
    loop.needInput eof ≠ .inl loop' := by
  intro h
  cases eof <;> cases h

theorem payload_eq_next {loop loop' : DecodeLoop} {input : Bytes} {inputStart remaining : ℕ}
    {eof : Bool} {finished : BodyState} {retained : ℕ → BodyState}
    (h : loop.payload input inputStart eof remaining finished retained = .inl loop') :
    ∃ copied, copied ≤ input.length - inputStart - loop.consumed ∧ copied ≤ remaining ∧
      loop'.consumed = loop.consumed + copied ∧
      (copied = remaining ∧ loop'.decoder.state = finished ∨ 0 < copied) := by
  unfold payload at h
  dsimp only at h
  split at h
  · cases h
  · next copied after hcopy =>
    obtain ⟨hle, hconsumed⟩ := copy_eq_some hcopy
    refine ⟨copied, by split at hle <;> omega, by split at hle <;> omega, ?_⟩
    split at h
    · cases h
      exact ⟨hconsumed, Or.inl ⟨by split at hle <;> omega, rfl⟩⟩
    · split at h
      · exact absurd h needInput_ne_next
      · cases h
        exact ⟨hconsumed, Or.inr (by omega)⟩

theorem line_eq_next {loop loop' : DecodeLoop} {input : Bytes} {inputStart limit : ℕ} {eof : Bool}
    {ready : ℕ → DecodeLoop ⊕ BodyCall}
    (h : loop.line input inputStart eof limit ready = .inl loop') :
    ∃ stop, inputStart + loop.consumed ≤ stop ∧ stop + 2 ≤ input.length ∧ ready stop = .inl loop' := by
  unfold line at h
  split at h
  · exact absurd h needInput_ne_next
  · next stop hstop =>
    have hstart : inputStart + loop.consumed ≤ input.length := by
      by_contra hgt
      rw [scanLine, advanceLine, if_pos (Or.inl (by omega))] at hstop
      cases hstop
    rw [scanLine_drop limit hstart] at hstop
    cases hscan : scanLine (input.drop (inputStart + loop.consumed)) 0 limit with
    | incomplete | malformed | tooLong =>
      rw [hscan] at hstop
      cases hstop
    | ready stop' =>
      rw [hscan] at hstop
      cases hstop
      obtain ⟨line, tail, hrest, rfl, _⟩ := scanLine_ready hscan
      have hlength := congrArg List.length hrest
      rw [List.length_drop, List.length_append, List.length_cons, List.length_cons] at hlength
      exact ⟨_, Nat.le_add_right _ _, by omega, h⟩
  · cases h
  · cases h

end DecodeLoop

/-- A pass that goes on has consumed input or left a state that consumes nothing. -/
theorem decodeBodyStep_decreases (input : Bytes) (inputStart : ℕ) (eof : Bool) :
    Loop.Decreases (decodeBodyStep input inputStart eof) (decodeMeasure input inputStart) := by
  intro loop loop' h
  have hrank := loop'.decoder.state.rank_le
  unfold decodeMeasure
  unfold decodeBodyStep at h
  dsimp only at h
  split at h
  case h_1 hstate =>
    cases h
    rw [hstate]
    exact Nat.lt_succ_self _
  case h_2 | h_3 => cases h
  case h_4 remaining hstate =>
    rw [hstate]
    split at h
    · cases h
      exact Nat.lt_succ_self _
    · obtain ⟨copied, havailable, hremaining, hconsumed, hcase⟩ := DecodeLoop.payload_eq_next h
      rw [hconsumed]
      omega
  case h_5 hstate =>
    rw [hstate]
    split at h
    · cases h
    · split at h
      · cases h
      · next hcopy =>
        obtain ⟨hle, hconsumed⟩ := DecodeLoop.copy_eq_some hcopy
        split at h
        · cases h
          dsimp only at hconsumed ⊢
          rw [hconsumed]
          simp only [BodyState.rank]
          omega
        · cases h
  case h_6 hstate =>
    obtain ⟨stop, hstart, hstop, hready⟩ := DecodeLoop.line_eq_next h
    split at hready
    · cases hready
    · split at hready
      · cases hready
        dsimp only at hrank ⊢
        omega
      · split at hready
        · cases hready
        · cases hready
          dsimp only at hrank ⊢
          omega
  case h_7 remaining hstate =>
    obtain ⟨copied, havailable, hremaining, hconsumed, hcase⟩ := DecodeLoop.payload_eq_next h
    rw [hstate, hconsumed]
    rcases hcase with ⟨_, hfinished⟩ | hpos
    · rw [hfinished]
      simp only [BodyState.rank]
      omega
    · have hbefore : (BodyState.chunkData remaining).rank = 1 := rfl
      omega
  case h_8 =>
    split at h
    · exact absurd h DecodeLoop.needInput_ne_next
    · split at h
      · split at h
        · cases h
        · cases h
          simp only [BodyState.rank]
          omega
      · cases h
  case h_9 =>
    obtain ⟨stop, hstart, hstop, hready⟩ := DecodeLoop.line_eq_next h
    split at hready
    · cases hready
    · cases hready
      dsimp only at hrank ⊢
      omega
    · cases hready
      dsimp only at hrank ⊢
      omega

def decodeBody (decoder : BodyDecoder) (input : Bytes) (inputStart : ℕ) (output : Bytes)
    (eof : Bool) : BodyCall :=
  if inputStart > input.length then ⟨.error (.error invalidSyntax), decoder, output⟩
  else
    Loop.iterate (decodeBodyStep input inputStart eof) (decodeMeasure input inputStart)
      (decodeBodyStep_decreases input inputStart eof) ⟨decoder, 0, 0, output⟩

end Nocter.Http
