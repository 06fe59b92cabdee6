import Nocter.Http.BodyRuns
import Nocter.Http.ResponseRuns
import Nocter.Http.ResponseWriter

/-!
# Responses read back

What a writer sends is what the decoders of a client read: the status, the
fields and the fragments that were written, up to the last byte sent.
-/

namespace Nocter.Http

theorem decimalText_three {code : ℕ} (h : 100 ≤ code ∧ code ≤ 999) : decimalText code =
      [decimalByte (code / 100), decimalByte (code / 10 % 10), decimalByte (code % 10)] := by
  have hquotient : code / 10 / 10 = code / 100 := Nat.div_div_eq_div_mul code 10 10
  rw [decimalText, numeral_of_le (by decide) (by omega), numeral_of_le (by decide) (by omega),
    numeral_of_lt (by omega), hquotient]
  rfl

theorem isDigit_decimalByte : ∀ digit < 10, isDigit (decimalByte digit) = true := by decide

theorem statusFromLine_statusLine {status : Status} (h : 200 ≤ status.code ∧ status.code ≤ 599) :
    statusFromLine (statusLine status) = .ok status := by
  obtain ⟨_, _, hhundreds⟩ := decimalByte_read (status.code / 100) (by omega)
  obtain ⟨_, _, htens⟩ := decimalByte_read (status.code / 10 % 10) (by omega)
  obtain ⟨_, _, hones⟩ := decimalByte_read (status.code % 10) (by omega)
  have hline : (statusLine status).drop 9 = [decimalByte (status.code / 100),
      decimalByte (status.code / 10 % 10), decimalByte (status.code % 10), 32] := by
    rw [statusLine, decimalText_three (by omega)]
    rfl
  have hversion : (statusLine status).take 9 = text "HTTP/1.1 " := by
    rw [statusLine, decimalText_three (by omega)]
    rfl
  unfold statusFromLine
  rw [hline]
  dsimp only
  rw [hversion, if_neg (by simp), isDigit_decimalByte _ (by omega), isDigit_decimalByte _ (by omega),
    isDigit_decimalByte _ (by omega), if_neg (by decide), if_neg (by decide), hhundreds, htens, hones,
    Status.new, if_neg (by omega)]
  congr 2
  omega

theorem statusLine_plain {status : Status} (h : 200 ≤ status.code ∧ status.code ≤ 599) :
    (statusLine status).length = 13 ∧ 10 ∉ statusLine status ∧ 13 ∉ statusLine status := by
  have hversion : (text "HTTP/1.1 ").all validHeaderValueByte = true := by decide
  have hplain : ∀ byte ∈ statusLine status, byte ≠ 10 ∧ byte ≠ 13 := by
    intro byte hmem
    rw [statusLine, List.mem_append, List.mem_append] at hmem
    rcases hmem with (hmem | hmem) | hblank
    · exact value_plain byte (List.all_eq_true.mp hversion byte hmem)
    · exact value_plain byte (mem_decimalText hmem).2
    · rw [List.mem_singleton.mp hblank]
      decide
  refine ⟨?_, fun hmem => (hplain 10 hmem).1 rfl, fun hmem => (hplain 13 hmem).2 rfl⟩
  rw [statusLine, decimalText_three (by omega)]
  rfl

/-- The framing that a client selects for a response. -/
def ResponseFraming.selected (status : Status) (framing : ResponseFraming) : BodyFraming :=
  if statusForbidsBody status then .bodyless
  else
    match framing with
    | .fixed length => .fixed length
    | .chunked => .chunked

/-- The fields of a head whose own fields say nothing about the framing. -/
def MessageFields.ofHeaders (headers : Headers) : MessageFields := { MessageFields.empty with headers }

theorem contentLength_canonical (length : ℕ) :
    (⟨text "content-length", decimalText length⟩ : Header).Canonical := by
  have hname : headerName (text "content-length") = .ok (text "content-length") := by decide
  refine ⟨hname, headerValue_trimmed ?_ ?_ ?_⟩
  · rw [List.all_eq_true]
    exact fun byte hmem => (mem_decimalText hmem).2
  · exact dropWhile_of_forall_not fun byte hmem => (mem_decimalText hmem).1
  · exact rdropWhile_of_forall_not fun byte hmem => (mem_decimalText hmem).1

theorem transferEncoding_canonical :
    (⟨text "transfer-encoding", text "chunked"⟩ : Header).Canonical := ⟨by decide, by decide⟩

theorem connection_canonical : (⟨text "connection", text "close"⟩ : Header).Canonical :=
  ⟨by decide, by decide⟩

theorem generatedFields_canonical (status : Status) (framing : ResponseFraming)
    (disposition : ConnectionDisposition) :
    ∀ header ∈ generatedFields status framing disposition, header.Canonical := by
  have hreuse : ∀ header ∈ generatedFields status framing .reuse, header.Canonical := by
    intro header hmem
    cases framing with
    | fixed length =>
      simp only [generatedFields, reduceCtorEq, if_false, List.append_nil] at hmem
      split at hmem
      · cases hmem
      · rw [List.mem_singleton.mp hmem]
        exact contentLength_canonical length
    | chunked =>
      rw [List.mem_singleton.mp hmem]
      exact transferEncoding_canonical
  cases disposition with
  | reuse => exact hreuse
  | close =>
    rw [generatedFields_close, List.forall_mem_append, List.forall_mem_singleton]
    exact ⟨hreuse, connection_canonical⟩

theorem generatedFields_omitted {status : Status} (length : ℕ)
    (h : statusOmitsContentLength status = true) : generatedFields status (.fixed length) .reuse = [] := by
  simp only [generatedFields, h, if_true, reduceCtorEq, if_false, List.append_nil]

theorem generatedFields_fixed {status : Status} (length : ℕ)
    (h : statusOmitsContentLength status = false) : generatedFields status (.fixed length) .reuse =
      [⟨text "content-length", decimalText length⟩] := by
  simp only [generatedFields, h, Bool.false_eq_true, reduceCtorEq, if_false, List.append_nil]

theorem bodylessResponse_final {requestMethod : Method} {status : Status}
    (hmethod : asciiEqual requestMethod (text "HEAD") = false) (hstatus : 200 ≤ status.code) :
    bodylessResponse requestMethod status = statusForbidsBody status := by
  have hinformational : decide (status.code < 200) = false := decide_eq_false (by omega)
  rw [bodylessResponse, statusForbidsBody, hmethod, hinformational, Bool.and_false, Bool.false_or,
    Bool.false_or]

/-- The fields that the protocol owns select the framing of the plan. -/
theorem generatedFields_retained {limits : Limits} {status : Status} {framing : ResponseFraming}
    {requestMethod : Method} {headers : Headers} (hpermitted : framing.Permitted status limits)
    (hmethod : asciiEqual requestMethod (text "HEAD") = false) (hstatus : 200 ≤ status.code)
    (hlimit : limits.bodyBytes ≤ 18446744073709551615)
    (hcount : (headers ++ generatedFields status framing .reuse).length ≤ limits.headerCount) :
    ∃ fields, retainLines limits (.ofHeaders headers) (generatedFields status framing .reuse) =
        .ok fields ∧ fields.headers = headers ++ generatedFields status framing .reuse ∧
      responseBodyFraming fields requestMethod status limits = .ok (framing.selected status) := by
  have hbodyless := bodylessResponse_final hmethod hstatus
  cases framing with
  | fixed length =>
    obtain ⟨hlength, _⟩ := hpermitted
    cases homits : statusOmitsContentLength status with
    | true =>
      have hforbids : statusForbidsBody status = true := by
        simp only [statusOmitsContentLength, statusForbidsBody, Bool.or_eq_true,
          decide_eq_true_eq] at homits ⊢
        omega
      rw [generatedFields_omitted length homits, List.append_nil]
      refine ⟨_, rfl, rfl, ?_⟩
      unfold responseBodyFraming
      rw [hbodyless, hforbids, ResponseFraming.selected, hforbids]
      rfl
    | false =>
      rw [generatedFields_fixed length homits] at hcount ⊢
      rw [List.length_append, List.length_singleton] at hcount
      have hevidence : retainEvidence (.ofHeaders headers)
          ⟨text "content-length", decimalText length⟩ =
          .ok { MessageFields.ofHeaders headers with contentLength := length, hasContentLength := true } := by
        rw [retainEvidence, if_pos rfl, retainContentLength,
          parseDecimalList_decimalText (hlength.trans hlimit)]
        rfl
      have hroom : (MessageFields.ofHeaders headers).headers.length ≠ limits.headerCount :=
        (Nat.lt_of_succ_le hcount).ne
      have hretain := (contentLength_canonical length).retain_line hroom
      rw [hevidence] at hretain
      refine ⟨_, retainLines_cons [] hretain, rfl, ?_⟩
      unfold responseBodyFraming
      rw [hbodyless, ResponseFraming.selected]
      cases statusForbidsBody status with
      | true => rfl
      | false =>
        simp only [validateFramingEvidence, MessageFields.ofHeaders, MessageFields.empty, Bool.false_eq_true,
          false_and, if_false, if_true, Nat.not_lt.mpr hlength]
        rfl
  | chunked =>
    have hroom : (MessageFields.ofHeaders headers).headers.length ≠ limits.headerCount := by
      rw [List.length_append] at hcount
      exact (Nat.lt_of_succ_le hcount).ne
    have hretain := transferEncoding_canonical.retain_line hroom
    have hevidence : retainEvidence (.ofHeaders headers)
        ⟨text "transfer-encoding", text "chunked"⟩ =
        .ok { MessageFields.ofHeaders headers with transferKind := 0, hasTransferEncoding := true } := by
      have hkind : transferCodingKind (text "chunked") = 0 := by decide
      rw [retainEvidence, if_neg (by decide), if_pos rfl, retainTransferEncoding, hkind]
      rfl
    rw [hevidence] at hretain
    refine ⟨_, retainLines_cons [] hretain, rfl, ?_⟩
    unfold responseBodyFraming
    rw [hbodyless, ResponseFraming.selected, show statusForbidsBody status = false from hpermitted]
    rfl

/-- The fields behind all lines of a planned head. -/
theorem planned_retained {head : BuiltResponseHead} {framing : ResponseFraming}
    {disposition : ConnectionDisposition} {limits : Limits} {plan : ResponsePlan}
    {requestMethod : Method} (h : Planned head.head framing disposition limits plan)
    (hmethod : asciiEqual requestMethod (text "HEAD") = false)
    (hlimit : limits.bodyBytes ≤ 18446744073709551615) :
    ∃ fields, retainLines limits .empty (head.head.headers ++
        generatedFields head.head.status framing disposition) = .ok fields ∧
      fields.headers = head.head.headers ++ generatedFields head.head.status framing disposition ∧
      responseBodyFraming fields requestMethod head.head.status limits =
        .ok (framing.selected head.head.status) := by
  have hcount := h.count
  rw [List.length_append] at hcount
  have hown : retainLines limits .empty head.head.headers = .ok (.ofHeaders head.head.headers) :=
    retainLines_plain (fun header hmem => (head.built header hmem).canonical)
      (fun header hmem => reservedProtocolField_requestFraming (h.plain header hmem))
      (by rw [MessageFields.empty, List.length_nil]; omega)
  rw [retainLines_append _ hown]
  cases disposition with
  | reuse => exact generatedFields_retained h.permitted hmethod h.status.1 hlimit h.count
  | close =>
    rw [generatedFields_close, List.length_append, List.length_singleton] at hcount
    have hreuse : (head.head.headers ++
        generatedFields head.head.status framing .reuse).length ≤ limits.headerCount := by
      rw [List.length_append]
      omega
    obtain ⟨fields, hretained, hheaders, hframing⟩ :=
      generatedFields_retained h.permitted hmethod h.status.1 hlimit hreuse
    have hlength := congrArg List.length hheaders
    rw [List.length_append] at hlength
    have hroom : fields.headers.length ≠ limits.headerCount := by omega
    have hconnection := connection_canonical.retain_plain hroom (by decide)
    rw [generatedFields_close, retainLines_append _ hretained, retainLines_cons [] hconnection]
    refine ⟨_, rfl, ?_, hframing⟩
    rw [hheaders, List.append_assoc]

theorem statusLine_step {status : Status} {limits : Limits} (requestMethod : Method)
    (h : 200 ≤ status.code ∧ status.code ≤ 599) (hstart : 13 ≤ limits.startLineBytes)
    (hsize : 15 ≤ limits.headerBytes) (rest : Bytes) :
    headStep (responseSyntax limits requestMethod) limits (.startLine 0)
        (statusLine status ++ 13 :: 10 :: rest) = .take 15 [] (.fields status 15 .empty 0) := by
  obtain ⟨hlength, hlf, hcr⟩ := statusLine_plain h
  rw [headStep, scanLine_of_line rest (by omega) hlf hcr, onLine, List.take_left, startLineStep,
    if_neg (by omega)]
  simp only [responseSyntax]
  rw [statusFromLine_statusLine h, hlength]

theorem headEnd_step {status : Status} {limits : Limits} {requestMethod : Method} {used : ℕ}
    {fields : MessageFields} {framing : BodyFraming} (h : 200 ≤ status.code)
    (hsize : used + 2 ≤ limits.headerBytes)
    (hframing : responseBodyFraming fields requestMethod status limits = .ok framing) (rest : Bytes) :
    headStep (responseSyntax limits requestMethod) limits (.fields status used fields 0)
        (13 :: 10 :: rest) = .take 2 [] (.done (⟨status, fields.headers⟩, framing)) := by
  have hscan : scanLine (13 :: 10 :: rest) 0 limits.fieldBytes = .ready 0 :=
    scanLine_of_line rest (Nat.zero_le _) List.not_mem_nil List.not_mem_nil
  have hfinal : status.isInformational = false := by
    have hcode : decide (status.code < 200) = false := decide_eq_false (by omega)
    rw [Status.isInformational, hcode, Bool.and_false]
  rw [headStep, hscan, onLine, List.take_zero, fieldLineStep, List.length_nil, if_neg (by omega),
    if_pos rfl]
  simp only [responseSyntax]
  rw [hframing, hfinal]
  rfl

/-- The decoder of heads reads a planned head up to its last byte. -/
theorem planned_reaches {head : BuiltResponseHead} {framing : ResponseFraming}
    {disposition : ConnectionDisposition} {limits : Limits} {plan : ResponsePlan}
    {requestMethod : Method} (h : Planned head.head framing disposition limits plan)
    (hmethod : asciiEqual requestMethod (text "HEAD") = false)
    (hlimit : limits.bodyBytes ≤ 18446744073709551615) (rest : Bytes) :
    (responseWire limits requestMethod).Reaches (.startLine 0) (plan.head ++ rest) [] plan.head.length
      (.done (⟨head.head.status, head.head.headers ++
        generatedFields head.head.status framing disposition⟩, framing.selected head.head.status)) := by
  obtain ⟨fields, hretained, hheaders, hframing⟩ := planned_retained h hmethod hlimit
  have hcanonical : ∀ header ∈ head.head.headers ++
      generatedFields head.head.status framing disposition, header.Canonical := by
    rw [List.forall_mem_append]
    exact ⟨fun header hmem => (head.built header hmem).canonical, generatedFields_canonical _ _ _⟩
  have hsize := h.size
  have hfields := h.fields
  have hbytes := h.bytes
  generalize head.head.headers ++ generatedFields head.head.status framing disposition =
    headers at hretained hheaders hcanonical hsize hfields hbytes ⊢
  have hwire : plan.head ++ rest = statusLine head.head.status ++ 13 :: 10 ::
      (encodeFields headers ++ 13 :: 10 :: rest) := by
    rw [hbytes, List.append_assoc, List.cons_append, List.cons_append, List.append_assoc]
    rfl
  have hlength : plan.head.length = 15 + ((encodeFields headers).length + 2) := by
    rw [hbytes, List.length_append, (statusLine_plain h.status).1, List.length_cons,
      List.length_cons, List.length_append]
    simp only [List.length_cons, List.length_nil]
    omega
  have hstart := statusLine_step requestMethod h.status h.startLine (by omega)
    (encodeFields headers ++ 13 :: 10 :: rest)
  have hsection := reaches_fields (responseSyntax limits requestMethod) head.head.status 0
    (13 :: 10 :: rest) hcanonical hfields
    (show 15 + (encodeFields headers).length ≤ limits.headerBytes by omega) hretained
  have hend := headEnd_step h.status.1
    (show 15 + (encodeFields headers).length + 2 ≤ limits.headerBytes by omega) hframing rest
  have hdrop : (statusLine head.head.status ++ 13 :: 10 ::
      (encodeFields headers ++ 13 :: 10 :: rest)).drop 15 = encodeFields headers ++ 13 :: 10 :: rest := by
    have hline := drop_line (statusLine head.head.status) (encodeFields headers ++ 13 :: 10 :: rest)
    rwa [(statusLine_plain h.status).1] at hline
  have hskip : (encodeFields headers ++ 13 :: 10 :: rest).drop (encodeFields headers).length =
      13 :: 10 :: rest := List.drop_left
  rw [hheaders, ← hskip] at hend
  have htail := StreamDecoder.Reaches.tail hsection hend
  rw [← hdrop] at htail
  rw [hwire, hlength]
  exact StreamDecoder.Reaches.take (s := .startLine 0) hstart htail

/-- Heads that the decoder reads to the end are read by the first attempt. -/
theorem advanceResponseHead_of_reaches {limits : Limits} {requestMethod : Method} {wire : Bytes}
    {count : ℕ} {result : ResponseResult}
    (h : (responseWire limits requestMethod).Reaches (.startLine 0) wire [] count (.done result)) :
    advanceResponseHead (responseHeadDecoderWithInput limits wire) requestMethod =
      .ready ⟨result.1, bodyDecoder result.2 limits, wire, count⟩ := by
  have hhalts : (responseWire limits requestMethod).Halts (.done result) (wire.drop count) :=
    StreamDecoder.halts_of_done rfl
  have hend := advanceResponseHead_end (responsePath_start limits requestMethod wire)
  generalize advanceResponseHead (responseHeadDecoderWithInput limits wire) requestMethod =
    attempt at hend
  cases hend with
  | incomplete hinput hpath hreach hneed =>
    obtain ⟨_, rfl, rfl⟩ := h.halts_unique hhalts hreach (StreamDecoder.halts_of_need hneed)
    cases hneed
  | @informational decoder status hinput hpath hbefore hle =>
    obtain ⟨n, t, hreach⟩ : ∃ n t, (responseWire limits requestMethod).Reaches (.startLine 0) wire
        ([] ++ [status]) n t := by
      have hwire : decoder.input = wire := hinput
      rw [← hwire]
      cases hphase : decoder.phase with
      | status => exact ⟨_, _, (hpath.status hphase).2.2.1⟩
      | fields status => exact ⟨_, _, (hpath.fields status hphase).reaches⟩
    obtain ⟨outs, _, hout, _⟩ := hreach.of_halts h hhalts
    cases hout
  | ready hreach =>
    obtain ⟨_, rfl, hsame⟩ := h.halts_unique hhalts hreach (StreamDecoder.halts_of_done rfl)
    cases hsame
    rfl
  | failed failure hreach hfail =>
    obtain ⟨_, rfl, rfl⟩ := h.halts_unique hhalts hreach (StreamDecoder.halts_of_fail hfail)
    cases hfail

/-- The decoder of bodies reads a body up to its end in one call that has space for it. -/
theorem decodeBody_of_accepts (decoder : BodyDecoder) {input : Bytes} {inputStart count : ℕ}
    {payload : Bytes} (hstart : inputStart ≤ input.length)
    (h : (bodyWire decoder.limits).Reaches decoder.wire (input.drop inputStart) payload count
      (.complete, payload.length)) (output : Bytes) (eof : Bool)
    (houtput : payload.length < output.length) :
    (decodeBody decoder input inputStart output eof).result = .ok ⟨count, payload.length, true⟩ ∧
      (decodeBody decoder input inputStart output eof).output.take payload.length = payload := by
  have hhalts : (bodyWire decoder.limits).Halts (.complete, payload.length)
      ((input.drop inputStart).drop count) := StreamDecoder.halts_of_done rfl
  obtain ⟨out, n, t, hpath⟩ := decodeBody_path decoder output eof hstart
  obtain ⟨outs, rest, hout, _, _⟩ := hpath.reaches.of_halts h hhalts
  have hspace : out.length ≠ output.length := by
    have hlength := congrArg List.length hout
    rw [List.length_append] at hlength
    omega
  have htake := hpath.take_output
  have hreach := hpath.reaches
  have hending := hpath.ending
  generalize decodeBody decoder input inputStart output eof = call at htake hending
  obtain ⟨result, after, written⟩ := call
  dsimp only at htake hending ⊢
  cases hending with
  | complete hend =>
    rcases hend with hdone | ⟨_, hneed, hstate⟩
    · obtain ⟨rfl, rfl, _⟩ := h.halts_unique hhalts hreach (StreamDecoder.halts_of_done hdone)
      exact ⟨rfl, htake⟩
    · obtain ⟨_, _, rfl⟩ := h.halts_unique hhalts hreach (StreamDecoder.halts_of_need hneed)
      cases hstate
  | suspended _ hend =>
    rcases hend with hneed | hfull
    · obtain ⟨_, _, rfl⟩ := h.halts_unique hhalts hreach (StreamDecoder.halts_of_need hneed)
      cases hneed
    · exact absurd hfull hspace
  | malformed error hreach' hfail =>
    obtain ⟨_, _, rfl⟩ := h.halts_unique hhalts hreach' (StreamDecoder.halts_of_fail hfail)
    cases hfail
  | ended _ hneed _ =>
    obtain ⟨_, _, rfl⟩ := h.halts_unique hhalts hreach (StreamDecoder.halts_of_need hneed)
    cases hneed
  | starved _ hfull => exact absurd hfull hspace

/-- Payload of exactly the announced length is passed through. -/
theorem reaches_whole_payload {limits : Limits} {decoded : ℕ} (state : ℕ → BodyState)
    (hsucc : ∀ r d rest, wireStep limits (state (r + 1), d) rest = wirePayload rest (state r, d + 1))
    (bytes rest : Bytes) :
    (bodyWire limits).Reaches (state bytes.length, decoded) (bytes ++ rest) bytes bytes.length
      (state 0, decoded + bytes.length) := by
  have hroom : bytes.length ≤ (bytes ++ rest).length := by
    rw [List.length_append]
    omega
  have hpayload : (bodyWire limits).Reaches (state bytes.length, decoded) (bytes ++ rest) _ _ _ :=
    reaches_payload state hsucc hroom (Nat.le_refl bytes.length)
  rwa [Nat.sub_self, List.take_left] at hpayload

/-- The decoder of bodies passes a chunk on. -/
theorem reaches_chunk {limits : Limits} {decoded : ℕ} {bytes : Bytes} (rest : Bytes)
    (hline : 16 ≤ limits.chunkLineBytes) (hlimit : limits.bodyBytes ≤ 18446744073709551615)
    (hdecoded : decoded + bytes.length ≤ limits.bodyBytes) :
    (bodyWire limits).Reaches (.chunkSize, decoded) (encodeChunk bytes ++ rest) bytes
      (encodeChunk bytes).length (.chunkSize, decoded + bytes.length) := by
  unfold encodeChunk
  split
  · next hempty =>
    rw [hempty]
    exact .refl _ _
  next hbytes =>
  have hpositive : bytes.length ≠ 0 := fun hzero => hbytes (List.length_eq_zero_iff.mp hzero)
  have hlength : (hexadecimalText bytes.length).length ≤ limits.chunkLineBytes := by
    rw [List.length_map]
    refine (numeral_length_le (by decide) (by decide) ?_).trans hline
    omega
  have hsize : wireStep limits (.chunkSize, decoded)
      (hexadecimalText bytes.length ++ 13 :: 10 :: (bytes ++ 13 :: 10 :: rest)) =
      .take ((hexadecimalText bytes.length).length + 2) [] (.chunkData bytes.length, decoded) := by
    rw [wireStep, wireLine, scanLine_of_line _ hlength
      (fun hmem => (mem_hexadecimalText hmem).1 rfl) (fun hmem => (mem_hexadecimalText hmem).2.1 rfl)]
    dsimp only
    rw [List.take_left, sizeLine, parseHexSize_hexadecimalText (by omega)]
    dsimp only
    rw [if_neg hpositive, if_neg (by omega)]
  have hskip : (bytes ++ 13 :: 10 :: rest).drop bytes.length = 13 :: 10 :: rest := List.drop_left
  have hdata : (bodyWire limits).Reaches (.chunkData bytes.length, decoded)
      (bytes ++ 13 :: 10 :: rest) bytes bytes.length (.chunkData 0, decoded + bytes.length) :=
    reaches_whole_payload BodyState.chunkData (fun _ _ _ => rfl) bytes (13 :: 10 :: rest)
  have hzero : wireStep limits (.chunkData 0, decoded + bytes.length) (13 :: 10 :: rest) =
      .take 0 [] (.chunkDataEnd, decoded + bytes.length) := rfl
  have hdelimiter : wireStep limits (.chunkDataEnd, decoded + bytes.length) (13 :: 10 :: rest) =
      .take 2 [] (.chunkSize, decoded + bytes.length) := rfl
  rw [← hskip] at hzero hdelimiter
  have hchunk := (hdata.tail hzero).tail hdelimiter
  rw [List.append_nil, List.append_nil, Nat.add_zero,
    ← drop_line (hexadecimalText bytes.length) (bytes ++ 13 :: 10 :: rest)] at hchunk
  have hreach := StreamDecoder.Reaches.take (s := (BodyState.chunkSize, decoded)) hsize hchunk
  have hinput : hexadecimalText bytes.length ++ 13 :: 10 :: (bytes ++ [13, 10]) ++ rest =
      hexadecimalText bytes.length ++ 13 :: 10 :: (bytes ++ 13 :: 10 :: rest) := by
    rw [List.append_assoc, List.cons_append, List.cons_append, List.append_assoc]
    rfl
  have hcount : (hexadecimalText bytes.length ++ 13 :: 10 :: (bytes ++ [13, 10])).length =
      (hexadecimalText bytes.length).length + 2 + (bytes.length + 2) := by
    rw [List.length_append, List.length_cons, List.length_cons, List.length_append, List.length_cons,
      List.length_cons, List.length_nil]
    omega
  rw [hinput, hcount]
  exact hreach

theorem reaches_chunks {limits : Limits} {decoded : ℕ} {fragments : List Bytes} (rest : Bytes)
    (hline : 16 ≤ limits.chunkLineBytes) (hlimit : limits.bodyBytes ≤ 18446744073709551615)
    (hdecoded : decoded + fragments.flatten.length ≤ limits.bodyBytes) :
    (bodyWire limits).Reaches (.chunkSize, decoded) (fragments.flatMap encodeChunk ++ rest)
      fragments.flatten (fragments.flatMap encodeChunk).length
      (.chunkSize, decoded + fragments.flatten.length) := by
  induction fragments generalizing decoded with
  | nil => exact .refl _ _
  | cons bytes fragments ih =>
    rw [List.flatten_cons, List.length_append] at hdecoded
    have hroom : decoded + bytes.length ≤ limits.bodyBytes := by omega
    have hchunk := reaches_chunk (fragments.flatMap encodeChunk ++ rest) hline hlimit hroom
    have htail := ih (show decoded + bytes.length + fragments.flatten.length ≤ limits.bodyBytes by omega)
    have hskip : (encodeChunk bytes ++ (fragments.flatMap encodeChunk ++ rest)).drop
        (encodeChunk bytes).length = fragments.flatMap encodeChunk ++ rest := List.drop_left
    rw [← hskip] at htail
    have hreach := hchunk.trans htail
    rw [List.flatMap_cons, List.append_assoc, List.length_append, List.flatten_cons,
      List.length_append, ← Nat.add_assoc]
    exact hreach

theorem reaches_lastChunk {limits : Limits} {decoded : ℕ} (rest : Bytes)
    (hline : 16 ≤ limits.chunkLineBytes) (hheader : 2 ≤ limits.headerBytes) :
    (bodyWire limits).Reaches (.chunkSize, decoded) (text "0\r\n\r\n" ++ rest) [] 5
      (.complete, decoded) := by
  have hsize : wireStep limits (.chunkSize, decoded) (text "0\r\n\r\n" ++ rest) =
      .take 3 [] (.trailers 0 0, decoded) := by
    have hscan : scanLine (text "0\r\n\r\n" ++ rest) 0 limits.chunkLineBytes = .ready 1 :=
      scanLine_of_line (13 :: 10 :: rest) ((show [(48 : UInt8)].length ≤ 16 by decide).trans hline)
        (by decide) (by decide)
    rw [wireStep, wireLine, hscan]
    rfl
  have hempty : wireStep limits (.trailers 0 0, decoded) (13 :: 10 :: rest) =
      .take 2 [] (.complete, decoded) := by
    have hscan : scanLine (13 :: 10 :: rest) 0 limits.fieldBytes = .ready 0 :=
      scanLine_of_line rest (Nat.zero_le _) List.not_mem_nil List.not_mem_nil
    have hline : trailerLine limits 0 0 [] = .ok none := by
      rw [trailerLine, if_neg (by rw [List.length_nil]; omega), if_pos rfl]
    rw [wireStep, wireLine, hscan]
    dsimp only
    rw [List.take_zero, trailerStep, hline]
    rfl
  have hend : (bodyWire limits).Reaches (.trailers 0 0, decoded)
      ((text "0\r\n\r\n" ++ rest).drop 3) [] 2 (.complete, decoded) :=
    .single (s := (BodyState.trailers 0 0, decoded)) hempty
  exact .take (s := (BodyState.chunkSize, decoded)) hsize hend

/-- The decoder of bodies reads what a finished writer has sent. -/
theorem reaches_body {limits : Limits} {status : Status} {framing : ResponseFraming}
    {accepted : List Bytes} (rest : Bytes) (hpermitted : framing.Permitted status limits)
    (hline : 16 ≤ limits.chunkLineBytes) (hlimit : limits.bodyBytes ≤ 18446744073709551615)
    (hheader : 2 ≤ limits.headerBytes)
    (hlength : ∀ length, framing = .fixed length → accepted.flatten.length = length)
    (hchunked : framing = .chunked → accepted.flatten.length ≤ limits.bodyBytes) :
    (bodyWire limits).Reaches (bodyDecoder (framing.selected status) limits).wire
      (framing.encode accepted ++ framing.ending ++ rest) accepted.flatten
      (framing.encode accepted ++ framing.ending).length (.complete, accepted.flatten.length) := by
  cases framing with
  | fixed length =>
    have hexact := hlength length rfl
    rw [ResponseFraming.encode, ResponseFraming.ending, List.append_nil, ResponseFraming.selected]
    cases hforbids : statusForbidsBody status with
    | true =>
      have hnil : accepted.flatten = [] := by
        rw [← List.length_eq_zero_iff, hexact]
        exact hpermitted.2 hforbids
      rw [hnil]
      exact .single (s := (BodyState.bodyless, 0)) rfl
    | false =>
      have hdata : (bodyWire limits).Reaches (.fixed accepted.flatten.length, 0) _ _ _ _ :=
        reaches_whole_payload BodyState.fixed (fun _ _ _ => rfl) accepted.flatten rest
      have hzero : wireStep limits (.fixed 0, 0 + accepted.flatten.length)
          ((accepted.flatten ++ rest).drop accepted.flatten.length) =
          .take 0 [] (.complete, 0 + accepted.flatten.length) := rfl
      have hend := hdata.tail hzero
      rw [List.append_nil, Nat.add_zero, Nat.zero_add, hexact] at hend
      rw [hexact]
      exact hend
  | chunked =>
    have hforbids : statusForbidsBody status = false := hpermitted
    rw [ResponseFraming.encode, ResponseFraming.ending, ResponseFraming.selected, hforbids,
      List.append_assoc, List.length_append]
    have hchunks := reaches_chunks (text "0\r\n\r\n" ++ rest) hline hlimit
      (show 0 + accepted.flatten.length ≤ limits.bodyBytes by rw [Nat.zero_add]; exact hchunked rfl)
    have hlast : (bodyWire limits).Reaches (.chunkSize, 0 + accepted.flatten.length) _ _ _ _ :=
      reaches_lastChunk rest hline hheader
    have hskip : (accepted.flatMap encodeChunk ++ (text "0\r\n\r\n" ++ rest)).drop
        (accepted.flatMap encodeChunk).length = text "0\r\n\r\n" ++ rest := List.drop_left
    rw [← hskip] at hlast
    have hreach := hchunks.trans hlast
    rw [List.append_nil, Nat.zero_add] at hreach
    exact hreach

/-- With these limits the decoders of a client read one response from the start of the wire, which
ends behind `length` bytes. -/
def ReadsBack (limits : Limits) (requestMethod : Method) (wire : Bytes) (length : ℕ)
    (head : ResponseHead) (payload : Bytes) : Prop :=
  ∃ parsed, advanceResponseHead (responseHeadDecoderWithInput limits wire) requestMethod =
      .ready parsed ∧
    parsed.head = head ∧
    ∀ output eof, payload.length < output.length → ∃ count,
      let call := decodeBody parsed.decoder parsed.pending parsed.consumed output eof
      call.result = .ok ⟨count, payload.length, true⟩ ∧
        call.output.take payload.length = payload ∧ parsed.consumed + count = length

theorem beginResponseWriter_ok {responder : Responder} {head : ResponseHead}
    {framing : ResponseFraming} {writer : ResponseWriter}
    (h : beginResponseWriter responder head framing = .inr writer) :
    ∃ plan, Planned head framing responder.disposition responder.limits plan ∧
      writer.state = framing.output ∧ writer.limits = responder.limits ∧
      writer.suppressBody = responder.suppressBody ∧
      writer.stream.sent = responder.stream.sent ++ plan.head := by
  unfold beginResponseWriter at h
  split at h
  · cases h
  next plan hplan =>
  have hplanned := planServerResponse_ok hplan
  split at h
  · cases h
  next stream hwrite =>
  cases h
  have hsent := TcpStream.writeAll_ok hwrite
  simp only [List.map_cons, List.map_nil, List.flatten_cons, List.flatten_nil,
    List.append_nil] at hsent
  exact ⟨plan, hplanned, hplanned.state, rfl, rfl, hsent⟩

/-- What a responder sends, from the head to a successful finish, is read back as the head with the
fields that the protocol owns and the accepted fragments, and nothing else is read. A response of
fixed length finishes only with as many bytes as it announces. The body limit is a machine word. -/
theorem finished_response_reads_back (responder : Responder) (head : BuiltResponseHead)
    (framing : ResponseFraming) (fragments : List Bytes) {writer : ResponseWriter}
    {connection : Option ServerConnection} {stream : TcpStream}
    (hlimit : responder.limits.bodyBytes < 2 ^ 64)
    (hbegin : beginResponseWriter responder head.head framing = .inr writer)
    (hfinish : finishResponseWriter (writeFragments writer fragments).1 = (.ok connection, stream)) :
    (∀ length, framing = .fixed length →
      (writeFragments writer fragments).2.flatten.length = length) ∧
    (responder.suppressBody = false → 16 ≤ responder.limits.chunkLineBytes →
      ∃ sent, stream.sent = responder.stream.sent ++ sent ∧
        ∀ requestMethod rest, asciiEqual requestMethod (text "HEAD") = false →
          ReadsBack responder.limits requestMethod (sent ++ rest) sent.length
            ⟨head.head.status, head.head.headers ++
              generatedFields head.head.status framing responder.disposition⟩
            (writeFragments writer fragments).2.flatten) := by
  obtain ⟨plan, hplanned, hstate, hlimits, hsuppress, hhead⟩ := beginResponseWriter_ok hbegin
  have hwrote := (Wrote.nothing framing writer hstate).writes fragments
  rw [List.nil_append] at hwrote
  obtain ⟨hlength, hchunked, hsent⟩ := finishResponseWriter_ok hwrote hfinish
  generalize (writeFragments writer fragments).2 = accepted at hlength hchunked hsent ⊢
  rw [hlimits] at hchunked
  refine ⟨hlength, fun hbody hline => ⟨plan.head ++ (framing.encode accepted ++ framing.ending), ?_, ?_⟩⟩
  · rw [hsent (hsuppress.trans hbody), hhead, List.append_assoc]
  intro requestMethod rest hmethod
  have hlimit' : responder.limits.bodyBytes ≤ 18446744073709551615 := by omega
  have hsize := hplanned.size
  have hread := planned_reaches hplanned hmethod hlimit'
    (framing.encode accepted ++ framing.ending ++ rest)
  rw [← List.append_assoc] at hread
  refine ⟨_, advanceResponseHead_of_reaches hread, rfl, fun output eof houtput => ?_⟩
  have hbodyreach := reaches_body rest hplanned.permitted hline hlimit' (by omega) hlength hchunked
  have hskip : (plan.head ++ (framing.encode accepted ++ framing.ending) ++ rest).drop
      plan.head.length = framing.encode accepted ++ framing.ending ++ rest := by
    rw [List.append_assoc, List.drop_left]
  rw [← hskip] at hbodyreach
  have hstart : plan.head.length ≤
      (plan.head ++ (framing.encode accepted ++ framing.ending) ++ rest).length := by
    rw [List.append_assoc, List.length_append]
    exact Nat.le_add_right _ _
  obtain ⟨hresult, hpayload⟩ := decodeBody_of_accepts
    (bodyDecoder (framing.selected head.head.status) responder.limits) hstart hbodyreach output eof houtput
  exact ⟨_, hresult, hpayload, List.length_append.symm⟩

/-- A responder behind a request without a body. -/
def idleResponder : Responder where
  stream := ⟨[], [], false⟩
  requestBody := ⟨⟨.complete, 0, .standard⟩, [], 0⟩
  suppressBody := false
  disposition := .close
  limits := .standard

/-- Two fragments in chunks. -/
theorem chunked_response_reads_back :
    ∃ sent, ∀ requestMethod rest, asciiEqual requestMethod (text "HEAD") = false →
      ReadsBack .standard requestMethod (sent ++ rest) sent.length
        ⟨⟨200⟩, [⟨text "transfer-encoding", text "chunked"⟩, ⟨text "connection", text "close"⟩]⟩
        [104, 105, 33] := by
  obtain ⟨sent, _, hread⟩ := (finished_response_reads_back idleResponder
    ⟨⟨⟨200⟩, []⟩, fun header hmem => by cases hmem⟩ .chunked [[104, 105], [33]] (by decide) rfl rfl).2
    rfl (by decide)
  exact ⟨sent, hread⟩

end Nocter.Http
