import Nocter.Archive.TarReader

/-!
# Archives byte by byte

A call of the reader does what single bytes do one after the other. The reader is
taken where it goes next: an exhausted body or padding has ended.
-/

namespace Nocter.Archive

open StreamDecoder

/-- What a caller sees of an archive. -/
inductive Observation where
  | entry (entry : TarEntry)
  | body (byte : UInt8)
  deriving DecidableEq

/-- What a call shows of its input. -/
def TarStep.observed (step : TarStep) (input : Bytes) (reader : TarReader) : List Observation :=
  match step with
  | .entry _ => [.entry reader.current]
  | .body _ bodyStart bodyLen => ((input.drop bodyStart).take bodyLen).map .body
  | .needsInput _ | .finished _ | .invalid _ _ => []

namespace TarReader

def settlePadding (reader : TarReader) : TarReader :=
  if reader.paddingRemaining = 0 then { reader with phase := .header }
  else { reader with phase := .padding }

def settle (reader : TarReader) : TarReader :=
  match reader.phase with
  | .body => if reader.bodyRemaining = 0 then reader.settlePadding else reader
  | .padding => reader.settlePadding
  | .header | .finished | .invalid => reader

/-- A full header, where the reader goes next. -/
def settleHeader (reader : TarReader) : List Observation × TarReader :=
  match reader.endHeader 0 with
  | .inl reader => ([], reader)
  | .inr (step, reader) => (step.observed [] reader, reader.settle)

/-- One byte. -/
def feed (reader : TarReader) (byte : UInt8) : List Observation × TarReader :=
  match reader.phase with
  | .header =>
    if reader.headerIndex + 1 < 512 then ([], reader.storeHeaderByte byte)
    else (reader.storeHeaderByte byte).settleHeader
  | .body => ([.body byte], { reader with bodyRemaining := reader.bodyRemaining - 1 }.settle)
  | .padding =>
    ([], { reader with paddingRemaining := reader.paddingRemaining - 1 }.settlePadding)
  | .finished | .invalid => ([], reader)

def decodeStep (reader : TarReader) (input : Bytes) : StreamStep TarReader Observation :=
  match reader.phase, input with
  | .finished, _ => .done
  | .invalid, _ => .fail
  | _, [] => .need
  | _, byte :: _ => .take 1 (reader.feed byte).1 (reader.feed byte).2

/-- The reader has not come to its end. -/
def Running (reader : TarReader) : Prop := reader.phase ≠ .finished ∧ reader.phase ≠ .invalid

instance (reader : TarReader) : Decidable reader.Running :=
  inferInstanceAs (Decidable (_ ∧ _))

theorem decodeStep_nil {reader : TarReader} (h : reader.Running) :
    reader.decodeStep [] = .need := by
  unfold decodeStep
  cases hphase : reader.phase with
  | finished => exact absurd hphase h.1
  | invalid => exact absurd hphase h.2
  | header => rfl
  | body => rfl
  | padding => rfl

theorem decodeStep_cons {reader : TarReader} (h : reader.Running) (byte : UInt8) (rest : Bytes) :
    reader.decodeStep (byte :: rest) = .take 1 (reader.feed byte).1 (reader.feed byte).2 := by
  unfold decodeStep
  cases hphase : reader.phase with
  | finished => exact absurd hphase h.1
  | invalid => exact absurd hphase h.2
  | header => rfl
  | body => rfl
  | padding => rfl

theorem decodeStep_finished {reader : TarReader} (h : reader.phase = .finished) (input : Bytes) :
    reader.decodeStep input = .done := by
  unfold decodeStep
  rw [h]

theorem decodeStep_invalid {reader : TarReader} (h : reader.phase = .invalid) (input : Bytes) :
    reader.decodeStep input = .fail := by
  unfold decodeStep
  rw [h]

end TarReader

/-- Archives as streams of bytes; none may end without its end marker. -/
def tarDecoder : StreamDecoder TarReader UInt8 Observation where
  step := TarReader.decodeStep
  accepting _ := False
  take_le := by
    intro reader input count out next h
    by_cases hrunning : reader.Running
    · cases input with
      | nil =>
        rw [TarReader.decodeStep_nil hrunning] at h
        cases h
      | cons byte rest =>
        rw [TarReader.decodeStep_cons hrunning] at h
        cases h
        exact Nat.succ_le_succ (Nat.zero_le _)
    · rw [TarReader.Running, not_and_or, not_not, not_not] at hrunning
      obtain hfinished | hinvalid := hrunning
      · rw [TarReader.decodeStep_finished hfinished] at h
        cases h
      · rw [TarReader.decodeStep_invalid hinvalid] at h
        cases h
  stable := by
    intro reader input more h
    by_cases hrunning : reader.Running
    · cases input with
      | nil => exact absurd (TarReader.decodeStep_nil hrunning) h
      | cons byte rest =>
        rw [List.cons_append, TarReader.decodeStep_cons hrunning,
          TarReader.decodeStep_cons hrunning]
    · rw [TarReader.Running, not_and_or, not_not, not_not] at hrunning
      obtain hfinished | hinvalid := hrunning
      · rw [TarReader.decodeStep_finished hfinished, TarReader.decodeStep_finished hfinished]
      · rw [TarReader.decodeStep_invalid hinvalid, TarReader.decodeStep_invalid hinvalid]

namespace TarReader

/-- What holds of a reader between two calls. -/
structure Valid (reader : TarReader) : Prop where
  header_length : reader.header.length = 512
  index_lt : reader.phase ≠ .invalid → reader.headerIndex < 512
  index_eq : reader.phase = .body ∨ reader.phase = .padding → reader.headerIndex = 0
  blocks_le : reader.phase = .header → reader.zeroBlocks ≤ 1
  blocks_eq : reader.phase = .body ∨ reader.phase = .padding → reader.zeroBlocks = 0

theorem valid_new : new.Valid where
  header_length := List.length_replicate
  index_lt _ := by decide
  index_eq h := by obtain h | h := h <;> cases h
  blocks_le _ := by decide
  blocks_eq h := by obtain h | h := h <;> cases h

variable {reader : TarReader}

theorem reaches_feed (h : reader.Running) (byte : UInt8) (rest : Bytes) {outs : List Observation}
    {n : ℕ} {next : TarReader} (hrest : tarDecoder.Reaches (reader.feed byte).2 rest outs n next) :
    tarDecoder.Reaches reader (byte :: rest) ((reader.feed byte).1 ++ outs) (1 + n) next :=
  .take (decodeStep_cons h byte rest) (by rwa [List.drop_one])

theorem valid_of_header (hphase : reader.phase = .header) (hlength : reader.header.length = 512)
    (hindex : reader.headerIndex < 512) (hblocks : reader.zeroBlocks ≤ 1) : reader.Valid where
  header_length := hlength
  index_lt _ := hindex
  index_eq h := by rw [hphase] at h; simp at h
  blocks_le _ := hblocks
  blocks_eq h := by rw [hphase] at h; simp at h

theorem valid_of_start (hlength : reader.header.length = 512) (hindex : reader.headerIndex = 0)
    (hblocks : reader.zeroBlocks = 0) : reader.Valid where
  header_length := hlength
  index_lt _ := by omega
  index_eq _ := hindex
  blocks_le _ := by omega
  blocks_eq _ := hblocks

theorem valid_of_end (hphase : reader.phase = .finished ∨ reader.phase = .invalid)
    (hlength : reader.header.length = 512)
    (hindex : reader.phase = .finished → reader.headerIndex = 0) : reader.Valid where
  header_length := hlength
  index_lt h := by rw [hindex (hphase.resolve_right h)]; decide
  index_eq h := by obtain hend | hend := hphase <;> rw [hend] at h <;> simp at h
  blocks_le h := by obtain hend | hend := hphase <;> rw [hend] at h <;> cases h
  blocks_eq h := by obtain hend | hend := hphase <;> rw [hend] at h <;> simp at h

theorem running_of_entry (h : reader.phase = .body ∨ reader.phase = .padding) : reader.Running := by
  obtain h | h := h <;> rw [Running, h] <;> decide

theorem running_of_header (h : reader.phase = .header) : reader.Running := by
  rw [Running, h]
  decide

theorem settle_of_header (h : reader.phase = .header) : reader.settle = reader := by
  unfold settle
  rw [h]

theorem storeHeaderByte_valid (h : reader.Valid) (hphase : reader.phase = .header)
    (hindex : reader.headerIndex + 1 < 512) (byte : UInt8) : (reader.storeHeaderByte byte).Valid :=
  valid_of_header hphase (List.length_set.trans h.header_length) hindex (h.blocks_le hphase)

/-- The header is filled by the bytes one after the other. -/
theorem fillHeader_spec (h : reader.Valid) (hphase : reader.phase = .header) (inputIndex : ℕ)
    (rest : Bytes) :
    (∃ next, reader.fillHeader inputIndex rest = ⟨next, inputIndex + rest.length, []⟩ ∧ next.Valid ∧
      next.phase = .header ∧ next.headerIndex < 512 ∧ next.inputComplete = reader.inputComplete ∧
      tarDecoder.Reaches reader rest [] rest.length next) ∨
    ∃ full n, reader.fillHeader inputIndex rest = ⟨full, inputIndex + n, rest.drop n⟩ ∧ 0 < n ∧
      n ≤ rest.length ∧ full.header.length = 512 ∧ full.headerIndex = 512 ∧ full.phase = .header ∧
      full.zeroBlocks = reader.zeroBlocks ∧ full.inputComplete = reader.inputComplete ∧
      ∀ {outs : List Observation} {m : ℕ} {next : TarReader},
        tarDecoder.Reaches full.settleHeader.2 (rest.drop n) outs m next →
        tarDecoder.Reaches reader rest (full.settleHeader.1 ++ outs) (n + m) next := by
  induction rest generalizing reader inputIndex with
  | nil =>
    exact Or.inl ⟨reader, rfl, h, hphase, h.index_lt (by rw [hphase]; decide), rfl, .refl _ _⟩
  | cons byte rest ih =>
    have hindex := h.index_lt (by rw [hphase]; decide)
    have hrunning := running_of_header hphase
    have hfeed : reader.feed byte = if reader.headerIndex + 1 < 512 then
        ([], reader.storeHeaderByte byte) else (reader.storeHeaderByte byte).settleHeader := by
      unfold feed
      rw [hphase]
    rw [fillHeader, if_pos hindex]
    by_cases hmore : reader.headerIndex + 1 < 512
    · rw [if_pos hmore] at hfeed
      have hvalid := storeHeaderByte_valid h hphase hmore byte
      obtain ⟨next, hfill, hnext, hnextPhase, hnextIndex, hcomplete, hreach⟩ |
          ⟨full, n, hfill, hpositive, hle, hlength, hfull, hfullPhase, hblocks, hcomplete, hreach⟩ :=
        ih hvalid hphase (inputIndex + 1)
      · refine Or.inl ⟨next, ?_, hnext, hnextPhase, hnextIndex, hcomplete, ?_⟩
        · rw [hfill, List.length_cons]
          congr 1
          omega
        · have hstep := reaches_feed hrunning byte rest (by rw [hfeed]; exact hreach)
          rw [hfeed] at hstep
          rw [List.length_cons, Nat.add_comm]
          exact hstep
      · refine Or.inr ⟨full, n + 1, ?_, Nat.succ_pos n, ?_, hlength, hfull, hfullPhase, hblocks,
          hcomplete, fun hnext => ?_⟩
        · rw [hfill, List.drop_succ_cons]
          congr 1
          omega
        · rw [List.length_cons]
          omega
        · rw [List.drop_succ_cons] at hnext
          have hstep := reaches_feed hrunning byte rest (by rw [hfeed]; exact hreach hnext)
          rw [hfeed, List.nil_append, ← Nat.add_assoc, Nat.add_comm 1 n] at hstep
          exact hstep
    · rw [if_neg hmore] at hfeed
      have hstop : (reader.storeHeaderByte byte).fillHeader (inputIndex + 1) rest =
          ⟨reader.storeHeaderByte byte, inputIndex + 1, rest⟩ := by
        cases rest with
        | nil => rfl
        | cons next rest =>
          rw [fillHeader, if_neg]
          exact hmore
      refine Or.inr ⟨reader.storeHeaderByte byte, 1, ?_, Nat.one_pos, ?_,
        List.length_set.trans h.header_length, ?_, hphase, rfl, rfl, fun hnext => ?_⟩
      · rw [hstop, List.drop_one]
        rfl
      · rw [List.length_cons]
        omega
      · change reader.headerIndex + 1 = 512
        omega
      · rw [List.drop_one, List.tail_cons] at hnext
        have hstep := reaches_feed hrunning byte rest (by rw [hfeed]; exact hnext)
        rw [hfeed] at hstep
        exact hstep

theorem settle_of_padding (h : reader.phase = .padding) : reader.settle = reader.settlePadding := by
  unfold settle
  rw [h]

/-- The padding is skipped byte by byte. -/
theorem skipPadding_spec (hphase : reader.phase = .padding) (inputIndex : ℕ) (rest : Bytes) :
    (∃ remaining, reader.skipPadding inputIndex rest =
        ⟨{ reader with paddingRemaining := remaining + 1 }, inputIndex + rest.length, []⟩ ∧
      tarDecoder.Reaches reader.settle rest [] rest.length
        { reader with paddingRemaining := remaining + 1 }) ∨
    ∃ n, reader.skipPadding inputIndex rest =
        ⟨{ reader with paddingRemaining := 0 }, inputIndex + n, rest.drop n⟩ ∧ n ≤ rest.length ∧
      tarDecoder.Reaches reader.settle rest [] n
        { reader with phase := .header, paddingRemaining := 0 } := by
  rw [settle_of_padding hphase]
  induction rest generalizing reader inputIndex with
  | nil =>
    unfold settlePadding
    by_cases hzero : reader.paddingRemaining = 0
    · have hself : { reader with paddingRemaining := 0 } = reader := by rw [← hzero]
      refine Or.inr ⟨0, ?_, Nat.le_refl _, ?_⟩
      · rw [skipPadding, hself]
        rfl
      · rw [if_pos hzero]
        have hheader : { reader with phase := .header, paddingRemaining := 0 } =
            { reader with phase := .header } := by rw [← hzero]
        rw [hheader]
        exact .refl _ _
    · obtain ⟨remaining, hremaining⟩ := Nat.exists_eq_succ_of_ne_zero hzero
      have hself : { reader with paddingRemaining := remaining + 1 } = reader := by
        rw [← Nat.succ_eq_add_one, ← hremaining]
      refine Or.inl ⟨remaining, ?_, ?_⟩
      · rw [skipPadding, hself]
        rfl
      · rw [if_neg hzero, hself, ← hphase]
        exact .refl _ _
  | cons byte rest ih =>
    by_cases hzero : reader.paddingRemaining = 0
    · have hself : { reader with paddingRemaining := 0 } = reader := by rw [← hzero]
      refine Or.inr ⟨0, ?_, Nat.zero_le _, ?_⟩
      · rw [skipPadding, if_neg (not_not.mpr hzero), hself]
        rfl
      · have hheader : { reader with phase := .header, paddingRemaining := 0 } =
            { reader with phase := .header } := by rw [← hzero]
        rw [settlePadding, if_pos hzero, hheader]
        exact .refl _ _
    · have hpadding : reader.settlePadding = reader := by
        rw [settlePadding, if_neg hzero, ← hphase]
      have hrunning : reader.Running := by
        rw [Running, hphase]
        decide
      have hfeed : reader.feed byte = ([],
          { reader with paddingRemaining := reader.paddingRemaining - 1 }.settlePadding) := by
        unfold feed
        rw [hphase]
      rw [skipPadding, if_pos hzero, hpadding]
      obtain ⟨remaining, hskip, hreach⟩ | ⟨n, hskip, hle, hreach⟩ :=
        @ih { reader with paddingRemaining := reader.paddingRemaining - 1 } hphase (inputIndex + 1)
      · refine Or.inl ⟨remaining, ?_, ?_⟩
        · rw [hskip, List.length_cons]
          congr 1
          omega
        · have hstep := reaches_feed hrunning byte rest (by rw [hfeed]; exact hreach)
          rw [hfeed] at hstep
          rw [List.length_cons, Nat.add_comm]
          exact hstep
      · refine Or.inr ⟨n + 1, ?_, Nat.succ_le_succ hle, ?_⟩
        · rw [hskip, List.drop_succ_cons]
          congr 1
          omega
        · have hstep := reaches_feed hrunning byte rest (by rw [hfeed]; exact hreach)
          rw [hfeed] at hstep
          rw [Nat.add_comm]
          exact hstep

/-- A body is taken byte by byte. -/
theorem reaches_body (hphase : reader.phase = .body) {count : ℕ} {rest : Bytes}
    (hcount : count ≤ reader.bodyRemaining) (hrest : count ≤ rest.length) :
    tarDecoder.Reaches reader.settle rest ((rest.take count).map .body) count
      { reader with bodyRemaining := reader.bodyRemaining - count }.settle := by
  induction count generalizing reader rest with
  | zero =>
    rw [List.take_zero, List.map_nil, Nat.sub_zero]
    exact .refl _ _
  | succ count ih =>
    cases rest with
    | nil => exact absurd hrest (Nat.not_succ_le_zero _)
    | cons byte rest =>
      have hsettle : reader.settle = reader := by
        unfold settle
        rw [hphase]
        exact if_neg (by omega)
      have hrunning : reader.Running := by
        rw [Running, hphase]
        decide
      have hfeed : reader.feed byte = ([.body byte],
          { reader with bodyRemaining := reader.bodyRemaining - 1 }.settle) := by
        unfold feed
        rw [hphase]
      have hmore := @ih { reader with bodyRemaining := reader.bodyRemaining - 1 } hphase rest
        (Nat.le_sub_one_of_lt hcount) (Nat.le_of_succ_le_succ hrest)
      have hstep := reaches_feed hrunning byte rest (by rw [hfeed]; exact hmore)
      rw [hfeed] at hstep
      rw [hsettle, List.take_succ_cons, List.map_cons]
      dsimp only at hstep
      rw [Nat.sub_sub, Nat.add_comm 1 count] at hstep
      exact hstep

end TarReader

end Nocter.Archive
