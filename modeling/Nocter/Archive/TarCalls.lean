import Nocter.Archive.TarDecoder

/-!
# Calls of the reader of archives

A call makes some passes and returns what the bytes it took show. At the end of
the input a running reader fails where it stands, and a reader that came to its
end repeats its answer.
-/

namespace Nocter.Archive

open StreamDecoder

namespace TarReader

variable {reader : TarReader}

/-- What a call returns after it has taken `n` bytes of its input, `m` of them before this pass. -/
inductive Returns (next : TarReader) (m n : ℕ) (rest : Bytes) :
    TarStep → List Observation → Prop
  | needsInput (hrunning : next.Running) (hall : n = rest.length) :
      Returns next m n rest (.needsInput (m + n)) []
  | entry (hrunning : next.Running) (hpositive : 0 < n) :
      Returns next m n rest (.entry (m + n)) [.entry next.current]
  | body (hrunning : next.Running) (hpositive : 0 < n) :
      Returns next m n rest (.body (m + n) m n) ((rest.take n).map .body)
  | finished (hphase : next.phase = .finished) (hpositive : 0 < n) :
      Returns next m n rest (.finished (m + n)) []
  | invalid {failure : TarFailure} (hphase : next.phase = .invalid) (hfailure : next.failure = failure)
      (hpositive : 0 < n) : Returns next m n rest (.invalid (m + n) failure) []

/-- How many passes are left at most. -/
def rank (reader : TarReader) : ℕ :=
  match reader.phase with
  | .body => 4
  | .padding => 3
  | .header => 2 - reader.zeroBlocks
  | .finished | .invalid => 1

theorem rank_of_body (h : reader.phase = .body) : reader.rank = 4 := by
  unfold rank
  rw [h]

theorem rank_of_padding (h : reader.phase = .padding) : reader.rank = 3 := by
  unfold rank
  rw [h]

theorem rank_of_header (h : reader.phase = .header) : reader.rank = 2 - reader.zeroBlocks := by
  unfold rank
  rw [h]

theorem endHeader_spec {full : TarReader} (hlength : full.header.length = 512)
    (hphase : full.phase = .header) (hblocks : full.zeroBlocks ≤ 1)
    (hopen : full.inputComplete = false) (m : ℕ) {n : ℕ} (hn : 0 < n) (rest : Bytes) :
    (∃ next, full.endHeader (m + n) = .inl next ∧ full.settleHeader = ([], next) ∧ next.Valid ∧
      next.phase = .header ∧ next.inputComplete = false ∧
      full.zeroBlocks = 0 ∧ next.zeroBlocks = 1) ∨
    ∃ step next out, full.endHeader (m + n) = .inr (step, next) ∧
      full.settleHeader = (out, next.settle) ∧ next.Valid ∧ next.inputComplete = false ∧
      Returns next m n rest step out := by
  unfold settleHeader endHeader
  by_cases hzero : headerIsZero full.header
  · rw [if_pos hzero, if_pos hzero]
    dsimp only
    by_cases htwo : full.zeroBlocks + 1 = 2
    · rw [if_pos htwo, if_pos htwo]
      exact Or.inr ⟨_, _, _, rfl, rfl, valid_of_end (Or.inl rfl) hlength (fun _ => rfl), hopen,
        .finished rfl hn⟩
    · rw [if_neg htwo, if_neg htwo]
      have hnone : full.zeroBlocks = 0 := by omega
      refine Or.inl ⟨_, rfl, rfl, valid_of_header hphase hlength (Nat.succ_pos 511) ?_, hphase,
        hopen, hnone, congrArg (· + 1) hnone⟩
      exact (congrArg (· + 1) hnone).le
  · rw [if_neg hzero, if_neg hzero]
    by_cases hmarker : full.zeroBlocks ≠ 0
    · rw [if_pos hmarker, if_pos hmarker]
      exact Or.inr ⟨_, _, _, rfl, rfl, valid_of_end (Or.inr rfl) hlength (fun h => by cases h),
        hopen, .invalid rfl rfl hn⟩
    rw [if_neg hmarker, if_neg hmarker]
    rw [not_not] at hmarker
    unfold parseEntry
    cases checkHeader full.header with
    | error failure =>
      exact Or.inr ⟨_, _, _, rfl, rfl, valid_of_end (Or.inr rfl) hlength (fun h => by cases h),
        hopen, .invalid rfl rfl hn⟩
    | ok checked =>
      obtain ⟨bodySize, raw⟩ := checked
      dsimp only
      cases normalizePath raw.bytes with
      | mk validation path =>
        cases validation with
        | invalid failure =>
          exact Or.inr ⟨_, _, _, rfl, rfl,
            valid_of_end (Or.inr rfl) hlength (fun h => by cases h), hopen, .invalid rfl rfl hn⟩
        | ready =>
          exact Or.inr ⟨_, _, _, rfl, rfl, valid_of_start hlength rfl hmarker, hopen,
            .entry (running_of_entry (Or.inl rfl)) hn⟩

theorem rank_pos (h : reader.Valid) : 0 < reader.rank := by
  cases hphase : reader.phase with
  | header =>
    have hblocks := h.blocks_le hphase
    rw [rank_of_header hphase]
    omega
  | body => exact (rank_of_body hphase).symm ▸ Nat.succ_pos 3
  | padding => exact (rank_of_padding hphase).symm ▸ Nat.succ_pos 2
  | finished =>
    unfold rank
    rw [hphase]
    exact Nat.one_pos
  | invalid =>
    unfold rank
    rw [hphase]
    exact Nat.one_pos

/-- One pass of a running reader goes on or returns. -/
theorem tarPass_spec (h : reader.Valid) (hrunning : reader.Running)
    (hopen : reader.inputComplete = false) (m : ℕ) (rest : Bytes) :
    (∃ next n, tarPass ⟨reader, m, rest⟩ = .inl ⟨next, m + n, rest.drop n⟩ ∧ n ≤ rest.length ∧
      next.Valid ∧ next.Running ∧ next.inputComplete = false ∧ next.rank < reader.rank ∧
      tarDecoder.Reaches reader.settle rest [] n next.settle) ∨
    ∃ step next n out, tarPass ⟨reader, m, rest⟩ = .inr (step, next) ∧ n ≤ rest.length ∧
      next.Valid ∧ next.inputComplete = false ∧ Returns next m n rest step out ∧
      tarDecoder.Reaches reader.settle rest out n next.settle := by
  unfold tarPass
  dsimp only
  cases hphase : reader.phase with
  | finished => exact absurd hphase hrunning.1
  | invalid => exact absurd hphase hrunning.2
  | header =>
    dsimp only
    rw [settle_of_header hphase]
    obtain ⟨next, hfill, hnext, hnextPhase, hindex, hcomplete, hreach⟩ |
        ⟨full, n, hfill, hpositive, hle, hlength, hfull, hfullPhase, hblocks, hcomplete, hreach⟩ :=
      fillHeader_spec h hphase m rest
    · rw [hopen] at hcomplete
      rw [hfill]
      dsimp only
      rw [if_pos hindex, tarInputExhausted, if_pos hcomplete]
      refine Or.inr ⟨_, next, rest.length, [], rfl, Nat.le_refl _, hnext, hcomplete,
        .needsInput (running_of_header hnextPhase) rfl, ?_⟩
      rw [settle_of_header hnextPhase]
      exact hreach
    · rw [hopen] at hcomplete
      rw [hfill]
      dsimp only
      rw [if_neg (by omega)]
      have hend : tarDecoder.Reaches reader rest full.settleHeader.1 n full.settleHeader.2 := by
        have hstop := hreach (.refl full.settleHeader.2 (rest.drop n))
        rwa [List.append_nil, Nat.add_zero] at hstop
      obtain ⟨next, heq, hsettle, hnext, hnextPhase, hcomplete, hzero, hone⟩ |
          ⟨step, next, out, heq, hsettle, hnext, hcomplete, hreturns⟩ :=
        endHeader_spec hlength hfullPhase (hblocks.trans_le (h.blocks_le hphase)) hcomplete m
          hpositive rest
      · rw [hsettle] at hend
        rw [heq]
        refine Or.inl ⟨next, n, rfl, hle, hnext, running_of_header hnextPhase, hcomplete, ?_, ?_⟩
        · rw [rank_of_header hphase, rank_of_header hnextPhase, ← hblocks, hzero, hone]
          decide
        · rw [settle_of_header hnextPhase]
          exact hend
      · rw [hsettle] at hend
        rw [heq]
        exact Or.inr ⟨step, next, n, out, rfl, hle, hnext, hcomplete, hreturns, hend⟩
  | body =>
    have hindex := h.index_eq (Or.inl hphase)
    have hblocks := h.blocks_eq (Or.inl hphase)
    dsimp only
    by_cases hzero : reader.bodyRemaining = 0
    · rw [if_pos hzero]
      refine Or.inl ⟨_, 0, rfl, Nat.zero_le _, valid_of_start h.header_length hindex hblocks,
        running_of_entry (Or.inr rfl), hopen, ?_, ?_⟩
      · rw [rank_of_body hphase, rank_of_padding rfl]
        decide
      · have hsettle : reader.settle = { reader with phase := .padding }.settle := by
          unfold settle
          rw [hphase]
          exact if_pos hzero
        rw [hsettle]
        exact .refl _ _
    · rw [if_neg hzero]
      by_cases hnone : rest = []
      · rw [if_pos hnone, tarInputExhausted, if_pos hopen]
        refine Or.inr ⟨_, reader, 0, [], rfl, Nat.zero_le _, h, hopen, .needsInput hrunning ?_,
          .refl _ _⟩
        rw [hnone]
        rfl
      · rw [if_neg hnone]
        have hlength : 0 < rest.length := List.length_pos_iff.mpr hnone
        have hcount : ∃ count, (if reader.bodyRemaining < rest.length then reader.bodyRemaining
            else rest.length) = count ∧ count ≤ reader.bodyRemaining ∧ count ≤ rest.length ∧
            0 < count := by
          refine ⟨_, rfl, ?_⟩
          split <;> omega
        obtain ⟨count, hcount, hle, hrest, hpositive⟩ := hcount
        have hreach := reaches_body hphase hle hrest
        rw [hphase] at hreach
        rw [hcount]
        exact Or.inr ⟨_, _, count, _, rfl, hrest,
          valid_of_start h.header_length hindex hblocks, hopen,
          .body (running_of_entry (Or.inl rfl)) hpositive, hreach⟩
  | padding =>
    have hindex := h.index_eq (Or.inr hphase)
    have hblocks := h.blocks_eq (Or.inr hphase)
    dsimp only
    obtain ⟨remaining, hskip, hreach⟩ | ⟨n, hskip, hle, hreach⟩ := skipPadding_spec hphase m rest
    · rw [hskip]
      dsimp only
      rw [if_pos (Nat.succ_ne_zero remaining), tarInputExhausted, if_pos hopen]
      refine Or.inr ⟨_, { reader with paddingRemaining := remaining + 1 }, rest.length, [], ?_,
        Nat.le_refl _, valid_of_start h.header_length hindex hblocks, hopen,
        .needsInput hrunning rfl, ?_⟩
      · rw [hphase]
      have hsettle : { reader with paddingRemaining := remaining + 1 }.settle =
          { reader with paddingRemaining := remaining + 1 } := by
        unfold settle settlePadding
        dsimp only
        rw [hphase]
        dsimp only
        rw [if_neg (Nat.succ_ne_zero remaining)]
      rw [hsettle]
      exact hreach
    · rw [hskip]
      dsimp only
      rw [if_neg (not_not.mpr rfl)]
      refine Or.inl ⟨{ reader with phase := .header, paddingRemaining := 0 }, n, rfl, hle,
        valid_of_header rfl h.header_length (hindex.trans_lt (by decide))
          (hblocks.trans_le (Nat.zero_le 1)),
        running_of_header rfl, hopen, ?_, hreach⟩
      rw [rank_of_padding hphase, rank_of_header rfl]
      omega

/-- The passes of a call. The last of them returns, after the others have taken `k` bytes. -/
theorem tarPasses {passes : ℕ} (h : reader.Valid) (hrunning : reader.Running)
    (hopen : reader.inputComplete = false) (hrank : reader.rank ≤ passes) (m : ℕ) (rest : Bytes) :
    ∃ step next k n out, Loop.within tarPass passes ⟨reader, m, rest⟩ = some (step, next) ∧
      k + n ≤ rest.length ∧ next.Valid ∧ next.inputComplete = false ∧
      Returns next (m + k) n (rest.drop k) step out ∧
      tarDecoder.Reaches reader.settle rest out (k + n) next.settle := by
  induction passes generalizing reader m rest with
  | zero => exact absurd (rank_pos h) (by omega)
  | succ passes ih =>
    obtain ⟨next, n, hpass, hle, hnext, hnextRunning, hnextOpen, hless, hreach⟩ |
        ⟨step, next, n, out, hpass, hle, hnext, hnextOpen, hreturns, hreach⟩ :=
      tarPass_spec h hrunning hopen m rest
    · obtain ⟨step, final, k, n', out, hwithin, htotal, hfinal, hfinalOpen, hreturns, hmore⟩ :=
        ih hnext hnextRunning hnextOpen (by omega) (m + n) (rest.drop n)
      rw [List.length_drop] at htotal
      refine ⟨step, final, n + k, n', out, ?_, by omega, hfinal, hfinalOpen, ?_, ?_⟩
      · rw [Loop.within_of_again hpass, hwithin]
      · rw [← Nat.add_assoc, ← List.drop_drop]
        exact hreturns
      · rw [Nat.add_assoc]
        exact hreach.trans hmore
    · refine ⟨step, next, 0, n, out, Loop.within_of_done hpass passes, by omega, hnext, hnextOpen,
        hreturns, ?_⟩
      rw [Nat.zero_add]
      exact hreach

theorem rank_le (reader : TarReader) : reader.rank ≤ 4 := by
  unfold rank
  split <;> omega

end TarReader

/-- How the reading of an archive ends. -/
inductive TarOutcome where
  | finished
  | invalid (failure : TarFailure)
  deriving DecidableEq

def TarStep.outcome : TarStep → Option TarOutcome
  | .finished _ => some .finished
  | .invalid _ failure => some (.invalid failure)
  | .needsInput _ | .entry _ | .body _ _ _ => none

namespace TarReader

variable {reader : TarReader}

/-- The reader is where the outcome says. -/
def Ended (reader : TarReader) : Option TarOutcome → Prop
  | none => reader.Running
  | some .finished => reader.phase = .finished
  | some (.invalid failure) => reader.phase = .invalid ∧ reader.failure = failure

/-- A call goes as far as single bytes go, and takes at least one unless there is none. -/
theorem advance_spec (h : reader.Valid) (hrunning : reader.Running)
    (hopen : reader.inputComplete = false) (input : Bytes) :
    ∃ step next, reader.advance input = some (step, next) ∧ next.Valid ∧
      next.inputComplete = false ∧ next.Ended step.outcome ∧ (input ≠ [] → 0 < step.inputConsumed) ∧
      tarDecoder.Reaches reader.settle input (step.observed input next) step.inputConsumed
        next.settle := by
  obtain ⟨step, next, k, n, out, hwithin, hle, hnext, hnextOpen, hreturns, hreach⟩ :=
    tarPasses h hrunning hopen (rank_le reader) 0 input
  have hcall : reader.advance input = some (step, next) := by
    rw [advance, if_neg (by rw [hopen]; decide)]
    exact hwithin
  rw [Nat.zero_add] at hreturns
  refine ⟨step, next, hcall, hnext, hnextOpen, ?_⟩
  cases hreturns with
  | needsInput hnextRunning hall =>
    refine ⟨hnextRunning, fun hsome => ?_, hreach⟩
    have hpositive := List.length_pos_iff.mpr hsome
    rw [List.length_drop] at hall
    change 0 < k + n
    omega
  | entry hnextRunning hpositive =>
    exact ⟨hnextRunning, fun _ => Nat.add_pos_right k hpositive, hreach⟩
  | body hnextRunning hpositive =>
    exact ⟨hnextRunning, fun _ => Nat.add_pos_right k hpositive, hreach⟩
  | finished hphase hpositive =>
    exact ⟨hphase, fun _ => Nat.add_pos_right k hpositive, hreach⟩
  | invalid hphase hfailure hpositive =>
    exact ⟨⟨hphase, hfailure⟩, fun _ => Nat.add_pos_right k hpositive, hreach⟩

/-- A reader that came to its end repeats its answer. -/
theorem advanceTar_ended {outcome : TarOutcome} (h : reader.Ended (some outcome)) (input : Bytes) :
    ∃ step, reader.advanceTar input = some (step, reader) ∧ step.inputConsumed = 0 ∧
      step.outcome = some outcome ∧ step.observed input reader = [] := by
  have hpass : ∃ step, tarPass ⟨reader, 0, input⟩ = .inr (step, reader) ∧ step.inputConsumed = 0 ∧
      step.outcome = some outcome ∧ step.observed input reader = [] := by
    unfold tarPass
    dsimp only
    cases outcome with
    | finished =>
      have hphase : reader.phase = .finished := h
      rw [hphase]
      exact ⟨_, rfl, rfl, rfl, rfl⟩
    | invalid failure =>
      obtain ⟨hphase, hfailure⟩ := h
      rw [hphase]
      refine ⟨_, rfl, rfl, ?_, rfl⟩
      rw [← hfailure]
      rfl
  obtain ⟨step, hpass, hstep⟩ := hpass
  exact ⟨step, Loop.within_of_done hpass 3, hstep⟩

/-- How an archive that stops here is judged. -/
def verdict (reader : TarReader) : TarOutcome :=
  match reader.phase with
  | .finished => .finished
  | .invalid => .invalid reader.failure
  | .header | .body | .padding => .invalid (eofFailure reader.phase reader.headerIndex)

section Exhausted

theorem within_header (passes : ℕ) (hphase : reader.phase = .header)
    (hindex : reader.headerIndex < 512) (hcomplete : reader.inputComplete = true) :
    Loop.within tarPass (passes + 1) ⟨reader, 0, []⟩ =
      some (reader.tarFail 0 (eofFailure .header reader.headerIndex)) := by
  refine Loop.within_of_done ?_ passes
  unfold tarPass
  dsimp only
  rw [hphase]
  dsimp only
  rw [fillHeader]
  dsimp only
  rw [if_pos hindex, tarInputExhausted, if_neg (by rw [hcomplete]; decide), hphase]

theorem within_padding (passes : ℕ) (hphase : reader.phase = .padding)
    (hindex : reader.headerIndex = 0) (hcomplete : reader.inputComplete = true) :
    Loop.within tarPass (passes + 2) ⟨reader, 0, []⟩ =
      some (reader.tarFail 0 (eofFailure reader.settlePadding.phase 0)) := by
  unfold settlePadding
  by_cases hzero : reader.paddingRemaining = 0
  · have hagain : tarPass ⟨reader, 0, []⟩ = .inl ⟨{ reader with phase := .header }, 0, []⟩ := by
      unfold tarPass
      dsimp only
      rw [hphase]
      dsimp only
      rw [skipPadding]
      dsimp only
      rw [if_neg (not_not.mpr hzero)]
    have hheader := @within_header { reader with phase := .header } passes rfl
      (hindex.trans_lt (by decide)) hcomplete
    rw [if_pos hzero, Loop.within_of_again hagain, hheader]
    dsimp only [tarFail]
    rw [hindex]
  · rw [if_neg hzero]
    refine Loop.within_of_done ?_ (passes + 1)
    unfold tarPass
    dsimp only
    rw [hphase]
    dsimp only
    rw [skipPadding]
    dsimp only
    rw [if_pos hzero, tarInputExhausted, if_neg (by rw [hcomplete]; decide), hphase]
    rfl

/-- Without more input a running reader fails where it stands. -/
theorem advanceTar_exhausted (h : reader.Valid) (hrunning : reader.Running)
    (hcomplete : reader.inputComplete = true) : reader.advanceTar [] =
      some (reader.tarFail 0 (eofFailure reader.settle.phase reader.settle.headerIndex)) := by
  unfold advanceTar settle
  cases hphase : reader.phase with
  | finished => exact absurd hphase hrunning.1
  | invalid => exact absurd hphase hrunning.2
  | header =>
    dsimp only
    rw [within_header 3 hphase (h.index_lt (by rw [hphase]; decide)) hcomplete, hphase]
  | padding =>
    have hindex := h.index_eq (Or.inr hphase)
    have hsettled : reader.settlePadding.headerIndex = 0 := by
      unfold settlePadding
      split <;> exact hindex
    dsimp only
    rw [within_padding 2 hphase hindex hcomplete, hsettled]
  | body =>
    have hindex := h.index_eq (Or.inl hphase)
    dsimp only
    by_cases hzero : reader.bodyRemaining = 0
    · have hagain : tarPass ⟨reader, 0, []⟩ = .inl ⟨{ reader with phase := .padding }, 0, []⟩ := by
        unfold tarPass
        dsimp only
        rw [hphase]
        dsimp only
        rw [if_pos hzero]
      have hsettled : reader.settlePadding.headerIndex = 0 := by
        unfold settlePadding
        split <;> exact hindex
      have hpadding := @within_padding { reader with phase := .padding } 1 rfl hindex hcomplete
      rw [if_pos hzero, Loop.within_of_again hagain, hsettled]
      exact hpadding
    · rw [if_neg hzero]
      refine Loop.within_of_done ?_ 3
      unfold tarPass
      dsimp only
      rw [hphase]
      dsimp only
      rw [if_neg hzero, if_pos rfl, tarInputExhausted, if_neg (by rw [hcomplete]; decide), hphase]

end Exhausted

theorem settle_current (reader : TarReader) : reader.settle.current = reader.current := by
  unfold settle settlePadding
  split
  · split
    · split <;> rfl
    · rfl
  · split <;> rfl
  · rfl
  · rfl
  · rfl

theorem settle_hasEntry (reader : TarReader) : reader.settle.hasEntry = reader.hasEntry := by
  unfold settle settlePadding
  split
  · split
    · split <;> rfl
    · rfl
  · split <;> rfl
  · rfl
  · rfl
  · rfl

theorem settle_headerIndex (reader : TarReader) : reader.settle.headerIndex = reader.headerIndex := by
  unfold settle settlePadding
  split
  · split
    · split <;> rfl
    · rfl
  · split <;> rfl
  · rfl
  · rfl
  · rfl

theorem settle_entry (reader : TarReader) : reader.settle.entry = reader.entry := by
  rw [entry, entry, settle_hasEntry, settle_current]

theorem running_settle (h : reader.Running) : reader.settle.Running := by
  have hpadding : reader.settlePadding.Running := by
    unfold settlePadding
    split
    · exact running_of_header rfl
    · exact running_of_entry (Or.inr rfl)
  unfold settle
  cases hphase : reader.phase with
  | header => exact h
  | padding => exact hpadding
  | finished => exact h
  | invalid => exact h
  | body =>
    dsimp only
    split
    · exact hpadding
    · exact h

theorem settle_of_ended {outcome : TarOutcome} (h : reader.Ended (some outcome)) :
    reader.settle = reader := by
  have hphase : reader.phase = .finished ∨ reader.phase = .invalid := by
    cases outcome with
    | finished => exact Or.inl h
    | invalid failure => exact Or.inr h.1
  unfold settle
  obtain hphase | hphase := hphase <;> rw [hphase]

theorem halts_of_ended {outcome : TarOutcome} (h : reader.Ended (some outcome)) (input : Bytes) :
    tarDecoder.Halts reader input := by
  cases outcome with
  | finished => exact halts_of_done (decodeStep_finished h input)
  | invalid failure => exact halts_of_fail (decodeStep_invalid h.1 input)

theorem verdict_of_ended {outcome : TarOutcome} (h : reader.Ended (some outcome)) :
    reader.verdict = outcome := by
  unfold verdict
  cases outcome with
  | finished =>
    have hphase : reader.phase = .finished := h
    rw [hphase]
  | invalid failure =>
    obtain ⟨hphase, hfailure⟩ := h
    rw [hphase]
    exact congrArg _ hfailure

theorem verdict_of_running (h : reader.Running) :
    reader.verdict = .invalid (eofFailure reader.phase reader.headerIndex) := by
  unfold verdict
  cases hphase : reader.phase with
  | finished => exact absurd hphase h.1
  | invalid => exact absurd hphase h.2
  | header => rfl
  | body => rfl
  | padding => rfl

theorem settle_complete (reader : TarReader) :
    { reader with inputComplete := true }.settle = { reader.settle with inputComplete := true } := by
  unfold settle settlePadding
  dsimp only
  split
  · split
    · split <;> rfl
    · rfl
  · split <;> rfl
  · rfl
  · rfl
  · rfl

/-- The end of the input ends a running reader. -/
theorem finish_spec (h : reader.Valid) (hrunning : reader.Running) :
    ∃ step next, reader.finish = some (step, next) ∧ step.inputConsumed = 0 ∧
      step.outcome = some reader.settle.verdict ∧ next.Ended step.outcome ∧
      step.observed [] next = [] ∧ next.entry = reader.entry := by
  have hcall := @advanceTar_exhausted { reader with inputComplete := true }
    ⟨h.header_length, h.index_lt, h.index_eq, h.blocks_le, h.blocks_eq⟩ hrunning rfl
  refine ⟨_, _, hcall, rfl, ?_, ⟨rfl, rfl⟩, rfl, rfl⟩
  rw [settle_complete, verdict_of_running (running_settle hrunning)]
  rfl

end TarReader

end Nocter.Archive
