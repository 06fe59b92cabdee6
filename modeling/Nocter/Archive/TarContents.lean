import Nocter.Archive.TarCalls

/-!
# What an archive contains

Every entry that the reader reports has a safe path, and its body has the size
that its header declares. A header that is rejected for its path has already
changed the path of the entry before it.
-/

namespace Nocter.Archive

open StreamDecoder

/-- The entries seen so far with the bytes of their bodies. -/
def record (entries : List (TarEntry × Bytes)) : Observation → List (TarEntry × Bytes)
  | .entry entry => entries ++ [(entry, [])]
  | .body byte =>
    match entries.getLast? with
    | none => entries
    | some (entry, body) => entries.dropLast ++ [(entry, body ++ [byte])]

def contents (log : List Observation) : List (TarEntry × Bytes) := log.foldl record []

/-- Every component in front of the first `..` is left out, or the path is absolute. -/
def LeavesNothing (raw : Bytes) : Prop :=
  raw[0]? = some 47 ∨
    ∀ component ∈ beforeParent (raw.splitOn 47), component = [] ∨ component = [46]

theorem remains_eq_nil_iff {raw : Bytes} : remains raw = [] ↔ LeavesNothing raw := by
  unfold remains LeavesNothing
  split
  · next h => simp [h]
  · next h =>
    rw [intercalate_eq_nil (fun component hmem => (mem_kept.mp hmem).2.1), kept,
      List.filter_eq_nil_iff]
    simp only [decide_eq_true_eq, not_and_or, not_not, h, false_or]

namespace TarReader

variable {reader : TarReader}

/-- A full header that passes every check but the one of its path. -/
def Misplaced (full : TarReader) : Prop :=
  full.zeroBlocks = 0 ∧ ∃ bodySize rawPath,
    checkHeader full.header = .ok (bodySize, rawPath) ∧ LeavesNothing rawPath.bytes

/-- The next byte completes a header behind an entry, and nothing is left of its path. -/
def Spoils (reader : TarReader) (byte : UInt8) : Prop :=
  reader.phase = .header ∧ 512 ≤ reader.headerIndex + 1 ∧ reader.hasEntry = true ∧
    (reader.storeHeaderByte byte).Misplaced

/-- The path of the entry that the reader lends is safe. -/
def Exposed (reader : TarReader) : Prop :=
  ∀ entry, reader.entry = some entry → SafePath entry.normalizedPath.bytes

theorem checkHeader_of_zero {header : Bytes} (h : headerIsZero header = true) :
    checkHeader header = .error .unsupportedHeader := by
  unfold checkHeader
  rw [if_pos]
  intro hmagic
  have hmem : (117 : UInt8) ∈ field header 257 265 := by
    rw [hmagic]
    exact List.mem_cons_self ..
  have hzero := List.all_eq_true.mp h 117 (List.mem_of_mem_drop (List.mem_of_mem_take hmem))
  simp at hzero

theorem settle_body (h : reader.phase = .body) :
    (reader.settle.phase = .body ↔ reader.settle.bodyRemaining ≠ 0) ∧
      reader.settle.bodyRemaining = reader.bodyRemaining := by
  unfold settle settlePadding
  rw [h]
  dsimp only
  split
  · next hzero => split <;> simp [hzero]
  · next hsome => simp [h, hsome]

/-- A full header is the end, an entry, or a failure that may have changed the path. -/
theorem settleHeader_cases {full : TarReader} (hphase : full.phase = .header) :
    (∃ next, full.settleHeader = ([], next) ∧ next.phase ≠ .body ∧
      next.bodyRemaining = full.bodyRemaining ∧ next.hasEntry = full.hasEntry ∧
      (next.current = full.current ∧ ¬ full.Misplaced ∨ full.zeroBlocks = 0 ∧
        ∃ bodySize rawPath, checkHeader full.header = .ok (bodySize, rawPath) ∧
          next.current.normalizedPath.bytes = remains rawPath.bytes)) ∨
    ∃ entry next, full.settleHeader = ([.entry entry], next) ∧ next.hasEntry = true ∧
      next.current = entry ∧ SafePath entry.normalizedPath.bytes ∧
      next.bodyRemaining = entry.bodySize ∧ (next.phase = .body ↔ next.bodyRemaining ≠ 0) ∧
      ¬ full.Misplaced := by
  unfold settleHeader endHeader
  by_cases hzero : headerIsZero full.header
  · have hplaced : ¬ full.Misplaced := by
      rintro ⟨_, bodySize, rawPath, hcheck, _⟩
      rw [checkHeader_of_zero hzero] at hcheck
      cases hcheck
    rw [if_pos hzero]
    dsimp only
    by_cases htwo : full.zeroBlocks + 1 = 2
    · rw [if_pos htwo]
      exact Or.inl ⟨_, rfl, (fun h => by cases h), rfl, rfl, Or.inl ⟨rfl, hplaced⟩⟩
    · rw [if_neg htwo]
      refine Or.inl ⟨_, rfl, ?_, rfl, rfl, Or.inl ⟨rfl, hplaced⟩⟩
      change full.phase ≠ .body
      rw [hphase]
      decide
  rw [if_neg hzero]
  by_cases hmarker : full.zeroBlocks ≠ 0
  · rw [if_pos hmarker]
    exact Or.inl ⟨_, rfl, (fun h => by cases h), rfl, rfl, Or.inl ⟨rfl, fun h => hmarker h.1⟩⟩
  rw [if_neg hmarker]
  rw [not_not] at hmarker
  unfold parseEntry
  cases hcheck : checkHeader full.header with
  | error failure =>
    refine Or.inl ⟨_, rfl, (fun h => by cases h), rfl, rfl, Or.inl ⟨rfl, ?_⟩⟩
    rintro ⟨_, bodySize, rawPath, hok, _⟩
    rw [hcheck] at hok
    cases hok
  | ok checked =>
    obtain ⟨bodySize, rawPath⟩ := checked
    have hspec := normalizePath_spec rawPath.bounded
    dsimp only
    cases hpath : normalizePath rawPath.bytes with
    | mk validation path =>
      rw [hpath] at hspec
      dsimp only at hspec
      cases validation with
      | invalid failure =>
        exact Or.inl ⟨_, rfl, (fun h => by cases h), rfl, rfl,
          Or.inr ⟨hmarker, bodySize, rawPath, rfl, hspec.1⟩⟩
      | ready =>
        have hsome : remains rawPath.bytes ≠ [] := by
          obtain ⟨_, hsome⟩ | hinvalid := hspec.2
          · exact hsome
          · cases hinvalid
        have hsafe := remains_safe (checkHeader_utf8 hcheck) hsome
        rw [← hspec.1] at hsafe
        refine Or.inr ⟨_, _, rfl, ?_, ?_, hsafe, ?_, ?_, ?_⟩
        · exact settle_hasEntry _
        · exact settle_current _
        · exact (settle_body rfl).2
        · exact (settle_body rfl).1
        · rintro ⟨_, size, raw, hok, hnothing⟩
          cases hcheck.symm.trans hok
          exact hsome (remains_eq_nil_iff.mpr hnothing)

end TarReader

/-- The entries seen so far: all bodies are complete, but the last one misses `remaining` bytes. -/
inductive Tally : List (TarEntry × Bytes) → ℕ → Prop
  | none : Tally [] 0
  | last {done : List (TarEntry × Bytes)} {entry : TarEntry} {body : Bytes} {remaining : ℕ}
      (hdone : ∀ seen ∈ done, SafePath seen.1.normalizedPath.bytes ∧
        seen.2.length = seen.1.bodySize)
      (hentry : SafePath entry.normalizedPath.bytes)
      (hbody : body.length + remaining = entry.bodySize) :
      Tally (done ++ [(entry, body)]) remaining

theorem Tally.entry {entries : List (TarEntry × Bytes)} (h : Tally entries 0) {entry : TarEntry}
    (hentry : SafePath entry.normalizedPath.bytes) :
    Tally (record entries (.entry entry)) entry.bodySize := by
  refine .last ?_ hentry (Nat.zero_add _)
  cases h with
  | none => simp
  | @last done last body _ hdone hlast hbody =>
    intro seen hseen
    rw [List.mem_append, List.mem_singleton] at hseen
    obtain hseen | rfl := hseen
    · exact hdone seen hseen
    · exact ⟨hlast, hbody⟩

theorem Tally.body {entries : List (TarEntry × Bytes)} {remaining : ℕ}
    (h : Tally entries (remaining + 1)) (byte : UInt8) :
    Tally (record entries (.body byte)) remaining := by
  cases h with
  | @last done entry body _ hdone hentry hbody =>
    rw [record, List.getLast?_concat, List.dropLast_concat]
    refine .last hdone hentry ?_
    rw [List.length_append, List.length_singleton]
    omega

theorem contents_append (log outs : List Observation) :
    contents (log ++ outs) = outs.foldl record (contents log) := List.foldl_append ..

namespace TarReader

variable {reader : TarReader}

/-- What was seen on the way to this reader. -/
structure Seen (log : List Observation) (reader : TarReader) : Prop where
  body_iff : reader.phase = .body ↔ reader.bodyRemaining ≠ 0
  tally : Tally (contents log) reader.bodyRemaining

theorem seen_new : new.Seen [] where
  body_iff := ⟨(fun h => by cases h), fun h => absurd rfl h⟩
  tally := .none

theorem exposed_new : new.Exposed := by
  intro entry h
  cases h

theorem feed_of_header (h : reader.phase = .header) (byte : UInt8) :
    reader.feed byte = if reader.headerIndex + 1 < 512 then ([], reader.storeHeaderByte byte)
      else (reader.storeHeaderByte byte).settleHeader := by
  unfold feed
  rw [h]

theorem Seen.feed {log : List Observation} (h : reader.Seen log) (hrunning : reader.Running)
    (byte : UInt8) : (reader.feed byte).2.Seen (log ++ (reader.feed byte).1) := by
  cases hphase : reader.phase with
  | finished => exact absurd hphase hrunning.1
  | invalid => exact absurd hphase hrunning.2
  | header =>
    have hzero : reader.bodyRemaining = 0 := by
      by_contra hsome
      rw [h.body_iff.mpr hsome] at hphase
      cases hphase
    rw [feed_of_header hphase]
    by_cases hmore : reader.headerIndex + 1 < 512
    · rw [if_pos hmore, List.append_nil]
      exact ⟨h.body_iff, h.tally⟩
    · rw [if_neg hmore]
      obtain ⟨next, heq, hnext, hremaining, _⟩ |
          ⟨entry, next, heq, _, _, hsafe, hremaining, hbody, _⟩ :=
        @settleHeader_cases (reader.storeHeaderByte byte) hphase
      · rw [heq, List.append_nil]
        have hnone : next.bodyRemaining = 0 := hremaining.trans hzero
        refine ⟨⟨fun hother => absurd hother hnext, fun hsome => absurd hnone hsome⟩, ?_⟩
        rw [hnone, ← hzero]
        exact h.tally
      · rw [heq]
        refine ⟨hbody, ?_⟩
        rw [contents_append, hremaining]
        have htally := h.tally
        rw [hzero] at htally
        exact htally.entry hsafe
  | body =>
    obtain ⟨remaining, hremaining⟩ := Nat.exists_eq_succ_of_ne_zero (h.body_iff.mp hphase)
    have htally := h.tally
    rw [hremaining] at htally
    unfold TarReader.feed
    rw [hphase]
    dsimp only
    have hsettle := @settle_body { reader with bodyRemaining := reader.bodyRemaining - 1 } hphase
    rw [hphase] at hsettle
    refine ⟨hsettle.1, ?_⟩
    rw [contents_append, hsettle.2]
    dsimp only
    rw [hremaining]
    exact htally.body byte
  | padding =>
    have hzero : reader.bodyRemaining = 0 := by
      by_contra hsome
      rw [h.body_iff.mpr hsome] at hphase
      cases hphase
    have htally := h.tally
    unfold TarReader.feed settlePadding
    rw [hphase]
    dsimp only
    rw [List.append_nil]
    split
    · exact ⟨⟨(fun hother => by cases hother), fun hsome => absurd hzero hsome⟩, htally⟩
    · exact ⟨⟨(fun hother => by cases hother), fun hsome => absurd hzero hsome⟩, htally⟩

theorem decodeStep_take {input : Bytes} {count : ℕ} {out : List Observation} {next : TarReader}
    (h : tarDecoder.step reader input = .take count out next) :
    reader.Running ∧ ∃ byte rest, input = byte :: rest ∧ count = 1 ∧
      out = (reader.feed byte).1 ∧ next = (reader.feed byte).2 := by
  change reader.decodeStep input = _ at h
  by_cases hrunning : reader.Running
  · cases input with
    | nil =>
      rw [decodeStep_nil hrunning] at h
      cases h
    | cons byte rest =>
      rw [decodeStep_cons hrunning] at h
      cases h
      exact ⟨hrunning, byte, rest, rfl, rfl, rfl, rfl⟩
  · rw [Running, not_and_or, not_not, not_not] at hrunning
    obtain hfinished | hinvalid := hrunning
    · rw [decodeStep_finished hfinished] at h
      cases h
    · rw [decodeStep_invalid hinvalid] at h
      cases h

theorem Seen.reaches {log outs : List Observation} {input : Bytes} {count : ℕ} {next : TarReader}
    (hreach : tarDecoder.Reaches reader input outs count next) (h : reader.Seen log) :
    next.Seen (log ++ outs) := by
  induction hreach generalizing log with
  | refl s input =>
    rw [List.append_nil]
    exact h
  | take hstep _ ih =>
    obtain ⟨hrunning, byte, rest, rfl, rfl, rfl, rfl⟩ := decodeStep_take hstep
    rw [← List.append_assoc]
    exact ih (h.feed hrunning byte)

/-- A byte that does not spoil the path leaves it safe. -/
theorem Exposed.feed (h : reader.Exposed) (hrunning : reader.Running) {byte : UInt8}
    (hspoils : ¬ reader.Spoils byte) : (reader.feed byte).2.Exposed := by
  have hkept : ∀ {next : TarReader}, next.hasEntry = reader.hasEntry →
      next.current = reader.current → next.Exposed := by
    intro next hhasEntry hcurrent entry hentry
    refine h entry ?_
    rw [TarReader.entry, ← hhasEntry, ← hcurrent]
    exact hentry
  cases hphase : reader.phase with
  | finished => exact absurd hphase hrunning.1
  | invalid => exact absurd hphase hrunning.2
  | header =>
    rw [feed_of_header hphase]
    by_cases hmore : reader.headerIndex + 1 < 512
    · rw [if_pos hmore]
      exact hkept rfl rfl
    · rw [if_neg hmore]
      obtain ⟨next, heq, _, _, hhasEntry, ⟨hcurrent, _⟩ | ⟨hblocks, size, raw, hcheck, hbytes⟩⟩ |
          ⟨entry, next, heq, hhasEntry, hcurrent, hsafe, _⟩ :=
        @settleHeader_cases (reader.storeHeaderByte byte) hphase
      · rw [heq]
        exact hkept hhasEntry hcurrent
      · rw [heq]
        intro entry hentry
        rw [TarReader.entry] at hentry
        split at hentry
        · cases hentry
        · next hsome =>
          rw [Bool.not_eq_false] at hsome
          rw [← Option.some.inj hentry, hbytes]
          refine remains_safe (checkHeader_utf8 hcheck) fun hnothing => hspoils ?_
          exact ⟨hphase, Nat.le_of_not_lt hmore, hhasEntry.symm.trans hsome, hblocks, size, raw,
            hcheck, remains_eq_nil_iff.mp hnothing⟩
      · rw [heq]
        intro other hother
        rw [TarReader.entry, hhasEntry, if_neg (by decide), hcurrent] at hother
        rw [← Option.some.inj hother]
        exact hsafe
  | body =>
    unfold TarReader.feed
    rw [hphase]
    exact hkept (settle_hasEntry _) (settle_current _)
  | padding =>
    unfold TarReader.feed settlePadding
    rw [hphase]
    dsimp only
    split
    · exact hkept rfl rfl
    · exact hkept rfl rfl

theorem Spoils.not_exposed {byte : UInt8} (h : reader.Spoils byte) :
    ¬ (reader.feed byte).2.Exposed := by
  obtain ⟨hphase, hfull, hsome, hblocks, size, raw, hcheck, hnothing⟩ := h
  have hplaced : (reader.storeHeaderByte byte).Misplaced := ⟨hblocks, size, raw, hcheck, hnothing⟩
  rw [feed_of_header hphase, if_neg (Nat.not_lt.mpr hfull)]
  obtain ⟨next, heq, _, _, hhasEntry, ⟨_, hnot⟩ | ⟨_, size', raw', hcheck', hbytes⟩⟩ |
      ⟨entry, next, heq, _, _, _, _, _, hnot⟩ :=
    @settleHeader_cases (reader.storeHeaderByte byte) hphase
  · exact absurd hplaced hnot
  · rw [heq]
    intro hexposed
    cases hcheck.symm.trans hcheck'
    have hentry : next.entry = some next.current := by
      rw [TarReader.entry, if_neg]
      rw [hhasEntry]
      change ¬ reader.hasEntry = false
      rw [hsome]
      decide
    apply (hexposed _ hentry).nonempty
    rw [hbytes]
    exact remains_eq_nil_iff.mpr hnothing
  · exact absurd hplaced hnot

end TarReader

end Nocter.Archive
