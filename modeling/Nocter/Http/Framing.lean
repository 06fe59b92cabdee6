import Nocter.Http.BodyRuns
import Nocter.Http.RequestRuns
import Nocter.Http.ResponseRuns

/-!
# One framing for every accepted head

The evidence collected from the fields decides the body framing. What the
scanners of field values accept is stated in terms of the items of a list.
-/

namespace Nocter.Http

/-- The bytes between the blanks around an item. -/
def trim (bytes : Bytes) : Bytes := (bytes.dropWhile isBlank).rdropWhile isBlank

/-- The items of a list separated by commas. -/
def listItems (bytes : Bytes) : List Bytes := bytes.splitOnP (· = 44)

def isDecimalDigit (byte : UInt8) : Bool := 48 ≤ byte && byte ≤ 57

/-- The number that a digit string denotes. -/
def decimalNumber (digits : Bytes) : ℕ :=
  digits.foldl (fun value byte => value * 10 + (byte - 48).toNat) 0

/-- Up to blanks the item is a decimal number with this value. -/
def DenotesDecimal (item : Bytes) (value : ℕ) : Prop :=
  trim item ≠ [] ∧ (∀ byte ∈ trim item, isDecimalDigit byte = true) ∧ decimalNumber (trim item) = value

theorem decimalDigits_some {value result : ℕ} {bytes rest : Bytes}
    (h : decimalDigits value bytes = some (result, rest)) :
    ∃ digits, bytes = digits ++ rest ∧ (∀ byte ∈ digits, isDecimalDigit byte = true) ∧
      digits.foldl (fun value byte => value * 10 + (byte - 48).toNat) value = result := by
  induction bytes generalizing value with
  | nil =>
    cases h
    exact ⟨[], rfl, by simp, rfl⟩
  | cons byte bytes ih =>
    rw [decimalDigits] at h
    split at h
    · next hdigit =>
      split at h
      · cases h
      · obtain ⟨digits, hbytes, hdigits, hvalue⟩ := ih h
        refine ⟨byte :: digits, by rw [hbytes]; rfl, ?_, hvalue⟩
        intro other hother
        rcases List.mem_cons.mp hother with rfl | hother
        · simp [isDecimalDigit, hdigit]
        · exact hdigits other hother
    · cases h
      exact ⟨[], rfl, by simp, rfl⟩

theorem isBlank_of_digit {byte : UInt8} (h : isDecimalDigit byte = true) : isBlank byte = false := by
  unfold isDecimalDigit at h
  unfold isBlank
  rw [Bool.and_eq_true, decide_eq_true_eq, decide_eq_true_eq] at h
  rw [Bool.or_eq_false_iff, decide_eq_false_iff_not, decide_eq_false_iff_not]
  refine ⟨?_, ?_⟩ <;> rintro rfl <;> exact absurd h.1 (by decide)

theorem ne_comma_of_digit {byte : UInt8} (h : isDecimalDigit byte = true) : byte ≠ 44 := by
  rintro rfl
  cases h

theorem ne_comma_of_blank {byte : UInt8} (h : isBlank byte = true) : byte ≠ 44 := by
  rintro rfl
  cases h

/-- Blanks around bytes that begin and end otherwise are what `trim` removes. -/
theorem trim_blanks {before item behind : Bytes} (hbefore : ∀ byte ∈ before, isBlank byte = true)
    (hbehind : ∀ byte ∈ behind, isBlank byte = true) (hne : item ≠ [])
    (hitem : ∀ byte ∈ item, isBlank byte = false) : trim (before ++ item ++ behind) = item := by
  obtain ⟨first, rest, rfl⟩ := List.exists_cons_of_ne_nil hne
  have hfirst : isBlank first = false := hitem first (List.mem_cons_self ..)
  have hleft : (before ++ (first :: rest ++ behind)).dropWhile isBlank = first :: rest ++ behind := by
    rw [List.dropWhile_append_of_pos hbefore, List.cons_append, List.dropWhile_cons_of_neg (by simp [hfirst])]
  rw [trim, List.append_assoc, hleft]
  induction behind using List.reverseRecOn with
  | nil =>
    rw [List.append_nil, List.rdropWhile_eq_self_iff]
    intro hne'
    rw [hitem _ (List.getLast_mem hne')]
    simp
  | append_singleton behind last ih =>
    rw [← List.append_assoc, List.rdropWhile_concat_pos _ _ _ (hbehind last (by simp))]
    have hbehind' : ∀ byte ∈ behind, isBlank byte = true :=
      fun byte hbyte => hbehind byte (List.mem_append_left _ hbyte)
    refine ih hbehind' ?_
    rw [List.dropWhile_append_of_pos hbefore, List.cons_append, List.dropWhile_cons_of_neg (by simp [hfirst])]

/-- The blanks in front of the rest that a skipping loop leaves. -/
theorem blanks_append (bytes : Bytes) :
    ∃ blanks, bytes = blanks ++ bytes.dropWhile isBlank ∧ ∀ byte ∈ blanks, isBlank byte = true :=
  ⟨bytes.takeWhile isBlank, List.takeWhile_append_dropWhile.symm, fun _ hbyte =>
    List.mem_takeWhile_imp hbyte⟩

/-- The bytes in front of what follows a number and the blanks around it are an item. -/
theorem decimalItem {bytes behind : Bytes} {value : ℕ}
    (hdigits : decimalDigits 0 (bytes.dropWhile isBlank) = some (value, behind))
    (hsome : behind.length ≠ (bytes.dropWhile isBlank).length) :
    ∃ item, bytes = item ++ behind.dropWhile isBlank ∧ (∀ byte ∈ item, byte ≠ 44) ∧
      DenotesDecimal item value := by
  obtain ⟨before, hbefore, hblank⟩ := blanks_append bytes
  obtain ⟨after, hafter, hblank'⟩ := blanks_append behind
  obtain ⟨digits, hsplit, hdigit, hvalue⟩ := decimalDigits_some hdigits
  have hne : digits ≠ [] := by
    rintro rfl
    exact hsome (by rw [hsplit, List.nil_append])
  have htrim : trim (before ++ digits ++ after) = digits :=
    trim_blanks hblank hblank' hne fun byte hbyte => isBlank_of_digit (hdigit byte hbyte)
  refine ⟨before ++ digits ++ after, ?_, ?_, ?_⟩
  · conv_lhs => rw [hbefore, hsplit, hafter]
    simp only [List.append_assoc]
  · intro byte hbyte
    rw [List.mem_append, List.mem_append] at hbyte
    rcases hbyte with (hbyte | hbyte) | hbyte
    · exact ne_comma_of_blank (hblank byte hbyte)
    · exact ne_comma_of_digit (hdigit byte hbyte)
    · exact ne_comma_of_blank (hblank' byte hbyte)
  · rw [DenotesDecimal, htrim]
    exact ⟨hne, hdigit, hvalue⟩

/-- One pass reads the first item of the list and compares it with the number before it. -/
theorem decimalListStep_item {bytes : Bytes} {selected : Option ℕ} :
    (∀ value, decimalListStep (bytes, selected) = .inr (some value) →
      (∀ byte ∈ bytes, byte ≠ 44) ∧ DenotesDecimal bytes value ∧
        (selected = none ∨ selected = some value)) ∧
    (∀ rest selected', decimalListStep (bytes, selected) = .inl (rest, selected') →
      ∃ item value, bytes = item ++ 44 :: rest ∧ (∀ byte ∈ item, byte ≠ 44) ∧
        DenotesDecimal item value ∧ selected' = some value ∧
        (selected = none ∨ selected = some value)) := by
  unfold decimalListStep
  dsimp only
  by_cases hrest : bytes.dropWhile isBlank = []
  · rw [if_pos hrest]
    exact ⟨(fun _ h => by cases h), (fun _ _ h => by cases h)⟩
  rw [if_neg hrest]
  cases hdigits : decimalDigits 0 (bytes.dropWhile isBlank) with
  | none => exact ⟨(fun _ h => by cases h), (fun _ _ h => by cases h)⟩
  | some result =>
    obtain ⟨value, behind⟩ := result
    dsimp only
    by_cases hnone : behind.length = (bytes.dropWhile isBlank).length
    · rw [if_pos hnone]
      exact ⟨(fun _ h => by cases h), (fun _ _ h => by cases h)⟩
    rw [if_neg hnone]
    by_cases hother : selected.isSome = true ∧ selected ≠ some value
    · rw [if_pos hother]
      exact ⟨(fun _ h => by cases h), (fun _ _ h => by cases h)⟩
    rw [if_neg hother]
    have hselected : selected = none ∨ selected = some value := by
      cases selected with
      | none => exact Or.inl rfl
      | some number =>
        refine Or.inr ?_
        by_contra hne
        exact hother ⟨rfl, hne⟩
    obtain ⟨item, hitem, hcomma, hdenotes⟩ := decimalItem hdigits hnone
    cases hbehind : behind.dropWhile isBlank with
    | nil =>
      rw [hbehind, List.append_nil] at hitem
      subst hitem
      refine ⟨?_, (fun _ _ h => by cases h)⟩
      rintro _ ⟨⟩
      exact ⟨hcomma, hdenotes, hselected⟩
    | cons separator rest =>
      rw [hbehind] at hitem
      dsimp only
      by_cases hseparator : separator ≠ 44
      · rw [if_pos hseparator]
        exact ⟨(fun _ h => by cases h), (fun _ _ h => by cases h)⟩
      · rw [if_neg hseparator]
        rw [not_not] at hseparator
        refine ⟨(fun _ h => by cases h), ?_⟩
        rintro _ _ ⟨⟩
        exact ⟨item, value, by rw [hitem, hseparator], hcomma, hdenotes, rfl, hselected⟩

/-- A list of numbers is accepted only if every item denotes the same number. -/
theorem decimalList_items {loop : Bytes × Option ℕ} {result : Option ℕ}
    (h : Loop.Returns decimalListStep loop result) {value : ℕ} (hresult : result = some value) :
    (∀ item ∈ listItems loop.1, DenotesDecimal item value) ∧
      (loop.2 = none ∨ loop.2 = some value) := by
  induction h with
  | @done loop result hbody =>
    subst hresult
    obtain ⟨hcomma, hdenotes, hselected⟩ := decimalListStep_item.1 value hbody
    refine ⟨fun item hitem => ?_, hselected⟩
    rw [listItems, List.splitOnP_eq_singleton (fun byte hbyte => by simp [hcomma byte hbyte]),
      List.mem_singleton] at hitem
    rw [hitem]
    exact hdenotes
  | @again loop loop' result hbody _ ih =>
    obtain ⟨item, number, hbytes, hcomma, hdenotes, hselected', hselected⟩ :=
      decimalListStep_item.2 loop'.1 loop'.2 hbody
    obtain ⟨hitems, hnext⟩ := ih hresult
    rw [hselected'] at hnext
    have hnumber : number = value := by
      rcases hnext with h | h
      · cases h
      · exact Option.some.inj h
    subst hnumber
    refine ⟨fun other hother => ?_, hselected⟩
    rw [listItems, hbytes, List.splitOnP_append_cons_of_forall_mem
      (fun byte hbyte => by simp [hcomma byte hbyte]) 44 (by decide), List.mem_cons] at hother
    rcases hother with rfl | hother
    · exact hdenotes
    · exact hitems other hother

theorem parseDecimalList_items {bytes : Bytes} {value : ℕ} (h : parseDecimalList bytes = some value) :
    ∀ item ∈ listItems bytes, DenotesDecimal item value :=
  (decimalList_items (Loop.iterate_returns decimalListStep _ _ (bytes, none)) h).1

/-- Nothing is accepted behind a first coding. -/
theorem transferCodingStep_first {bytes : Bytes} {count : ℕ} :
    (transferCodingStep (bytes, count) = .inr 0 → count = 0) ∧
    ∀ rest count', transferCodingStep (bytes, count) = .inl (rest, count') →
      count = 0 ∧ count' = 1 := by
  unfold transferCodingStep
  dsimp only
  split
  · exact ⟨(fun h => by cases h), (fun _ _ h => by cases h)⟩
  split
  · exact ⟨(fun h => by cases h), (fun _ _ h => by cases h)⟩
  split
  · exact ⟨(fun h => by cases h), (fun _ _ h => by cases h)⟩
  split
  · exact ⟨(fun h => by cases h), (fun _ _ h => by cases h)⟩
  · next hcount =>
    have hzero : count = 0 := by omega
    refine ⟨fun _ => hzero, fun rest count' h => ⟨hzero, ?_⟩⟩
    split at h <;> cases h
    rw [hzero]

/-- Kind zero is a single coding. -/
theorem transferCodingStep_zero {bytes : Bytes} {count : ℕ}
    (h : transferCodingStep (bytes, count) = .inr 0) :
    asciiEqual (trim bytes) (text "chunked") = true ∧ 44 ∉ trim bytes := by
  unfold transferCodingStep at h
  dsimp only at h
  split at h
  · cases h
  split at h
  · cases h
  split at h
  · cases h
  · next hchunked =>
    split at h
    · cases h
    · split at h
      · next hdrop =>
        have hall : (bytes.dropWhile isBlank).takeWhile (fun byte => decide (byte ≠ 44)) =
            bytes.dropWhile isBlank := by
          have hle := List.drop_eq_nil_iff.mp hdrop
          have hsub := List.takeWhile_sublist (fun byte : UInt8 => decide (byte ≠ 44))
            (l := bytes.dropWhile isBlank)
          exact hsub.eq_of_length (Nat.le_antisymm hsub.length_le hle)
        rw [hall] at hchunked
        refine ⟨by simpa [trim] using hchunked, fun hcomma => ?_⟩
        have hmem : 44 ∈ bytes.dropWhile isBlank := (List.rdropWhile_prefix _ _).subset hcomma
        rw [← hall] at hmem
        simpa using List.mem_takeWhile_imp hmem
      · cases h

theorem transferCodingKind_zero {bytes : Bytes} (h : transferCodingKind bytes = 0) :
    asciiEqual (trim bytes) (text "chunked") = true ∧ 44 ∉ trim bytes := by
  have hreturns : Loop.Returns transferCodingStep (bytes, 0) 0 := Loop.iterate_eq_iff.mp h
  cases hreturns with
  | done hbody => exact transferCodingStep_zero hbody
  | @again _ loop _ hbody hrest =>
    obtain ⟨rest, count⟩ := loop
    obtain ⟨_, rfl⟩ := transferCodingStep_first.2 rest count hbody
    cases hrest with
    | done hbody' => cases transferCodingStep_first.1 hbody'
    | @again _ loop' _ hbody' _ => cases (transferCodingStep_first.2 loop'.1 loop'.2 hbody').1

/-- The fields named `name`. -/
def fieldsNamed (headers : Headers) (name : String) : Headers :=
  headers.filter fun header => header.name = text name

theorem fieldsNamed_append (headers : Headers) (name : String) (header : Header) :
    fieldsNamed (headers ++ [header]) name =
      fieldsNamed headers name ++ if header.name = text name then [header] else [] := by
  rw [fieldsNamed, List.filter_append, List.filter_singleton]
  simp [fieldsNamed, Bool.cond_eq_ite]

/-- What the retained evidence says about the retained fields. -/
structure Evidence (fields : MessageFields) : Prop where
  length : ∀ header ∈ fieldsNamed fields.headers "content-length",
    parseDecimalList header.value = some fields.contentLength
  hasLength : fields.hasContentLength = true ↔ fieldsNamed fields.headers "content-length" ≠ []
  coding : ∀ header ∈ fieldsNamed fields.headers "transfer-encoding",
    transferCodingKind header.value = fields.transferKind
  codings : (fieldsNamed fields.headers "transfer-encoding").length =
    if fields.hasTransferEncoding then 1 else 0

theorem evidence_empty : Evidence .empty :=
  ⟨by simp [MessageFields.empty, fieldsNamed], by simp [MessageFields.empty, fieldsNamed],
    by simp [MessageFields.empty, fieldsNamed], rfl⟩

theorem retainContentLength_ok {fields fields' : MessageFields} {value : Bytes}
    (h : retainContentLength fields value = .ok fields') :
    ∃ length, parseDecimalList value = some length ∧
      (fields.hasContentLength = true → fields.contentLength = length) ∧
      fields' = { fields with contentLength := length, hasContentLength := true } := by
  unfold retainContentLength at h
  split at h
  · cases h
  · next length hlength =>
    split at h
    · cases h
    · next hsame =>
      cases h
      refine ⟨length, hlength, fun hhas => ?_, rfl⟩
      by_contra hne
      exact hsame ⟨hhas, hne⟩

theorem retainTransferEncoding_ok {fields fields' : MessageFields} {value : Bytes}
    (h : retainTransferEncoding fields value = .ok fields') : fields.hasTransferEncoding = false ∧
      fields' = { fields with
        transferKind := transferCodingKind value, hasTransferEncoding := true } := by
  unfold retainTransferEncoding at h
  split at h
  · cases h
  · next hnone =>
    cases h
    exact ⟨by simpa using hnone, rfl⟩

/-- A retained field is appended; its evidence is kept if it carries any. -/
theorem retainMessageField_ok {fields fields' : MessageFields} {line : Bytes} {limits : Limits}
    (h : retainMessageField fields line limits = .ok fields') :
    ∃ header : Header, fields'.headers = fields.headers ++ [header] ∧
      ((header.name = text "content-length" ∧ header.name ≠ text "transfer-encoding" ∧
        ∃ length, parseDecimalList header.value = some length ∧
          (fields.hasContentLength = true → fields.contentLength = length) ∧
          fields' = { fields with
            headers := fields'.headers, contentLength := length, hasContentLength := true }) ∨
      (header.name = text "transfer-encoding" ∧ header.name ≠ text "content-length" ∧
        fields.hasTransferEncoding = false ∧
        fields' = { fields with
          headers := fields'.headers
          transferKind := transferCodingKind header.value
          hasTransferEncoding := true }) ∨
      (header.name ≠ text "content-length" ∧ header.name ≠ text "transfer-encoding" ∧
        fields' = { fields with headers := fields'.headers })) := by
  unfold retainMessageField at h
  dsimp only at h
  split at h
  · cases h
  split at h
  · cases h
  cases hname : headerName (line.takeWhile fun byte => decide (byte ≠ 58)) with
  | error failure =>
    rw [hname] at h
    cases h
  | ok name =>
    cases hvalue : headerValue (line.drop ((line.takeWhile fun byte => decide (byte ≠ 58)).length + 1))
      with
    | error failure =>
      rw [hname, hvalue] at h
      cases h
    | ok value =>
      rw [hname, hvalue] at h
      simp only [bind, Except.bind, pure, Except.pure] at h
      by_cases hlength : name = text "content-length"
      · rw [if_pos hlength] at h
        have hother : name ≠ text "transfer-encoding" := by
          rw [hlength]
          decide
        cases hretain : retainContentLength fields value with
        | error failure =>
          rw [hretain] at h
          cases h
        | ok retained =>
          rw [hretain] at h
          dsimp only at h
          rw [if_neg hother] at h
          obtain ⟨length, hparse, hsame, rfl⟩ := retainContentLength_ok hretain
          cases h
          exact ⟨⟨name, value⟩, rfl, Or.inl ⟨hlength, hother, length, hparse, hsame, rfl⟩⟩
      · rw [if_neg hlength] at h
        by_cases hcoding : name = text "transfer-encoding"
        · rw [if_pos hcoding] at h
          cases hretain : retainTransferEncoding fields value with
          | error failure =>
            rw [hretain] at h
            cases h
          | ok retained =>
            rw [hretain] at h
            obtain ⟨hfirst, rfl⟩ := retainTransferEncoding_ok hretain
            cases h
            exact ⟨⟨name, value⟩, rfl, Or.inr (Or.inl ⟨hcoding, hlength, hfirst, rfl⟩)⟩
        · rw [if_neg hcoding] at h
          cases h
          exact ⟨⟨name, value⟩, rfl, Or.inr (Or.inr ⟨hlength, hcoding, rfl⟩)⟩

theorem Evidence.retain {fields fields' : MessageFields} {line : Bytes} {limits : Limits}
    (h : Evidence fields) (hretain : retainMessageField fields line limits = .ok fields') :
    Evidence fields' := by
  obtain ⟨header, hheaders, ⟨hname, hother, length, hparse, hsame, hfields⟩ |
    ⟨hname, hother, hfirst, hfields⟩ | ⟨hlength, hcoding, hfields⟩⟩ := retainMessageField_ok hretain
  · rw [hfields, hheaders]
    constructor <;> dsimp only <;> rw [fieldsNamed_append]
    · rw [if_pos hname]
      intro other hmem
      rcases List.mem_append.mp hmem with hmem | hmem
      · rw [h.length other hmem, hsame (h.hasLength.mpr (List.ne_nil_of_mem hmem))]
      · rw [List.mem_singleton.mp hmem]
        exact hparse
    · rw [if_pos hname]
      simp
    · rw [if_neg hother, List.append_nil]
      exact h.coding
    · rw [if_neg hother, List.append_nil]
      exact h.codings
  · rw [hfields, hheaders]
    have hnone : fieldsNamed fields.headers "transfer-encoding" = [] := by
      have hcodings := h.codings
      rw [hfirst] at hcodings
      exact List.length_eq_zero_iff.mp hcodings
    constructor <;> dsimp only <;> rw [fieldsNamed_append]
    · rw [if_neg hother, List.append_nil]
      exact h.length
    · rw [if_neg hother, List.append_nil]
      exact h.hasLength
    · rw [if_pos hname, hnone]
      intro other hmem
      rw [List.mem_singleton.mp hmem]
    · rw [if_pos hname, hnone]
      rfl
  · rw [hfields, hheaders]
    constructor <;> dsimp only <;> rw [fieldsNamed_append]
    · rw [if_neg hlength, List.append_nil]
      exact h.length
    · rw [if_neg hlength, List.append_nil]
      exact h.hasLength
    · rw [if_neg hcoding, List.append_nil]
      exact h.coding
    · rw [if_neg hcoding, List.append_nil]
      exact h.codings

/-- The fields of a head say in one way how long its body is. -/
structure Unambiguous (headers : Headers) : Prop where
  notBoth : fieldsNamed headers "content-length" = [] ∨ fieldsNamed headers "transfer-encoding" = []
  oneLength : ∃ length, ∀ header ∈ fieldsNamed headers "content-length",
    ∀ item ∈ listItems header.value, DenotesDecimal item length
  oneCoding : (fieldsNamed headers "transfer-encoding").length ≤ 1
  chunked : ∀ header ∈ fieldsNamed headers "transfer-encoding",
    asciiEqual (trim header.value) (text "chunked") = true ∧ 44 ∉ trim header.value

/-- The framing that the fields announce; `otherwise` is the one without an announcement. -/
structure Announces (headers : Headers) (otherwise framing : BodyFraming) : Prop where
  coded : fieldsNamed headers "transfer-encoding" ≠ [] → framing = .chunked
  counted : fieldsNamed headers "content-length" ≠ [] → ∃ length, framing = .fixed length ∧
    ∀ header ∈ fieldsNamed headers "content-length",
      ∀ item ∈ listItems header.value, DenotesDecimal item length
  neither : fieldsNamed headers "transfer-encoding" = [] → fieldsNamed headers "content-length" = [] →
    framing = otherwise

theorem Evidence.unambiguous {fields : MessageFields} (h : Evidence fields)
    (hvalid : validateFramingEvidence fields = .ok ()) : Unambiguous fields.headers := by
  unfold validateFramingEvidence at hvalid
  split at hvalid
  · cases hvalid
  next hboth =>
  split at hvalid
  · cases hvalid
  split at hvalid
  · cases hvalid
  next hkind =>
  have hcodings := h.codings
  refine ⟨?_, ⟨fields.contentLength, fun header hheader => parseDecimalList_items (h.length header hheader)⟩,
    by split at hcodings <;> omega, fun header hheader => ?_⟩
  · by_cases hcoding : fields.hasTransferEncoding = true
    · refine Or.inl ?_
      by_contra hlength
      exact hboth ⟨hcoding, h.hasLength.mpr hlength⟩
    · rw [if_neg hcoding] at hcodings
      exact Or.inr (List.length_eq_zero_iff.mp hcodings)
  · have hcoding : fields.hasTransferEncoding = true := by
      by_contra hnone
      rw [if_neg hnone] at hcodings
      rw [List.length_eq_zero_iff.mp hcodings] at hheader
      cases hheader
    have hzero : fields.transferKind = 0 := by
      by_contra hne
      exact hkind ⟨hcoding, hne⟩
    exact transferCodingKind_zero ((h.coding header hheader).trans hzero)

theorem Evidence.announces {fields : MessageFields} {otherwise framing : BodyFraming}
    (h : Evidence fields) (hcoded : fields.hasTransferEncoding = true → framing = .chunked)
    (hcounted : fields.hasTransferEncoding = false → fields.hasContentLength = true →
      framing = .fixed fields.contentLength)
    (hneither : fields.hasTransferEncoding = false → fields.hasContentLength = false →
      framing = otherwise) (hvalid : validateFramingEvidence fields = .ok ()) :
    Announces fields.headers otherwise framing := by
  have hboth := (h.unambiguous hvalid).notBoth
  have hcodings := h.codings
  have hlength := h.hasLength
  cases hte : fields.hasTransferEncoding with
  | true =>
    rw [hte] at hcodings
    have hne : fieldsNamed fields.headers "transfer-encoding" ≠ [] := by
      intro hnil
      rw [hnil] at hcodings
      cases hcodings
    exact ⟨fun _ => hcoded hte, fun hcl => absurd (hboth.resolve_left hcl) hne,
      fun hnil => absurd hnil hne⟩
  | false =>
    rw [hte] at hcodings
    have hnil := List.length_eq_zero_iff.mp hcodings
    refine ⟨fun hne => absurd hnil hne, fun hcl => ?_, fun _ hcl => ?_⟩
    · exact ⟨fields.contentLength, hcounted hte (hlength.mpr hcl),
        fun header hheader => parseDecimalList_items (h.length header hheader)⟩
    · refine hneither hte ?_
      cases hhas : fields.hasContentLength with
      | true => exact absurd hcl (hlength.mp hhas)
      | false => rfl

theorem requestBodyFraming_ok {fields : MessageFields} {limits : Limits} {framing : BodyFraming}
    (h : Evidence fields) (hframing : requestBodyFraming fields limits = .ok framing) :
    Unambiguous fields.headers ∧ Announces fields.headers .bodyless framing ∧
      framing.Within limits := by
  unfold requestBodyFraming at hframing
  cases hvalid : validateFramingEvidence fields with
  | error failure =>
    rw [hvalid] at hframing
    cases hframing
  | ok _ =>
    rw [hvalid] at hframing
    simp only [bind, Except.bind, pure, Except.pure] at hframing
    refine ⟨h.unambiguous hvalid, ?_⟩
    split at hframing
    · next hte =>
      cases hframing
      exact ⟨h.announces (fun _ => rfl) (fun hno => by cases hte.symm.trans hno)
        (fun hno => by cases hte.symm.trans hno) hvalid, trivial⟩
    · next hte =>
      rw [Bool.not_eq_true] at hte
      split at hframing
      · next hcl =>
        split at hframing
        · cases hframing
        · next hle =>
          cases hframing
          exact ⟨h.announces (fun hyes => by cases hte.symm.trans hyes) (fun _ _ => rfl)
            (fun _ hno => by cases hcl.symm.trans hno) hvalid, Nat.not_lt.mp hle⟩
      · next hcl =>
        cases hframing
        exact ⟨h.announces (fun hyes => by cases hte.symm.trans hyes)
          (fun _ hyes => absurd hyes hcl) (fun _ _ => rfl) hvalid, trivial⟩

theorem responseBodyFraming_ok {fields : MessageFields} {requestMethod : Method} {status : Status}
    {limits : Limits} {framing : BodyFraming} (h : Evidence fields)
    (hframing : responseBodyFraming fields requestMethod status limits = .ok framing) :
    Unambiguous fields.headers ∧
      (if bodylessResponse requestMethod status then framing = .bodyless
        else Announces fields.headers .closeDelimited framing) ∧ framing.Within limits := by
  unfold responseBodyFraming at hframing
  cases hvalid : validateFramingEvidence fields with
  | error failure =>
    rw [hvalid] at hframing
    cases hframing
  | ok _ =>
    rw [hvalid] at hframing
    simp only [bind, Except.bind, pure, Except.pure] at hframing
    refine ⟨h.unambiguous hvalid, ?_⟩
    by_cases hbodyless : bodylessResponse requestMethod status = true
    · rw [if_pos hbodyless] at hframing ⊢
      cases hframing
      exact ⟨rfl, trivial⟩
    rw [if_neg hbodyless] at hframing ⊢
    split at hframing
    · next hte =>
      cases hframing
      exact ⟨h.announces (fun _ => rfl) (fun hno => by cases hte.symm.trans hno)
        (fun hno => by cases hte.symm.trans hno) hvalid, trivial⟩
    · next hte =>
      rw [Bool.not_eq_true] at hte
      split at hframing
      · next hcl =>
        split at hframing
        · cases hframing
        · next hle =>
          cases hframing
          exact ⟨h.announces (fun hyes => by cases hte.symm.trans hyes) (fun _ _ => rfl)
            (fun _ hno => by cases hcl.symm.trans hno) hvalid, Nat.not_lt.mp hle⟩
      · next hcl =>
        cases hframing
        exact ⟨h.announces (fun hyes => by cases hte.symm.trans hyes)
          (fun _ hyes => absurd hyes hcl) (fun _ _ => rfl) hvalid, trivial⟩

section Accepted

universe u v

variable {κ : Type u} {ρ : Type v} {grammar : HeadSyntax κ ρ} {limits : Limits}

/-- The fields read so far carry their evidence; a finished head satisfies `P`. -/
def WireEvidence (P : ρ → Prop) : HeadWire κ ρ → Prop
  | .startLine _ => True
  | .fields _ _ fields _ => Evidence fields
  | .done result => P result

theorem startLineStep_evidence {P : ρ → Prop} {t : HeadWire κ ρ} {line : Bytes} {out : List Status}
    {before count : ℕ} (h : startLineStep grammar limits before line = .take count out t) :
    WireEvidence P t := by
  unfold startLineStep at h
  split at h
  · cases h
  · split at h <;> cases h
    exact evidence_empty

theorem fieldLineStep_evidence {P : ρ → Prop}
    (hfinish : ∀ start fields count result, Evidence fields →
      grammar.finish start fields count = .ready result → P result)
    {start : κ} {used before count : ℕ} {fields : MessageFields} {line : Bytes} {out : List Status}
    {t : HeadWire κ ρ}
    (h : fieldLineStep grammar limits start used fields before line = .take count out t)
    (hfields : Evidence fields) : WireEvidence P t := by
  unfold fieldLineStep at h
  split at h
  · cases h
  split at h
  · cases hend : grammar.finish start fields before with
    | refused =>
      rw [hend] at h
      cases h
    | informational status =>
      rw [hend] at h
      cases h
      trivial
    | ready result =>
      rw [hend] at h
      cases h
      exact hfinish _ _ _ _ hfields hend
  · split at h
    · cases h
    · next retained hretain =>
      cases h
      exact Evidence.retain hfields hretain

theorem headStep_evidence {P : ρ → Prop}
    (hfinish : ∀ start fields count result, Evidence fields →
      grammar.finish start fields count = .ready result → P result)
    {s t : HeadWire κ ρ} {rest : Bytes} {out : List Status} {count : ℕ}
    (h : headStep grammar limits s rest = .take count out t) (hs : WireEvidence P s) :
    WireEvidence P t := by
  unfold headStep onLine at h
  split at h
  · cases h
  · split at h
    · cases h
    · exact startLineStep_evidence h
    · cases h
    · cases h
  · split at h
    · split at h <;> cases h
    · exact fieldLineStep_evidence hfinish h hs
    · cases h
    · cases h

theorem reaches_evidence {P : ρ → Prop}
    (hfinish : ∀ start fields count result, Evidence fields →
      grammar.finish start fields count = .ready result → P result)
    {s t : HeadWire κ ρ} {input : Bytes} {out : List Status} {count : ℕ}
    (h : (headWire grammar limits).Reaches s input out count t) (hs : WireEvidence P s) :
    WireEvidence P t := by
  induction h with
  | refl s input => exact hs
  | take hstep _ ih => exact ih (headStep_evidence hfinish hstep hs)

end Accepted

theorem validRequestHostLoop_true {headers : Headers} {count : ℕ}
    (h : validRequestHostLoop count headers = true) :
    count + (fieldsNamed headers "host").length = 1 ∧
      ∀ header ∈ fieldsNamed headers "host", header.value ≠ [] := by
  induction headers generalizing count with
  | nil => exact ⟨of_decide_eq_true h, fun _ hmem => by cases hmem⟩
  | cons header headers ih =>
    rw [validRequestHostLoop] at h
    by_cases hname : header.name = text "host"
    · rw [if_pos hname] at h
      split at h
      · cases h
      · next hvalue =>
        obtain ⟨hcount, hvalues⟩ := ih h
        have hcons : fieldsNamed (header :: headers) "host" =
            header :: fieldsNamed headers "host" := by
          rw [fieldsNamed, List.filter_cons_of_pos (by simp [hname])]
          rfl
        rw [hcons, List.length_cons]
        refine ⟨by omega, fun other hmem => ?_⟩
        rcases List.mem_cons.mp hmem with rfl | hmem
        · exact fun hnil => hvalue (by rw [hnil, List.length_nil])
        · exact hvalues other hmem
    · rw [if_neg hname] at h
      have hcons : fieldsNamed (header :: headers) "host" = fieldsNamed headers "host" := by
        rw [fieldsNamed, List.filter_cons_of_neg (by simp [hname])]
        rfl
      rw [hcons]
      exact ih h

/-- The host and the framing of an accepted request. -/
structure RequestFramed (limits : Limits) (head : RequestHead) (framing : BodyFraming) : Prop where
  unambiguous : Unambiguous head.headers
  announced : Announces head.headers .bodyless framing
  within : framing.Within limits
  oneHost : ∃ host, fieldsNamed head.headers "host" = [host] ∧ host.value ≠ []

/-- The framing of an accepted response. -/
structure ResponseFramed (limits : Limits) (requestMethod : Method) (head : ResponseHead)
    (framing : BodyFraming) : Prop where
  unambiguous : Unambiguous head.headers
  announced : if bodylessResponse requestMethod head.status then framing = .bodyless
    else Announces head.headers .closeDelimited framing
  within : framing.Within limits

theorem requestSyntax_framed {limits : Limits} {start : Bytes × Bytes} {fields : MessageFields}
    {count : ℕ} {result : RequestResult} (h : Evidence fields)
    (hfinish : (requestSyntax limits).finish start fields count = .ready result) :
    RequestFramed limits result.1 result.2.1 := by
  simp only [requestSyntax] at hfinish
  split at hfinish
  · cases hfinish
  next hhost =>
  split at hfinish
  · cases hfinish
  next framing hframing =>
  split at hfinish
  · cases hfinish
  split at hfinish
  · cases hfinish
  next head hhead =>
  cases hfinish
  have hheaders : head.headers = fields.headers := by
    unfold requestHeadFromRanges at hhead
    split at hhead
    · cases hhead
    · split at hhead <;> cases hhead
      rfl
  obtain ⟨hunambiguous, hannounces, hwithin⟩ := requestBodyFraming_ok h hframing
  rw [Bool.not_eq_false] at hhost
  obtain ⟨hone, hvalues⟩ := validRequestHostLoop_true hhost
  rw [Nat.zero_add] at hone
  obtain ⟨host, hsingle⟩ := List.length_eq_one_iff.mp hone
  rw [← hheaders] at hunambiguous hannounces hsingle hvalues
  exact ⟨hunambiguous, hannounces, hwithin, host, hsingle,
    hvalues host (by rw [hsingle]; exact List.mem_singleton_self host)⟩

theorem responseSyntax_framed {limits : Limits} {requestMethod : Method} {start : Status}
    {fields : MessageFields} {count : ℕ} {result : ResponseResult} (h : Evidence fields)
    (hfinish : (responseSyntax limits requestMethod).finish start fields count = .ready result) :
    ResponseFramed limits requestMethod result.1 result.2 := by
  simp only [responseSyntax] at hfinish
  split at hfinish
  · cases hfinish
  next framing hframing =>
  split at hfinish
  · split at hfinish <;> cases hfinish
  · cases hfinish
    obtain ⟨hunambiguous, hannounces, hwithin⟩ := responseBodyFraming_ok h hframing
    exact ⟨hunambiguous, hannounces, hwithin⟩

/-- However a head arrives, it is accepted or refused as in one piece, and an accepted head
has one framing. -/
theorem incremental_heads_agree (limits : Limits) :
    (∀ retained fragments drive,
      (RequestDrive.system limits retained fragments).Reachable drive →
        drive.Agrees limits (retained ++ fragments.flatten) ∧
        ∀ parsed, drive.attempt = some (.ready parsed) → ∃ framing,
          parsed.decoder = bodyDecoder framing limits ∧ RequestFramed limits parsed.head framing) ∧
    ∀ requestMethod fragments drive,
      (ResponseDrive.system limits requestMethod fragments).Reachable drive →
        drive.Agrees limits requestMethod fragments.flatten ∧
        ∀ parsed, drive.attempt = some (.ready parsed) → ∃ framing,
          parsed.decoder = bodyDecoder framing limits ∧
            ResponseFramed limits requestMethod parsed.head framing := by
  constructor
  · intro retained fragments drive hdrive
    have hsound := RequestDrive.reachable_sound hdrive
    refine ⟨hsound.agrees, fun parsed hparsed => ?_⟩
    obtain ⟨_, hend⟩ := hsound.ended _ hparsed
    cases hend with
    | ready hreach =>
      have haccepted := reaches_evidence
        (P := fun result : RequestResult => RequestFramed limits result.1 result.2.1)
        (fun _ _ _ _ => requestSyntax_framed) hreach trivial
      exact ⟨_, rfl, haccepted⟩
  · intro requestMethod fragments drive hdrive
    have hsound := ResponseDrive.reachable_sound hdrive
    refine ⟨hsound.agrees, fun parsed hparsed => ?_⟩
    obtain ⟨_, _, before, hend⟩ := hsound.ended _ hparsed
    cases hend with
    | ready hreach =>
      have haccepted := reaches_evidence
        (P := fun result : ResponseResult =>
          ResponseFramed limits requestMethod result.1 result.2)
        (fun _ _ _ _ => responseSyntax_framed) hreach trivial
      exact ⟨_, rfl, haccepted⟩

/-- A request whose head breaks between the CR and the LF of its request line. -/
theorem broken_request_agrees :
    ∃ decoder : RequestHeadDecoder, decoder.input = text "GET / HTTP/1.1\r\nHost: a\r\n\r\n" ∧
      RequestDrive.Agrees Limits.standard (text "GET / HTTP/1.1\r" ++ [text "\nHost: a\r\n\r\n"].flatten)
        ⟨decoder, [], none⟩ := by
  have hstart : (RequestDrive.system Limits.standard (text "GET / HTTP/1.1\r")
      [text "\nHost: a\r\n\r\n"]).Reachable _ := TransitionSystem.Reachable.of_initial rfl
  have hwaiting := hstart.next (.wait rfl (show advanceRequestHead _ = .incomplete _ from rfl))
  have hreceived := hwaiting.next (.receive [] rfl rfl rfl)
  exact ⟨_, rfl, ((incremental_heads_agree Limits.standard).1 _ _ _ hreceived).1⟩

end Nocter.Http
