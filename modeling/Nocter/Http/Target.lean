import Nocter.Http.Values
import Nocter.Text.Utf8

/-!
# Request targets

A parsed target keeps its text with the boundaries of its path segments. Components of the
query and of the path are decoded on demand; a text that consists of checked ASCII bytes has
a character boundary at every offset.
-/

namespace Nocter.Http

def invalidTargetEncoding : HttpError :=
  ⟨"std.http.invalid_target_encoding", "decoded request-target component is not UTF-8"⟩

/-- `get_range` of an ASCII text. -/
def getRange (text : Bytes) (start stop : ℕ) : Option Bytes :=
  if start > stop then none
  else if stop > text.length then none
  else some ((text.take stop).drop start)

/-- `decoded_value`. -/
def decodedValue (high low : UInt8) : Option UInt8 :=
  match hexDigit high with
  | none => none
  | some highValue =>
    match hexDigit low with
    | none => none
    | some lowValue => some (UInt8.ofNat (highValue * 16 + lowValue))

/-- `decoded_text_byte` at the front of the bytes that are left. -/
def decodedTextByte : Bytes → Option (UInt8 × Bytes)
  | [] => none
  | source :: rest =>
    if source ≠ 37 then some (source, rest)
    else
      match rest with
      | high :: low :: rest => (decodedValue high low).map (·, rest)
      | _ => none

theorem decodedTextByte_decreases {encoded rest : Bytes} {byte : UInt8}
    (h : decodedTextByte encoded = some (byte, rest)) : rest.length < encoded.length := by
  cases encoded with
  | nil => cases h
  | cons source tail =>
    by_cases hsource : source ≠ 37
    · have hcopied : decodedTextByte (source :: tail) = some (source, tail) := if_pos hsource
      cases hcopied.symm.trans h
      exact Nat.lt_succ_self _
    · cases tail with
      | nil => cases (if_neg hsource).symm.trans h
      | cons high tail =>
        cases tail with
        | nil => cases (if_neg hsource).symm.trans h
        | cons low tail =>
          have htriplet : decodedTextByte (source :: high :: low :: tail) =
            (decodedValue high low).map (·, tail) := if_neg hsource
          obtain ⟨_, _, heq⟩ := Option.map_eq_some_iff.mp (htriplet.symm.trans h)
          cases heq
          simp only [List.length_cons]
          omega

/-- The loop of `decode_target_component`. -/
def decodeTargetBytes (encoded : Bytes) : Except HttpError Bytes :=
  if encoded = [] then .ok []
  else
    match _h : decodedTextByte encoded with
    | none => .error invalidTarget
    | some (byte, rest) =>
      match decodeTargetBytes rest with
      | .error error => .error error
      | .ok bytes => .ok (byte :: bytes)
termination_by encoded.length
decreasing_by exact decodedTextByte_decreases _h

def decodeTargetComponent (encoded : Bytes) : Except HttpError Bytes :=
  match decodeTargetBytes encoded with
  | .error error => .error error
  | .ok bytes => if Text.isValidUtf8 bytes then .ok bytes else .error invalidTargetEncoding

/-- The loop of `validate_decoded_query_component`. -/
def validateDecodedBytes (validator : Text.StreamingValidator) (encoded : Bytes) :
    Except HttpError Unit :=
  if encoded = [] then
    if validator.isComplete then .ok () else .error invalidTargetEncoding
  else
    match _h : decodedTextByte encoded with
    | none => .error invalidTarget
    | some (byte, rest) =>
      let (pushed, validator) := validator.push byte
      if pushed = false then .error invalidTargetEncoding
      else validateDecodedBytes validator rest
termination_by encoded.length
decreasing_by exact decodedTextByte_decreases _h

def validateDecodedQueryComponent (component : Bytes) : Except HttpError Unit :=
  if component.contains 37 = false then .ok ()
  else validateDecodedBytes Text.StreamingValidator.new component

/-- The items of a query, one after the other; an item without a separator is all name. -/
def validateDecodedItems : List Bytes → Except HttpError Unit
  | [] => .ok ()
  | item :: rest =>
    match validateDecodedQueryComponent (item.takeWhile (· ≠ 61)) with
    | .error error => .error error
    | .ok () =>
      match validateDecodedQueryComponent ((item.dropWhile (· ≠ 61)).drop 1) with
      | .error error => .error error
      | .ok () => validateDecodedItems rest

def validateDecodedQuery (text : Bytes) : Except HttpError Unit :=
  let queryStart := requestTargetQueryStart text
  if queryStart ≥ text.length then .ok ()
  else validateDecodedItems ((text.drop queryStart).splitOn 38)

namespace RequestTarget

def parse (text : Bytes) : Except HttpError RequestTarget :=
  if validRequestTarget text = false then .error invalidTarget
  else
    match validateDecodedQuery text with
    | .error error => .error error
    | .ok () => .ok (requestTargetFromValidated text)

def path (target : RequestTarget) : Bytes :=
  if target.queryStart > target.text.length then target.text
  else (getRange target.text 0 (target.queryStart - 1)).getD target.text

def pathSegmentCount (target : RequestTarget) : ℕ := target.pathSegments.length

def pathSegment (target : RequestTarget) (index : ℕ) : Option Bytes :=
  match target.pathSegments[index]? with
  | none => none
  | some segment => getRange target.text segment.start segment.stop

end RequestTarget

end Nocter.Http

/-!
# Paths of targets

The path of a target without a query is a slash followed by its segments with slashes between
them. The path of no segments is the slash alone, so no path has one empty segment only.
-/

namespace Nocter.Http

/-- The segments of a path behind its first slash. -/
def pathTexts (body : Bytes) : List Bytes := if body = [] then [] else body.splitOn 47

theorem getRange_append (before middle after : Bytes) :
    getRange (before ++ middle ++ after) before.length (before.length + middle.length) =
      some middle := by
  rw [getRange, if_neg (by omega), if_neg (by simp only [List.length_append]; omega)]
  simp only [List.append_assoc, List.take_length_add_append, List.take_left', List.drop_left']

theorem pathSegmentsLoop_texts (before current : Bytes) {rest : Bytes} (h : 47 ∉ current) :
    (pathSegmentsLoop before.length (before.length + current.length) rest).map
        (fun segment => getRange (before ++ current ++ rest) segment.start segment.stop) =
      ((current ++ rest).splitOn 47).map some := by
  induction rest generalizing before current with
  | nil =>
    have hrange := getRange_append before current []
    rw [List.append_nil] at hrange
    rw [List.append_nil, List.append_nil, List.splitOn_eq_singleton h, pathSegmentsLoop,
      List.map_singleton, List.map_singleton, hrange]
  | cons value rest ih =>
    rw [pathSegmentsLoop]
    by_cases hslash : value = 47
    · subst hslash
      have hrest := ih (before ++ current ++ [47]) [] List.not_mem_nil
      simp only [List.length_append, List.length_singleton, List.length_nil, Nat.add_zero,
        List.append_nil, List.nil_append, List.append_assoc, List.cons_append] at hrest
      rw [if_pos rfl, List.map_cons, getRange_append, List.splitOn_append_cons_self_of_not_mem h,
        List.map_cons, List.append_assoc, ← hrest, Nat.add_assoc]
    · have hcurrent : 47 ∉ current ++ [value] := by
        rw [List.mem_append, List.mem_singleton]
        rintro (hmem | rfl)
        · exact h hmem
        · exact hslash rfl
      have hrest := ih before (current ++ [value]) hcurrent
      rw [if_neg hslash]
      simpa only [List.length_append, List.length_singleton, List.append_assoc, List.cons_append,
        List.nil_append, Nat.add_assoc] using hrest

theorem validTargetBytes_cons {value : UInt8} {rest : Bytes} (h : value ≠ 37) :
    validTargetBytes (value :: rest) = (validTargetByte value && validTargetBytes rest) := by
  rw [validTargetBytes.eq_4]
  · intro high low tail hvalue
    exact absurd hvalue h
  · exact h

section WithoutQuery

variable {body : Bytes}

theorem queryStart_of_notMem {text : Bytes} (h : 63 ∉ text) :
    requestTargetQueryStart text = text.length + 1 := by
  have hfind : text.findIdx (· = 63) = text.length := by
    rw [List.findIdx_eq_length]
    intro byte hbyte
    rw [decide_eq_false_iff_not]
    rintro rfl
    exact h hbyte
  rw [requestTargetQueryStart, hfind]

theorem pathSegments_texts (h : 63 ∉ 47 :: body) :
    (requestTargetFromValidated (47 :: body)).pathSegments.map
        (fun segment => getRange (47 :: body) segment.start segment.stop) =
      (pathTexts body).map some := by
  have hstart := queryStart_of_notMem h
  simp only [requestTargetFromValidated, hstart, requestTargetPathSegments, pathTexts,
    Nat.not_succ_le_self, if_false]
  by_cases hbody : body = []
  · subst hbody
    rfl
  · have hlength : 0 < body.length := List.length_pos_iff.mpr hbody
    rw [if_neg hbody, if_neg (by rw [List.length_cons]; omega), List.take_length, List.drop_one,
      List.tail_cons]
    exact pathSegmentsLoop_texts [47] [] List.not_mem_nil

theorem pathSegmentCount_eq (h : 63 ∉ 47 :: body) :
    (requestTargetFromValidated (47 :: body)).pathSegmentCount = (pathTexts body).length := by
  have hlength := congrArg List.length (pathSegments_texts h)
  rwa [List.length_map, List.length_map] at hlength

theorem pathSegment_eq (h : 63 ∉ 47 :: body) (index : ℕ) :
    (requestTargetFromValidated (47 :: body)).pathSegment index = (pathTexts body)[index]? := by
  have hindex := congrArg (·[index]?) (pathSegments_texts h)
  simp only [List.getElem?_map] at hindex
  rw [RequestTarget.pathSegment]
  cases htext : (pathTexts body)[index]? with
  | none =>
    rw [htext, Option.map_none, Option.map_eq_none_iff] at hindex
    rw [hindex]
  | some text =>
    rw [htext, Option.map_some] at hindex
    obtain ⟨segment, hsegment, hrange⟩ := Option.map_eq_some_iff.mp hindex
    rw [hsegment]
    exact hrange

theorem path_eq_iff {text : Bytes} : (requestTargetFromValidated text).path = text ↔ 63 ∉ text := by
  have htext : (requestTargetFromValidated text).text = text := rfl
  have hstart : (requestTargetFromValidated text).queryStart = text.findIdx (· = 63) + 1 := rfl
  rw [RequestTarget.path, htext, hstart]
  constructor
  · intro hpath hmem
    have hfound : text.findIdx (· = 63) < text.length := by
      rw [List.findIdx_lt_length]
      exact ⟨63, hmem, decide_eq_true rfl⟩
    rw [if_neg (by omega), getRange, if_neg (by omega), if_neg (by omega), Option.getD_some] at hpath
    have hlength := congrArg List.length hpath
    rw [List.drop_zero, List.length_take] at hlength
    omega
  · intro hmem
    have hend := queryStart_of_notMem hmem
    rw [requestTargetQueryStart] at hend
    rw [if_pos (by omega)]

theorem parse_of_valid (hvalid : validTargetBytes body = true) (h : 63 ∉ 47 :: body) :
    RequestTarget.parse (47 :: body) = .ok (requestTargetFromValidated (47 :: body)) := by
  have hroot : validRequestTarget (47 :: body) = true := by
    simp only [validRequestTarget, List.head?_cons, decide_true, Bool.true_and]
    rw [validTargetBytes_cons (by decide), hvalid]
    rfl
  have hquery : validateDecodedQuery (47 :: body) = .ok () := by
    rw [validateDecodedQuery, queryStart_of_notMem h]
    exact if_pos (Nat.le_succ _)
  rw [RequestTarget.parse, if_neg (by rw [hroot]; exact Bool.noConfusion), hquery]

end WithoutQuery

/-! ### Bytes of segments -/

theorem validTargetBytes_append {left right : Bytes} (hleft : validTargetBytes left = true)
    (hright : validTargetBytes right = true) : validTargetBytes (left ++ right) = true := by
  induction left using validTargetBytes.induct with
  | case1 => exact hright
  | case2 high low rest ih =>
    rw [validTargetBytes, Bool.and_eq_true] at hleft
    rw [List.cons_append, List.cons_append, List.cons_append, validTargetBytes, hleft.1,
      ih hleft.2]
    rfl
  | case3 rest h =>
    rw [validTargetBytes] at hleft
    · cases hleft
    · exact h
  | case4 value rest htriplet hpercent ih =>
    have hvalue : value ≠ 37 := hpercent
    rw [validTargetBytes_cons hvalue, Bool.and_eq_true] at hleft
    rw [List.cons_append, validTargetBytes_cons hvalue, hleft.1, ih hleft.2]
    rfl

theorem hexDigit_slash : hexDigit 47 = none := by decide

/-- A slash ends no triplet, so both sides of it are valid. -/
theorem validTargetBytes_split {left right : Bytes}
    (h : validTargetBytes (left ++ 47 :: right) = true) :
    validTargetBytes left = true ∧ validTargetBytes right = true := by
  induction left using validTargetBytes.induct with
  | case1 =>
    rw [List.nil_append, validTargetBytes_cons (by decide), Bool.and_eq_true] at h
    exact ⟨rfl, h.2⟩
  | case2 high low rest ih =>
    rw [List.cons_append, List.cons_append, List.cons_append, validTargetBytes,
      Bool.and_eq_true] at h
    rw [validTargetBytes, h.1]
    exact ih h.2
  | case3 rest htriplet =>
    exfalso
    cases rest with
    | nil =>
      cases right with
      | nil => cases h
      | cons low right =>
        rw [List.cons_append, List.nil_append, validTargetBytes, hexDigit_slash] at h
        cases h
    | cons high rest =>
      cases rest with
      | nil =>
        rw [List.cons_append, List.cons_append, List.nil_append, validTargetBytes, hexDigit_slash,
          Option.isSome_none, Bool.and_false, Bool.false_and] at h
        cases h
      | cons low rest => exact htriplet high low rest rfl
  | case4 value rest htriplet hpercent ih =>
    rw [List.cons_append, validTargetBytes_cons hpercent, Bool.and_eq_true] at h
    rw [validTargetBytes_cons hpercent, h.1]
    exact ih h.2

theorem valid_of_mem_splitOn {body text : Bytes} (h : validTargetBytes body = true)
    (hmem : text ∈ body.splitOn 47) : validTargetBytes text = true := by
  induction hn : body.length using Nat.strong_induction_on generalizing body with
  | _ n ih =>
    by_cases hslash : 47 ∈ body
    · obtain ⟨left, right, rfl, hleft⟩ := List.eq_append_cons_of_mem hslash
      have hvalid := validTargetBytes_split h
      rw [List.splitOn_append_cons_self_of_not_mem hleft, List.mem_cons] at hmem
      rcases hmem with rfl | hmem
      · exact hvalid.1
      · refine ih right.length ?_ hvalid.2 hmem rfl
        rw [← hn, List.length_append, List.length_cons]
        omega
    · rw [List.splitOn_eq_singleton hslash, List.mem_singleton] at hmem
      rwa [hmem]

theorem mem_intercalate {texts : List Bytes} {text : Bytes} {byte : UInt8} (hmem : text ∈ texts)
    (hbyte : byte ∈ text) : byte ∈ [47].intercalate texts := by
  induction texts with
  | nil => cases hmem
  | cons first rest ih =>
    cases rest with
    | nil =>
      rw [List.mem_singleton] at hmem
      rwa [List.intercalate_singleton, ← hmem]
    | cons second rest =>
      rw [List.intercalate_cons_cons, List.mem_append, List.mem_append]
      rcases List.mem_cons.mp hmem with rfl | hmem
      · exact .inl (.inl hbyte)
      · exact .inr (ih hmem)

theorem mem_of_mem_splitOn {body text : Bytes} {byte : UInt8} (hmem : text ∈ body.splitOn 47)
    (hbyte : byte ∈ text) : byte ∈ body := by
  have hjoined := mem_intercalate hmem hbyte
  rwa [List.intercalate_splitOn] at hjoined

theorem notMem_of_mem_splitOn {body text : Bytes} (hmem : text ∈ body.splitOn 47) : 47 ∉ text := by
  induction hn : body.length using Nat.strong_induction_on generalizing body with
  | _ n ih =>
    by_cases hslash : 47 ∈ body
    · obtain ⟨left, right, rfl, hleft⟩ := List.eq_append_cons_of_mem hslash
      rw [List.splitOn_append_cons_self_of_not_mem hleft, List.mem_cons] at hmem
      rcases hmem with rfl | hmem
      · exact hleft
      · refine ih right.length ?_ hmem rfl
        rw [← hn, List.length_append, List.length_cons]
        omega
    · rw [List.splitOn_eq_singleton hslash, List.mem_singleton] at hmem
      rwa [hmem]

theorem validTargetBytes_intercalate {texts : List Bytes}
    (h : ∀ text ∈ texts, validTargetBytes text = true) :
    validTargetBytes ([47].intercalate texts) = true := by
  induction texts with
  | nil => rfl
  | cons first rest ih =>
    have hfirst := h first List.mem_cons_self
    have hrest := ih fun text hmem => h text (List.mem_cons_of_mem first hmem)
    cases rest with
    | nil => rwa [List.intercalate_singleton]
    | cons second rest =>
      rw [List.intercalate_cons_cons, List.append_assoc]
      exact validTargetBytes_append hfirst (validTargetBytes_append rfl hrest)

theorem notMem_intercalate {texts : List Bytes} {byte : UInt8} (hbyte : byte ≠ 47)
    (h : ∀ text ∈ texts, byte ∉ text) : byte ∉ [47].intercalate texts := by
  induction texts with
  | nil => exact List.not_mem_nil
  | cons first rest ih =>
    have hfirst := h first List.mem_cons_self
    have hrest := ih fun text hmem => h text (List.mem_cons_of_mem first hmem)
    cases rest with
    | nil => rwa [List.intercalate_singleton]
    | cons second rest =>
      rw [List.intercalate_cons_cons, List.mem_append, List.mem_append, List.mem_singleton]
      rintro ((hmem | hmem) | hmem)
      · exact hfirst hmem
      · exact hbyte hmem
      · exact hrest hmem

/-- Texts that the path of some body has as its segments. -/
structure PathTexts (texts : List Bytes) : Prop where
  valid : ∀ text ∈ texts, validTargetBytes text = true
  slash : ∀ text ∈ texts, 47 ∉ text
  query : ∀ text ∈ texts, 63 ∉ text
  lone : texts ≠ [[]]

theorem pathTexts_wellFormed {body : Bytes} (hvalid : validTargetBytes body = true)
    (hquery : 63 ∉ body) : PathTexts (pathTexts body) := by
  rw [pathTexts]
  split
  · exact ⟨by rintro _ ⟨⟩, by rintro _ ⟨⟩, by rintro _ ⟨⟩, (List.cons_ne_nil _ _).symm⟩
  · next hbody =>
    refine ⟨fun text => valid_of_mem_splitOn hvalid, fun text => notMem_of_mem_splitOn,
      fun text hmem hbyte => hquery (mem_of_mem_splitOn hmem hbyte), fun heq => hbody ?_⟩
    have hjoined := @List.intercalate_splitOn _ body _ _ 47
    rw [← hjoined, heq, List.intercalate_singleton]

theorem pathTexts_intercalate {texts : List Bytes} (h : PathTexts texts) :
    pathTexts ([47].intercalate texts) = texts := by
  cases texts with
  | nil => rfl
  | cons first rest =>
    have hsplit := List.splitOn_intercalate 47 h.slash (List.cons_ne_nil first rest)
    rw [pathTexts]
    split
    · next hempty =>
      rw [hempty, List.splitOn_nil] at hsplit
      exact absurd hsplit.symm h.lone
    · exact hsplit

/-- Such texts are the segments of a target that parses. -/
theorem PathTexts.exists_target {texts : List Bytes} (h : PathTexts texts) :
    ∃ text target, RequestTarget.parse text = .ok target ∧ target.pathSegmentCount = texts.length ∧
      ∀ index, target.pathSegment index = texts[index]? := by
  have hvalid := validTargetBytes_intercalate h.valid
  have hquery : 63 ∉ 47 :: [47].intercalate texts := by
    rw [List.mem_cons]
    rintro (hbyte | hmem)
    · cases hbyte
    · exact notMem_intercalate (by decide) h.query hmem
  refine ⟨_, _, parse_of_valid hvalid hquery, ?_, fun index => ?_⟩
  · rw [pathSegmentCount_eq hquery, pathTexts_intercalate h]
  · rw [pathSegment_eq hquery, pathTexts_intercalate h]

end Nocter.Http
