import Nocter.Http.Body
import Nocter.Library.Word
import Nocter.Text.Search

/-!
# Request cookies

A cookie pair is rendered as its name, `=` and its value. A request field is split at `;` by
offsets; blanks around an item and quotes around a value are dropped. An index outside of a text
has no value.
-/

namespace Nocter.Http

open Text

section Limits

def applicationItemLimit : HttpError :=
  ⟨"std.http.application_item_limit", "HTTP application data exceeds the configured item limit"⟩

def applicationValueLimit : HttpError :=
  ⟨"std.http.application_value_limit",
    "HTTP application data exceeds the configured decoded-byte limit"⟩

def invalidApplicationLimits : HttpError :=
  ⟨"std.http.invalid_application_limits", "HTTP application-data limits must be nonzero"⟩

structure ApplicationLimits where
  itemCount : ℕ
  valueBytes : ℕ
  decodedBytes : ℕ
  decodedBytes_le : decodedBytes ≤ u64Max

def ApplicationLimits.standard : ApplicationLimits where
  itemCount := 128
  valueBytes := 8192
  decodedBytes := 65536
  decodedBytes_le := by decide

def ApplicationLimits.new (maxItems maxValueBytes : ℕ) (maxDecodedBytes : Fin (u64Max + 1)) :
    Except HttpError ApplicationLimits :=
  if maxItems = 0 ∨ maxValueBytes = 0 ∨ maxDecodedBytes.val = 0 then
    .error invalidApplicationLimits
  else .ok ⟨maxItems, maxValueBytes, maxDecodedBytes, Nat.le_of_lt_succ maxDecodedBytes.isLt⟩

def checkedApplicationSize (current additional limit : ℕ) : Except HttpError ℕ :=
  match checkedAdd u64Max current additional with
  | none => .error applicationValueLimit
  | some next => if limit < next then .error applicationValueLimit else .ok next

theorem checkedApplicationSize_ok {current additional limit next : ℕ} (hlimit : limit ≤ u64Max) :
    checkedApplicationSize current additional limit = .ok next ↔
      next = current + additional ∧ current + additional ≤ limit := by
  unfold checkedApplicationSize checkedAdd
  by_cases hsum : current + additional ≤ u64Max
  · rw [if_pos hsum]
    dsimp only
    split
    · next hlt =>
      exact ⟨(by cases ·), fun h => absurd h.2 (Nat.not_le_of_lt hlt)⟩
    · next hle =>
      rw [Except.ok.injEq]
      exact ⟨fun h => ⟨h.symm, Nat.le_of_not_lt hle⟩, fun h => h.1.symm⟩
  · rw [if_neg hsum]
    exact ⟨(by cases ·), fun h => absurd (h.2.trans hlimit) hsum⟩

end Limits

section Values

def invalidCookie : HttpError := ⟨"std.http.invalid_cookie", "HTTP request cookie is invalid"⟩

def validToken (text : Bytes) : Bool := text ≠ [] && text.all isTokenByte

def validCookieValueByte (value : UInt8) : Bool :=
  if value = 33 then true
  else if 35 ≤ value ∧ value ≤ 43 then true
  else if 45 ≤ value ∧ value ≤ 58 then true
  else if 60 ≤ value ∧ value ≤ 91 then true
  else 93 ≤ value ∧ value ≤ 126

def validCookieValue (text : Bytes) : Bool := text.all validCookieValueByte

structure Cookie where
  nameValue : Bytes
  valueValue : Bytes
  name_valid : validToken nameValue = true
  value_valid : validCookieValue valueValue = true
  deriving DecidableEq

namespace Cookie

def new (name value : Bytes) : Except HttpError Cookie :=
  if h : validToken name = true ∧ validCookieValue value = true then .ok ⟨name, value, h.1, h.2⟩
  else .error invalidCookie

def name (self : Cookie) : Bytes := self.nameValue

def value (self : Cookie) : Bytes := self.valueValue

def render (self : Cookie) : Bytes := self.name ++ [61] ++ self.value

theorem new_eq_ok {name value : Bytes} {cookie : Cookie} :
    new name value = .ok cookie ↔ cookie.name = name ∧ cookie.value = value := by
  unfold new
  split
  · next h =>
    rw [Except.ok.injEq]
    constructor
    · rintro rfl
      exact ⟨rfl, rfl⟩
    · rintro ⟨rfl, rfl⟩
      rfl
  · next h =>
    refine ⟨(by cases ·), ?_⟩
    rintro ⟨rfl, rfl⟩
    exact absurd ⟨cookie.name_valid, cookie.value_valid⟩ h

end Cookie

end Values

section Scans

variable (p : UInt8 → Bool) (text : Bytes)

/-- A loop that moves an offset forward over at most so many bytes of a kind. -/
def scanForward : (count offset : ℕ) → Option ℕ
  | 0, offset => some offset
  | count + 1, offset => do
    let byte ← text[offset]?
    if p byte then scanForward count (offset + 1) else some offset

/-- A loop that moves an offset back over at most so many bytes of a kind. -/
def scanBack : (count offset : ℕ) → Option ℕ
  | 0, offset => some offset
  | count + 1, offset => do
    let byte ← text[offset - 1]?
    if p byte then scanBack count (offset - 1) else some offset

variable {p text}

theorem scanForward_window {before window after : Bytes} (h : text = before ++ window ++ after) :
    scanForward p text window.length before.length =
      some (before.length + (window.takeWhile p).length) := by
  induction window generalizing before with
  | nil => rfl
  | cons byte rest ih =>
    have hbyte : text[before.length]? = some byte := by
      rw [h, List.append_assoc, List.getElem?_append_right (Nat.le_refl _), Nat.sub_self]
      rfl
    rw [List.length_cons, scanForward, hbyte, Option.bind_eq_bind, Option.bind_some]
    by_cases hp : p byte = true
    · have hrest := ih (show text = (before ++ [byte]) ++ rest ++ after by rw [h]; simp)
      rw [List.length_append, List.length_singleton] at hrest
      rw [if_pos hp, hrest, List.takeWhile_cons_of_pos hp, List.length_cons]
      congr 1
      omega
    · rw [if_neg hp, List.takeWhile_cons_of_neg hp]
      rfl

theorem scanBack_window {before window after : Bytes} (h : text = before ++ window ++ after) :
    scanBack p text window.length (before.length + window.length) =
      some (before.length + (window.rdropWhile p).length) := by
  induction window using List.reverseRecOn generalizing after with
  | nil => rfl
  | append_singleton rest byte ih =>
    have hbyte : text[before.length + (rest ++ [byte]).length - 1]? = some byte := by
      rw [h, List.length_append, List.length_singleton, ← Nat.add_assoc, Nat.add_sub_cancel,
        ← List.append_assoc, List.append_assoc (before ++ rest), ← List.length_append,
        List.getElem?_append_right (Nat.le_refl _), Nat.sub_self]
      rfl
    have hlength : (rest ++ [byte]).length = rest.length + 1 := List.length_append
    rw [hlength, scanBack, ← hlength, hbyte, Option.bind_eq_bind, Option.bind_some,
      List.rdropWhile_concat, hlength]
    by_cases hp : p byte = true
    · rw [if_pos hp, if_pos hp]
      exact ih (show text = before ++ rest ++ (byte :: after) by rw [h]; simp)
    · rw [if_neg hp, if_neg hp, hlength]

end Scans

section Parsing

def trimCookieOwsStart (text : Bytes) (start stop : ℕ) : Option ℕ :=
  scanForward isBlank text (stop - start) start

def trimCookieOwsEnd (text : Bytes) (start stop : ℕ) : Option ℕ :=
  scanBack isBlank text (stop - start) stop

/-- The ends of a value, inside its quotes where it has them. -/
def cookieValueEnds (text : Bytes) (valueStart valueEnd : ℕ) : Option (Except HttpError (ℕ × ℕ)) :=
  if valueStart < valueEnd then do
    if (← text[valueStart]?) = 34 then
      if valueEnd - valueStart < 2 then some (.error invalidCookie)
      else if (← text[valueEnd - 1]?) ≠ 34 then some (.error invalidCookie)
      else some (.ok (valueStart + 1, valueEnd - 1))
    else some (.ok (valueStart, valueEnd))
  else some (.ok (valueStart, valueEnd))

/-- The name and the value of the pair in `first..last` with `=` at the separator. -/
def cookieFromPair (text : Bytes) (first separator last : ℕ) (limits : ApplicationLimits) :
    Option (Except HttpError Cookie) :=
  match charRange text first separator with
  | none => some (.error invalidCookie)
  | some name =>
    if hname : validToken name = true then
      if limits.valueBytes < name.length then some (.error applicationValueLimit)
      else
        (cookieValueEnds text (separator + 1) last).map fun ends => do
          let (valueStart, valueEnd) ← ends
          match charRange text valueStart valueEnd with
          | none => .error invalidCookie
          | some value =>
            if limits.valueBytes < value.length then .error applicationValueLimit
            else if hvalue : validCookieValue value = true then .ok ⟨name, value, hname, hvalue⟩
            else .error invalidCookie
    else some (.error invalidCookie)

def cookieFromRange (text : Bytes) (start stop : ℕ) (limits : ApplicationLimits) :
    Option (Except HttpError Cookie) := do
  let first ← trimCookieOwsStart text start stop
  let last ← trimCookieOwsEnd text first stop
  if first = last then some (.error invalidCookie)
  else do
    let separator ← scanForward (· ≠ 61) text (last - first) first
    if separator = first ∨ separator = last then some (.error invalidCookie)
    else cookieFromPair text first separator last limits

structure Cookies where
  values : List Cookie

structure CookieLoop where
  start : ℕ
  values : List Cookie
  decodedBytes : ℕ

/-- `decoded_bytes` with the name and the value of one more cookie. -/
def decodedSize (limits : ApplicationLimits) (decodedBytes : ℕ) (cookie : Cookie) :
    Except HttpError ℕ := do
  let decodedBytes ← checkedApplicationSize decodedBytes cookie.name.length limits.decodedBytes
  checkedApplicationSize decodedBytes cookie.value.length limits.decodedBytes

/-- What a cookie that ends at an offset leaves to do. -/
def CookieLoop.accept (loop : CookieLoop) (text : Bytes) (limits : ApplicationLimits) (stop : ℕ)
    (cookie : Cookie) : CookieLoop ⊕ Except HttpError Cookies :=
  match decodedSize limits loop.decodedBytes cookie with
  | .error error => .inr (.error error)
  | .ok decodedBytes =>
    if stop = text.length then .inr (.ok ⟨loop.values ++ [cookie]⟩)
    else .inl ⟨stop + 1, loop.values ++ [cookie], decodedBytes⟩

/-- One pass of the loop of `parse_with_limits`. -/
def CookieLoop.pass (text : Bytes) (limits : ApplicationLimits) (loop : CookieLoop) :
    Option (CookieLoop ⊕ Except HttpError Cookies) := do
  let stop ← scanForward (· ≠ 59) text (text.length - loop.start) loop.start
  if loop.values.length = limits.itemCount then some (.inr (.error applicationItemLimit))
  else
    match ← cookieFromRange text loop.start stop limits with
    | .error error => some (.inr (.error error))
    | .ok cookie => some (loop.accept text limits stop cookie)

/-- Every pass goes on behind one more `;`. -/
def Cookies.parseWithLimits (text : Bytes) (limits : ApplicationLimits) :
    Option (Except HttpError Cookies) :=
  if text.length = 0 then some (.ok ⟨[]⟩)
  else Loop.attempt (CookieLoop.pass text limits) (text.length + 1) ⟨0, [], 0⟩

def Cookies.parse (text : Bytes) : Option (Except HttpError Cookies) :=
  Cookies.parseWithLimits text .standard

end Parsing

section Items

/-- A spelling of a value, with quotes or without. -/
def SpellsValue (raw value : Bytes) : Prop := raw = value ∨ raw = 34 :: value ++ [34]

/-- Blanks around the name, `=` and a spelling of the value. -/
def Spells (item : Bytes) (cookie : Cookie) : Prop :=
  ∃ lead raw trail, item = lead ++ (cookie.name ++ 61 :: raw) ++ trail ∧
    (∀ byte ∈ lead, isBlank byte = true) ∧ (∀ byte ∈ trail, isBlank byte = true) ∧
    SpellsValue raw cookie.value

/-- The sizes that a limit allows for one cookie. -/
def ApplicationLimits.Allows (limits : ApplicationLimits) (cookie : Cookie) : Prop :=
  cookie.name.length ≤ limits.valueBytes ∧ cookie.value.length ≤ limits.valueBytes

theorem token_ascii : ∀ byte : UInt8, isTokenByte byte = true →
    byte < 128 ∧ byte ≠ 61 ∧ byte ≠ 59 ∧ isBlank byte = false := by
  rintro ⟨⟨byte⟩⟩
  revert byte
  decide +kernel

theorem value_ascii : ∀ byte : UInt8, validCookieValueByte byte = true →
    byte < 128 ∧ byte ≠ 34 ∧ byte ≠ 59 ∧ isBlank byte = false := by
  rintro ⟨⟨byte⟩⟩
  revert byte
  decide +kernel

theorem blank_ascii : ∀ byte : UInt8, isBlank byte = true → byte < 128 ∧ byte ≠ 59 := by
  rintro ⟨⟨byte⟩⟩
  revert byte
  decide +kernel

namespace Cookie

variable (cookie : Cookie)

theorem name_ne_nil : cookie.name ≠ [] := by
  have h := cookie.name_valid
  rw [validToken, Bool.and_eq_true, decide_eq_true_eq] at h
  exact h.1

theorem isTokenByte_of_mem {byte : UInt8} (hmem : byte ∈ cookie.name) : isTokenByte byte = true := by
  have h := cookie.name_valid
  rw [validToken, Bool.and_eq_true, List.all_eq_true] at h
  exact h.2 byte hmem

theorem notMem_name : 61 ∉ cookie.name := fun hmem =>
  (token_ascii 61 (cookie.isTokenByte_of_mem hmem)).2.1 rfl

theorem validCookieValueByte_of_mem {byte : UInt8} (hmem : byte ∈ cookie.value) :
    validCookieValueByte byte = true :=
  List.all_eq_true.mp cookie.value_valid byte hmem

end Cookie

end Items

section Ranges

variable {text before window after : Bytes}

theorem isCharBoundary_window (htext : text = before ++ after) (h : ∀ byte ∈ after.head?, byte < 128) :
    isCharBoundary text before.length = true := by
  have hlength := congrArg List.length htext
  rw [List.length_append] at hlength
  rw [isCharBoundary, if_neg (by omega)]
  split
  · rfl
  · next hinner =>
    cases after with
    | nil =>
      rw [List.length_nil] at hlength
      omega
    | cons byte rest =>
      have hbyte : text[before.length]? = some byte := by
        rw [htext, List.getElem?_append_right (Nat.le_refl _), Nat.sub_self]
        rfl
      rw [hbyte, Option.any_some, decide_eq_true (h byte rfl), Bool.true_or]

/-- A range that ends before a character of one byte is there, unless it starts inside of a
character. -/
theorem charRange_cases (htext : text = before ++ window ++ after)
    (h : ∀ byte ∈ after.head?, byte < 128) :
    charRange text before.length (before.length + window.length) = some window ∨
      charRange text before.length (before.length + window.length) = none ∧
        ∃ byte ∈ window, ¬ byte < 128 := by
  have hstop : isCharBoundary text (before.length + window.length) = true := by
    rw [← List.length_append]
    exact isCharBoundary_window htext h
  have hslice : (text.take (before.length + window.length)).drop before.length = window := by
    rw [htext, List.append_assoc, List.take_length_add_append, List.take_left' rfl,
      List.drop_left' rfl]
  rw [charRange, if_neg (by omega), hstop, hslice, Bool.not_true, Bool.or_false]
  cases hstart : isCharBoundary text before.length with
  | true => exact Or.inl (if_neg Bool.false_ne_true)
  | false =>
    refine Or.inr ⟨if_pos rfl, ?_⟩
    by_contra hascii
    rw [isCharBoundary_window (htext.trans (List.append_assoc ..)) fun byte hbyte => ?_] at hstart
    · cases hstart
    · cases window with
      | nil => exact h byte hbyte
      | cons first rest =>
        obtain rfl := Option.some.inj hbyte
        exact not_not.mp fun hnot => hascii ⟨first, List.mem_cons_self, hnot⟩

/-- Where a value lies in its spelling. -/
inductive ValueEnds (base : ℕ) (raw : Bytes) : Except HttpError (ℕ × ℕ) → Prop
  | plain (h : ∀ value, raw ≠ 34 :: value ++ [34]) :
      ValueEnds base raw (.ok (base, base + raw.length))
  | quoted {value : Bytes} (h : raw = 34 :: value ++ [34]) :
      ValueEnds base raw (.ok (base + 1, base + 1 + value.length))
  | unclosed (hquote : 34 ∈ raw) (h : ∀ value, raw ≠ 34 :: value ++ [34]) :
      ValueEnds base raw (.error invalidCookie)

theorem cookieValueEnds_spec (htext : text = before ++ window ++ after) :
    ∃ result, cookieValueEnds text before.length (before.length + window.length) = some result ∧
      ValueEnds before.length window result := by
  unfold cookieValueEnds
  cases window with
  | nil =>
    rw [if_neg (by simp)]
    exact ⟨_, rfl, .plain fun value h => by cases h⟩
  | cons first rest =>
    have hfirst : text[before.length]? = some first := by
      rw [htext, List.append_assoc, List.getElem?_append_right (Nat.le_refl _), Nat.sub_self]
      rfl
    rw [List.length_cons, if_pos (by omega), hfirst, Option.bind_eq_bind, Option.bind_some]
    by_cases hquote : first = 34
    · subst hquote
      rw [if_pos rfl]
      rcases List.eq_nil_or_concat' rest with rfl | ⟨inner, last, rfl⟩
      · rw [if_pos (by simp)]
        refine ⟨_, rfl, .unclosed List.mem_cons_self fun value h => ?_⟩
        have hlength := congrArg List.length h
        simp at hlength
      · have hlast : text[before.length + ((inner ++ [last]).length + 1) - 1]? = some last := by
          rw [htext, List.append_assoc, Nat.add_sub_assoc (by omega),
            List.getElem?_append_right (Nat.le_add_right _ _), Nat.add_sub_cancel_left]
          simp
        rw [if_neg (by simp), hlast, Option.bind_some]
        by_cases hclosed : last = 34
        · subst hclosed
          rw [if_neg (not_not.mpr rfl)]
          refine ⟨_, rfl, ?_⟩
          have hstop : before.length + ((inner ++ [34]).length + 1) - 1 =
              before.length + 1 + inner.length := by
            rw [List.length_append, List.length_singleton]
            omega
          rw [hstop]
          exact .quoted rfl
        · rw [if_pos hclosed]
          refine ⟨_, rfl, .unclosed List.mem_cons_self fun value h => hclosed ?_⟩
          rw [List.cons_append, List.cons.injEq, List.append_singleton_inj] at h
          exact h.2.2
    · rw [if_neg hquote]
      refine ⟨_, rfl, .plain fun value h => hquote ?_⟩
      exact (List.cons.inj h).1

end Ranges

section Pairs

variable {text before after : Bytes} (limits : ApplicationLimits)

/-- What is made of a range of a valid name. -/
def valueOfRange (name : Bytes) (hname : validToken name = true)
    (range : Option Bytes) : Except HttpError Cookie :=
  match range with
  | none => .error invalidCookie
  | some value =>
    if limits.valueBytes < value.length then .error applicationValueLimit
    else if hvalue : validCookieValue value = true then .ok ⟨name, value, hname, hvalue⟩
    else .error invalidCookie

theorem valueOfRange_ok {name value : Bytes} (hname : validToken name = true)
    (htext : text = before ++ value ++ after) (hafter : ∀ byte ∈ after.head?, byte < 128)
    (cookie : Cookie) :
    valueOfRange limits name hname (charRange text before.length (before.length + value.length)) =
        .ok cookie ↔
      cookie.name = name ∧ cookie.value = value ∧ value.length ≤ limits.valueBytes := by
  rcases charRange_cases htext hafter with hrange | ⟨hrange, byte, hmem, hbyte⟩
  · rw [hrange, valueOfRange]
    split
    · next hlimit => exact ⟨(by cases ·), fun h => absurd h.2.2 (Nat.not_le_of_lt hlimit)⟩
    · next hlimit =>
      split
      · rw [Except.ok.injEq]
        constructor
        · rintro rfl
          exact ⟨rfl, rfl, Nat.le_of_not_lt hlimit⟩
        · rintro ⟨rfl, rfl, _⟩
          rfl
      · next hvalue =>
        refine ⟨(by cases ·), ?_⟩
        rintro ⟨_, rfl, _⟩
        exact absurd cookie.value_valid hvalue
  · rw [hrange]
    refine ⟨(by cases ·), ?_⟩
    rintro ⟨_, rfl, _⟩
    exact absurd (value_ascii byte (cookie.validCookieValueByte_of_mem hmem)).1 hbyte

theorem cookieFromPair_spec {name raw : Bytes} (htext : text = before ++ (name ++ 61 :: raw) ++ after)
    (hafter : ∀ byte ∈ after.head?, byte < 128) :
    ∃ result, cookieFromPair text before.length (before.length + name.length)
        (before.length + (name ++ 61 :: raw).length) limits = some result ∧
      ∀ cookie, result = .ok cookie ↔
        cookie.name = name ∧ SpellsValue raw cookie.value ∧ limits.Allows cookie := by
  have hname : text = before ++ name ++ (61 :: raw ++ after) := by rw [htext]; simp
  have hraw : text = (before ++ name ++ [61]) ++ raw ++ after := by rw [htext]; simp
  have hstart : before.length + name.length + 1 = (before ++ name ++ [61]).length := by
    simp [Nat.add_assoc]
  have hstop : before.length + (name ++ 61 :: raw).length =
      (before ++ name ++ [61]).length + raw.length := by
    simp
    omega
  rw [cookieFromPair]
  rcases charRange_cases hname (fun byte hbyte => by
    obtain rfl := Option.some.inj hbyte
    decide) with hrange | ⟨hrange, byte, hmem, hbyte⟩
  · rw [hrange]
    dsimp only
    by_cases hvalid : validToken name = true
    · rw [dif_pos hvalid]
      by_cases hlimit : limits.valueBytes < name.length
      · rw [if_pos hlimit]
        refine ⟨_, rfl, fun cookie => ⟨(by cases ·), ?_⟩⟩
        rintro ⟨rfl, _, hallows⟩
        exact absurd hallows.1 (Nat.not_le_of_lt hlimit)
      · rw [if_neg hlimit, hstart, hstop]
        obtain ⟨ends, hends, hspec⟩ := cookieValueEnds_spec hraw
        rw [hends]
        refine ⟨_, rfl, fun cookie => ?_⟩
        cases hspec with
        | plain hplain =>
          refine (valueOfRange_ok limits hvalid hraw hafter cookie).trans ?_
          constructor
          · rintro ⟨hname, hvalue, hsize⟩
            exact ⟨hname, Or.inl hvalue.symm, hname ▸ Nat.le_of_not_lt hlimit, hvalue ▸ hsize⟩
          · rintro ⟨hname, hvalue | hvalue, hallows⟩
            · exact ⟨hname, hvalue.symm, hvalue ▸ hallows.2⟩
            · exact absurd hvalue (hplain _)
        | @quoted value hquoted =>
          have hinner : text = (before ++ name ++ [61] ++ [34]) ++ value ++ (34 :: after) := by
            rw [hraw, hquoted]
            simp
          have hspec := valueOfRange_ok limits hvalid hinner (fun byte hbyte => by
            obtain rfl := Option.some.inj hbyte
            decide) cookie
          rw [@List.length_append _ (before ++ name ++ [61]), List.length_singleton] at hspec
          refine hspec.trans ?_
          constructor
          · rintro ⟨hname, rfl, hsize⟩
            exact ⟨hname, Or.inr hquoted, hname ▸ Nat.le_of_not_lt hlimit, hsize⟩
          · rintro ⟨hname, hvalue | hvalue, hallows⟩
            · have hmem : (34 : UInt8) ∈ cookie.value := by
                rw [← hvalue, hquoted]
                exact List.mem_cons_self
              exact absurd rfl (value_ascii 34 (cookie.validCookieValueByte_of_mem hmem)).2.1
            · rw [hquoted, List.cons_append, List.cons_append, List.cons.injEq,
                List.append_left_inj] at hvalue
              exact ⟨hname, hvalue.2.symm, hvalue.2 ▸ hallows.2⟩
        | unclosed hquote hunclosed =>
          refine ⟨(by cases ·), ?_⟩
          rintro ⟨_, hvalue | hvalue, _⟩
          · rw [hvalue] at hquote
            exact absurd rfl (value_ascii 34 (cookie.validCookieValueByte_of_mem hquote)).2.1
          · exact absurd hvalue (hunclosed _)
    · rw [dif_neg hvalid]
      refine ⟨_, rfl, fun cookie => ⟨(by cases ·), ?_⟩⟩
      rintro ⟨rfl, _⟩
      exact absurd cookie.name_valid hvalid
  · rw [hrange]
    refine ⟨_, rfl, fun cookie => ⟨(by cases ·), ?_⟩⟩
    rintro ⟨rfl, _⟩
    exact absurd (token_ascii byte (cookie.isTokenByte_of_mem hmem)).1 hbyte

end Pairs

section Trimming

variable {p : UInt8 → Bool} {lead core trail : Bytes}

/-- What is between the blanks at both ends. -/
theorem trim_core (hlead : ∀ byte ∈ lead, p byte = true) (htrail : ∀ byte ∈ trail, p byte = true)
    (hfirst : ∀ byte ∈ core.head?, p byte = false) (hlast : ∀ byte ∈ core.getLast?, p byte = false)
    (hne : core ≠ []) : (lead ++ core ++ trail).takeWhile p = lead ∧
      ((lead ++ core ++ trail).dropWhile p).rdropWhile p = core := by
  obtain ⟨first, rest, rfl⟩ := List.exists_cons_of_ne_nil hne
  have hnot : ¬ p first = true := by rw [hfirst first rfl]; exact Bool.false_ne_true
  rw [List.append_assoc, List.takeWhile_append_of_pos hlead, List.dropWhile_append_of_pos hlead,
    List.cons_append, List.takeWhile_cons_of_neg hnot, List.dropWhile_cons_of_neg hnot,
    List.append_nil, ← List.cons_append]
  refine ⟨rfl, ?_⟩
  have hend : ((first :: rest) ++ trail).reverse.dropWhile p = (first :: rest).reverse := by
    rw [List.reverse_append, List.dropWhile_append_of_pos (fun byte hbyte =>
      htrail byte (List.mem_reverse.mp hbyte))]
    cases hreverse : (first :: rest).reverse with
    | nil => rfl
    | cons last init =>
      rw [List.dropWhile_cons_of_neg]
      rw [hlast last (by rw [← List.head?_reverse, hreverse]; rfl)]
      exact Bool.false_ne_true
  rw [List.rdropWhile, hend, List.reverse_reverse]

end Trimming

section Range

variable {text before item after : Bytes} (limits : ApplicationLimits)

theorem spells_core {cookie : Cookie} {raw : Bytes} (hraw : SpellsValue raw cookie.value) :
    (∀ byte ∈ (cookie.name ++ 61 :: raw).head?, isBlank byte = false) ∧
      ∀ byte ∈ (cookie.name ++ 61 :: raw).getLast?, isBlank byte = false := by
  constructor
  · intro byte hbyte
    rw [List.head?_append_of_ne_nil _ cookie.name_ne_nil] at hbyte
    exact (token_ascii byte (cookie.isTokenByte_of_mem (List.mem_of_mem_head? hbyte))).2.2.2
  · intro byte hbyte
    rw [List.getLast?_append_of_ne_nil _ (List.cons_ne_nil _ _)] at hbyte
    rcases List.eq_nil_or_concat' raw with rfl | ⟨init, last, rfl⟩
    · obtain rfl := Option.some.inj hbyte
      rfl
    · rw [← List.cons_append, List.getLast?_concat] at hbyte
      obtain rfl := Option.some.inj hbyte
      rcases hraw with hplain | hquoted
      · have hmem : last ∈ cookie.value := by
          rw [← hplain]
          exact List.mem_append_right _ List.mem_cons_self
        exact (value_ascii last (cookie.validCookieValueByte_of_mem hmem)).2.2.2
      · rw [List.append_singleton_inj] at hquoted
        rw [hquoted.2]
        rfl

/-- An item is read exactly where it spells a cookie that the limits allow. -/
theorem cookieFromRange_spec (htext : text = before ++ item ++ after)
    (hafter : ∀ byte ∈ after.head?, byte < 128) :
    ∃ result, cookieFromRange text before.length (before.length + item.length) limits =
        some result ∧
      ∀ cookie, result = .ok cookie ↔ Spells item cookie ∧ limits.Allows cookie := by
  set lead := item.takeWhile isBlank with hlead
  set core := (item.dropWhile isBlank).rdropWhile isBlank with hcore
  set trail := (item.dropWhile isBlank).rtakeWhile isBlank with htrail
  have hrest : item.dropWhile isBlank = core ++ trail :=
    (List.rdropWhile_append_rtakeWhile ..).symm
  have hitem : item = lead ++ (core ++ trail) := by
    rw [← hrest, hlead]
    exact List.takeWhile_append_dropWhile.symm
  have htextRest : text = (before ++ lead) ++ item.dropWhile isBlank ++ after := by
    rw [hrest, htext, hitem]
    simp
  have htextCore : text = (before ++ lead) ++ core ++ (trail ++ after) := by
    rw [htextRest, hrest]
    simp
  have hfirst : trimCookieOwsStart text before.length (before.length + item.length) =
      some (before ++ lead).length := by
    rw [trimCookieOwsStart, Nat.add_sub_cancel_left, scanForward_window htext, List.length_append]
  have hstop : before.length + item.length =
      (before ++ lead).length + (item.dropWhile isBlank).length := by
    rw [hrest, hitem]
    simp [Nat.add_assoc]
  have hlast : trimCookieOwsEnd text (before ++ lead).length (before.length + item.length) =
      some ((before ++ lead).length + core.length) := by
    rw [trimCookieOwsEnd, hstop, Nat.add_sub_cancel_left, scanBack_window htextRest]
  -- a cookie that the item spells is between the blanks that are dropped
  have hunique : ∀ cookie, Spells item cookie →
      ∃ raw, core = cookie.name ++ 61 :: raw ∧ SpellsValue raw cookie.value := by
    rintro cookie ⟨lead', raw, trail', heq, hlead', htrail', hraw⟩
    obtain ⟨hhead, hend⟩ := spells_core hraw
    refine ⟨raw, ?_, hraw⟩
    rw [hcore, heq]
    exact (trim_core hlead' htrail' hhead hend (by simp)).2
  have hnone : ∀ cookie, (∀ name raw, 61 ∉ name → core = name ++ 61 :: raw → name = []) →
      ((.error invalidCookie : Except HttpError Cookie) = .ok cookie ↔
        Spells item cookie ∧ limits.Allows cookie) := by
    intro cookie hcases
    refine ⟨(by cases ·), fun h => ?_⟩
    obtain ⟨raw, heq, _⟩ := hunique cookie h.1
    exact absurd (hcases _ _ cookie.notMem_name heq) cookie.name_ne_nil
  rw [cookieFromRange, hfirst, Option.bind_eq_bind, Option.bind_some, hlast, Option.bind_some]
  by_cases hempty : core = []
  · rw [if_pos (by rw [hempty]; rfl)]
    refine ⟨_, rfl, fun cookie => hnone cookie fun name raw _ heq => ?_⟩
    rw [hempty] at heq
    simp at heq
  · have hpositive := List.length_pos_of_ne_nil hempty
    rw [if_neg (by omega), Nat.add_sub_cancel_left, scanForward_window htextCore, Option.bind_some]
    rcases separator_cases 61 core with habsent | ⟨name, raw, heq, hname⟩
    · have hall : core.takeWhile (· ≠ 61) = core := by
        rw [List.takeWhile_eq_self_iff]
        intro byte hbyte
        rw [decide_eq_true_iff]
        rintro rfl
        exact habsent hbyte
      rw [hall, if_pos (Or.inr rfl)]
      refine ⟨_, rfl, fun cookie => hnone cookie fun name raw _ heq => absurd ?_ habsent⟩
      rw [heq]
      simp
    · rw [heq, takeWhile_separator raw hname]
      by_cases hnil : name = []
      · rw [if_pos (Or.inl (by rw [hnil]; rfl))]
        refine ⟨_, rfl, fun cookie => hnone cookie fun name' raw' hname' heq' => ?_⟩
        exact (separator_unique (heq.symm.trans heq') hname hname').1.symm.trans hnil
      · have hnamePositive := List.length_pos_of_ne_nil hnil
        have hlength : (name ++ 61 :: raw).length = name.length + (raw.length + 1) := by simp
        rw [if_neg (by omega)]
        have hbehind : ∀ byte ∈ (trail ++ after).head?, byte < 128 := by
          intro byte hbyte
          cases htrailCases : trail with
          | nil =>
            rw [htrailCases] at hbyte
            exact hafter byte hbyte
          | cons first rest =>
            rw [htrailCases] at hbyte
            obtain rfl := Option.some.inj hbyte
            refine (blank_ascii first ?_).1
            have hmem : first ∈ trail := by rw [htrailCases]; exact List.mem_cons_self
            exact List.mem_rtakeWhile_imp hmem
        obtain ⟨result, hresult, hspec⟩ := cookieFromPair_spec limits
          (htextCore.trans (by rw [heq])) hbehind
        refine ⟨result, hresult, fun cookie => (hspec cookie).trans ?_⟩
        constructor
        · rintro ⟨rfl, hraw, hallows⟩
          refine ⟨⟨lead, raw, trail, ?_, ?_, ?_, hraw⟩, hallows⟩
          · rw [hitem, heq, ← List.append_assoc lead]
          · exact fun byte hmem => List.mem_takeWhile_imp hmem
          · exact fun byte hmem => List.mem_rtakeWhile_imp hmem
        · rintro ⟨hspells, hallows⟩
          obtain ⟨raw', heq', hraw'⟩ := hunique cookie hspells
          obtain ⟨rfl, rfl⟩ := separator_unique (heq.symm.trans heq') hname cookie.notMem_name
          exact ⟨rfl, hraw', hallows⟩

end Range

section Lists

variable {text : Bytes} {limits : ApplicationLimits}

def Cookie.size (cookie : Cookie) : ℕ := cookie.name.length + cookie.value.length

/-- The sizes that a limit allows for all cookies of a field. -/
structure ApplicationLimits.AllowsAll (limits : ApplicationLimits) (cookies : List Cookie) : Prop where
  count : cookies.length ≤ limits.itemCount
  each : ∀ cookie ∈ cookies, limits.Allows cookie
  total : (cookies.map Cookie.size).sum ≤ limits.decodedBytes

theorem decodedSize_ok {decodedBytes next : ℕ} {cookie : Cookie} :
    decodedSize limits decodedBytes cookie = .ok next ↔
      next = decodedBytes + cookie.size ∧ decodedBytes + cookie.size ≤ limits.decodedBytes := by
  have hlimit := limits.decodedBytes_le
  unfold decodedSize Cookie.size
  cases hname : checkedApplicationSize decodedBytes cookie.name.length limits.decodedBytes with
  | error failure =>
    refine ⟨(by cases ·), fun h => ?_⟩
    have hok : checkedApplicationSize decodedBytes cookie.name.length limits.decodedBytes =
        .ok (decodedBytes + cookie.name.length) :=
      (checkedApplicationSize_ok hlimit).mpr ⟨rfl, by omega⟩
    rw [hname] at hok
    cases hok
  | ok size =>
    obtain ⟨rfl, hsize⟩ := (checkedApplicationSize_ok hlimit).mp hname
    exact (checkedApplicationSize_ok hlimit).trans (by rw [Nat.add_assoc])

/-- A cookie that the loop accepts from an item. -/
structure CookieLoop.Fits (loop : CookieLoop) (limits : ApplicationLimits) (item : Bytes)
    (cookie : Cookie) : Prop where
  spells : Spells item cookie
  allows : limits.Allows cookie
  count : loop.values.length ≠ limits.itemCount
  total : loop.decodedBytes + cookie.size ≤ limits.decodedBytes

/-- One pass accepts the one cookie that fits, or there is none. -/
theorem CookieLoop.pass_spec (limits : ApplicationLimits) {loop : CookieLoop} {before item after : Bytes}
    (htext : text = before ++ item ++ after) (hstart : loop.start = before.length)
    (hitem : 59 ∉ item) (hafter : ∀ byte ∈ after.head?, byte = 59) :
    (∃ cookie, loop.Fits limits item cookie ∧ (∀ other, loop.Fits limits item other → other = cookie) ∧
      loop.pass text limits = some (if after = [] then .inr (.ok ⟨loop.values ++ [cookie]⟩)
        else .inl ⟨(before ++ item ++ [59]).length, loop.values ++ [cookie],
          loop.decodedBytes + cookie.size⟩)) ∨
    ∃ failure, (∀ cookie, ¬ loop.Fits limits item cookie) ∧
      loop.pass text limits = some (.inr (.error failure)) := by
  have hbytes : (item ++ after).takeWhile (· ≠ 59) = item := by
    rw [List.takeWhile_append_of_pos (fun byte hbyte => by
      rw [decide_eq_true_iff]
      rintro rfl
      exact hitem hbyte)]
    cases after with
    | nil => rw [List.takeWhile_nil, List.append_nil]
    | cons byte rest =>
      rw [hafter byte rfl, List.takeWhile_cons_of_neg (by simp), List.append_nil]
  have hlength := congrArg List.length htext
  rw [List.length_append, List.length_append] at hlength
  have hscan : scanForward (· ≠ 59) text (text.length - loop.start) loop.start =
      some (before.length + item.length) := by
    have hwindow := scanForward_window (p := (· ≠ 59))
      (show text = before ++ (item ++ after) ++ [] by rw [htext]; simp)
    rw [hbytes, List.length_append] at hwindow
    rw [hstart, ← hwindow]
    congr 1
    omega
  have hascii : ∀ byte ∈ after.head?, byte < 128 := by
    intro byte hbyte
    rw [hafter byte hbyte]
    decide
  obtain ⟨result, hresult, hspec⟩ := cookieFromRange_spec limits htext hascii
  rw [CookieLoop.pass, hscan, Option.bind_eq_bind, Option.bind_some, hstart]
  by_cases hcount : loop.values.length = limits.itemCount
  · rw [if_pos hcount]
    exact Or.inr ⟨_, fun cookie hfits => hfits.count hcount, rfl⟩
  · rw [if_neg hcount, hresult, Option.bind_eq_bind, Option.bind_some]
    cases result with
    | error failure =>
      refine Or.inr ⟨failure, fun cookie hfits => ?_, rfl⟩
      cases (hspec cookie).mpr ⟨hfits.spells, hfits.allows⟩
    | ok cookie =>
      have hunique : ∀ other, loop.Fits limits item other → other = cookie := by
        intro other hother
        exact (Except.ok.inj ((hspec other).mpr ⟨hother.spells, hother.allows⟩)).symm
      obtain ⟨hspells, hallows⟩ := (hspec cookie).mp rfl
      dsimp only
      rw [CookieLoop.accept]
      cases hsize : decodedSize limits loop.decodedBytes cookie with
      | error failure =>
        refine Or.inr ⟨failure, fun other hother => ?_, rfl⟩
        have hok := decodedSize_ok.mpr ⟨rfl, hother.total⟩
        rw [hunique other hother, hsize] at hok
        cases hok
      | ok decodedBytes =>
        obtain ⟨rfl, htotal⟩ := decodedSize_ok.mp hsize
        refine Or.inl ⟨cookie, ⟨hspells, hallows, hcount, htotal⟩, hunique, ?_⟩
        dsimp only
        by_cases hempty : after = []
        · rw [if_pos hempty, if_pos (by rw [hlength, hempty]; rfl)]
        · have hpositive := List.length_pos_of_ne_nil hempty
          rw [if_neg hempty, if_neg (by omega)]
          simp [Nat.add_assoc]

/-- What the loop makes of the rest of a text. -/
structure CookieLoop.Reads (loop : CookieLoop) (limits : ApplicationLimits) (rest : Bytes)
    (cookies : List Cookie) : Prop where
  items : List.Forall₂ Spells (rest.splitOn 59) cookies
  each : ∀ cookie ∈ cookies, limits.Allows cookie
  count : loop.values.length + cookies.length ≤ limits.itemCount
  total : loop.decodedBytes + (cookies.map Cookie.size).sum ≤ limits.decodedBytes

/-- The loop that has accepted one more cookie. -/
def CookieLoop.next (loop : CookieLoop) (start : ℕ) (cookie : Cookie) : CookieLoop :=
  ⟨start, loop.values ++ [cookie], loop.decodedBytes + cookie.size⟩

theorem CookieLoop.reads_last {loop : CookieLoop} {item : Bytes} {cookies : List Cookie}
    (hitem : 59 ∉ item) : loop.Reads limits item cookies ↔
      ∃ cookie, cookies = [cookie] ∧ loop.Fits limits item cookie ∧
        loop.values.length + 1 ≤ limits.itemCount := by
  constructor
  · intro h
    have hitems := h.items
    rw [List.splitOn_eq_singleton hitem] at hitems
    obtain ⟨cookie, rest, hspells, hrest, rfl⟩ := List.forall₂_cons_left_iff.mp hitems
    obtain rfl := List.forall₂_nil_left_iff.mp hrest
    have hcount := h.count
    have htotal := h.total
    rw [List.map_singleton, List.sum_singleton] at htotal
    rw [List.length_singleton] at hcount
    exact ⟨cookie, rfl, ⟨hspells, h.each cookie List.mem_cons_self, by omega, htotal⟩, hcount⟩
  · rintro ⟨cookie, rfl, hfits, hcount⟩
    refine ⟨?_, ?_, hcount, ?_⟩
    · rw [List.splitOn_eq_singleton hitem]
      exact .cons hfits.spells .nil
    · intro other hother
      rw [List.mem_singleton.mp hother]
      exact hfits.allows
    · rw [List.map_singleton, List.sum_singleton]
      exact hfits.total

theorem CookieLoop.reads_cons {loop : CookieLoop} {item more : Bytes} {cookies : List Cookie}
    (hitem : 59 ∉ item) (start : ℕ) : loop.Reads limits (item ++ 59 :: more) cookies ↔
      ∃ cookie read, cookies = cookie :: read ∧ loop.Fits limits item cookie ∧
        (loop.next start cookie).Reads limits more read := by
  have hsplit : (item ++ 59 :: more).splitOn 59 = item :: more.splitOn 59 :=
    List.splitOn_append_cons_self_of_not_mem hitem more
  constructor
  · intro h
    have hitems := h.items
    rw [hsplit] at hitems
    obtain ⟨cookie, read, hspells, hrest, rfl⟩ := List.forall₂_cons_left_iff.mp hitems
    have heach := List.forall_mem_cons.mp h.each
    have hcount := h.count
    have htotal := h.total
    rw [List.map_cons, List.sum_cons] at htotal
    rw [List.length_cons] at hcount
    refine ⟨cookie, read, rfl, ⟨hspells, heach.1, by omega, by omega⟩, hrest, heach.2, ?_, ?_⟩
    · rw [CookieLoop.next, List.length_append, List.length_singleton]
      omega
    · change loop.decodedBytes + cookie.size + _ ≤ _
      omega
  · rintro ⟨cookie, read, rfl, hfits, hreads⟩
    have hcount := hreads.count
    have htotal := hreads.total
    change loop.decodedBytes + cookie.size + _ ≤ _ at htotal
    rw [CookieLoop.next, List.length_append, List.length_singleton] at hcount
    refine ⟨?_, List.forall_mem_cons.mpr ⟨hfits.allows, hreads.each⟩, ?_, ?_⟩
    · rw [hsplit]
      exact .cons hfits.spells hreads.items
    · rw [List.length_cons]
      omega
    · rw [List.map_cons, List.sum_cons]
      omega

theorem CookieLoop.run_spec (limits : ApplicationLimits) {loop : CookieLoop} {before rest : Bytes} {passes : ℕ}
    (htext : text = before ++ rest) (hstart : loop.start = before.length)
    (hcount : loop.values.length ≤ limits.itemCount) (hpasses : rest.length < passes) :
    ∃ result, Loop.attempt (CookieLoop.pass text limits) passes loop = some result ∧
      ∀ cookies, result = .ok cookies ↔
        ∃ read, cookies.values = loop.values ++ read ∧ loop.Reads limits rest read := by
  induction passes generalizing loop before rest with
  | zero => exact absurd hpasses (Nat.not_lt_zero _)
  | succ passes ih =>
    rw [Loop.attempt]
    rcases separator_cases 59 rest with hlast | ⟨item, more, rfl, hitem⟩
    · rcases CookieLoop.pass_spec limits (htext.trans (List.append_nil _).symm) hstart hlast
        (fun _ h => by cases h) with
        ⟨cookie, hfits, hunique, hpass⟩ | ⟨failure, hnone, hpass⟩
      · rw [hpass, if_pos rfl]
        refine ⟨_, rfl, fun cookies => ?_⟩
        rw [Except.ok.injEq]
        constructor
        · rintro rfl
          have hless := Nat.lt_of_le_of_ne hcount hfits.count
          exact ⟨[cookie], rfl, (reads_last hlast).mpr ⟨cookie, rfl, hfits, hless⟩⟩
        · rintro ⟨read, hvalues, hreads⟩
          obtain ⟨other, rfl, hother, _⟩ := (reads_last hlast).mp hreads
          rw [hunique other hother] at hvalues
          cases cookies
          exact congrArg Cookies.mk hvalues.symm
      · rw [hpass]
        refine ⟨_, rfl, fun cookies => ⟨(by cases ·), ?_⟩⟩
        rintro ⟨read, _, hreads⟩
        obtain ⟨other, _, hother, _⟩ := (reads_last hlast).mp hreads
        exact absurd hother (hnone other)
    · have hlength : (item ++ 59 :: more).length = item.length + (more.length + 1) := by simp
      rcases CookieLoop.pass_spec limits (htext.trans (List.append_assoc ..).symm) hstart hitem
        (fun _ h => (Option.some.inj h).symm) with
        ⟨cookie, hfits, hunique, hpass⟩ | ⟨failure, hnone, hpass⟩
      · rw [hpass, if_neg (List.cons_ne_nil _ _)]
        have hless := Nat.lt_of_le_of_ne hcount hfits.count
        have hroom : (loop.next (before ++ item ++ [59]).length cookie).values.length ≤
            limits.itemCount := by
          rw [CookieLoop.next, List.length_append, List.length_singleton]
          exact hless
        obtain ⟨result, hresult, hspec⟩ := ih
          (show text = (before ++ item ++ [59]) ++ more by rw [htext]; simp) rfl hroom (by omega)
        refine ⟨result, hresult, fun cookies => (hspec cookies).trans ?_⟩
        constructor
        · rintro ⟨read, hvalues, hreads⟩
          refine ⟨cookie :: read, ?_, (reads_cons hitem _).mpr ⟨cookie, read, rfl, hfits, hreads⟩⟩
          rw [hvalues, CookieLoop.next, List.append_assoc, List.singleton_append]
        · rintro ⟨read, hvalues, hreads⟩
          obtain ⟨other, read, rfl, hother, hnext⟩ :=
            (reads_cons hitem (before ++ item ++ [59]).length).mp hreads
          obtain rfl := hunique other hother
          refine ⟨read, ?_, hnext⟩
          rw [hvalues, CookieLoop.next, List.append_assoc, List.singleton_append]
      · rw [hpass]
        refine ⟨_, rfl, fun cookies => ⟨(by cases ·), ?_⟩⟩
        rintro ⟨read, _, hreads⟩
        obtain ⟨other, _, _, hother, _⟩ := (reads_cons hitem 0).mp hreads
        exact absurd hother (hnone other)

/-- A field is read exactly where its items spell cookies that the limits allow. -/
theorem Cookies.parseWithLimits_spec (text : Bytes) (limits : ApplicationLimits) :
    ∃ result, Cookies.parseWithLimits text limits = some result ∧ ∀ cookies, result = .ok cookies ↔
        limits.AllowsAll cookies.values ∧ if text = [] then cookies.values = []
          else List.Forall₂ Spells (text.splitOn 59) cookies.values := by
  rw [Cookies.parseWithLimits]
  by_cases hempty : text = []
  · rw [if_pos (by rw [hempty]; rfl)]
    refine ⟨_, rfl, fun cookies => ?_⟩
    rw [if_pos hempty, Except.ok.injEq]
    constructor
    · rintro rfl
      exact ⟨⟨Nat.zero_le _, fun _ h => absurd h List.not_mem_nil, Nat.zero_le _⟩, rfl⟩
    · rintro ⟨_, hvalues⟩
      cases cookies
      exact congrArg Cookies.mk hvalues.symm
  · have hpositive := List.length_pos_of_ne_nil hempty
    rw [if_neg (by omega)]
    obtain ⟨result, hresult, hspec⟩ := CookieLoop.run_spec limits
      (List.nil_append text).symm (rfl : (⟨0, [], 0⟩ : CookieLoop).start = _) (Nat.zero_le _)
      (Nat.lt_succ_self _)
    refine ⟨result, hresult, fun cookies => (hspec cookies).trans ?_⟩
    rw [if_neg hempty]
    constructor
    · rintro ⟨read, rfl, hreads⟩
      have hcount := hreads.count
      have htotal := hreads.total
      rw [List.length_nil, Nat.zero_add] at hcount
      rw [Nat.zero_add] at htotal
      exact ⟨⟨hcount, hreads.each, htotal⟩, hreads.items⟩
    · rintro ⟨hallows, hitems⟩
      refine ⟨cookies.values, rfl, hitems, hallows.each, ?_, ?_⟩
      · rw [List.length_nil, Nat.zero_add]
        exact hallows.count
      · rw [Nat.zero_add]
        exact hallows.total

end Lists

section RoundTrip

/-- A rendered pair with blanks around it. -/
def Padded (item : Bytes) (cookie : Cookie) : Prop :=
  ∃ lead trail, item = lead ++ cookie.render ++ trail ∧
    (∀ byte ∈ lead, isBlank byte = true) ∧ ∀ byte ∈ trail, isBlank byte = true

variable {item : Bytes} {cookie : Cookie}

theorem Padded.spells (h : Padded item cookie) : Spells item cookie := by
  obtain ⟨lead, trail, rfl, hlead, htrail⟩ := h
  refine ⟨lead, cookie.value, trail, ?_, hlead, htrail, Or.inl rfl⟩
  rw [Cookie.render, List.append_assoc cookie.name, List.singleton_append]

/-- Neither a name nor a value has a byte that ends an item. -/
theorem Padded.notMem (h : Padded item cookie) : 59 ∉ item := by
  obtain ⟨lead, trail, rfl, hlead, htrail⟩ := h
  rw [Cookie.render]
  simp only [List.mem_append, not_or, List.mem_singleton]
  refine ⟨⟨fun hmem => ?_, ⟨fun hmem => ?_, by decide⟩, fun hmem => ?_⟩, fun hmem => ?_⟩
  · exact (blank_ascii 59 (hlead 59 hmem)).2 rfl
  · exact (token_ascii 59 (cookie.isTokenByte_of_mem hmem)).2.2.1 rfl
  · exact (value_ascii 59 (cookie.validCookieValueByte_of_mem hmem)).2.2.1 rfl
  · exact (blank_ascii 59 (htrail 59 hmem)).2 rfl

theorem Padded.ne_nil (h : Padded item cookie) : item ≠ [] := by
  obtain ⟨lead, trail, rfl, _⟩ := h
  rw [Cookie.render]
  simp

theorem splitOn_padded {items : List Bytes} {cookies : List Cookie}
    (h : List.Forall₂ Padded items cookies) (hne : items ≠ []) :
    ([59].intercalate items).splitOn 59 = items ∧ [59].intercalate items ≠ [] := by
  have hmem : ∀ item ∈ items, ∃ cookie, Padded item cookie := by
    intro item hitem
    obtain ⟨index, hindex, rfl⟩ := List.mem_iff_getElem.mp hitem
    exact ⟨_, h.get hindex (h.length_eq ▸ hindex)⟩
  have hsplit := List.splitOn_intercalate 59
    (fun item hitem => (hmem item hitem).elim fun _ hpadded => hpadded.notMem) hne
  refine ⟨hsplit, fun hnil => ?_⟩
  rw [hnil, List.splitOn_nil] at hsplit
  obtain ⟨cookie, hpadded⟩ := hmem [] (by rw [← hsplit]; exact List.mem_cons_self)
  exact hpadded.ne_nil rfl

/-- Cookies that are accepted, rendered and joined are read back as they are, and every text is
read without an index outside of it, into the cookies that its items spell. -/
theorem cookies_exact (limits : ApplicationLimits) (text : Bytes) :
    (∀ (pairs : List (Bytes × Bytes)) (cookies : List Cookie) (items : List Bytes),
      List.Forall₂ (fun pair cookie => Cookie.new pair.1 pair.2 = .ok cookie) pairs cookies →
      limits.AllowsAll cookies → List.Forall₂ Padded items cookies →
      text = [59].intercalate items →
      Cookies.parseWithLimits text limits = some (.ok ⟨cookies⟩) ∧
        cookies.map (fun cookie => (cookie.name, cookie.value)) = pairs) ∧
    ∃ result, Cookies.parseWithLimits text limits = some result ∧
      ∀ cookies, result = .ok cookies →
        text = [] ∧ cookies.values = [] ∨ List.Forall₂ Spells (text.splitOn 59) cookies.values := by
  obtain ⟨result, hresult, hspec⟩ := Cookies.parseWithLimits_spec text limits
  constructor
  · intro pairs cookies items hnew hallows hpadded htext
    constructor
    · rw [hresult, (hspec ⟨cookies⟩).mpr]
      refine ⟨hallows, ?_⟩
      by_cases hitems : items = []
      · subst hitems
        rw [List.forall₂_nil_left_iff.mp hpadded]
        rw [if_pos (htext.trans List.intercalate_nil)]
      · obtain ⟨hsplit, hne⟩ := splitOn_padded hpadded hitems
        rw [htext, if_neg hne, hsplit]
        exact hpadded.imp fun _ _ => Padded.spells
    · clear hallows hpadded
      induction hnew with
      | nil => rfl
      | cons hfirst _ ih =>
        obtain ⟨hname, hvalue⟩ := Cookie.new_eq_ok.mp hfirst
        rw [List.map_cons, ih, hname, hvalue]
  · refine ⟨result, hresult, fun cookies hok => ?_⟩
    obtain ⟨_, hitems⟩ := (hspec cookies).mp hok
    split at hitems
    · next hempty => exact Or.inl ⟨hempty, hitems⟩
    · exact Or.inr hitems

/-- Two pairs with a blank before the second. -/
theorem two_cookies_exact :
    (Cookies.parse [97, 61, 98, 59, 32, 99, 61]).map (Except.map Cookies.values) =
      some (.ok [⟨[97], [98], rfl, rfl⟩, ⟨[99], [], rfl, rfl⟩]) := by
  have h := ((cookies_exact .standard [97, 61, 98, 59, 32, 99, 61]).1
    [([97], [98]), ([99], [])] [⟨[97], [98], rfl, rfl⟩, ⟨[99], [], rfl, rfl⟩]
    [[97, 61, 98], [32, 99, 61]] (.cons rfl (.cons rfl .nil))
    ⟨by decide, by simp [ApplicationLimits.Allows, ApplicationLimits.standard, Cookie.name, Cookie.value], by decide⟩
    (.cons ⟨[], [], rfl, by simp, by simp⟩ (.cons ⟨[32], [], rfl, by simp [isBlank], by simp⟩ .nil))
    rfl).1
  rw [Cookies.parse, h]
  rfl

end RoundTrip

end Nocter.Http
