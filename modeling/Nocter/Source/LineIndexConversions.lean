import Nocter.Library.PrefixOrder
import Nocter.Source.LineIndex

/-!
# Conversions between byte offsets and editor positions

A boundary between two scalars has one byte offset and one editor position. The two
conversions of the index map them to each other and reject everything else.
-/

namespace Nocter.Source

/-- Where the cursor stands after one more scalar. -/
def Utf16Position.after (position : Utf16Position) (c : Char) : Utf16Position :=
  if c = '\n' then ⟨position.line + 1, 0⟩ else ⟨position.line, position.character + lenUtf16 c⟩

/-- Where the cursor stands after a text. -/
def positionAfter (text : List Char) : Utf16Position := text.foldl Utf16Position.after ⟨0, 0⟩

/-- The position and the offset are those of one boundary of the text. -/
def Names (text : List Char) (position : Utf16Position) (offset : ℕ) : Prop :=
  ∃ before, before <+: text ∧ position = positionAfter before ∧ offset = utf8Len before

/-- Why an offset names no boundary. -/
inductive OffsetRejected (text : List Char) (offset : ℕ) : CoordinateError → Prop
  | outOfBounds (h : utf8Len text < offset) :
      OffsetRejected text offset (.byteOutOfBounds offset (utf8Len text))
  | inside {a b : List Char} {c : Char} (split : text = a ++ c :: b) (low : utf8Len a < offset)
      (high : offset < utf8Len a + lenUtf8 c) :
      OffsetRejected text offset (.notUtf8Boundary offset)

/-- Why a position names no boundary. -/
inductive PositionRejected (text : List Char) (position : Utf16Position) : CoordinateError → Prop
  | line (h : text.count '\n' + 1 ≤ position.line) :
      PositionRejected text position (.lineOutOfBounds position.line (text.count '\n' + 1))
  | character {before content after : List Char}
      (line : LineAt text position.line before content after)
      (h : utf16Len content < position.character) :
      PositionRejected text position (.characterOutOfBounds position (utf16Len content))
  | surrogate {before a b after : List Char} {c : Char}
      (line : LineAt text position.line before (a ++ c :: b) after)
      (low : utf16Len a < position.character)
      (high : position.character < utf16Len a + lenUtf16 c) :
      PositionRejected text position (.splitUtf16Scalar position)

/-- Positions are ordered by line, then by character. -/
instance : LinearOrder Utf16Position :=
  LinearOrder.lift' (fun position => toLex (position.line, position.character)) fun a b h => by
    cases a
    cases b
    simpa using h

theorem position_lt_iff {a b : Utf16Position} :
    a < b ↔ a.line < b.line ∨ a.line = b.line ∧ a.character < b.character :=
  Prod.Lex.lt_iff

theorem grows_utf8Len : Grows utf8Len := by
  intro before c
  have hpos := lenUtf8_pos c
  simp only [utf8Len_append, utf8Len_cons, utf8Len_nil]
  omega

theorem grows_positionAfter : Grows positionAfter := by
  intro before c
  rw [position_lt_iff]
  simp only [positionAfter, List.foldl_append, List.foldl_cons, List.foldl_nil,
    Utf16Position.after]
  split_ifs
  · exact Or.inl (Nat.lt_succ_self _)
  · exact Or.inr ⟨rfl, Nat.lt_add_of_pos_right (lenUtf16_pos c)⟩

theorem positionAfter_content {inner : List Char} (h : '\n' ∉ inner) (position : Utf16Position) :
    inner.foldl Utf16Position.after position =
      ⟨position.line, position.character + utf16Len inner⟩ := by
  induction inner generalizing position with
  | nil => rfl
  | cons c rest ih =>
    rw [List.mem_cons, not_or] at h
    have hc : c ≠ '\n' := fun he => h.1 he.symm
    rw [List.foldl_cons, ih h.2, Utf16Position.after, if_neg hc, utf16Len_cons, add_assoc]

theorem positionAfter_line {text before content after inner rest : List Char} {line : ℕ}
    (h : LineAt text line before content after) (hinner : content = inner ++ rest) :
    positionAfter (before ++ inner) = ⟨line, utf16Len inner⟩ := by
  have hfree : '\n' ∉ inner := fun hmem => h.content_line (by simp [hinner, hmem])
  have hbefore : positionAfter before = ⟨line, 0⟩ := by
    rcases h.before_closed with rfl | ⟨b, rfl⟩
    · rw [← h.before_count]
      rfl
    · have hlines : ∀ (b : List Char) (position : Utf16Position),
          (b.foldl Utf16Position.after position).line = position.line + b.count '\n' := by
        intro b
        induction b with
        | nil => exact fun position => rfl
        | cons c b ih =>
          intro position
          rw [List.foldl_cons, ih]
          by_cases hc : c = '\n'
          · subst hc
            simp only [Utf16Position.after, if_pos, List.count_cons_self]
            omega
          · rw [List.count_cons_of_ne hc]
            simp [Utf16Position.after, hc]
      have hb := hlines b ⟨0, 0⟩
      rw [← h.before_count]
      simp only [positionAfter, List.foldl_append, List.foldl_cons, List.foldl_nil,
        Utf16Position.after, if_pos, List.count_append]
      rw [hb]
      simp
  rw [positionAfter, List.foldl_append]
  rw [positionAfter] at hbefore
  rw [hbefore, positionAfter_content hfree]
  simp

section Offsets

/-- An offset up to the length of a list of sized elements ends a prefix or lies inside one. -/
theorem prefix_or_inside {α : Type} (size : α → ℕ) (l : List α) {n : ℕ} (h : n ≤ (l.map size).sum) :
    (∃ a b, l = a ++ b ∧ n = (a.map size).sum) ∨
      ∃ a c b, l = a ++ c :: b ∧ (a.map size).sum < n ∧ n < (a.map size).sum + size c := by
  induction l generalizing n with
  | nil => exact Or.inl ⟨[], [], rfl, Nat.le_zero.mp h⟩
  | cons x l ih =>
    rw [List.map_cons, List.sum_cons] at h
    by_cases hx : n < size x
    · rcases Nat.eq_zero_or_pos n with rfl | hpos
      · exact Or.inl ⟨[], x :: l, rfl, rfl⟩
      · exact Or.inr ⟨[], x, l, rfl, hpos, by simpa using hx⟩
    · rcases ih (n := n - size x) (by omega) with ⟨a, b, rfl, hn⟩ | ⟨a, c, b, rfl, hlow, hhigh⟩
      · refine Or.inl ⟨x :: a, b, rfl, ?_⟩
        rw [List.map_cons, List.sum_cons]
        omega
      · refine Or.inr ⟨x :: a, c, b, rfl, ?_, ?_⟩ <;>
          · rw [List.map_cons, List.sum_cons]
            omega

theorem isCharBoundary_append (a b : List Char) : isCharBoundary (a ++ b) (utf8Len a) = true := by
  induction a with
  | nil => cases b <;> simp [isCharBoundary]
  | cons c a ih => simp [isCharBoundary, ih]

theorem isCharBoundary_inside {a b : List Char} {c : Char} {n : ℕ} (hlow : utf8Len a < n)
    (hhigh : n < utf8Len a + lenUtf8 c) : isCharBoundary (a ++ c :: b) n = false := by
  induction a generalizing n with
  | nil =>
    rw [utf8Len_nil] at hlow hhigh
    simp only [List.nil_append, isCharBoundary, Bool.or_eq_false_iff, Bool.and_eq_false_iff]
    refine ⟨by simpa using hlow.ne', Or.inl ?_⟩
    simpa using hhigh
  | cons d a ih =>
    rw [utf8Len_cons] at hlow hhigh
    have hrest := ih (n := n - lenUtf8 d) (by omega) (by omega)
    simp only [List.cons_append, isCharBoundary, hrest, Bool.and_false, Bool.or_false]
    simp only [beq_eq_false_iff_ne, ne_eq]
    omega

end Offsets

namespace LineIndex

section Columns

variable (index : LineIndex) (line : ℕ)

theorem byteColumn_record (column b u byteLen utf16Len difference : ℕ) (rest : List EncodedScalar) :
    index.byteColumnToUtf16From line column (⟨b, u, byteLen, utf16Len⟩ :: rest) difference =
      if column < b then sub32 column difference
      else if column = b then .ok u
      else (do
        if column < (← add32 b byteLen) then
          match index.starts[line]? with
          | none => .error .panicked
          | some start => .error (.coordinate (.notUtf8Boundary (← add32 start column)))
        else
          index.byteColumnToUtf16From line column rest
            (← add32 difference (← sub32 byteLen utf16Len))) := rfl

/-- Records that end before the column only move the scan to the column after them. -/
theorem byteColumn_skip (column : ℕ) (a rest : List Char) {b u : ℕ} (hu : u ≤ b)
    (hcolumn : b + utf8Len a ≤ column) (hfits : column < 2 ^ 32) :
    index.byteColumnToUtf16From line column (encodedFrom b u (a ++ rest)) (b - u) =
      index.byteColumnToUtf16From line column (encodedFrom (b + utf8Len a) (u + utf16Len a) rest)
        (b + utf8Len a - (u + utf16Len a)) := by
  induction a generalizing b u with
  | nil => rfl
  | cons c a ih =>
    rw [utf8Len_cons] at hcolumn
    have hpos := lenUtf8_pos c
    have hle := lenUtf16_le c
    have hrest := ih (b := b + lenUtf8 c) (u := u + lenUtf16 c) (by omega) (by omega)
    rw [utf8Len_cons, utf16Len_cons, ← add_assoc, ← add_assoc, ← hrest, List.cons_append,
      encodedFrom]
    split_ifs with hlen
    · have hnext : b - u + (lenUtf8 c - lenUtf16 c) = b + lenUtf8 c - (u + lenUtf16 c) := by omega
      rw [List.singleton_append, byteColumn_record, if_neg (by omega), if_neg (by omega)]
      simp only [add32_eq (show b + lenUtf8 c < 2 ^ 32 by omega), sub32_eq hle,
        add32_eq (show b - u + (lenUtf8 c - lenUtf16 c) < 2 ^ 32 by omega), bind, Except.bind,
        if_neg (show ¬ column < b + lenUtf8 c by omega), hnext]
    · rw [ne_eq, not_not] at hlen
      have hsame : b - u = b + lenUtf8 c - (u + lenUtf16 c) := by omega
      rw [List.nil_append, hsame]

/-- At the column of a boundary the scan answers with the difference found so far. -/
theorem byteColumn_at {column : ℕ} (rest : List Char) {b u : ℕ} (hu : u ≤ b) (hle : column ≤ b)
    (hcolumn : b - u ≤ column) :
    index.byteColumnToUtf16From line column (encodedFrom b u rest) (b - u) =
      .ok (column - (b - u)) := by
  induction rest generalizing b u with
  | nil => exact sub32_eq hcolumn
  | cons c rest ih =>
    rw [encodedFrom]
    split_ifs with hlen
    · rw [List.singleton_append, byteColumn_record]
      rcases hle.lt_or_eq with hlt | rfl
      · rw [if_pos hlt]
        exact sub32_eq hcolumn
      · rw [if_neg (lt_irrefl _), if_pos rfl]
        congr 1
        omega
    · rw [ne_eq, not_not] at hlen
      have hsame : b - u = b + lenUtf8 c - (u + lenUtf16 c) := by omega
      rw [List.nil_append, hsame]
      exact ih (by omega) (by omega) (by omega)

theorem byteColumn_boundary (a rest : List Char) (hfits : utf8Len a < 2 ^ 32) :
    index.byteColumnToUtf16From line (utf8Len a) (encodedFrom 0 0 (a ++ rest)) 0 =
      .ok (utf16Len a) := by
  have hle := utf16Len_le a
  have hskip := byteColumn_skip index line (utf8Len a) a rest (b := 0) (u := 0) le_rfl
    (by omega) hfits
  rw [Nat.sub_self] at hskip
  rw [hskip, byteColumn_at index line rest (by omega) (by omega) (by omega)]
  congr 1
  omega

end Columns

section Characters

variable (position : Utf16Position) (byteLen : ℕ)

theorem utf16Column_record (b u scalarLen utf16Len difference : ℕ) (rest : List EncodedScalar) :
    utf16ColumnToByteFrom position byteLen (⟨b, u, scalarLen, utf16Len⟩ :: rest) difference =
      if position.character < u then utf16ColumnToByteFrom.finish position byteLen difference
      else if position.character = u then .ok b
      else (do
        if position.character < (← add32 u utf16Len) then
          .error (.coordinate (.splitUtf16Scalar position))
        else
          utf16ColumnToByteFrom position byteLen rest
            (← add32 difference (← sub32 scalarLen utf16Len))) := rfl

theorem utf16Column_skip (a rest : List Char) {b u : ℕ} (hu : u ≤ b)
    (hcolumn : u + utf16Len a ≤ position.character) (hfits : position.character < 2 ^ 32)
    (hbytes : b + utf8Len a < 2 ^ 32) :
    utf16ColumnToByteFrom position byteLen (encodedFrom b u (a ++ rest)) (b - u) =
      utf16ColumnToByteFrom position byteLen (encodedFrom (b + utf8Len a) (u + utf16Len a) rest)
        (b + utf8Len a - (u + utf16Len a)) := by
  induction a generalizing b u with
  | nil => rfl
  | cons c a ih =>
    rw [utf16Len_cons] at hcolumn
    rw [utf8Len_cons] at hbytes
    have hpos := lenUtf16_pos c
    have hle := lenUtf16_le c
    have hrest := ih (b := b + lenUtf8 c) (u := u + lenUtf16 c) (by omega) (by omega) (by omega)
    rw [utf8Len_cons, utf16Len_cons, ← add_assoc, ← add_assoc, ← hrest, List.cons_append,
      encodedFrom]
    split_ifs with hlen
    · have hnext : b - u + (lenUtf8 c - lenUtf16 c) = b + lenUtf8 c - (u + lenUtf16 c) := by omega
      rw [List.singleton_append, utf16Column_record, if_neg (by omega), if_neg (by omega)]
      simp only [add32_eq (show u + lenUtf16 c < 2 ^ 32 by omega), sub32_eq hle,
        add32_eq (show b - u + (lenUtf8 c - lenUtf16 c) < 2 ^ 32 by omega), bind, Except.bind,
        if_neg (show ¬ position.character < u + lenUtf16 c by omega), hnext]
    · rw [ne_eq, not_not] at hlen
      have hsame : b - u = b + lenUtf8 c - (u + lenUtf16 c) := by omega
      rw [List.nil_append, hsame]

theorem utf16Column_finish {difference : ℕ} (hsum : position.character + difference < 2 ^ 32)
    (hlen : position.character + difference ≤ byteLen) :
    utf16ColumnToByteFrom.finish position byteLen difference =
      .ok (position.character + difference) := by
  simp only [utf16ColumnToByteFrom.finish, add32_eq hsum, bind, Except.bind, if_pos hlen]
  rfl

theorem utf16Column_at (rest : List Char) {b u : ℕ} (hu : u ≤ b) (hle : position.character ≤ u)
    (hsum : position.character + (b - u) < 2 ^ 32) (hlen : position.character + (b - u) ≤ byteLen) :
    utf16ColumnToByteFrom position byteLen (encodedFrom b u rest) (b - u) =
      .ok (position.character + (b - u)) := by
  induction rest generalizing b u with
  | nil => exact utf16Column_finish position byteLen hsum hlen
  | cons c rest ih =>
    rw [encodedFrom]
    split_ifs with hne
    · rw [List.singleton_append, utf16Column_record]
      rcases hle.lt_or_eq with hlt | heq
      · rw [if_pos hlt]
        exact utf16Column_finish position byteLen hsum hlen
      · rw [if_neg heq.not_lt, if_pos heq]
        congr 1
        omega
    · rw [ne_eq, not_not] at hne
      have hsame : b - u = b + lenUtf8 c - (u + lenUtf16 c) := by omega
      rw [List.nil_append, hsame]
      exact ih (by omega) (by omega) (by omega) (by omega)

theorem utf16Column_boundary (a rest : List Char) (hcharacter : position.character = utf16Len a)
    (hfits : utf8Len a < 2 ^ 32) (hlen : utf8Len a ≤ byteLen) :
    utf16ColumnToByteFrom position byteLen (encodedFrom 0 0 (a ++ rest)) 0 = .ok (utf8Len a) := by
  have hle := utf16Len_le a
  have hskip := utf16Column_skip position byteLen a rest (b := 0) (u := 0) le_rfl
    (by omega) (by omega) (by omega)
  rw [Nat.sub_self] at hskip
  rw [hskip, utf16Column_at position byteLen rest (by omega) (by omega) (by omega) (by omega)]
  congr 1
  omega

theorem utf16Column_inside (a rest : List Char) {c : Char} (hlow : utf16Len a < position.character)
    (hhigh : position.character < utf16Len a + lenUtf16 c)
    (hfits : utf8Len a + lenUtf8 c < 2 ^ 32) :
    utf16ColumnToByteFrom position byteLen (encodedFrom 0 0 (a ++ c :: rest)) 0 =
      .error (.coordinate (.splitUtf16Scalar position)) := by
  have hle := utf16Len_le a
  have hc := lenUtf16_le c
  have hwide : lenUtf8 c ≠ lenUtf16 c := by
    intro he
    have hone := lenUtf8_eq_one he
    omega
  have hskip := utf16Column_skip position byteLen a (c :: rest) (b := 0) (u := 0) le_rfl
    (by omega) (by omega) (by omega)
  rw [Nat.sub_self] at hskip
  rw [hskip, encodedFrom, if_pos hwide, List.singleton_append, utf16Column_record,
    if_neg (by omega), if_neg (by omega)]
  simp only [add32_eq (show 0 + utf16Len a + lenUtf16 c < 2 ^ 32 by omega), bind, Except.bind,
    if_pos (show position.character < 0 + utf16Len a + lenUtf16 c by omega)]

end Characters

section Lines

variable {text before content after inner rest : List Char} {line : ℕ}

theorem utf8Len_lineAt (h : LineAt text line before content after) :
    utf8Len text = utf8Len before + utf8Len content + utf8Len after := by
  rw [h.text_eq, utf8Len_append, utf8Len_append, add_assoc]

theorem count_le_utf8Len (text : List Char) : text.count '\n' ≤ utf8Len text := by
  induction text with
  | nil => simp
  | cons c text ih =>
    have hpos := lenUtf8_pos c
    rw [List.count_cons, utf8Len_cons]
    split_ifs <;> omega

theorem line_lt (h : LineAt text line before content after)
    (hfits : utf8Len text < 2 ^ 32) : line < 2 ^ 32 := by
  have hcount := count_le_utf8Len before
  have hlen := utf8Len_lineAt h
  rw [h.before_count] at hcount
  omega

theorem lineColumn_at (h : LineAt text line before content after) (hinner : content = inner ++ rest)
    (hfits : utf8Len text < 2 ^ 32) :
    (new text (utf8Len text)).lineColumn (utf8Len before + utf8Len inner) =
      .ok (some ⟨line, utf8Len inner⟩) := by
  have hlen := utf8Len_lineAt h
  rw [hinner, utf8Len_append] at hlen
  obtain ⟨⟨earlier, later, hstarts, hlength, hle, hlater⟩, _⟩ := h.entries
  have hstarts : (new text (utf8Len text)).starts = earlier ++ utf8Len before :: later := hstarts
  -- the starts up to the offset are those of the earlier lines and of this one
  have htake : (earlier ++ utf8Len before :: later).takeWhile
      (fun start => decide (start ≤ utf8Len before + utf8Len inner)) =
        earlier ++ [utf8Len before] := by
    rw [List.takeWhile_append_of_pos, List.takeWhile_cons_of_pos (by simp)]
    · rcases hlater with ⟨_, rfl⟩ | ⟨_, more, rfl⟩
      · rfl
      · rw [List.takeWhile_cons_of_neg]
        rw [hinner, utf8Len_append, decide_eq_true_eq]
        omega
    · intro start hstart
      rw [decide_eq_true_eq]
      exact (hle start hstart).trans (Nat.le_add_right _ _)
  have hget : (earlier ++ utf8Len before :: later)[line]? = some (utf8Len before) := by
    rw [← hlength]
    simp
  have hnot : ¬ (new text (utf8Len text)).sourceLen < utf8Len before + utf8Len inner := by
    rw [show (new text (utf8Len text)).sourceLen = utf8Len text from rfl]
    omega
  have hline : (earlier ++ [utf8Len before]).length - 1 = line := by simp [hlength]
  simp only [lineColumn, if_neg hnot, hstarts, htake, hline, hget, if_pos (line_lt h hfits),
    sub32_eq (Nat.le_add_right _ _), Nat.add_sub_cancel_left]
  rfl

theorem utf16Position_at (h : LineAt text line before content after)
    (hinner : content = inner ++ rest) (hfits : utf8Len text < 2 ^ 32) :
    (new text (utf8Len text)).utf16Position text (utf8Len (before ++ inner)) =
      .ok ⟨line, utf16Len inner⟩ := by
  have hlen := utf8Len_lineAt h
  rw [hinner, utf8Len_append] at hlen
  have hboundary : isCharBoundary text (utf8Len (before ++ inner)) = true := by
    rw [h.text_eq, hinner, List.append_assoc, ← List.append_assoc]
    exact isCharBoundary_append _ _
  have hnot : ¬ (new text (utf8Len text)).sourceLen < utf8Len (before ++ inner) := by
    rw [show (new text (utf8Len text)).sourceLen = utf8Len text from rfl, utf8Len_append]
    omega
  have hcolumn : (new text (utf8Len text)).byteColumnToUtf16 line (utf8Len inner) =
      .ok (utf16Len inner) := by
    rw [byteColumnToUtf16, show (new text (utf8Len text)).encodedLines line =
      encodedFrom 0 0 content from h.entries.2, hinner]
    exact byteColumn_boundary _ line inner rest (by omega)
  have hlocation := lineColumn_at h hinner hfits
  rw [← utf8Len_append] at hlocation
  simp only [utf16Position, if_neg hnot, hboundary, hlocation, bind, Except.bind, hcolumn]
  rfl

theorem lineContentRange_at (h : LineAt text line before content after) :
    (new text (utf8Len text)).lineContentRange line =
      .ok (some ⟨utf8Len before, utf8Len before + utf8Len content⟩) := by
  have hlen := utf8Len_lineAt h
  obtain ⟨⟨earlier, later, hstarts, hlength, _, hlater⟩, _⟩ := h.entries
  have hstarts : (new text (utf8Len text)).starts = earlier ++ utf8Len before :: later := hstarts
  have hget : (earlier ++ utf8Len before :: later)[line]? = some (utf8Len before) := by
    rw [← hlength]
    simp
  have hnext : (earlier ++ utf8Len before :: later)[line + 1]? = later[0]? := by
    rw [← hlength, List.getElem?_append_right (Nat.le_succ _), Nat.succ_sub (le_refl _),
      Nat.sub_self, List.getElem?_cons_succ]
  rcases hlater with ⟨rfl, rfl⟩ | ⟨_, more, rfl⟩
  · have hsource : (new text (utf8Len text)).sourceLen = utf8Len before + utf8Len content := by
      rw [show (new text (utf8Len text)).sourceLen = utf8Len text from rfl, hlen]
      simp
    simp only [lineContentRange, lineRange, hstarts, hget, hnext, List.getElem?_nil,
      Option.getD_none, hsource, TextRange.new, if_pos (Nat.le_add_right _ _), Option.isSome_none,
      Bool.false_eq_true, if_false, bind, Except.bind, pure, Except.pure]
  · simp only [lineContentRange, lineRange, hstarts, hget, hnext, List.getElem?_cons_zero,
      Option.getD_some, TextRange.new, Option.isSome_some, if_true, bind, Except.bind, pure,
      Except.pure]
    rw [if_pos (by omega)]
    simp only [sub32_eq (Nat.le_add_left 1 _), Nat.add_sub_cancel,
      if_pos (Nat.le_add_right (utf8Len before) (utf8Len content))]

/-- What a line answers to a position is what its columns answer. -/
theorem byteOffset_line (h : LineAt text line before content after)
    (hfits : utf8Len text < 2 ^ 32) (character : ℕ) :
    (new text (utf8Len text)).byteOffset ⟨line, character⟩ =
      if utf16Len content < character then
        .error (.coordinate (.characterOutOfBounds ⟨line, character⟩ (utf16Len content)))
      else (do
        let column ← utf16ColumnToByteFrom ⟨line, character⟩ (utf8Len content)
          (encodedFrom 0 0 content) 0
        add32 (utf8Len before) column) := by
  have hlen := utf8Len_lineAt h
  have hencoded : (new text (utf8Len text)).encodedLines line = encodedFrom 0 0 content :=
    h.entries.2
  have hcolumn : (new text (utf8Len text)).byteColumnToUtf16 line (utf8Len content) =
      .ok (utf16Len content) := by
    have hwhole := byteColumn_boundary (new text (utf8Len text)) line content [] (by omega)
    rw [List.append_nil] at hwhole
    rw [byteColumnToUtf16, hencoded]
    exact hwhole
  simp only [byteOffset, lineContentRange_at h, TextRange.len, sub32_eq (Nat.le_add_right _ _),
    Nat.add_sub_cancel_left, bind, Except.bind, hcolumn, utf16ColumnToByte, hencoded]

theorem byteOffset_at (h : LineAt text line before content after) (hinner : content = inner ++ rest)
    (hfits : utf8Len text < 2 ^ 32) : (new text (utf8Len text)).byteOffset ⟨line, utf16Len inner⟩ =
      .ok (utf8Len (before ++ inner)) := by
  have hlen := utf8Len_lineAt h
  rw [hinner, utf8Len_append] at hlen
  have hcolumn := utf16Column_boundary ⟨line, utf16Len inner⟩ (utf8Len content) inner rest rfl
    (by omega) (by rw [hinner, utf8Len_append]; omega)
  rw [← hinner] at hcolumn
  rw [byteOffset_line h hfits, if_neg, hcolumn]
  · rw [utf8Len_append]
    exact add32_eq (by omega)
  · rw [hinner, utf16Len_append]
    omega

theorem byteOffset_rejected (h : LineAt text line before content after)
    (hfits : utf8Len text < 2 ^ 32) {character : ℕ}
    (hnone : ∀ a b, content = a ++ b → character ≠ utf16Len a) :
    ∃ error, (new text (utf8Len text)).byteOffset ⟨line, character⟩ =
      .error (.coordinate error) ∧ PositionRejected text ⟨line, character⟩ error := by
  rw [byteOffset_line h hfits]
  by_cases hlarge : utf16Len content < character
  · rw [if_pos hlarge]
    exact ⟨_, rfl, .character h hlarge⟩
  · rw [if_neg hlarge]
    rcases prefix_or_inside lenUtf16 content (not_lt.mp hlarge) with
      ⟨a, b, heq, hn⟩ | ⟨a, c, b, rfl, hlow, hhigh⟩
    · exact absurd hn (hnone a b heq)
    · have hlen := utf8Len_lineAt h
      rw [utf8Len_append, utf8Len_cons] at hlen
      have hinside := utf16Column_inside ⟨line, character⟩ (utf8Len (a ++ c :: b)) a b hlow hhigh
        (by omega)
      rw [hinside]
      exact ⟨_, rfl, .surrogate h hlow hhigh⟩

end Lines

theorem lineCount_new (text : List Char) (sourceLen : ℕ) :
    (new text sourceLen).lineCount = text.count '\n' + 1 := by
  have h : Pass.Consistent (Pass.start.run text) text := by
    simpa using Pass.consistent_start.run text
  rw [← h.line]
  exact h.starts_length

theorem byteOffset_past {text : List Char} {position : Utf16Position}
    (hline : position.line < 2 ^ 32) (h : text.count '\n' + 1 ≤ position.line) :
    (new text (utf8Len text)).byteOffset position =
      .error (.coordinate (.lineOutOfBounds position.line (text.count '\n' + 1))) := by
  have hlen : (new text (utf8Len text)).starts.length = text.count '\n' + 1 :=
    lineCount_new text (utf8Len text)
  have hnone : (new text (utf8Len text)).starts[position.line]? = none :=
    List.getElem?_eq_none (by omega)
  have hcount : text.count '\n' + 1 < 2 ^ 32 := by omega
  simp only [byteOffset, lineContentRange, lineRange, hnone, bind, Except.bind, pure, Except.pure,
    lineCount_new, if_pos hcount]

end LineIndex

/-- A boundary is the boundary of a prefix of one line. -/
theorem Names.line {text : List Char} {position : Utf16Position} {offset : ℕ}
    (h : Names text position offset) :
    ∃ line before inner rest after, LineAt text line before (inner ++ rest) after ∧
      position = ⟨line, utf16Len inner⟩ ∧ offset = utf8Len (before ++ inner) := by
  obtain ⟨a, ⟨b, rfl⟩, rfl, rfl⟩ := h
  obtain ⟨before, inner, rest, after, rfl, hline⟩ := lineAt_of_split a b
  exact ⟨_, before, inner, rest, after, hline, positionAfter_line hline rfl, rfl⟩

theorem LineAt.names {text before inner rest after : List Char} {line : ℕ}
    (h : LineAt text line before (inner ++ rest) after) :
    Names text ⟨line, utf16Len inner⟩ (utf8Len (before ++ inner)) := by
  refine ⟨before ++ inner, ⟨rest ++ after, ?_⟩, (positionAfter_line h rfl).symm, rfl⟩
  rw [h.text_eq]
  simp

open LineIndex

/-- On every text whose length fits, each conversion succeeds exactly on the boundaries, with the
coordinate of that boundary, and rejects everything else with the error that says why. The
coordinates of two boundaries are ordered alike. -/
theorem line_index_conversions (text : List Char) (hfits : utf8Len text < 2 ^ 32) :
    (∀ offset position, (new text (utf8Len text)).utf16Position text offset = .ok position ↔
      Names text position offset) ∧
    (∀ position offset, position.line < 2 ^ 32 →
      ((new text (utf8Len text)).byteOffset position = .ok offset ↔
        Names text position offset)) ∧
    (∀ offset, (∀ position, ¬ Names text position offset) →
      ∃ error, (new text (utf8Len text)).utf16Position text offset = .error (.coordinate error) ∧
        OffsetRejected text offset error) ∧
    (∀ position, position.line < 2 ^ 32 → (∀ offset, ¬ Names text position offset) →
      ∃ error, (new text (utf8Len text)).byteOffset position = .error (.coordinate error) ∧
        PositionRejected text position error) ∧
    ∀ offset position offset' position', Names text position offset →
      Names text position' offset' → (offset < offset' ↔ position < position') := by
  have hposition : ∀ {offset position}, Names text position offset →
      (new text (utf8Len text)).utf16Position text offset = .ok position := by
    intro offset position h
    obtain ⟨line, before, inner, rest, after, hline, rfl, rfl⟩ := h.line
    exact utf16Position_at hline rfl hfits
  have hoffset : ∀ {offset position}, Names text position offset →
      (new text (utf8Len text)).byteOffset position = .ok offset := by
    intro offset position h
    obtain ⟨line, before, inner, rest, after, hline, rfl, rfl⟩ := h.line
    exact byteOffset_at hline rfl hfits
  have hbadOffset : ∀ offset, (∀ position, ¬ Names text position offset) →
      ∃ error, (new text (utf8Len text)).utf16Position text offset = .error (.coordinate error) ∧
        OffsetRejected text offset error := by
    intro offset hnone
    by_cases hlarge : utf8Len text < offset
    · refine ⟨_, ?_, .outOfBounds hlarge⟩
      exact if_pos hlarge
    · rcases prefix_or_inside lenUtf8 text (not_lt.mp hlarge) with
        ⟨a, b, heq, hn⟩ | ⟨a, c, b, heq, hlow, hhigh⟩
      · exact absurd ⟨a, ⟨b, heq.symm⟩, rfl, hn⟩ (hnone (positionAfter a))
      · refine ⟨_, ?_, .inside heq hlow hhigh⟩
        have hinside : isCharBoundary text offset = false := by
          rw [heq]
          exact isCharBoundary_inside hlow hhigh
        have hnot : ¬ (new text (utf8Len text)).sourceLen < offset := hlarge
        simp only [utf16Position, if_neg hnot, hinside, Bool.not_false, if_true]
  have hbadPosition : ∀ position, position.line < 2 ^ 32 →
      (∀ offset, ¬ Names text position offset) →
      ∃ error, (new text (utf8Len text)).byteOffset position = .error (.coordinate error) ∧
        PositionRejected text position error := by
    intro position hline hnone
    by_cases hpast : text.count '\n' + 1 ≤ position.line
    · exact ⟨_, byteOffset_past hline hpast, .line hpast⟩
    · obtain ⟨before, content, after, hat⟩ := lineAt_of_le (Nat.lt_succ_iff.mp (not_le.mp hpast))
      refine byteOffset_rejected hat hfits fun a b heq hcharacter => ?_
      subst heq
      refine hnone (utf8Len (before ++ a)) ?_
      have hnames := hat.names
      rw [← hcharacter] at hnames
      exact hnames
  refine ⟨fun offset position => ⟨fun h => ?_, hposition⟩,
    fun position offset hline => ⟨fun h => ?_, hoffset⟩, hbadOffset, hbadPosition, ?_⟩
  · by_contra hnot
    by_cases hsome : ∃ other, Names text other offset
    · obtain ⟨other, hother⟩ := hsome
      rw [hposition hother] at h
      exact hnot (Except.ok.inj h ▸ hother)
    · obtain ⟨error, herror, _⟩ := hbadOffset offset (not_exists.mp hsome)
      rw [herror] at h
      cases h
  · by_contra hnot
    by_cases hsome : ∃ other, Names text position other
    · obtain ⟨other, hother⟩ := hsome
      rw [hoffset hother] at h
      exact hnot (Except.ok.inj h ▸ hother)
    · obtain ⟨error, herror, _⟩ := hbadPosition position hline (not_exists.mp hsome)
      rw [herror] at h
      cases h
  · rintro _ _ _ _ ⟨a, ha, rfl, rfl⟩ ⟨b, hb, rfl, rfl⟩
    rw [grows_utf8Len.lt_iff ha hb, grows_positionAfter.lt_iff ha hb]

/-- A text with scalars of every width on two lines. -/
theorem mixed_widths_convert :
    (new "aé€\n𝄞z".toList 12).utf16Position "aé€\n𝄞z".toList 11 = .ok ⟨1, 2⟩ ∧
      (new "aé€\n𝄞z".toList 12).byteOffset ⟨1, 2⟩ = .ok 11 := by
  have h := line_index_conversions "aé€\n𝄞z".toList (by decide)
  have hnames : Names "aé€\n𝄞z".toList ⟨1, 2⟩ 11 :=
    ⟨"aé€\n𝄞".toList, ⟨['z'], by decide⟩, by decide, by decide⟩
  exact ⟨(h.1 11 ⟨1, 2⟩).mpr hnames, (h.2.1 ⟨1, 2⟩ 11 (by decide)).mpr hnames⟩

end Nocter.Source
