import Mathlib.Logic.Function.Basic
import Mathlib.Tactic

/-!
# The line index of a source

The index is built in one pass over the normalized text. It keeps the start of every
line and, for each line, the scalars whose UTF-8 and UTF-16 lengths differ. Offsets,
columns and lengths are `u32` values, whose sums and differences are checked.
-/

namespace Nocter.Source

/-- Zero-based line and UTF-16 code-unit column. -/
structure Utf16Position where
  line : ℕ
  character : ℕ
deriving DecidableEq, Repr

/-- Zero-based line and UTF-8 byte column. -/
structure LineColumn where
  line : ℕ
  byteColumn : ℕ
deriving DecidableEq, Repr

inductive CoordinateError where
  | byteOutOfBounds (offset sourceLen : ℕ)
  | notUtf8Boundary (offset : ℕ)
  | lineOutOfBounds (line lineCount : ℕ)
  | characterOutOfBounds (position : Utf16Position) (lineUtf16Len : ℕ)
  | splitUtf16Scalar (position : Utf16Position)
deriving DecidableEq, Repr

/-- A conversion reports a coordinate error, or it stops the compiler: a sum or a difference
leaves the `u32` range, or an assertion or an index fails. -/
inductive Fault where
  | coordinate (error : CoordinateError)
  | overflow
  | panicked
deriving DecidableEq, Repr

abbrev Checked := Except Fault

def add32 (a b : ℕ) : Checked ℕ := if a + b < 2 ^ 32 then .ok (a + b) else .error .overflow

def sub32 (a b : ℕ) : Checked ℕ := if b ≤ a then .ok (a - b) else .error .overflow

theorem add32_eq {a b : ℕ} (h : a + b < 2 ^ 32) : add32 a b = .ok (a + b) := if_pos h

theorem sub32_eq {a b : ℕ} (h : b ≤ a) : sub32 a b = .ok (a - b) := if_pos h

structure TextRange where
  start : ℕ
  stop : ℕ
deriving DecidableEq, Repr

def TextRange.new (start stop : ℕ) : Checked TextRange :=
  if start ≤ stop then .ok ⟨start, stop⟩ else .error .panicked

def TextRange.len (range : TextRange) : Checked ℕ := sub32 range.stop range.start

def lenUtf8 (scalar : Char) : ℕ := scalar.utf8Size

def lenUtf16 (scalar : Char) : ℕ := if scalar.val ≤ 0xFFFF then 1 else 2

def utf8Len (text : List Char) : ℕ := (text.map lenUtf8).sum

def utf16Len (text : List Char) : ℕ := (text.map lenUtf16).sum

def isCharBoundary : List Char → ℕ → Bool
  | [], byte => byte == 0
  | scalar :: rest, byte =>
      byte == 0 || (lenUtf8 scalar ≤ byte && isCharBoundary rest (byte - lenUtf8 scalar))

/-- A scalar with different UTF-8 and UTF-16 lengths, and its columns within its line. -/
structure EncodedScalar where
  byteStart : ℕ
  utf16Start : ℕ
  byteLen : ℕ
  utf16Len : ℕ
deriving DecidableEq, Repr

structure LineIndex where
  starts : List ℕ
  sourceLen : ℕ
  encodedLines : ℕ → List EncodedScalar

namespace LineIndex

/-- The local variables of the pass over the text, with the byte index of the next scalar. -/
structure Pass where
  index : ℕ
  starts : List ℕ
  encodedLines : ℕ → List EncodedScalar
  line : ℕ
  byteColumn : ℕ
  utf16Column : ℕ

namespace Pass

def start : Pass := ⟨0, [0], fun _ => [], 0, 0, 0⟩

def push (pass : Pass) (scalar : EncodedScalar) : Pass :=
  { pass with
    encodedLines := Function.update pass.encodedLines pass.line
      (pass.encodedLines pass.line ++ [scalar]) }

def step (pass : Pass) (scalar : Char) : Pass :=
  if scalar = '\n' then
    { pass with
      index := pass.index + 1
      starts := pass.starts ++ [pass.index + 1]
      line := pass.line + 1
      byteColumn := 0
      utf16Column := 0 }
  else
    let byteLen := lenUtf8 scalar
    let utf16Len := lenUtf16 scalar
    let encoded := if byteLen ≠ utf16Len then
      pass.push ⟨pass.byteColumn, pass.utf16Column, byteLen, utf16Len⟩ else pass
    { encoded with
      index := pass.index + byteLen
      byteColumn := pass.byteColumn + byteLen
      utf16Column := pass.utf16Column + utf16Len }

def run (pass : Pass) (text : List Char) : Pass := text.foldl step pass

end Pass

def new (text : List Char) (sourceLen : ℕ) : LineIndex :=
  let pass := Pass.start.run text
  ⟨pass.starts, sourceLen, pass.encodedLines⟩

variable (index : LineIndex)

def lineCount : ℕ := index.starts.length

def lineColumn (offset : ℕ) : Checked (Option LineColumn) := do
  if index.sourceLen < offset then
    return none
  let line := (index.starts.takeWhile (· ≤ offset)).length - 1
  match index.starts[line]? with
  | none => .error .panicked
  | some start =>
      if line < 2 ^ 32 then
        return some ⟨line, ← sub32 offset start⟩
      else return none

/-- A line with its terminating LF when present. -/
def lineRange (line : ℕ) : Checked (Option TextRange) :=
  match index.starts[line]? with
  | none => return none
  | some start => return some (← TextRange.new start ((index.starts[line + 1]?).getD index.sourceLen))

/-- A line without its terminating LF. -/
def lineContentRange (line : ℕ) : Checked (Option TextRange) := do
  match ← index.lineRange line with
  | none => return none
  | some range =>
      let stop ← if (index.starts[line + 1]?).isSome then sub32 range.stop 1 else pure range.stop
      return some (← TextRange.new range.start stop)

def byteColumnToUtf16From (line byteColumn : ℕ) : List EncodedScalar → ℕ → Checked ℕ
  | [], difference => sub32 byteColumn difference
  | scalar :: rest, difference =>
      if byteColumn < scalar.byteStart then sub32 byteColumn difference
      else if byteColumn = scalar.byteStart then .ok scalar.utf16Start
      else do
        if byteColumn < (← add32 scalar.byteStart scalar.byteLen) then
          match index.starts[line]? with
          | none => .error .panicked
          | some start => .error (.coordinate (.notUtf8Boundary (← add32 start byteColumn)))
        else
          byteColumnToUtf16From line byteColumn rest
            (← add32 difference (← sub32 scalar.byteLen scalar.utf16Len))

def byteColumnToUtf16 (line byteColumn : ℕ) : Checked ℕ :=
  index.byteColumnToUtf16From line byteColumn (index.encodedLines line) 0

def utf16ColumnToByteFrom (position : Utf16Position) (byteLen : ℕ) :
    List EncodedScalar → ℕ → Checked ℕ
  | [], difference => finish difference
  | scalar :: rest, difference =>
      if position.character < scalar.utf16Start then finish difference
      else if position.character = scalar.utf16Start then .ok scalar.byteStart
      else do
        if position.character < (← add32 scalar.utf16Start scalar.utf16Len) then
          .error (.coordinate (.splitUtf16Scalar position))
        else
          utf16ColumnToByteFrom position byteLen rest
            (← add32 difference (← sub32 scalar.byteLen scalar.utf16Len))
where
  finish (difference : ℕ) : Checked ℕ := do
    let byteColumn ← add32 position.character difference
    if byteColumn ≤ byteLen then return byteColumn else .error .panicked

def utf16ColumnToByte (position : Utf16Position) (byteLen : ℕ) : Checked ℕ :=
  utf16ColumnToByteFrom position byteLen (index.encodedLines position.line) 0

def utf16Position (text : List Char) (offset : ℕ) : Checked Utf16Position := do
  if index.sourceLen < offset then
    .error (.coordinate (.byteOutOfBounds offset index.sourceLen))
  else if !isCharBoundary text offset then
    .error (.coordinate (.notUtf8Boundary offset))
  else
    match ← index.lineColumn offset with
    | none => .error .panicked
    | some location =>
        return ⟨location.line, ← index.byteColumnToUtf16 location.line location.byteColumn⟩

def byteOffset (position : Utf16Position) : Checked ℕ := do
  match ← index.lineContentRange position.line with
  | none =>
      if index.lineCount < 2 ^ 32 then
        .error (.coordinate (.lineOutOfBounds position.line index.lineCount))
      else .error .panicked
  | some content =>
      let byteLen ← content.len
      let utf16Len ← index.byteColumnToUtf16 position.line byteLen
      if utf16Len < position.character then
        .error (.coordinate (.characterOutOfBounds position utf16Len))
      else
        add32 content.start (← index.utf16ColumnToByte position byteLen)

end LineIndex

end Nocter.Source

/-!
# What the index keeps of one line

A line of a text lies between two line feeds or ends of the text. The pass that builds
the index leaves its start, the start of the next line, and the records of the scalars
of its content, whatever stands before and after it.
-/

namespace Nocter.Source

theorem lenUtf8_pos (c : Char) : 0 < lenUtf8 c := Char.utf8Size_pos c

theorem lenUtf16_pos (c : Char) : 0 < lenUtf16 c := by
  unfold lenUtf16
  split_ifs <;> decide

theorem wide_val {v : UInt32} (h : ¬ v ≤ 0xFFFF) : ¬ v ≤ 0x7F ∧ ¬ v ≤ 0x7FF := by
  rw [UInt32.not_le] at h
  constructor
  · exact UInt32.not_le.mpr (UInt32.lt_trans (by decide) h)
  · exact UInt32.not_le.mpr (UInt32.lt_trans (by decide) h)

theorem lenUtf16_le (c : Char) : lenUtf16 c ≤ lenUtf8 c := by
  have hpos := lenUtf8_pos c
  unfold lenUtf16
  split_ifs with h
  · exact hpos
  · obtain ⟨h₁, h₂⟩ := wide_val h
    simp [lenUtf8, Char.utf8Size, h, h₁, h₂]

/-- A scalar that is not recorded has no offset inside it. -/
theorem lenUtf8_eq_one {c : Char} (h : lenUtf8 c = lenUtf16 c) : lenUtf8 c = 1 := by
  unfold lenUtf16 at h
  split_ifs at h with hval
  · exact h
  · obtain ⟨h₁, h₂⟩ := wide_val hval
    simp [lenUtf8, Char.utf8Size, hval, h₁, h₂] at h

@[simp] theorem utf8Len_nil : utf8Len [] = 0 := rfl

@[simp] theorem utf16Len_nil : utf16Len [] = 0 := rfl

@[simp] theorem utf8Len_cons (c : Char) (text : List Char) :
    utf8Len (c :: text) = lenUtf8 c + utf8Len text := by
  simp [utf8Len]

@[simp] theorem utf16Len_cons (c : Char) (text : List Char) :
    utf16Len (c :: text) = lenUtf16 c + utf16Len text := by
  simp [utf16Len]

@[simp] theorem utf8Len_append (a b : List Char) : utf8Len (a ++ b) = utf8Len a + utf8Len b := by
  simp [utf8Len]

@[simp] theorem utf16Len_append (a b : List Char) :
    utf16Len (a ++ b) = utf16Len a + utf16Len b := by
  simp [utf16Len]

theorem utf16Len_le (text : List Char) : utf16Len text ≤ utf8Len text := by
  induction text with
  | nil => simp
  | cons c text ih =>
    have hc := lenUtf16_le c
    simp only [utf16Len_cons, utf8Len_cons]
    omega

/-- The records of a content that starts at the two columns. -/
def encodedFrom (byteColumn utf16Column : ℕ) : List Char → List EncodedScalar
  | [] => []
  | c :: rest =>
      (if lenUtf8 c ≠ lenUtf16 c then [⟨byteColumn, utf16Column, lenUtf8 c, lenUtf16 c⟩] else []) ++
        encodedFrom (byteColumn + lenUtf8 c) (utf16Column + lenUtf16 c) rest

/-- The content is the whole line with the number, between the text before and after it. -/
structure LineAt (text : List Char) (line : ℕ) (before content after : List Char) : Prop where
  text_eq : text = before ++ (content ++ after)
  content_line : '\n' ∉ content
  before_count : before.count '\n' = line
  before_closed : before = [] ∨ ∃ b, before = b ++ ['\n']
  after_closed : after = [] ∨ ∃ a, after = '\n' :: a

namespace LineIndex.Pass

@[simp] theorem run_nil (pass : Pass) : pass.run [] = pass := rfl

@[simp] theorem run_cons (pass : Pass) (c : Char) (text : List Char) :
    pass.run (c :: text) = (pass.step c).run text := rfl

theorem run_append (pass : Pass) (a b : List Char) : pass.run (a ++ b) = (pass.run a).run b := by
  simp [run]

theorem step_newline (pass : Pass) : pass.step '\n' =
    { pass with
      index := pass.index + 1
      starts := pass.starts ++ [pass.index + 1]
      line := pass.line + 1
      byteColumn := 0
      utf16Column := 0 } := rfl

theorem step_scalar {c : Char} (hc : c ≠ '\n') (pass : Pass) :
    (pass.step c).line = pass.line ∧ (pass.step c).starts = pass.starts ∧
      ∀ line, line ≠ pass.line → (pass.step c).encodedLines line = pass.encodedLines line := by
  simp only [step, if_neg hc, push]
  split_ifs
  · exact ⟨rfl, rfl, fun line hne => Function.update_of_ne hne _ _⟩
  · exact ⟨rfl, rfl, fun _ _ => rfl⟩

/-- What a pass over the beginning of a text has established. -/
structure Consistent (pass : Pass) (text : List Char) : Prop where
  index : pass.index = utf8Len text
  line : pass.line = text.count '\n'
  starts_length : pass.starts.length = pass.line + 1
  starts_le : ∀ start ∈ pass.starts, start ≤ pass.index
  unencoded : ∀ line, pass.line < line → pass.encodedLines line = []

theorem consistent_start : Consistent start [] where
  index := rfl
  line := rfl
  starts_length := rfl
  starts_le := by simp [start]
  unencoded _ _ := rfl

theorem Consistent.step {pass : Pass} {text : List Char} (h : Consistent pass text) (c : Char) :
    Consistent (pass.step c) (text ++ [c]) := by
  by_cases hc : c = '\n'
  · subst hc
    rw [step_newline]
    refine ⟨?_, ?_, ?_, ?_, ?_⟩
    · simp [h.index, show lenUtf8 '\n' = 1 from rfl]
    · simp [h.line]
    · simp [h.starts_length]
    · intro start hstart
      rcases List.mem_append.mp hstart with hold | hnew
      · exact (h.starts_le start hold).trans (Nat.le_succ _)
      · exact (List.mem_singleton.mp hnew).le
    · intro line hline
      exact h.unencoded line (by simp only at hline; omega)
  · obtain ⟨hline, hstarts, hencoded⟩ := step_scalar hc pass
    have hindex : (pass.step c).index = pass.index + lenUtf8 c := by
      simp only [Pass.step, if_neg hc]
    refine ⟨?_, ?_, ?_, ?_, ?_⟩
    · simp [hindex, h.index]
    · simp [hline, h.line, List.count_append, hc]
    · rw [hstarts, hline, h.starts_length]
    · intro start hstart
      rw [hindex]
      exact (h.starts_le start (hstarts ▸ hstart)).trans (Nat.le_add_right _ _)
    · intro line hlt
      rw [hline] at hlt
      rw [hencoded line hlt.ne']
      exact h.unencoded line hlt

theorem Consistent.run {pass : Pass} {text : List Char} (h : Consistent pass text)
    (more : List Char) : Consistent (pass.run more) (text ++ more) := by
  induction more generalizing pass text with
  | nil => simpa using h
  | cons c more ih => simpa using ih (h.step c)

/-- A content without line feeds only extends the records of the current line. -/
theorem run_content {content : List Char} (h : '\n' ∉ content) (pass : Pass) :
    (pass.run content).starts = pass.starts ∧ (pass.run content).line = pass.line ∧
      (pass.run content).encodedLines pass.line = pass.encodedLines pass.line ++
        encodedFrom pass.byteColumn pass.utf16Column content := by
  induction content generalizing pass with
  | nil => simp [encodedFrom]
  | cons c rest ih =>
    rw [List.mem_cons, not_or] at h
    obtain ⟨hc, hrest⟩ := h
    have hc : c ≠ '\n' := fun he => hc he.symm
    have hstep := ih hrest (pass.step c)
    by_cases hlen : lenUtf8 c = lenUtf16 c
    · have he : pass.step c =
          { pass with
            index := pass.index + lenUtf8 c
            byteColumn := pass.byteColumn + lenUtf8 c
            utf16Column := pass.utf16Column + lenUtf16 c } := by
        simp [Pass.step, hc, hlen]
      rw [he] at hstep
      rw [run_cons, he]
      refine ⟨hstep.1, hstep.2.1, hstep.2.2.trans ?_⟩
      simp [encodedFrom, hlen]
    · have he : pass.step c =
          { pass.push ⟨pass.byteColumn, pass.utf16Column, lenUtf8 c, lenUtf16 c⟩ with
            index := pass.index + lenUtf8 c
            byteColumn := pass.byteColumn + lenUtf8 c
            utf16Column := pass.utf16Column + lenUtf16 c } := by
        simp [Pass.step, hc, hlen]
      rw [he] at hstep
      rw [run_cons, he]
      refine ⟨hstep.1, hstep.2.1, hstep.2.2.trans ?_⟩
      simp [push, encodedFrom, hlen]

/-- Whatever follows keeps the starts found so far and the records of earlier lines. -/
theorem run_keeps (more : List Char) (pass : Pass) :
    (∃ later, (pass.run more).starts = pass.starts ++ later) ∧
      ∀ line, line < pass.line → (pass.run more).encodedLines line = pass.encodedLines line := by
  induction more generalizing pass with
  | nil => exact ⟨⟨[], by simp⟩, fun _ _ => rfl⟩
  | cons c more ih =>
    obtain ⟨⟨later, hlater⟩, hkept⟩ := ih (pass.step c)
    by_cases hc : c = '\n'
    · subst hc
      rw [step_newline] at hlater hkept
      refine ⟨⟨(pass.index + 1) :: later, ?_⟩, fun line hlt => ?_⟩
      · rw [run_cons, step_newline, hlater]
        simp
      · rw [run_cons, step_newline]
        exact hkept line (Nat.lt_succ_of_lt hlt)
    · obtain ⟨hline, hstarts, hencoded⟩ := step_scalar hc pass
      refine ⟨⟨later, ?_⟩, fun line hlt => ?_⟩
      · rw [run_cons, hlater, hstarts]
      · rw [run_cons, hkept line (hline ▸ hlt), hencoded line hlt.ne]

/-- At the start of a line nothing of the line has been recorded. -/
theorem run_closed {before : List Char} (h : before = [] ∨ ∃ b, before = b ++ ['\n']) :
    (start.run before).byteColumn = 0 ∧ (start.run before).utf16Column = 0 ∧
      (start.run before).encodedLines (start.run before).line = [] ∧
      ∃ earlier, (start.run before).starts = earlier ++ [utf8Len before] := by
  rcases h with rfl | ⟨b, rfl⟩
  · exact ⟨rfl, rfl, rfl, [], rfl⟩
  · have hb : Consistent (start.run b) b := by simpa using consistent_start.run b
    rw [run_append, run_cons, run_nil, step_newline]
    refine ⟨rfl, rfl, hb.unencoded _ (Nat.lt_succ_self _), (start.run b).starts, ?_⟩
    simp [hb.index, show lenUtf8 '\n' = 1 from rfl]

end LineIndex.Pass

open LineIndex

namespace LineAt

variable {text before content after : List Char} {line : ℕ}

/-- The entries of the index about one line. -/
theorem entries (h : LineAt text line before content after) :
    (∃ earlier later, (Pass.start.run text).starts = earlier ++ utf8Len before :: later ∧
      earlier.length = line ∧ (∀ start ∈ earlier, start ≤ utf8Len before) ∧
      (after = [] ∧ later = [] ∨
        after ≠ [] ∧ ∃ more, later = (utf8Len before + utf8Len content + 1) :: more)) ∧
      (Pass.start.run text).encodedLines line = encodedFrom 0 0 content := by
  have hbefore : Pass.Consistent (Pass.start.run before) before := by
    simpa using Pass.consistent_start.run before
  obtain ⟨hbyte, hutf16, hempty, earlier, hearlier⟩ := Pass.run_closed h.before_closed
  have hcontent := Pass.run_content h.content_line (Pass.start.run before)
  rw [hbyte, hutf16, hempty, List.nil_append] at hcontent
  have hinside : Pass.Consistent ((Pass.start.run before).run content) (before ++ content) :=
    hbefore.run content
  have hlength : earlier.length = line := by
    have hcount := hbefore.starts_length
    rw [hearlier, hbefore.line, h.before_count] at hcount
    simpa using hcount
  have hle : ∀ start ∈ earlier, start ≤ utf8Len before := by
    intro start hstart
    rw [← hbefore.index]
    exact hbefore.starts_le start (by simp [hearlier, hstart])
  have hline : (Pass.start.run before).line = line := hbefore.line.trans h.before_count
  rw [h.text_eq, Pass.run_append, Pass.run_append]
  rcases h.after_closed with rfl | ⟨a, rfl⟩
  · rw [Pass.run_nil, hcontent.1, hearlier]
    refine ⟨⟨earlier, [], rfl, hlength, hle, Or.inl ⟨rfl, rfl⟩⟩, ?_⟩
    rw [← hline]
    exact hcontent.2.2
  · obtain ⟨⟨later, hlater⟩, hkept⟩ :=
      Pass.run_keeps a (((Pass.start.run before).run content).step '\n')
    rw [Pass.run_cons, hlater]
    rw [Pass.step_newline] at hkept ⊢
    refine ⟨⟨earlier, (utf8Len before + utf8Len content + 1) :: later, ?_, hlength, hle,
      Or.inr ⟨List.cons_ne_nil _ _, later, rfl⟩⟩, ?_⟩
    · simp [hcontent.1, hearlier, hinside.index]
    · rw [hkept line (by simp [hcontent.2.1, hline]), ← hline]
      exact hcontent.2.2

end LineAt

/-- Every offset between two scalars lies in exactly the line its line feeds say. -/
theorem lineAt_of_split (a b : List Char) : ∃ before inner rest after, a = before ++ inner ∧
      LineAt (a ++ b) (a.count '\n') before (inner ++ rest) after := by
  have hlast : ∃ before inner, a = before ++ inner ∧ '\n' ∉ inner ∧
      (before = [] ∨ ∃ b, before = b ++ ['\n']) := by
    induction a using List.reverseRecOn with
    | nil => exact ⟨[], [], rfl, List.not_mem_nil, Or.inl rfl⟩
    | append_singleton a c ih =>
      by_cases hc : c = '\n'
      · exact ⟨a ++ [c], [], by simp, List.not_mem_nil, Or.inr ⟨a, by rw [hc]⟩⟩
      · obtain ⟨before, inner, rfl, hinner, hclosed⟩ := ih
        refine ⟨before, inner ++ [c], by simp, ?_, hclosed⟩
        simp [hinner, Ne.symm hc]
  have hfirst : ∃ rest after, b = rest ++ after ∧ '\n' ∉ rest ∧
      (after = [] ∨ ∃ a, after = '\n' :: a) := by
    induction b with
    | nil => exact ⟨[], [], rfl, List.not_mem_nil, Or.inl rfl⟩
    | cons c b ih =>
      by_cases hc : c = '\n'
      · exact ⟨[], c :: b, rfl, List.not_mem_nil, Or.inr ⟨b, by rw [hc]⟩⟩
      · obtain ⟨rest, after, rfl, hrest, hclosed⟩ := ih
        refine ⟨c :: rest, after, rfl, ?_, hclosed⟩
        simp [hrest, Ne.symm hc]
  obtain ⟨before, inner, rfl, hinner, hbefore⟩ := hlast
  obtain ⟨rest, after, rfl, hrest, hafter⟩ := hfirst
  refine ⟨before, inner, rest, after, rfl, by simp, ?_, ?_, hbefore, hafter⟩
  · simp [hinner, hrest]
  · simp [List.count_eq_zero_of_not_mem hinner]

/-- Every number up to the count of line feeds is the number of a line. -/
theorem lineAt_of_le {text : List Char} {line : ℕ} (h : line ≤ text.count '\n') :
    ∃ before content after, LineAt text line before content after := by
  have hsplit : ∃ a b, text = a ++ b ∧ a.count '\n' = line := by
    induction text using List.reverseRecOn with
    | nil => exact ⟨[], [], rfl, (Nat.le_zero.mp h).symm⟩
    | append_singleton text c ih =>
      by_cases hle : line ≤ text.count '\n'
      · obtain ⟨a, b, rfl, hcount⟩ := ih hle
        exact ⟨a, b ++ [c], by simp, hcount⟩
      · refine ⟨text ++ [c], [], by simp, ?_⟩
        rw [List.count_append] at h ⊢
        have hone : [c].count '\n' ≤ 1 := List.count_le_length
        omega
  obtain ⟨a, b, rfl, rfl⟩ := hsplit
  obtain ⟨before, inner, rest, after, _, hline⟩ := lineAt_of_split a b
  exact ⟨before, inner ++ rest, after, hline⟩

end Nocter.Source
