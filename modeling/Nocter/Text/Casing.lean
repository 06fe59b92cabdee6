import Nocter.Library.Outcome
import Nocter.Text.Utf8Scalars

/-!
# Lowercase conversion

A scalar value becomes the scalars of its full mapping, and a capital sigma the final sigma where
its context asks for it. The preceding context is carried along the text and the following one is
found by a scan, so that scalars that are both cased and case-ignorable are not treated alike on
both sides.
-/

namespace Nocter.Text

open Outcome

section Lookup

def containsRangeFrom (ranges : List ℕ) (value : ℕ) : ℕ → ℕ → ℕ → Outcome Bool
  | 0, _, _ => trapped
  | fuel + 1, low, high =>
    if low < high then do
      let middle := low + (high - low) / 2
      let start ← read ranges (middle * 2)
      let stop ← read ranges (middle * 2 + 1)
      if value < start then containsRangeFrom ranges value fuel low middle
      else if stop < value then containsRangeFrom ranges value fuel (middle + 1) high
      else return true
    else return false

def containsRange (ranges : List ℕ) (value : ℕ) : Outcome Bool :=
  containsRangeFrom ranges value (ranges.length / 2 + 1) 0 (ranges.length / 2)

/-- The loop of `mapping_index`, which leaves the place of the first point that is not smaller. -/
def lowerBoundFrom (points : List ℕ) (value : ℕ) : ℕ → ℕ → ℕ → Outcome ℕ
  | 0, _, _ => trapped
  | fuel + 1, low, high =>
    if low < high then do
      let middle := low + (high - low) / 2
      let candidate ← read points middle
      if candidate < value then lowerBoundFrom points value fuel (middle + 1) high
      else lowerBoundFrom points value fuel low middle
    else return low

def mappingIndex (points : List ℕ) (value : ℕ) : Outcome (Option ℕ) := do
  let low ← lowerBoundFrom points value (points.length + 1) 0 points.length
  if low < points.length then do
    let candidate ← read points low
    return if candidate = value then some low else none
  else return none

def mappingView (offsets scalars : List ℕ) (index : ℕ) : Outcome (List ℕ) := do
  let start ← read offsets index
  let stop ← read offsets (index + 1)
  let _ ← read scalars start
  let length ← minus stop start
  return (scalars.drop start).take length

/-- A generated table of ranges, each a first and a last scalar. -/
structure PropertyTable where
  ranges : List ℕ
  sorted : ranges.Pairwise (· ≤ ·)

/-- A generated table of mappings: the scalars of a point lie between two offsets. -/
structure MappingTable where
  points : List ℕ
  offsets : List ℕ
  scalars : List ℕ
  sorted : points.Pairwise (· < ·)
  stops : ∀ index < points.length, ∃ start stop, offsets[index]? = some start ∧
    offsets[index + 1]? = some stop ∧ start < stop ∧ stop ≤ scalars.length
  valid : ∀ scalar ∈ scalars, scalar.isValidChar

/-- Some range of the table covers the scalar. -/
def PropertyTable.Has (table : PropertyTable) (value : ℕ) : Prop :=
  ∃ index start stop, table.ranges[index * 2]? = some start ∧
    table.ranges[index * 2 + 1]? = some stop ∧ start ≤ value ∧ value ≤ stop

/-- The scalars that the table maps a point to. -/
def MappingTable.Maps (table : MappingTable) (value : ℕ) (mapping : List ℕ) : Prop :=
  ∃ index start stop, table.points[index]? = some value ∧ table.offsets[index]? = some start ∧
    table.offsets[index + 1]? = some stop ∧ mapping = (table.scalars.drop start).take (stop - start)

theorem containsRangeFrom_decides (table : PropertyTable) (value : ℕ) {fuel low high : ℕ}
    (hfuel : high - low < fuel) (hhigh : high ≤ table.ranges.length / 2) :
    ∃ answer, containsRangeFrom table.ranges value fuel low high = .value answer ∧
      (answer = true ↔ ∃ index start stop, low ≤ index ∧ index < high ∧
        table.ranges[index * 2]? = some start ∧ table.ranges[index * 2 + 1]? = some stop ∧
        start ≤ value ∧ value ≤ stop) := by
  induction fuel generalizing low high with
  | zero => omega
  | succ fuel ih =>
    rw [containsRangeFrom]
    split
    · rename_i hlt
      have hordered : ∀ {i j a b : ℕ}, i ≤ j → table.ranges[i]? = some a →
          table.ranges[j]? = some b → a ≤ b := by
        intro i j a b hij ha hb
        obtain ⟨hi, rfl⟩ := List.getElem?_eq_some_iff.mp ha
        obtain ⟨hj, rfl⟩ := List.getElem?_eq_some_iff.mp hb
        rcases Nat.lt_or_eq_of_le hij with h | rfl
        · exact List.pairwise_iff_getElem.mp table.sorted i j hi hj h
        · exact Nat.le_refl _
      obtain ⟨middle, hmiddle⟩ : ∃ middle, middle = low + (high - low) / 2 := ⟨_, rfl⟩
      have hstart := List.getElem?_eq_getElem (l := table.ranges) (i := middle * 2) (by omega)
      have hstop := List.getElem?_eq_getElem (l := table.ranges) (i := middle * 2 + 1) (by omega)
      generalize table.ranges[middle * 2] = start at hstart
      generalize table.ranges[middle * 2 + 1] = stop at hstop
      dsimp only
      rw [← hmiddle, read_eq_value hstart, value_bind, read_eq_value hstop, value_bind]
      split
      · rename_i hless
        obtain ⟨answer, hanswer, hiff⟩ := ih (show middle - low < fuel by omega) (by omega)
        refine ⟨answer, hanswer, hiff.trans ⟨?_, ?_⟩⟩
        · rintro ⟨index, a, b, hlow, hhigh, h⟩
          exact ⟨index, a, b, hlow, by omega, h⟩
        · rintro ⟨index, a, b, hlow, hhigh, ha, hb, hin⟩
          refine ⟨index, a, b, hlow, ?_, ha, hb, hin⟩
          by_contra hge
          have := hordered (by omega : middle * 2 ≤ index * 2) hstart ha
          omega
      · split
        · rename_i hgreater
          obtain ⟨answer, hanswer, hiff⟩ := ih (show high - (middle + 1) < fuel by omega) hhigh
          refine ⟨answer, hanswer, hiff.trans ⟨?_, ?_⟩⟩
          · rintro ⟨index, a, b, hlow, hhigh, h⟩
            exact ⟨index, a, b, by omega, hhigh, h⟩
          · rintro ⟨index, a, b, hlow, hhigh, ha, hb, hin⟩
            refine ⟨index, a, b, ?_, hhigh, ha, hb, hin⟩
            by_contra hge
            have := hordered (by omega : index * 2 + 1 ≤ middle * 2 + 1) hb hstop
            omega
        · exact ⟨true, rfl, fun _ => ⟨middle, start, stop, by omega, by omega, hstart, hstop,
            by omega, by omega⟩, fun _ => rfl⟩
    · refine ⟨false, rfl, fun h => (by cases h), ?_⟩
      rintro ⟨index, _, _, hlow, hhigh, _⟩
      omega

theorem containsRange_decides (table : PropertyTable) (value : ℕ) :
    ∃ answer, containsRange table.ranges value = .value answer ∧
      (answer = true ↔ table.Has value) := by
  have hfuel : table.ranges.length / 2 - 0 < table.ranges.length / 2 + 1 := by omega
  obtain ⟨answer, hanswer, hiff⟩ := containsRangeFrom_decides table value hfuel (Nat.le_refl _)
  refine ⟨answer, hanswer, hiff.trans ⟨?_, ?_⟩⟩
  · rintro ⟨index, start, stop, _, _, h⟩
    exact ⟨index, start, stop, h⟩
  · rintro ⟨index, start, stop, hstart, hstop, h⟩
    have hlt := (List.getElem?_eq_some_iff.mp hstop).1
    exact ⟨index, start, stop, Nat.zero_le _, by omega, hstart, hstop, h⟩

theorem lowerBoundFrom_spec {points : List ℕ} (hsorted : points.Pairwise (· < ·)) (value : ℕ)
    {fuel low high : ℕ} (hfuel : high - low < fuel) (hlow : low ≤ high)
    (hhigh : high ≤ points.length)
    (hbelow : ∀ index point, index < low → points[index]? = some point → point < value)
    (habove : ∀ index point, high ≤ index → points[index]? = some point → value ≤ point) :
    ∃ place, lowerBoundFrom points value fuel low high = .value place ∧ place ≤ points.length ∧
      (∀ index point, index < place → points[index]? = some point → point < value) ∧
      ∀ index point, place ≤ index → points[index]? = some point → value ≤ point := by
  induction fuel generalizing low high with
  | zero => omega
  | succ fuel ih =>
    rw [lowerBoundFrom]
    split
    · obtain ⟨middle, hmiddle⟩ : ∃ middle, middle = low + (high - low) / 2 := ⟨_, rfl⟩
      have hcandidate := List.getElem?_eq_getElem (l := points) (i := middle) (by omega)
      generalize points[middle] = candidate at hcandidate
      have hordered : ∀ {i j a b : ℕ}, i < j → points[i]? = some a → points[j]? = some b → a < b := by
        intro i j a b hij ha hb
        obtain ⟨hi, rfl⟩ := List.getElem?_eq_some_iff.mp ha
        obtain ⟨hj, rfl⟩ := List.getElem?_eq_some_iff.mp hb
        exact List.pairwise_iff_getElem.mp hsorted i j hi hj hij
      dsimp only
      rw [← hmiddle, read_eq_value hcandidate, value_bind]
      split
      · rename_i hless
        refine ih (by omega) (by omega) hhigh (fun index point hindex hpoint => ?_) habove
        rcases Nat.lt_or_eq_of_le (Nat.le_of_lt_succ hindex) with h | rfl
        · exact Nat.lt_trans (hordered h hpoint hcandidate) hless
        · exact Option.some.inj (hcandidate.symm.trans hpoint) ▸ hless
      · rename_i hge
        refine ih (by omega) (by omega) (by omega) hbelow fun index point hindex hpoint => ?_
        rcases Nat.lt_or_eq_of_le hindex with h | rfl
        · have := hordered h hcandidate hpoint
          omega
        · have := Option.some.inj (hcandidate.symm.trans hpoint)
          omega
    · obtain rfl : low = high := by omega
      exact ⟨low, rfl, hhigh, hbelow, habove⟩

/-- The index of a point, where the value is one. -/
theorem mappingIndex_spec {points : List ℕ} (hsorted : points.Pairwise (· < ·)) (value : ℕ) :
    ∃ found, mappingIndex points value = .value found ∧
      ∀ index, found = some index ↔ points[index]? = some value := by
  obtain ⟨place, hplace, hle, hbelow, habove⟩ := lowerBoundFrom_spec hsorted value
    (Nat.lt_succ_self points.length) (Nat.zero_le _) (Nat.le_refl _) (fun index _ h => absurd h (Nat.not_lt_zero _))
    (fun index point hindex hpoint => absurd (List.getElem?_eq_some_iff.mp hpoint).1 (by omega))
  have hplace' : ∀ index, points[index]? = some value → index = place := by
    intro index hindex
    rcases Nat.lt_trichotomy index place with h | h | h
    · exact absurd (hbelow index value h hindex) (Nat.lt_irrefl _)
    · exact h
    · obtain ⟨hlt, hvalue⟩ := List.getElem?_eq_some_iff.mp hindex
      have hfirst := habove place _ (Nat.le_refl _) (List.getElem?_eq_getElem (by omega))
      have hless := List.pairwise_iff_getElem.mp hsorted place index (by omega) hlt h
      omega
  rw [mappingIndex, hplace, value_bind]
  split
  · rename_i hlt
    have hread := List.getElem?_eq_getElem (l := points) hlt
    rw [read_eq_value hread, value_bind]
    refine ⟨_, rfl, fun index => ?_⟩
    split
    · rename_i heq
      rw [heq] at hread
      exact ⟨fun h => Option.some.inj h ▸ hread, fun h => (congrArg some (hplace' index h)).symm⟩
    · rename_i hne
      refine ⟨fun h => (by cases h), fun h => ?_⟩
      obtain rfl := hplace' index h
      exact absurd (Option.some.inj (hread.symm.trans h)) hne
  · rename_i hge
    refine ⟨none, rfl, fun index => ⟨fun h => (by cases h), fun h => ?_⟩⟩
    obtain rfl := hplace' index h
    exact absurd (List.getElem?_eq_some_iff.mp h).1 hge

theorem mappingView_spec (table : MappingTable) {index value : ℕ}
    (hindex : table.points[index]? = some value) : ∃ mapping,
      mappingView table.offsets table.scalars index = .value mapping ∧ table.Maps value mapping := by
  obtain ⟨start, stop, hstart, hstop, hlt, hle⟩ :=
    table.stops index (List.getElem?_eq_some_iff.mp hindex).1
  refine ⟨(table.scalars.drop start).take (stop - start), ?_, index, start, stop, hindex, hstart,
    hstop, rfl⟩
  rw [mappingView, read_eq_value hstart, value_bind, read_eq_value hstop, value_bind,
    read_eq_value (List.getElem?_eq_getElem (by omega)), value_bind, minus_eq_value (by omega)]
  rfl

theorem MappingTable.Maps.unique {table : MappingTable} {value : ℕ} {mapping mapping' : List ℕ}
    (h : table.Maps value mapping) (h' : table.Maps value mapping') : mapping = mapping' := by
  obtain ⟨index, start, stop, hindex, hstart, hstop, rfl⟩ := h
  obtain ⟨index', start', stop', hindex', hstart', hstop', rfl⟩ := h'
  obtain ⟨found, -, hfound⟩ := mappingIndex_spec table.sorted value
  obtain rfl := Option.some.inj (((hfound index).mpr hindex).symm.trans ((hfound index').mpr hindex'))
  obtain rfl := Option.some.inj (hstart.symm.trans hstart')
  obtain rfl := Option.some.inj (hstop.symm.trans hstop')
  rfl

/-- The generated tables of the conversion. The capital sigma has a mapping of its own where it is
final. -/
structure CaseTables where
  cased : PropertyTable
  caseIgnorable : PropertyTable
  lower : MappingTable
  finalSigmaLower : MappingTable
  lower_sigma : lower.Maps 0x3a3 [0x3c3]
  finalSigmaLower_sigma : finalSigmaLower.Maps 0x3a3 [0x3c2]

variable (tables : CaseTables)

def isCased (value : ℕ) : Outcome Bool := containsRange tables.cased.ranges value

def isCaseIgnorable (value : ℕ) : Outcome Bool := containsRange tables.caseIgnorable.ranges value

def ordinaryLowercaseMapping (value : ℕ) : Outcome (Option (List ℕ)) := do
  let index ← mappingIndex tables.lower.points value
  match index with
  | none => return none
  | some index => do
    let mapping ← mappingView tables.lower.offsets tables.lower.scalars index
    return if mapping = [value] then none else some mapping

def lowercaseMapping (value : ℕ) (finalSigma : Bool) : Outcome (Option (List ℕ)) :=
  if finalSigma then do
    let index ← mappingIndex tables.finalSigmaLower.points value
    match index with
    | none => ordinaryLowercaseMapping tables value
    | some index => do
      let mapping ← mappingView tables.finalSigmaLower.offsets tables.finalSigmaLower.scalars index
      return some mapping
  else ordinaryLowercaseMapping tables value

end Lookup

section Conversion

variable (tables : CaseTables)

/-- `next` of the scalars of a text. A text that does not decode ends the program. -/
def nextChar (text : List UInt8) (offset : ℕ) : Outcome (Option (Char × ℕ)) :=
  if offset = text.length then return none
  else match decodeScalar text offset with
    | none => trapped
    | some step => return some (Char.ofNat step.scalar, offset + step.width)

def appendMapping (output : List UInt8) (mapping : List ℕ) : List UInt8 :=
  output ++ mapping.flatMap fun scalar => (encodeScalar (Char.ofNat scalar)).bytes

def appendLowercase (output : List UInt8) (scalar : Char) (finalSigma : Bool) :
    Outcome (List UInt8) := do
  let mapping ← lowercaseMapping tables scalar.toNat finalSigma
  match mapping with
  | none => return output ++ (encodeScalar scalar).bytes
  | some mapping => return appendMapping output mapping

def hasFollowingCasedFrom (text : List UInt8) : ℕ → ℕ → Outcome Bool
  | 0, _ => trapped
  | fuel + 1, next =>
    if next < text.length then
      match decodeScalar text next with
      | none => trapped
      | some step => do
        let ignorable ← isCaseIgnorable tables step.scalar
        if ignorable then hasFollowingCasedFrom text fuel (next + step.width)
        else isCased tables step.scalar
    else return false

def hasFollowingCased (text : List UInt8) (offset : ℕ) : Outcome Bool :=
  hasFollowingCasedFrom tables text (text.length + 1) offset

structure LowercaseState where
  output : List UInt8
  charOffset : ℕ
  nextOffset : ℕ
  precededByCased : Bool

def finalSigmaAt (text : List UInt8) (state : LowercaseState) (value nextOffset : ℕ) : Outcome Bool :=
  if value = 0x3a3 ∧ state.precededByCased then do
    let following ← hasFollowingCased tables text nextOffset
    return !following
  else return false

def nextPreceded (preceded : Bool) (value : ℕ) : Outcome Bool := do
  let cased ← isCased tables value
  if cased then return true
  else do
    let ignorable ← isCaseIgnorable tables value
    return if ignorable then preceded else false

def lowercaseLoop (text : List UInt8) : ℕ → LowercaseState → Outcome (List UInt8)
  | 0, _ => trapped
  | fuel + 1, state => do
    let next ← nextChar text state.charOffset
    match next with
    | none => return state.output
    | some (scalar, charOffset) => do
      let nextOffset := state.nextOffset + (encodeScalar scalar).initializedLen
      let finalSigma ← finalSigmaAt tables text state scalar.toNat nextOffset
      let output ← appendLowercase tables state.output scalar finalSigma
      let preceded ← nextPreceded tables state.precededByCased scalar.toNat
      lowercaseLoop text fuel ⟨output, charOffset, nextOffset, preceded⟩

def toLowercase (text : List UInt8) : Outcome (List UInt8) :=
  lowercaseLoop tables text (text.length + 1) ⟨[], 0, 0, false⟩

end Conversion

section Context

variable (tables : CaseTables)

def Cased (scalar : Char) : Prop := tables.cased.Has scalar.toNat

def CaseIgnorable (scalar : Char) : Prop := tables.caseIgnorable.Has scalar.toNat

/-- A cased scalar and then only case-ignorable ones stand in front. -/
def PrecededByCased (before : List Char) : Prop :=
  ∃ front scalar run, before = front ++ scalar :: run ∧ Cased tables scalar ∧
    ∀ ignored ∈ run, CaseIgnorable tables ignored

/-- Case-ignorable scalars and then a cased one follow. -/
def FollowedByCased (after : List Char) : Prop :=
  ∃ run scalar rest, after = run ++ scalar :: rest ∧ Cased tables scalar ∧
    ∀ ignored ∈ run, CaseIgnorable tables ignored

/-- The context in which a capital sigma becomes a final one. -/
def FinalSigma (before after : List Char) : Prop :=
  PrecededByCased tables before ∧ ¬FollowedByCased tables after

/-- The case-ignorable scalars that follow contain a cased one, and behind them stands none. -/
def HiddenCased (after : List Char) : Prop :=
  ∃ run rest, after = run ++ rest ∧ (∀ ignored ∈ run, CaseIgnorable tables ignored) ∧
    (∃ scalar ∈ run, Cased tables scalar) ∧
    ∀ scalar ∈ rest.head?, ¬CaseIgnorable tables scalar ∧ ¬Cased tables scalar

open Classical in
/-- The scalars of a mapping, where the table has one. -/
noncomputable def mapped (table : MappingTable) (scalar : Char) (otherwise : List Char) : List Char :=
  if h : ∃ mapping, table.Maps scalar.toNat mapping then h.choose.map Char.ofNat else otherwise

/-- The full lowercase mapping. -/
noncomputable def fullLowercase (scalar : Char) : List Char := mapped tables.lower scalar [scalar]

noncomputable def finalLowercase (scalar : Char) : List Char :=
  mapped tables.finalSigmaLower scalar (fullLowercase tables scalar)

def capitalSigma : Char := Char.ofNat 0x3a3

open Classical in
/-- The text with each scalar replaced, where a condition says which capital sigmas are final. -/
noncomputable def lowercased (final : List Char → List Char → Prop) :
    List Char → List Char → List Char
  | _, [] => []
  | before, scalar :: after =>
    (if scalar = capitalSigma ∧ final before after then finalLowercase tables scalar
      else fullLowercase tables scalar) ++ lowercased final (before ++ [scalar]) after

end Context

section Scan

variable {tables : CaseTables}

theorem isCased_spec (tables : CaseTables) (scalar : Char) : ∃ answer, isCased tables scalar.toNat = .value answer ∧
    (answer = true ↔ Cased tables scalar) := containsRange_decides tables.cased scalar.toNat

theorem isCaseIgnorable_spec (tables : CaseTables) (scalar : Char) : ∃ answer,
    isCaseIgnorable tables scalar.toNat = .value answer ∧
      (answer = true ↔ CaseIgnorable tables scalar) :=
  containsRange_decides tables.caseIgnorable scalar.toNat

/-- What the scan of the following scalars finds: behind the case-ignorable ones stands a cased one. -/
def ScanFollows (tables : CaseTables) : List Char → Prop
  | [] => False
  | scalar :: rest => CaseIgnorable tables scalar ∧ ScanFollows tables rest ∨
      ¬CaseIgnorable tables scalar ∧ Cased tables scalar

theorem precededByCased_append {before : List Char} {scalar : Char} :
    PrecededByCased tables (before ++ [scalar]) ↔
      Cased tables scalar ∨ CaseIgnorable tables scalar ∧ PrecededByCased tables before := by
  constructor
  · rintro ⟨front, first, run, hsplit, hcased, hrun⟩
    rcases List.eq_nil_or_concat run with rfl | ⟨rest, last, rfl⟩
    · obtain ⟨-, hlast⟩ := List.append_inj' hsplit rfl
      exact Or.inl ((List.cons.inj hlast).1 ▸ hcased)
    · rw [List.concat_eq_append, ← List.cons_append, ← List.append_assoc] at hsplit
      obtain ⟨hbefore, hlast⟩ := List.append_inj' hsplit rfl
      obtain rfl := (List.cons.inj hlast).1
      refine Or.inr ⟨hrun scalar (by simp), front, first, rest, hbefore, hcased, fun ignored h => ?_⟩
      exact hrun ignored (List.concat_eq_append ▸ List.mem_append_left _ h)
  · rintro (hcased | ⟨hignorable, front, first, run, rfl, hcased, hrun⟩)
    · exact ⟨before, scalar, [], rfl, hcased, fun _ h => absurd h List.not_mem_nil⟩
    · refine ⟨front, first, run ++ [scalar], by simp, hcased, fun ignored h => ?_⟩
      rcases List.mem_append.mp h with h | h
      · exact hrun ignored h
      · exact List.mem_singleton.mp h ▸ hignorable

theorem not_precededByCased_nil : ¬PrecededByCased tables [] := by
  rintro ⟨front, scalar, run, h, -⟩
  simp at h

theorem followedByCased_cons {scalar : Char} {rest : List Char} :
    FollowedByCased tables (scalar :: rest) ↔
      Cased tables scalar ∨ CaseIgnorable tables scalar ∧ FollowedByCased tables rest := by
  constructor
  · rintro ⟨run, last, after, hsplit, hcased, hrun⟩
    cases run with
    | nil =>
      obtain ⟨rfl, -⟩ := List.cons.inj hsplit
      exact Or.inl hcased
    | cons first run =>
      obtain ⟨rfl, rfl⟩ := List.cons.inj hsplit
      exact Or.inr ⟨hrun scalar List.mem_cons_self, run, last, after, rfl, hcased,
        fun ignored h => hrun ignored (List.mem_cons_of_mem _ h)⟩
  · rintro (hcased | ⟨hignorable, run, last, after, rfl, hcased, hrun⟩)
    · exact ⟨[], scalar, rest, rfl, hcased, fun _ h => absurd h List.not_mem_nil⟩
    · refine ⟨scalar :: run, last, after, rfl, hcased, fun ignored h => ?_⟩
      rcases List.mem_cons.mp h with rfl | h
      · exact hignorable
      · exact hrun ignored h

/-- The case-ignorable scalars in front of a text. -/
theorem exists_run (tables : CaseTables) (after : List Char) : ∃ run rest, after = run ++ rest ∧
    (∀ ignored ∈ run, CaseIgnorable tables ignored) ∧
    ∀ scalar ∈ rest.head?, ¬CaseIgnorable tables scalar := by
  induction after with
  | nil => exact ⟨[], [], rfl, fun _ h => absurd h List.not_mem_nil, fun _ h => by cases h⟩
  | cons scalar after ih =>
    by_cases hignorable : CaseIgnorable tables scalar
    · obtain ⟨run, rest, rfl, hrun, hrest⟩ := ih
      refine ⟨scalar :: run, rest, rfl, fun ignored h => ?_, hrest⟩
      rcases List.mem_cons.mp h with rfl | h
      · exact hignorable
      · exact hrun ignored h
    · refine ⟨[], scalar :: after, rfl, fun _ h => absurd h List.not_mem_nil, fun other h => ?_⟩
      rw [List.head?_cons, Option.mem_some] at h
      exact h ▸ hignorable

section Run

variable {run rest : List Char} (hrun : ∀ ignored ∈ run, CaseIgnorable tables ignored)
  (hrest : ∀ scalar ∈ rest.head?, ¬CaseIgnorable tables scalar)

include hrun hrest

theorem scanFollows_run : ScanFollows tables (run ++ rest) ↔ ∃ scalar ∈ rest.head?, Cased tables scalar := by
  induction run with
  | nil =>
    cases rest with
    | nil => exact ⟨False.elim, fun ⟨_, h, _⟩ => by cases h⟩
    | cons scalar rest =>
      have hscalar := hrest scalar rfl
      rw [List.nil_append, ScanFollows]
      constructor
      · rintro (⟨h, -⟩ | ⟨-, h⟩)
        · exact absurd h hscalar
        · exact ⟨scalar, rfl, h⟩
      · rintro ⟨other, h, hcased⟩
        obtain rfl := Option.mem_some.mp h
        exact Or.inr ⟨hscalar, hcased⟩
  | cons scalar run ih =>
    have hscalar := hrun scalar List.mem_cons_self
    rw [List.cons_append, ScanFollows, ih fun ignored h => hrun ignored (List.mem_cons_of_mem _ h)]
    exact ⟨fun h => h.elim And.right fun h => absurd hscalar h.1, fun h => Or.inl ⟨hscalar, h⟩⟩

theorem followedByCased_run : FollowedByCased tables (run ++ rest) ↔
    (∃ scalar ∈ run, Cased tables scalar) ∨ ∃ scalar ∈ rest.head?, Cased tables scalar := by
  induction run with
  | nil =>
    cases rest with
    | nil =>
      refine ⟨fun ⟨run, scalar, after, h, _⟩ => ?_, fun h => ?_⟩
      · simp at h
      · rcases h with ⟨_, h, _⟩ | ⟨_, h, _⟩ <;> cases h
    | cons scalar rest =>
      have hscalar := hrest scalar rfl
      rw [List.nil_append, followedByCased_cons]
      constructor
      · rintro (h | ⟨h, -⟩)
        · exact Or.inr ⟨scalar, rfl, h⟩
        · exact absurd h hscalar
      · rintro (⟨_, h, _⟩ | ⟨other, h, hcased⟩)
        · cases h
        · obtain rfl := Option.mem_some.mp h
          exact Or.inl hcased
  | cons scalar run ih =>
    have hscalar := hrun scalar List.mem_cons_self
    rw [List.cons_append, followedByCased_cons,
      ih fun ignored h => hrun ignored (List.mem_cons_of_mem _ h), List.exists_mem_cons_iff, or_assoc]
    exact or_congr_right ⟨fun h => h.2, fun h => ⟨hscalar, h⟩⟩

end Run

/-- The condition holds where the scan finds a cased scalar, and where it has passed one. -/
theorem followedByCased_iff {after : List Char} : FollowedByCased tables after ↔
    ScanFollows tables after ∨ HiddenCased tables after := by
  constructor
  · intro h
    obtain ⟨run, rest, rfl, hrun, hrest⟩ := exists_run tables after
    rw [followedByCased_run hrun hrest, ← scanFollows_run hrun hrest] at h
    refine or_iff_not_imp_left.mpr fun hscan => ⟨run, rest, rfl, hrun, h.resolve_right hscan, ?_⟩
    refine fun scalar hscalar => ⟨hrest scalar hscalar, fun hcased => hscan ?_⟩
    exact (scanFollows_run hrun hrest).mpr ⟨scalar, hscalar, hcased⟩
  · rintro (h | ⟨run, rest, rfl, hrun, hcased, hrest⟩)
    · obtain ⟨run, rest, rfl, hrun, hrest⟩ := exists_run tables after
      exact (followedByCased_run hrun hrest).mpr (Or.inr ((scanFollows_run hrun hrest).mp h))
    · exact (followedByCased_run hrun fun scalar h => (hrest scalar h).1).mpr (Or.inl hcased)

theorem HiddenCased.not_scanFollows {after : List Char} (h : HiddenCased tables after) :
    ¬ScanFollows tables after := by
  obtain ⟨run, rest, rfl, hrun, -, hrest⟩ := h
  rw [scanFollows_run hrun fun scalar h => (hrest scalar h).1]
  rintro ⟨scalar, hscalar, hcased⟩
  exact (hrest scalar hscalar).2 hcased

end Scan

section Bytes

variable {tables : CaseTables}

theorem encodeText_append (before after : List Char) :
    encodeText (before ++ after) = encodeText before ++ encodeText after := List.flatMap_append

theorem encodeText_cons (scalar : Char) (rest : List Char) :
    encodeText (scalar :: rest) = (encodeScalar scalar).bytes ++ encodeText rest := List.flatMap_cons

theorem encodeScalar_length_pos (scalar : Char) : 0 < (encodeScalar scalar).bytes.length := by
  have h := scalar_bytes scalar
  generalize (encodeScalar scalar).bytes = bytes at h
  cases h <;> exact Nat.succ_pos _

theorem length_le_encodeText (text : List Char) : text.length ≤ (encodeText text).length := by
  induction text with
  | nil => exact Nat.zero_le _
  | cons scalar text ih =>
    rw [encodeText_cons, List.length_append, List.length_cons]
    have := encodeScalar_length_pos scalar
    omega

theorem decodeScalar_encodeText (before : List Char) (scalar : Char) (after : List Char) :
    decodeScalar (encodeText (before ++ scalar :: after)) (encodeText before).length =
      some (decodeStep scalar) := by
  rw [encodeText_append, encodeText_cons, ← List.append_assoc]
  exact decodeScalar_bytes (encodeText before) scalar (encodeText after)

theorem length_encodeText_append (before : List Char) (scalar : Char) :
    (encodeText before).length + (encodeScalar scalar).initializedLen =
      (encodeText (before ++ [scalar])).length := by
  rw [encodeText_append, List.length_append, encodeText_cons, List.length_append, length_bytes]
  rfl

theorem hasFollowingCasedFrom_spec (tables : CaseTables) (before after : List Char) {fuel : ℕ}
    (hfuel : after.length < fuel) : ∃ answer,
      hasFollowingCasedFrom tables (encodeText (before ++ after)) fuel (encodeText before).length =
        .value answer ∧ (answer = true ↔ ScanFollows tables after) := by
  induction after generalizing before fuel with
  | nil =>
    obtain ⟨fuel, rfl⟩ : ∃ rest, fuel = rest + 1 := ⟨fuel - 1, by omega⟩
    refine ⟨false, ?_, fun h => (by cases h), False.elim⟩
    rw [hasFollowingCasedFrom, List.append_nil, if_neg (Nat.lt_irrefl _)]
    rfl
  | cons scalar after ih =>
    obtain ⟨fuel, rfl⟩ : ∃ rest, fuel = rest + 1 := ⟨fuel - 1, by omega⟩
    have hlt : (encodeText before).length < (encodeText (before ++ scalar :: after)).length := by
      rw [encodeText_append, encodeText_cons, List.length_append, List.length_append]
      have := encodeScalar_length_pos scalar
      omega
    obtain ⟨ignorable, hignorable, hiff⟩ := isCaseIgnorable_spec tables scalar
    rw [List.length_cons] at hfuel
    rw [hasFollowingCasedFrom, if_pos hlt, decodeScalar_encodeText]
    simp only [decodeStep, hignorable, value_bind]
    cases ignorable with
    | false =>
      obtain ⟨answer, hanswer, hcased⟩ := isCased_spec tables scalar
      have hnot : ¬CaseIgnorable tables scalar := fun h => Bool.false_ne_true (hiff.mpr h)
      refine ⟨answer, hanswer, hcased.trans ?_⟩
      exact ⟨fun h => Or.inr ⟨hnot, h⟩, fun h => h.elim (fun h => absurd h.1 hnot) And.right⟩
    | true =>
      have hyes : CaseIgnorable tables scalar := hiff.mp rfl
      obtain ⟨answer, hanswer, hscan⟩ := ih (before ++ [scalar]) (show after.length < fuel by omega)
      rw [← length_encodeText_append, List.append_assoc] at hanswer
      refine ⟨answer, hanswer, hscan.trans ?_⟩
      exact ⟨fun h => Or.inl ⟨hyes, h⟩, fun h => h.elim And.right fun h => absurd hyes h.1⟩

theorem nextPreceded_spec {before : List Char} (scalar : Char) {preceded : Bool}
    (h : preceded = true ↔ PrecededByCased tables before) : ∃ next,
      nextPreceded tables preceded scalar.toNat = .value next ∧
        (next = true ↔ PrecededByCased tables (before ++ [scalar])) := by
  obtain ⟨cased, hcased, hcasediff⟩ := isCased_spec tables scalar
  obtain ⟨ignorable, hignorable, hignorableiff⟩ := isCaseIgnorable_spec tables scalar
  rw [nextPreceded, hcased, value_bind, precededByCased_append, ← h, ← hcasediff, ← hignorableiff]
  cases cased with
  | true => exact ⟨true, rfl, by simp⟩
  | false =>
    rw [if_neg Bool.false_ne_true, hignorable, value_bind]
    cases ignorable with
    | true => exact ⟨preceded, rfl, by simp⟩
    | false => exact ⟨false, rfl, by simp⟩

theorem mapped_of_maps {table : MappingTable} {scalar : Char} {mapping : List ℕ}
    {otherwise : List Char} (h : table.Maps scalar.toNat mapping) :
    mapped table scalar otherwise = mapping.map Char.ofNat := by
  rw [mapped, dif_pos ⟨mapping, h⟩, (Exists.choose_spec ⟨mapping, h⟩ : table.Maps _ _).unique h]

theorem mapped_of_index {table : MappingTable} {scalar : Char} {otherwise : List Char}
    (h : ∀ index : ℕ, table.points[index]? ≠ some scalar.toNat) :
    mapped table scalar otherwise = otherwise := by
  rw [mapped, dif_neg]
  rintro ⟨_, index, _, _, hindex, _⟩
  exact h index hindex

/-- The scalars that a mapping stands for; without one the scalar stays. -/
def scalarsOf (scalar : Char) (mapping : Option (List ℕ)) : List Char :=
  mapping.elim [scalar] (List.map Char.ofNat)

theorem ordinaryLowercaseMapping_spec (tables : CaseTables) (scalar : Char) : ∃ mapping,
    ordinaryLowercaseMapping tables scalar.toNat = .value mapping ∧
      scalarsOf scalar mapping = fullLowercase tables scalar := by
  obtain ⟨found, hfound, hindex⟩ := mappingIndex_spec tables.lower.sorted scalar.toNat
  rw [ordinaryLowercaseMapping, hfound, value_bind]
  cases found with
  | none =>
    refine ⟨none, rfl, (mapped_of_index fun index h => ?_).symm⟩
    cases (hindex index).mpr h
  | some index =>
    obtain ⟨mapping, hview, hmaps⟩ := mappingView_spec tables.lower ((hindex index).mp rfl)
    refine ⟨if mapping = [scalar.toNat] then none else some mapping, ?_, ?_⟩
    · dsimp only
      rw [hview, value_bind]
      rfl
    · rw [fullLowercase, mapped_of_maps hmaps]
      split
      · rename_i heq
        rw [heq, scalarsOf, Option.elim_none, List.map_singleton, Char.ofNat_toNat]
      · rfl

theorem lowercaseMapping_spec (tables : CaseTables) (scalar : Char) (finalSigma : Bool) : ∃ mapping,
    lowercaseMapping tables scalar.toNat finalSigma = .value mapping ∧ scalarsOf scalar mapping =
        if finalSigma then finalLowercase tables scalar else fullLowercase tables scalar := by
  cases finalSigma with
  | false => exact ordinaryLowercaseMapping_spec tables scalar
  | true =>
    obtain ⟨found, hfound, hindex⟩ := mappingIndex_spec tables.finalSigmaLower.sorted scalar.toNat
    rw [lowercaseMapping, if_pos rfl, if_pos rfl, hfound, value_bind]
    cases found with
    | none =>
      obtain ⟨mapping, hmapping, hscalars⟩ := ordinaryLowercaseMapping_spec tables scalar
      refine ⟨mapping, hmapping, hscalars.trans (mapped_of_index fun index h => ?_).symm⟩
      cases (hindex index).mpr h
    | some index =>
      obtain ⟨mapping, hview, hmaps⟩ := mappingView_spec tables.finalSigmaLower ((hindex index).mp rfl)
      refine ⟨some mapping, ?_, (mapped_of_maps hmaps).symm⟩
      dsimp only
      rw [hview, value_bind]
      rfl

theorem appendLowercase_spec (output : List Char) (scalar : Char) (finalSigma : Bool) :
    appendLowercase tables (encodeText output) scalar finalSigma = .value (encodeText (output ++
      if finalSigma then finalLowercase tables scalar else fullLowercase tables scalar)) := by
  obtain ⟨mapping, hmapping, hscalars⟩ := lowercaseMapping_spec tables scalar finalSigma
  rw [appendLowercase, hmapping, value_bind, ← hscalars, encodeText_append]
  cases mapping with
  | none =>
    rw [scalarsOf, Option.elim_none, encodeText_cons]
    simp [encodeText]
  | some mapping => simp [scalarsOf, appendMapping, encodeText, List.flatMap_map]

/-- The condition that the loop evaluates. -/
def CarriedFinalSigma (tables : CaseTables) (before after : List Char) : Prop :=
  PrecededByCased tables before ∧ ¬ScanFollows tables after

theorem eq_capitalSigma_iff {scalar : Char} : scalar = capitalSigma ↔ scalar.toNat = 0x3a3 := by
  constructor
  · rintro rfl
    rfl
  · intro h
    rw [← Char.ofNat_toNat scalar, h]
    rfl

theorem finalSigmaAt_spec {before : List Char} (scalar : Char) (after : List Char)
    (state : LowercaseState)
    (hpreceded : state.precededByCased = true ↔ PrecededByCased tables before) : ∃ answer,
    finalSigmaAt tables (encodeText (before ++ scalar :: after)) state scalar.toNat
        (encodeText (before ++ [scalar])).length = .value answer ∧
      (answer = true ↔ scalar = capitalSigma ∧ CarriedFinalSigma tables before after) := by
  rw [finalSigmaAt, CarriedFinalSigma, ← hpreceded, eq_capitalSigma_iff]
  split
  · rename_i h
    obtain ⟨following, hfollowing, hscan⟩ := hasFollowingCasedFrom_spec tables
      (before ++ [scalar]) after (show after.length <
        (encodeText (before ++ scalar :: after)).length + 1 by
          have := length_le_encodeText (before ++ scalar :: after)
          rw [List.length_append, List.length_cons] at this
          omega)
    rw [List.append_assoc, List.singleton_append] at hfollowing
    rw [hasFollowingCased, hfollowing, value_bind]
    refine ⟨!following, rfl, ?_⟩
    rw [← hscan]
    cases following <;> simp [h]
  · rename_i h
    refine ⟨false, rfl, fun h => (by cases h), fun hfinal => absurd ⟨hfinal.1, hfinal.2.1⟩ h⟩

theorem nextChar_spec (before : List Char) (scalar : Char) (after : List Char) :
    nextChar (encodeText (before ++ scalar :: after)) (encodeText before).length =
      .value (some (scalar, (encodeText (before ++ [scalar])).length)) := by
  have hne : ¬(encodeText before).length = (encodeText (before ++ scalar :: after)).length := by
    rw [encodeText_append, encodeText_cons, List.length_append, List.length_append]
    have := encodeScalar_length_pos scalar
    omega
  rw [nextChar, if_neg hne, decodeScalar_encodeText]
  simp only [decodeStep, Char.ofNat_toNat, pure_eq, length_encodeText_append]

theorem lowercaseLoop_spec (before after output : List Char) {preceded : Bool}
    (hpreceded : preceded = true ↔ PrecededByCased tables before) {fuel : ℕ}
    (hfuel : after.length < fuel) :
    lowercaseLoop tables (encodeText (before ++ after)) fuel ⟨encodeText output,
        (encodeText before).length, (encodeText before).length, preceded⟩ =
      .value (encodeText (output ++ lowercased tables (CarriedFinalSigma tables) before after)) := by
  induction after generalizing before output preceded fuel with
  | nil =>
    obtain ⟨fuel, rfl⟩ : ∃ rest, fuel = rest + 1 := ⟨fuel - 1, by omega⟩
    rw [lowercaseLoop, List.append_nil, nextChar, if_pos rfl, lowercased, List.append_nil]
    rfl
  | cons scalar after ih =>
    obtain ⟨fuel, rfl⟩ : ∃ rest, fuel = rest + 1 := ⟨fuel - 1, by omega⟩
    rw [List.length_cons] at hfuel
    obtain ⟨final, hfinal, hcondition⟩ := finalSigmaAt_spec scalar after
      ⟨encodeText output, (encodeText before).length, (encodeText before).length, preceded⟩ hpreceded
    obtain ⟨next, hnext, hprecededNext⟩ := nextPreceded_spec scalar hpreceded
    rw [lowercaseLoop, nextChar_spec, value_bind]
    simp only [length_encodeText_append, hfinal, value_bind, appendLowercase_spec, hnext]
    have hrest := ih (before ++ [scalar]) (output ++
      if final then finalLowercase tables scalar else fullLowercase tables scalar) hprecededNext
      (show after.length < fuel by omega)
    rw [List.append_assoc, List.singleton_append] at hrest
    rw [hrest, lowercased, List.append_assoc]
    cases final with
    | true => rw [if_pos rfl, if_pos (hcondition.mp rfl)]
    | false => rw [if_neg Bool.false_ne_true, if_neg fun h => Bool.false_ne_true (hcondition.mpr h)]

theorem toLowercase_encodeText (text : List Char) : toLowercase tables (encodeText text) =
    .value (encodeText (lowercased tables (CarriedFinalSigma tables) [] text)) := by
  have hpreceded : false = true ↔ PrecededByCased tables [] :=
    ⟨fun h => (by cases h), fun h => absurd h not_precededByCased_nil⟩
  have h := lowercaseLoop_spec [] text [] hpreceded
    (show text.length < (encodeText text).length + 1 by
      have := length_le_encodeText text
      omega)
  exact h

end Bytes

section Exactness

variable {tables : CaseTables}

theorem finalLowercase_sigma : finalLowercase tables capitalSigma = [Char.ofNat 0x3c2] := by
  have h : tables.finalSigmaLower.Maps capitalSigma.toNat [0x3c2] := tables.finalSigmaLower_sigma
  exact mapped_of_maps h

theorem fullLowercase_sigma : fullLowercase tables capitalSigma = [Char.ofNat 0x3c3] := by
  have h : tables.lower.Maps capitalSigma.toNat [0x3c3] := tables.lower_sigma
  exact mapped_of_maps h

theorem sigmas_differ (rest rest' : List UInt8) :
    encodeText [Char.ofNat 0x3c2] ++ rest ≠ encodeText [Char.ofNat 0x3c3] ++ rest' := by
  intro h
  have hbyte := congrArg (fun bytes => bytes[1]?) h
  revert hbyte
  simp [encodeText, encodeScalar, ScalarEncoding.bytes]

/-- The texts are the same just where the conditions agree on every capital sigma. -/
theorem lowercased_eq_iff {final other : List Char → List Char → Prop} (before after : List Char) :
    encodeText (lowercased tables final before after) =
        encodeText (lowercased tables other before after) ↔
      ∀ front rest, after = front ++ capitalSigma :: rest →
        (final (before ++ front) rest ↔ other (before ++ front) rest) := by
  induction after generalizing before with
  | nil => exact ⟨fun _ front rest h => absurd h (by simp), fun _ => rfl⟩
  | cons scalar after ih =>
    have hsplits : (∀ front rest, scalar :: after = front ++ capitalSigma :: rest →
        (final (before ++ front) rest ↔ other (before ++ front) rest)) ↔
        (scalar = capitalSigma → (final before after ↔ other before after)) ∧
        ∀ front rest, after = front ++ capitalSigma :: rest →
          (final (before ++ [scalar] ++ front) rest ↔ other (before ++ [scalar] ++ front) rest) := by
      constructor
      · intro h
        refine ⟨fun hsigma => ?_, fun front rest hsplit => ?_⟩
        · have hhead := h [] after (by rw [hsigma]; rfl)
          rwa [List.append_nil] at hhead
        · have htail := h (scalar :: front) rest (by rw [hsplit]; rfl)
          rwa [List.append_assoc, List.singleton_append]
      · rintro ⟨hhead, htail⟩ front rest hsplit
        cases front with
        | nil =>
          obtain ⟨hsigma, rfl⟩ := List.cons.inj hsplit
          rw [List.append_nil]
          exact hhead hsigma
        | cons first front =>
          obtain ⟨rfl, hrest⟩ := List.cons.inj hsplit
          have h := htail front rest hrest
          rwa [List.append_assoc, List.singleton_append] at h
    rw [hsplits, ← ih (before ++ [scalar]), lowercased, lowercased, encodeText_append, encodeText_append]
    by_cases hsigma : scalar = capitalSigma
    · by_cases hfinal : final before after <;> by_cases hother : other before after
      · simp [hsigma, hfinal, hother]
      · rw [if_pos ⟨hsigma, hfinal⟩, if_neg fun h => hother h.2, hsigma, finalLowercase_sigma,
          fullLowercase_sigma]
        exact ⟨fun h => absurd h (sigmas_differ _ _), fun h => absurd ((h.1 rfl).mp hfinal) hother⟩
      · rw [if_neg fun h => hfinal h.2, if_pos ⟨hsigma, hother⟩, hsigma, finalLowercase_sigma,
          fullLowercase_sigma]
        exact ⟨fun h => absurd h.symm (sigmas_differ _ _), fun h => absurd ((h.1 rfl).mpr hother) hfinal⟩
      · simp [hsigma, hfinal, hother]
    · rw [if_neg fun h => hsigma h.1, if_neg fun h => hsigma h.1, List.append_cancel_left_eq]
      exact ⟨fun h => ⟨fun heq => absurd heq hsigma, h⟩, And.right⟩

theorem conditions_agree_iff {before after : List Char} :
    (CarriedFinalSigma tables before after ↔ FinalSigma tables before after) ↔
      (PrecededByCased tables before → ¬HiddenCased tables after) := by
  rw [CarriedFinalSigma, FinalSigma, followedByCased_iff, not_or]
  constructor
  · intro h hpreceded hhidden
    exact (h.mp ⟨hpreceded, hhidden.not_scanFollows⟩).2.2 hhidden
  · intro h
    exact ⟨fun hcarried => ⟨hcarried.1, hcarried.2, h hcarried.1⟩, fun hfinal => ⟨hfinal.1, hfinal.2.1⟩⟩

theorem toLowercase_eq_iff (text : List Char) : toLowercase tables (encodeText text) =
        .value (encodeText (lowercased tables (FinalSigma tables) [] text)) ↔
      ∀ before after, text = before ++ capitalSigma :: after → PrecededByCased tables before →
        ¬HiddenCased tables after := by
  have hvalue : ∀ {a b : List UInt8}, Outcome.value a = .value b ↔ a = b :=
    ⟨fun h => by cases h; rfl, fun h => by rw [h]⟩
  rw [toLowercase_encodeText, hvalue, lowercased_eq_iff]
  exact forall₃_congr fun front rest _ => by rw [List.nil_append, conditions_agree_iff]

/-- The conversion of a text ends without an abort. It is the full conversion with the contextual
final sigma just where no capital sigma behind a cased scalar is followed by case-ignorable scalars
of which one is cased and behind which none follows. -/
theorem to_lowercase_final_sigma (tables : CaseTables) (text : List Char) :
    (∃ output, toLowercase tables (encodeText text) = .value output) ∧
      (toLowercase tables (encodeText text) =
          .value (encodeText (lowercased tables (FinalSigma tables) [] text)) ↔
        ∀ before after, text = before ++ capitalSigma :: after → PrecededByCased tables before →
          ¬HiddenCased tables after) :=
  ⟨⟨_, toLowercase_encodeText text⟩, toLowercase_eq_iff text⟩

/-- A few rows of the generated tables. -/
def sampleTables : CaseTables where
  cased := ⟨[0x345, 0x345, 0x38e, 0x3a1, 0x3a3, 0x3f5], by decide⟩
  caseIgnorable := ⟨[0x2b0, 0x36f], by decide⟩
  lower := {
    points := [0x391, 0x3a3]
    offsets := [0, 1, 2]
    scalars := [0x3b1, 0x3c3]
    sorted := by decide
    stops := fun index h => by
      rw [List.length_cons, List.length_singleton] at h
      obtain rfl | rfl : index = 0 ∨ index = 1 := by omega
      · exact ⟨0, 1, rfl, rfl, by decide, by decide⟩
      · exact ⟨1, 2, rfl, rfl, by decide, by decide⟩
    valid := by decide }
  finalSigmaLower := {
    points := [0x3a3]
    offsets := [0, 1]
    scalars := [0x3c2]
    sorted := by decide
    stops := fun index h => by
      rw [List.length_singleton] at h
      obtain rfl : index = 0 := by omega
      exact ⟨0, 1, rfl, rfl, by decide, by decide⟩
    valid := by decide }
  lower_sigma := ⟨1, 1, 2, rfl, rfl, rfl, rfl⟩
  finalSigmaLower_sigma := ⟨0, 0, 1, rfl, rfl, rfl, rfl⟩

/-- An alpha, a capital sigma and a combining iota, which is cased and case-ignorable. -/
def iotaText : List Char := [Char.ofNat 0x391, capitalSigma, Char.ofNat 0x345]

theorem iota_makes_final_sigma :
    toLowercase sampleTables (encodeText iotaText) =
        .value (encodeText [Char.ofNat 0x3b1, Char.ofNat 0x3c2, Char.ofNat 0x345]) ∧
      FollowedByCased sampleTables [Char.ofNat 0x345] ∧
      toLowercase sampleTables (encodeText iotaText) ≠
        .value (encodeText (lowercased sampleTables (FinalSigma sampleTables) [] iotaText)) := by
  have hiota : Cased sampleTables (Char.ofNat 0x345) := ⟨0, 0x345, 0x345, rfl, rfl, by decide, by decide⟩
  have hignorable : CaseIgnorable sampleTables (Char.ofNat 0x345) :=
    ⟨0, 0x2b0, 0x36f, rfl, rfl, by decide, by decide⟩
  have halpha : Cased sampleTables (Char.ofNat 0x391) := ⟨1, 0x38e, 0x3a1, rfl, rfl, by decide, by decide⟩
  refine ⟨by decide, ⟨[], _, [], rfl, hiota, fun _ h => absurd h List.not_mem_nil⟩, fun h => ?_⟩
  refine (toLowercase_eq_iff iotaText).mp h [Char.ofNat 0x391] [Char.ofNat 0x345] rfl
    ⟨[], _, [], rfl, halpha, fun _ h => absurd h List.not_mem_nil⟩
    ⟨[Char.ofNat 0x345], [], rfl, fun ignored h => ?_, ⟨_, List.mem_cons_self, hiota⟩, fun _ h => by cases h⟩
  exact List.mem_singleton.mp h ▸ hignorable

end Exactness

end Nocter.Text
