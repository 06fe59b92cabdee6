import Nocter.Arm64.Instruction
import Nocter.Library.Alignment

/-!
# Stack frames

A frame holds the area of outgoing arguments, the objects in the order of their requests, a slot for
each preserved register, and the frame record at its top. Each range starts at the first aligned
offset behind the last one.
-/

namespace Nocter.Arm64

section Objects

/-- A range that the common placement hands out. -/
structure ObjectRange where
  offset : ℕ
  size : ℕ
  alignment : ℕ
  deriving DecidableEq

inductive ObjectLayoutError where
  | invalidAlignment (alignment : ℕ)
  | sizeOverflow
  deriving DecidableEq

structure ObjectSequence where
  next : ℕ
  alignment : ℕ
  maximumAlignment : ℕ

def validateAlignment (alignment maximumAlignment : ℕ) : Except ObjectLayoutError Unit :=
  if ¬alignment.isPowerOfTwo ∨ maximumAlignment < alignment then .error (.invalidAlignment alignment)
  else .ok ()

/-- `ok_or` on a checked operation. -/
def orOverflow (result : Option ℕ) : Except ObjectLayoutError ℕ :=
  match result with
  | some value => .ok value
  | none => .error .sizeOverflow

def alignUp (value alignment : ℕ) : Except ObjectLayoutError ℕ := orOverflow (checkedRoundUp value alignment)

namespace ObjectSequence

def new (start minimumAlignment maximumAlignment : ℕ) : ObjectSequence :=
  ⟨start, minimumAlignment, maximumAlignment⟩

def add (sequence : ObjectSequence) (size alignment : ℕ) :
    Except ObjectLayoutError (ObjectRange × ObjectSequence) := do
  validateAlignment alignment sequence.maximumAlignment
  let offset ← alignUp sequence.next alignment
  let next ← orOverflow (checkedAdd u64Max offset size)
  return (⟨offset, size, alignment⟩, { sequence with next, alignment := max sequence.alignment alignment })

/-- The size with the trailer, the trailer's offset, and the alignment. -/
def finishWithTrailer (sequence : ObjectSequence) (trailerSize finalAlignment : ℕ) :
    Except ObjectLayoutError (ℕ × ℕ × ℕ) := do
  validateAlignment finalAlignment sequence.maximumAlignment
  let stop ← orOverflow (checkedAdd u64Max sequence.next trailerSize)
  let size ← alignUp stop (max finalAlignment sequence.alignment)
  return (size, size - trailerSize, sequence.alignment)

end ObjectSequence

end Objects

section Frames

def stackAlignment : ℕ := 16

def registerSize : ℕ := 8

def frameRecordSize : ℕ := 2 * registerSize

structure SavedRegister where
  register : Register
  offset : ℕ
  deriving DecidableEq

structure FrameLayout where
  size : ℕ
  outgoingArgumentSize : ℕ
  objects : List ObjectRange
  savedRegisters : List SavedRegister
  frameRecordOffset : ℕ

inductive FrameLayoutError where
  | misalignedOutgoingArguments (size : ℕ)
  | invalidObjectAlignment (alignment : ℕ)
  | notCalleeSaved (register : Register)
  | frameOverflow
  deriving DecidableEq

def mapObjectLayoutError : ObjectLayoutError → FrameLayoutError
  | .invalidAlignment alignment => .invalidObjectAlignment alignment
  | .sizeOverflow => .frameOverflow

def mapError {α : Type} : Except ObjectLayoutError α → Except FrameLayoutError α :=
  Except.mapError mapObjectLayoutError

/-- A request that `add_object` has accepted. -/
structure FrameObjectRequest where
  size : ℕ
  alignment : ℕ
  valid : validateAlignment alignment stackAlignment = .ok ()

structure FrameLayoutBuilder where
  outgoingArgumentSize : ℕ
  objects : List FrameObjectRequest
  savedRegisters : Finset Register
  outgoing_dvd : stackAlignment ∣ outgoingArgumentSize

namespace FrameLayoutBuilder

def new : FrameLayoutBuilder := ⟨0, [], ∅, Nat.dvd_zero _⟩

def requireOutgoingArgumentSize (builder : FrameLayoutBuilder) (size : ℕ) :
    Except FrameLayoutError FrameLayoutBuilder :=
  if h : stackAlignment ∣ size then
    .ok { builder with
      outgoingArgumentSize := max builder.outgoingArgumentSize size
      outgoing_dvd := by
        rcases le_total builder.outgoingArgumentSize size with hle | hle
        · rwa [max_eq_right hle]
        · rw [max_eq_left hle]
          exact builder.outgoing_dvd }
  else .error (.misalignedOutgoingArguments size)

/-- The id of the object is its index. -/
def addObject (builder : FrameLayoutBuilder) (size alignment : ℕ) :
    Except FrameLayoutError (ℕ × FrameLayoutBuilder) :=
  match h : validateAlignment alignment stackAlignment with
  | .error error => .error (mapObjectLayoutError error)
  | .ok () =>
    .ok (builder.objects.length, { builder with objects := builder.objects ++ [⟨size, alignment, h⟩] })

def preserve (builder : FrameLayoutBuilder) (register : Register) :
    Except FrameLayoutError FrameLayoutBuilder :=
  if Abi.isCalleeSaved register then
    .ok { builder with savedRegisters := insert register builder.savedRegisters }
  else .error (.notCalleeSaved register)

/-- The loops of `finish`, each of which adds ranges of given sizes and alignments. -/
def placeEach (sequence : ObjectSequence) :
    List (ℕ × ℕ) → Except ObjectLayoutError (List ObjectRange × ObjectSequence)
  | [] => .ok ([], sequence)
  | (size, alignment) :: requests => do
    let (range, sequence) ← sequence.add size alignment
    let (ranges, sequence) ← placeEach sequence requests
    return (range :: ranges, sequence)

/-- The set in the order of the register numbers. -/
def orderedRegisters (builder : FrameLayoutBuilder) : List Register :=
  ((List.finRange 31).map Register.mk).filter (· ∈ builder.savedRegisters)

def finish (builder : FrameLayoutBuilder) : Except FrameLayoutError FrameLayout := do
  let sequence := ObjectSequence.new builder.outgoingArgumentSize 1 stackAlignment
  let (objects, sequence) ← mapError
    (placeEach sequence (builder.objects.map fun request => (request.size, request.alignment)))
  let (slots, sequence) ← mapError
    (placeEach sequence (builder.orderedRegisters.map fun _ => (registerSize, registerSize)))
  let (size, frameRecordOffset, _) ← mapError (sequence.finishWithTrailer frameRecordSize stackAlignment)
  return {
    size
    outgoingArgumentSize := builder.outgoingArgumentSize
    objects
    savedRegisters := List.zipWith (fun register slot => ⟨register, slot.offset⟩) builder.orderedRegisters slots
    frameRecordOffset }

end FrameLayoutBuilder

/-- A call on the builder. -/
inductive FrameCall where
  | requireOutgoingArgumentSize (size : ℕ)
  | addObject (size alignment : ℕ)
  | preserve (register : Register)
  deriving DecidableEq

/-- The builder behind a call; a refused call leaves it as it is. -/
def FrameCall.apply (builder : FrameLayoutBuilder) : FrameCall → FrameLayoutBuilder
  | .requireOutgoingArgumentSize size =>
    match builder.requireOutgoingArgumentSize size with
    | .ok next => next
    | .error _ => builder
  | .addObject size alignment =>
    match builder.addObject size alignment with
    | .ok (_, next) => next
    | .error _ => builder
  | .preserve register =>
    match builder.preserve register with
    | .ok next => next
    | .error _ => builder

def FrameLayoutBuilder.run (calls : List FrameCall) : FrameLayoutBuilder :=
  calls.foldl FrameCall.apply FrameLayoutBuilder.new

end Frames

section Placement

theorem validateAlignment_eq_ok {alignment maximumAlignment : ℕ} :
    validateAlignment alignment maximumAlignment = .ok () ↔
      alignment.isPowerOfTwo ∧ alignment ≤ maximumAlignment := by
  unfold validateAlignment
  split_ifs with h
  · refine ⟨fun herror => (by cases herror), fun hvalid => ?_⟩
    rcases h with hpower | hlarge
    · exact absurd hvalid.1 hpower
    · exact absurd hvalid.2 (Nat.not_le.mpr hlarge)
  · obtain ⟨hpower, hlarge⟩ := not_or.mp h
    exact ⟨fun _ => ⟨not_not.mp hpower, Nat.not_lt.mp hlarge⟩, fun _ => rfl⟩

theorem orOverflow_eq_ok {result : Option ℕ} {value : ℕ} :
    orOverflow result = .ok value ↔ result = some value := by
  cases result with
  | none => exact ⟨fun h => (by cases h), fun h => (by cases h)⟩
  | some found => exact ⟨fun h => (by cases h; rfl), fun h => (by cases h; rfl)⟩

theorem orOverflow_eq_error {result : Option ℕ} {error : ObjectLayoutError}
    (h : orOverflow result = .error error) : error = .sizeOverflow := by
  cases result with
  | none => exact (Except.error.inj h).symm
  | some found => cases h

theorem bind_eq_ok {ε α β : Type} {result : Except ε α} {next : α → Except ε β} {value : β} :
    result >>= next = .ok value ↔ ∃ middle, result = .ok middle ∧ next middle = .ok value := by
  cases result with
  | ok middle => exact ⟨fun h => ⟨middle, rfl, h⟩, fun ⟨_, hmiddle, h⟩ => by cases hmiddle; exact h⟩
  | error error => exact ⟨fun h => (by cases h), fun ⟨_, hmiddle, _⟩ => by cases hmiddle⟩

theorem bind_eq_error {ε α β : Type} {result : Except ε α} {next : α → Except ε β} {error : ε} :
    result >>= next = .error error ↔
      result = .error error ∨ ∃ middle, result = .ok middle ∧ next middle = .error error := by
  cases result with
  | ok middle =>
    exact ⟨fun h => Or.inr ⟨middle, rfl, h⟩, fun h => h.elim (fun h => by cases h)
      fun ⟨_, hmiddle, h⟩ => by cases hmiddle; exact h⟩
  | error found =>
    have hfound : (Except.error found >>= next) = Except.error found := rfl
    rw [hfound]
    exact ⟨fun h => Or.inl (by cases h; rfl), fun h => h.elim (fun h => by cases h; rfl)
      fun ⟨_, hmiddle, _⟩ => by cases hmiddle⟩

/-- A sequence whose alignment divides the stack alignment. -/
structure ObjectSequence.Valid (sequence : ObjectSequence) : Prop where
  powerOfTwo : sequence.alignment.isPowerOfTwo
  alignment_le : sequence.alignment ≤ stackAlignment
  maximum : sequence.maximumAlignment = stackAlignment

variable {sequence next : ObjectSequence} {size alignment : ℕ} {range : ObjectRange}

/-- What a successful placement hands out. -/
theorem add_eq_ok (hvalid : sequence.Valid) (h : sequence.add size alignment = .ok (range, next)) :
    range.size = size ∧ range.alignment = alignment ∧ alignment ∣ range.offset ∧
      sequence.next ≤ range.offset ∧ next.next = range.offset + size ∧ next.Valid := by
  rw [ObjectSequence.add] at h
  obtain ⟨⟨⟩, hvalidate, h⟩ := bind_eq_ok.mp h
  obtain ⟨offset, hoffset, h⟩ := bind_eq_ok.mp h
  obtain ⟨stop, hstop, h⟩ := bind_eq_ok.mp h
  cases h
  rw [hvalid.maximum, validateAlignment_eq_ok] at hvalidate
  rw [alignUp, orOverflow_eq_ok, checkedRoundUp_eq_some hvalidate.1] at hoffset
  rw [orOverflow_eq_ok, checkedAdd_eq_some] at hstop
  obtain ⟨-, rfl⟩ := hoffset
  obtain ⟨-, rfl⟩ := hstop
  exact ⟨rfl, rfl, dvd_roundUp _ _, le_roundUp (Nat.pos_of_isPowerOfTwo hvalidate.1), rfl,
    isPowerOfTwo_max hvalid.powerOfTwo hvalidate.1, max_le hvalid.alignment_le hvalidate.2, hvalid.maximum⟩

/-- The only way to fail is to leave the 64-bit numbers. -/
theorem add_eq_error {error : ObjectLayoutError} (hvalid : sequence.Valid)
    (hvalidate : validateAlignment alignment stackAlignment = .ok ())
    (h : sequence.add size alignment = .error error) : error = .sizeOverflow := by
  rw [ObjectSequence.add, hvalid.maximum, hvalidate] at h
  obtain h | ⟨-, -, h⟩ := bind_eq_error.mp h
  · cases h
  obtain h | ⟨offset, -, h⟩ := bind_eq_error.mp h
  · exact orOverflow_eq_error h
  obtain h | ⟨stop, -, h⟩ := bind_eq_error.mp h
  · exact orOverflow_eq_error h
  · cases h

def ObjectRange.region (range : ObjectRange) : Region := ⟨range.offset, range.size⟩

open FrameLayoutBuilder (placeEach)

/-- A placed list follows what is placed already, each range aligned as requested. -/
theorem placeEach_eq_ok {requests : List (ℕ × ℕ)} {ranges : List ObjectRange} {placed : List Region}
    (hvalid : sequence.Valid) (hpacked : Packed placed 0 sequence.next)
    (h : placeEach sequence requests = .ok (ranges, next)) :
    ranges.map (fun range => (range.size, range.alignment)) = requests ∧
      (∀ range ∈ ranges, range.alignment ∣ range.offset) ∧
      Packed (placed ++ ranges.map ObjectRange.region) 0 next.next ∧ next.Valid := by
  induction requests generalizing sequence ranges placed with
  | nil =>
    cases h
    rw [List.map_nil, List.map_nil, List.append_nil]
    exact ⟨rfl, fun _ h => absurd h List.not_mem_nil, hpacked, hvalid⟩
  | cons request requests ih =>
    obtain ⟨size, alignment⟩ := request
    rw [placeEach] at h
    obtain ⟨⟨range, middle⟩, hadd, h⟩ := bind_eq_ok.mp h
    obtain ⟨⟨later, last⟩, hlater, h⟩ := bind_eq_ok.mp h
    cases h
    obtain ⟨hsize, halignment, hdvd, hle, hnext, hmiddle⟩ := add_eq_ok hvalid hadd
    have hpush : Packed (placed ++ [range.region]) 0 middle.next := by
      rw [hnext, ← hsize]
      exact hpacked.push (Nat.zero_le _) hle
    obtain ⟨hrequests, haligned, hlaterPacked, hlast⟩ := ih hmiddle hpush hlater
    rw [List.append_assoc] at hlaterPacked
    refine ⟨?_, List.forall_mem_cons.mpr ⟨halignment ▸ hdvd, haligned⟩, hlaterPacked, hlast⟩
    rw [List.map_cons, hrequests, hsize, halignment]

theorem placeEach_eq_error {requests : List (ℕ × ℕ)} {error : ObjectLayoutError} (hvalid : sequence.Valid)
    (hrequests : ∀ request ∈ requests, validateAlignment request.2 stackAlignment = .ok ())
    (h : placeEach sequence requests = .error error) : error = .sizeOverflow := by
  induction requests generalizing sequence with
  | nil => cases h
  | cons request requests ih =>
    obtain ⟨size, alignment⟩ := request
    obtain ⟨hrequest, hrequests⟩ := List.forall_mem_cons.mp hrequests
    rw [placeEach] at h
    obtain h | ⟨⟨range, middle⟩, hadd, h⟩ := bind_eq_error.mp h
    · exact add_eq_error hvalid hrequest h
    obtain h | ⟨⟨later, last⟩, -, h⟩ := bind_eq_error.mp h
    · exact ih (add_eq_ok hvalid hadd).2.2.2.2.2 hrequests h
    · cases h

/-- The trailer ends at the top and starts behind everything else. -/
theorem finishWithTrailer_eq_ok {size offset alignment : ℕ} (hvalid : sequence.Valid)
    (h : sequence.finishWithTrailer frameRecordSize stackAlignment = .ok (size, offset, alignment)) :
    offset + frameRecordSize = size ∧ sequence.next ≤ offset ∧ stackAlignment ∣ offset ∧
      stackAlignment ∣ size ∧ size ≤ u64Max := by
  have hstack : stackAlignment.isPowerOfTwo := ⟨4, rfl⟩
  rw [ObjectSequence.finishWithTrailer] at h
  obtain ⟨-, -, h⟩ := bind_eq_ok.mp h
  obtain ⟨stop, hstop, h⟩ := bind_eq_ok.mp h
  obtain ⟨total, htotal, h⟩ := bind_eq_ok.mp h
  cases h
  rw [max_eq_left hvalid.alignment_le, alignUp, orOverflow_eq_ok, checkedRoundUp_eq_some hstack] at htotal
  rw [orOverflow_eq_ok, checkedAdd_eq_some] at hstop
  obtain ⟨-, rfl⟩ := hstop
  obtain ⟨hmax, rfl⟩ := htotal
  have hle : sequence.next + frameRecordSize ≤ roundUp (sequence.next + frameRecordSize) stackAlignment :=
    le_roundUp (Nat.pos_of_isPowerOfTwo hstack)
  have hdvd : stackAlignment ∣ roundUp (sequence.next + frameRecordSize) stackAlignment := dvd_roundUp _ _
  refine ⟨by omega, by omega, Nat.dvd_sub hdvd (Nat.dvd_refl 16), hdvd, roundUp_le.trans hmax⟩

theorem finishWithTrailer_eq_error {error : ObjectLayoutError} (hvalid : sequence.Valid)
    (h : sequence.finishWithTrailer frameRecordSize stackAlignment = .error error) :
    error = .sizeOverflow := by
  have hstack : validateAlignment stackAlignment stackAlignment = .ok () :=
    validateAlignment_eq_ok.mpr ⟨⟨4, rfl⟩, le_rfl⟩
  rw [ObjectSequence.finishWithTrailer, hvalid.maximum, hstack] at h
  obtain h | ⟨-, -, h⟩ := bind_eq_error.mp h
  · cases h
  obtain h | ⟨stop, -, h⟩ := bind_eq_error.mp h
  · exact orOverflow_eq_error h
  obtain h | ⟨size, -, h⟩ := bind_eq_error.mp h
  · exact orOverflow_eq_error h
  · cases h

end Placement

section Layouts

open FrameLayoutBuilder (placeEach)

def SavedRegister.region (saved : SavedRegister) : Region := ⟨saved.offset, registerSize⟩

/-- The objects that the calls have requested, in their order. -/
def requestedObject : FrameCall → Option (ℕ × ℕ)
  | .addObject size alignment =>
    if alignment.isPowerOfTwo ∧ alignment ≤ stackAlignment then some (size, alignment) else none
  | _ => none

/-- The calls that the builder has accepted are what it holds. -/
structure FrameLayoutBuilder.Holds (builder : FrameLayoutBuilder) (calls : List FrameCall) : Prop where
  outgoing_le : ∀ size, .requireOutgoingArgumentSize size ∈ calls → stackAlignment ∣ size →
    size ≤ builder.outgoingArgumentSize
  outgoing_mem : builder.outgoingArgumentSize = 0 ∨
    .requireOutgoingArgumentSize builder.outgoingArgumentSize ∈ calls
  objects : builder.objects.map (fun request => (request.size, request.alignment)) =
    calls.filterMap requestedObject
  registers : ∀ register, register ∈ builder.savedRegisters ↔
    .preserve register ∈ calls ∧ Abi.isCalleeSaved register = true

variable {builder : FrameLayoutBuilder} {calls : List FrameCall}

theorem holds_new : FrameLayoutBuilder.new.Holds [] where
  outgoing_le := fun _ h => absurd h List.not_mem_nil
  outgoing_mem := Or.inl rfl
  objects := rfl
  registers := fun _ => ⟨fun h => absurd h (Finset.notMem_empty _), fun h => absurd h.1 List.not_mem_nil⟩

theorem mem_concat_of_ne {call other : FrameCall} (h : call ≠ other) :
    call ∈ calls ++ [other] ↔ call ∈ calls := by
  rw [List.mem_append, List.mem_singleton]
  exact ⟨fun hmem => hmem.resolve_right h, Or.inl⟩

theorem filterMap_concat_of_none {call : FrameCall} (h : requestedObject call = none) :
    (calls ++ [call]).filterMap requestedObject = calls.filterMap requestedObject := by
  rw [List.filterMap_append, List.filterMap_cons_none h, List.filterMap_nil, List.append_nil]

theorem Holds.requireOutgoingArgumentSize (h : builder.Holds calls) (size : ℕ) :
    (FrameCall.apply builder (.requireOutgoingArgumentSize size)).Holds
      (calls ++ [.requireOutgoingArgumentSize size]) := by
  have hregisters (register : Register) :
      FrameCall.preserve register ∈ calls ++ [.requireOutgoingArgumentSize size] ↔
        FrameCall.preserve register ∈ calls := mem_concat_of_ne fun h => (by cases h)
  have hobjects : (calls ++ [FrameCall.requireOutgoingArgumentSize size]).filterMap requestedObject =
      calls.filterMap requestedObject := filterMap_concat_of_none rfl
  rw [FrameCall.apply, FrameLayoutBuilder.requireOutgoingArgumentSize]
  by_cases hdvd : stackAlignment ∣ size
  · rw [dif_pos hdvd]
    refine ⟨fun other hother hotherDvd => ?_, ?_, by rw [hobjects]; exact h.objects, fun register => by
      rw [hregisters]; exact h.registers register⟩
    · rcases List.mem_append.mp hother with hold | hnew
      · exact (h.outgoing_le other hold hotherDvd).trans (le_max_left _ _)
      · cases List.mem_singleton.mp hnew
        exact le_max_right _ _
    · dsimp only
      rcases le_total builder.outgoingArgumentSize size with hle | hle
      · rw [max_eq_right hle]
        exact Or.inr (List.mem_append_right _ List.mem_cons_self)
      · rw [max_eq_left hle]
        exact h.outgoing_mem.imp_right (List.mem_append_left _)
  · rw [dif_neg hdvd]
    refine ⟨fun other hother hotherDvd => ?_, h.outgoing_mem.imp_right (List.mem_append_left _),
      by rw [hobjects]; exact h.objects, fun register => by rw [hregisters]; exact h.registers register⟩
    rcases List.mem_append.mp hother with hold | hnew
    · exact h.outgoing_le other hold hotherDvd
    · cases List.mem_singleton.mp hnew
      exact absurd hotherDvd hdvd

theorem addObject_accepted {size alignment : ℕ} (h : validateAlignment alignment stackAlignment = .ok ()) :
    FrameCall.apply builder (.addObject size alignment) =
      { builder with objects := builder.objects ++ [⟨size, alignment, h⟩] } := by
  rw [FrameCall.apply, FrameLayoutBuilder.addObject]
  split
  · next heq =>
    split at heq
    · cases heq
    · cases heq
      rfl
  · next heq =>
    split at heq
    · next hrefused =>
      cases h.symm.trans hrefused
    · cases heq

theorem addObject_refused {size alignment : ℕ} (h : validateAlignment alignment stackAlignment ≠ .ok ()) :
    FrameCall.apply builder (.addObject size alignment) = builder := by
  rw [FrameCall.apply, FrameLayoutBuilder.addObject]
  split
  · next heq =>
    split at heq
    · cases heq
    · next haccepted => exact absurd haccepted h
  · rfl

theorem Holds.addObject (h : builder.Holds calls) (size alignment : ℕ) :
    (FrameCall.apply builder (.addObject size alignment)).Holds (calls ++ [.addObject size alignment]) := by
  have houtgoing (other : ℕ) :
      FrameCall.requireOutgoingArgumentSize other ∈ calls ++ [.addObject size alignment] ↔
        FrameCall.requireOutgoingArgumentSize other ∈ calls := mem_concat_of_ne fun h => (by cases h)
  have hregisters (register : Register) :
      FrameCall.preserve register ∈ calls ++ [.addObject size alignment] ↔
        FrameCall.preserve register ∈ calls := mem_concat_of_ne fun h => (by cases h)
  by_cases hvalid : validateAlignment alignment stackAlignment = .ok ()
  · have hrequest : requestedObject (.addObject size alignment) = some (size, alignment) :=
      if_pos (validateAlignment_eq_ok.mp hvalid)
    rw [addObject_accepted hvalid]
    refine ⟨fun other hother => h.outgoing_le other ((houtgoing other).mp hother), ?_, ?_, fun register => ?_⟩
    · rw [houtgoing]
      exact h.outgoing_mem
    · rw [List.map_append, h.objects, List.filterMap_append, List.filterMap_cons_some hrequest,
        List.filterMap_nil]
      rfl
    · rw [hregisters]
      exact h.registers register
  · have hrequest : requestedObject (.addObject size alignment) = none :=
      if_neg (mt validateAlignment_eq_ok.mpr hvalid)
    rw [addObject_refused hvalid]
    refine ⟨fun other hother => h.outgoing_le other ((houtgoing other).mp hother), ?_, ?_, fun register => ?_⟩
    · rw [houtgoing]
      exact h.outgoing_mem
    · rw [filterMap_concat_of_none hrequest]
      exact h.objects
    · rw [hregisters]
      exact h.registers register

theorem Holds.preserve (h : builder.Holds calls) (register : Register) :
    (FrameCall.apply builder (.preserve register)).Holds (calls ++ [.preserve register]) := by
  have houtgoing (other : ℕ) :
      FrameCall.requireOutgoingArgumentSize other ∈ calls ++ [.preserve register] ↔
        FrameCall.requireOutgoingArgumentSize other ∈ calls := mem_concat_of_ne fun h => (by cases h)
  have hobjects : (calls ++ [FrameCall.preserve register]).filterMap requestedObject =
      calls.filterMap requestedObject := filterMap_concat_of_none rfl
  have hmember (other : Register) : FrameCall.preserve other ∈ calls ++ [.preserve register] ↔
      other = register ∨ .preserve other ∈ calls := by
    rw [List.mem_append, List.mem_singleton, FrameCall.preserve.injEq, or_comm]
  have hregisters (other : Register) : other ∈ (FrameCall.apply builder (.preserve register)).savedRegisters ↔
      .preserve other ∈ calls ++ [.preserve register] ∧ Abi.isCalleeSaved other = true := by
    rw [hmember, FrameCall.apply, FrameLayoutBuilder.preserve]
    by_cases hsaved : Abi.isCalleeSaved register = true
    · rw [if_pos hsaved]
      change other ∈ insert register builder.savedRegisters ↔ _
      rw [Finset.mem_insert, h.registers other]
      constructor
      · rintro (rfl | ⟨hold, hother⟩)
        · exact ⟨Or.inl rfl, hsaved⟩
        · exact ⟨Or.inr hold, hother⟩
      · rintro ⟨rfl | hold, hother⟩
        · exact Or.inl rfl
        · exact Or.inr ⟨hold, hother⟩
    · rw [if_neg hsaved]
      change other ∈ builder.savedRegisters ↔ _
      rw [h.registers other]
      constructor
      · exact fun ⟨hold, hother⟩ => ⟨Or.inr hold, hother⟩
      · rintro ⟨rfl | hold, hother⟩
        · exact absurd hother hsaved
        · exact ⟨hold, hother⟩
  have hrest : (FrameCall.apply builder (.preserve register)).outgoingArgumentSize =
        builder.outgoingArgumentSize ∧
      (FrameCall.apply builder (.preserve register)).objects = builder.objects := by
    rw [FrameCall.apply, FrameLayoutBuilder.preserve]
    by_cases hsaved : Abi.isCalleeSaved register = true
    · rw [if_pos hsaved]
      exact ⟨rfl, rfl⟩
    · rw [if_neg hsaved]
      exact ⟨rfl, rfl⟩
  refine ⟨fun other hother => ?_, ?_, ?_, hregisters⟩
  · rw [hrest.1]
    exact h.outgoing_le other ((houtgoing other).mp hother)
  · rw [hrest.1, houtgoing]
    exact h.outgoing_mem
  · rw [hrest.2, hobjects]
    exact h.objects

theorem Holds.run (calls : List FrameCall) : (FrameLayoutBuilder.run calls).Holds calls := by
  induction calls using List.reverseRecOn with
  | nil => exact holds_new
  | append_singleton calls call ih =>
    rw [FrameLayoutBuilder.run, List.foldl_append]
    cases call with
    | requireOutgoingArgumentSize size => exact Holds.requireOutgoingArgumentSize ih size
    | addObject size alignment => exact Holds.addObject ih size alignment
    | preserve register => exact Holds.preserve ih register

/-- A layout in which everything that the calls have requested stands aligned and apart. -/
structure FrameLayout.Sound (layout : FrameLayout) (calls : List FrameCall) : Prop where
  size_dvd : stackAlignment ∣ layout.size
  size_le : layout.size ≤ u64Max
  outgoing_le : ∀ size, .requireOutgoingArgumentSize size ∈ calls → stackAlignment ∣ size →
    size ≤ layout.outgoingArgumentSize
  outgoing_mem : layout.outgoingArgumentSize = 0 ∨
    .requireOutgoingArgumentSize layout.outgoingArgumentSize ∈ calls
  objects : layout.objects.map (fun object => (object.size, object.alignment)) =
    calls.filterMap requestedObject
  objects_aligned : ∀ object ∈ layout.objects, object.alignment ∣ object.offset
  registers_nodup : (layout.savedRegisters.map SavedRegister.register).Nodup
  registers : ∀ register, register ∈ layout.savedRegisters.map SavedRegister.register ↔
    .preserve register ∈ calls ∧ Abi.isCalleeSaved register = true
  registers_aligned : ∀ saved ∈ layout.savedRegisters, registerSize ∣ saved.offset
  record_aligned : stackAlignment ∣ layout.frameRecordOffset
  record_top : layout.frameRecordOffset + frameRecordSize = layout.size
  packed : Packed (⟨0, layout.outgoingArgumentSize⟩ :: layout.objects.map ObjectRange.region ++
    layout.savedRegisters.map SavedRegister.region ++ [⟨layout.frameRecordOffset, frameRecordSize⟩]) 0 layout.size

theorem nodup_orderedRegisters (builder : FrameLayoutBuilder) : builder.orderedRegisters.Nodup := by
  refine List.Nodup.filter _ (List.Nodup.map ?_ (List.nodup_finRange 31))
  exact fun first second h => congrArg Register.number h

theorem mem_orderedRegisters {register : Register} :
    register ∈ builder.orderedRegisters ↔ register ∈ builder.savedRegisters := by
  rw [FrameLayoutBuilder.orderedRegisters, List.mem_filter, decide_eq_true_iff]
  exact ⟨And.right, fun h => ⟨List.mem_map.mpr ⟨register.number, List.mem_finRange _, rfl⟩, h⟩⟩

theorem mapError_eq_ok {α : Type} {result : Except ObjectLayoutError α} {value : α} :
    mapError result = .ok value ↔ result = .ok value := by
  cases result with
  | ok found => exact ⟨fun h => (by cases h; rfl), fun h => (by cases h; rfl)⟩
  | error error => exact ⟨fun h => (by cases h), fun h => (by cases h)⟩

theorem mapError_eq_error {α : Type} {result : Except ObjectLayoutError α} {error : FrameLayoutError}
    (h : mapError result = .error error) :
    ∃ found, result = .error found ∧ error = mapObjectLayoutError found := by
  cases result with
  | ok found => cases h
  | error found =>
    cases h
    exact ⟨found, rfl, rfl⟩

theorem start_valid (start : ℕ) : (ObjectSequence.new start 1 stackAlignment).Valid :=
  ⟨Nat.isPowerOfTwo_one, (by decide : 1 ≤ 16), rfl⟩

/-- The slots in the order of the registers. -/
theorem zipWith_slots {registers : List Register} {slots : List ObjectRange}
    (h : slots.map (fun range => (range.size, range.alignment)) =
      registers.map fun _ => (registerSize, registerSize)) :
    (List.zipWith (fun register (slot : ObjectRange) => (⟨register, slot.offset⟩ : SavedRegister)) registers
      slots).map SavedRegister.register = registers ∧
    (List.zipWith (fun register (slot : ObjectRange) => (⟨register, slot.offset⟩ : SavedRegister)) registers
      slots).map SavedRegister.region = slots.map ObjectRange.region ∧
    ∀ slot ∈ slots, slot.alignment = registerSize := by
  induction registers generalizing slots with
  | nil =>
    rw [List.map_nil, List.map_eq_nil_iff] at h
    subst h
    exact ⟨rfl, rfl, fun _ h => absurd h List.not_mem_nil⟩
  | cons register registers ih =>
    cases slots with
    | nil => cases h
    | cons slot slots =>
      rw [List.map_cons, List.map_cons, List.cons.injEq, Prod.mk.injEq] at h
      obtain ⟨⟨hsize, halignment⟩, hrest⟩ := h
      obtain ⟨hregisters, hregions, halignments⟩ := ih hrest
      rw [List.zipWith_cons_cons, List.map_cons, List.map_cons, List.map_cons, hregisters, hregions,
        ObjectRange.region, hsize]
      exact ⟨rfl, rfl, List.forall_mem_cons.mpr ⟨halignment, halignments⟩⟩

theorem Holds.finish_eq_ok {layout : FrameLayout} (h : builder.Holds calls)
    (hfinish : builder.finish = .ok layout) : layout.Sound calls := by
  have hstart : Packed [⟨0, builder.outgoingArgumentSize⟩] 0
      (ObjectSequence.new builder.outgoingArgumentSize 1 stackAlignment).next := by
    have hpush : Packed ([] ++ [⟨0, builder.outgoingArgumentSize⟩]) 0 (0 + builder.outgoingArgumentSize) :=
      (Packed.nil 0 0).push (Nat.le_refl 0) (Nat.le_refl 0)
    rwa [Nat.zero_add] at hpush
  rw [FrameLayoutBuilder.finish] at hfinish
  obtain ⟨⟨objects, middle⟩, hobjects, hfinish⟩ := bind_eq_ok.mp hfinish
  obtain ⟨⟨slots, last⟩, hslots, hfinish⟩ := bind_eq_ok.mp hfinish
  obtain ⟨⟨size, offset, alignment⟩, htrailer, hfinish⟩ := bind_eq_ok.mp hfinish
  cases hfinish
  obtain ⟨hrequests, haligned, hpacked, hmiddle⟩ :=
    placeEach_eq_ok (start_valid _) hstart (mapError_eq_ok.mp hobjects)
  obtain ⟨hslotRequests, hslotsAligned, hslotsPacked, hlast⟩ :=
    placeEach_eq_ok hmiddle hpacked (mapError_eq_ok.mp hslots)
  obtain ⟨htop, hbehind, hrecord, hsize, hmax⟩ := finishWithTrailer_eq_ok hlast (mapError_eq_ok.mp htrailer)
  obtain ⟨hregisters, hregions, hslotAlignment⟩ := zipWith_slots hslotRequests
  refine ⟨hsize, hmax, h.outgoing_le, h.outgoing_mem, hrequests.trans h.objects, haligned, ?_, ?_, ?_, hrecord,
    htop, ?_⟩
  · rw [hregisters]
    exact nodup_orderedRegisters builder
  · intro register
    rw [hregisters, mem_orderedRegisters, h.registers]
  · intro saved hsaved
    have hregion := List.mem_map_of_mem (f := SavedRegister.region) hsaved
    rw [hregions] at hregion
    obtain ⟨slot, hslot, hregion⟩ := List.mem_map.mp hregion
    have hoffset : slot.offset = saved.offset := congrArg Region.offset hregion
    rw [← hoffset, ← hslotAlignment slot hslot]
    exact hslotsAligned slot hslot
  · have hall : Packed (_ ++ [⟨offset, frameRecordSize⟩]) 0 (offset + frameRecordSize) :=
      hslotsPacked.push (Nat.zero_le offset) hbehind
    rw [htop] at hall
    dsimp only
    rw [hregions]
    exact hall

/-- The only way to fail is to leave the 64-bit numbers. -/
theorem finish_eq_error {error : FrameLayoutError} (hfinish : builder.finish = .error error) :
    error = .frameOverflow := by
  have hstart : Packed [] 0 (ObjectSequence.new builder.outgoingArgumentSize 1 stackAlignment).next :=
    (Packed.nil 0 0).mono (Nat.zero_le _)
  rw [FrameLayoutBuilder.finish] at hfinish
  obtain hfinish | ⟨⟨objects, middle⟩, hobjects, hfinish⟩ := bind_eq_error.mp hfinish
  · obtain ⟨found, hfound, rfl⟩ := mapError_eq_error hfinish
    rw [placeEach_eq_error (start_valid _) (fun request hrequest => ?_) hfound]
    · rfl
    · obtain ⟨accepted, -, rfl⟩ := List.mem_map.mp hrequest
      exact accepted.valid
  obtain ⟨-, -, -, hmiddle⟩ := placeEach_eq_ok (start_valid _) hstart (mapError_eq_ok.mp hobjects)
  obtain hfinish | ⟨⟨slots, last⟩, hslots, hfinish⟩ := bind_eq_error.mp hfinish
  · obtain ⟨found, hfound, rfl⟩ := mapError_eq_error hfinish
    rw [placeEach_eq_error hmiddle (fun request hrequest => ?_) hfound]
    · rfl
    · obtain ⟨-, -, rfl⟩ := List.mem_map.mp hrequest
      exact validateAlignment_eq_ok.mpr ⟨⟨3, rfl⟩, (by decide : 8 ≤ 16)⟩
  obtain ⟨-, -, -, hlast⟩ :=
    placeEach_eq_ok hmiddle ((Packed.nil 0 0).mono (Nat.zero_le _)) (mapError_eq_ok.mp hslots)
  obtain hfinish | ⟨⟨size, offset, alignment⟩, -, hfinish⟩ := bind_eq_error.mp hfinish
  · obtain ⟨found, hfound, rfl⟩ := mapError_eq_error hfinish
    rw [finishWithTrailer_eq_error hlast hfound]
    rfl
  · cases hfinish

/-- Whatever the calls were, the frame overflows or holds everything that they have requested aligned
and apart, with the frame record at its top. -/
theorem frame_layouts_sound (calls : List FrameCall) :
    (FrameLayoutBuilder.run calls).finish = .error .frameOverflow ∨
      ∃ layout, (FrameLayoutBuilder.run calls).finish = .ok layout ∧ layout.Sound calls := by
  rcases hfinish : (FrameLayoutBuilder.run calls).finish with error | layout
  · rw [finish_eq_error hfinish]
    exact Or.inl rfl
  · exact Or.inr ⟨layout, rfl, Holds.finish_eq_ok (Holds.run calls) hfinish⟩

end Layouts

end Nocter.Arm64
