import Nocter.Arm64.ParallelCopySchedule
import Nocter.Library.Traversal

/-!
# Schedules of memory copies

The same order of copies for objects on the stack. An object may be read by several
copies; it is saved with the bytes of the first of them.
-/

namespace Nocter.Arm64

inductive SelectedStackAddress where
  | frameObject (object offset : ℕ)
  | outgoing (offset : ℕ)
  | incoming (offset : ℕ)
  deriving DecidableEq

namespace MemoryParallelCopy

inductive Source where
  | address (address : SelectedStackAddress)
  | temporary
  deriving DecidableEq

structure PendingCopy where
  destination : SelectedStackAddress
  source : Source
  bytes : ℕ
  deriving DecidableEq

inductive Action where
  | save (source : SelectedStackAddress) (bytes : ℕ)
  | copy (copy : PendingCopy)
  deriving DecidableEq

def Source.object : Source → Option SelectedStackAddress
  | .address source => some source
  | .temporary => none

@[simp] theorem object_eq_some {source : Source} {address : SelectedStackAddress} :
    source.object = some address ↔ source = .address address := by
  cases source <;> simp [Source.object]

@[simp] theorem object_eq_none {source : Source} : source.object = none ↔ source = .temporary := by
  cases source <;> simp [Source.object]

structure ScheduleState where
  pending : List PendingCopy
  actions : List Action

/-- No pending copy reads the destination of the candidate. -/
def ready (pending : List PendingCopy) (candidate : PendingCopy) : Bool :=
  !pending.any fun copy => copy.source = .address candidate.destination

/-- The saved object has as many bytes as every copy of it. -/
def PendingCopy.readTemporary (source : SelectedStackAddress) (bytes : ℕ) (copy : PendingCopy) :
    Except MaterializationError PendingCopy :=
  if copy.source = .address source then
    if copy.bytes ≠ bytes then .error .invalidParallelCopy
    else .ok { copy with source := .temporary }
  else .ok copy

/-- One pass of the loop of `schedule`. -/
def schedulePass (state : ScheduleState) :
    ScheduleState ⊕ Except MaterializationError (List Action) :=
  let { pending, actions } := state
  if pending.isEmpty then .inr (.ok actions)
  else
    match pending.find? (ready pending) with
    | some copy => .inl {
        pending := pending.eraseP (ready pending)
        actions := actions ++ [.copy copy] }
    | none =>
      match pending.findSome? fun copy => copy.source.object.map fun source => (source, copy.bytes) with
      | none => .inr (.error .invalidParallelCopy)
      | some (source, bytes) =>
        match pending.mapM (PendingCopy.readTemporary source bytes) with
        | .error failure => .inr (.error failure)
        | .ok pending => .inl { pending, actions := actions ++ [.save source bytes] }

def PendingCopy.assignment (copy : PendingCopy) : Parallel.Copy SelectedStackAddress :=
  ⟨copy.destination, copy.source.object, copy.bytes⟩

def Action.assignment : Action → Parallel.Action SelectedStackAddress
  | .save source bytes => .save source bytes
  | .copy pending => .copy pending.assignment

theorem readTemporary_ok {source : SelectedStackAddress} {bytes : ℕ} {copy next : PendingCopy}
    (h : copy.readTemporary source bytes = .ok next) :
    next.assignment = copy.assignment.redirect source := by
  unfold PendingCopy.readTemporary at h
  split at h
  · next hsource =>
    split at h
    · cases h
    · cases h
      have hobject : copy.assignment.source = some source := object_eq_some.mpr hsource
      rw [Parallel.Copy.redirect, if_pos hobject]
      rfl
  · next hsource =>
    cases h
    rw [Parallel.redirect_of_ne fun hobject => hsource (object_eq_some.mp hobject)]

theorem readTemporary_total {source : SelectedStackAddress} {bytes : ℕ} {copy : PendingCopy}
    (h : copy.source = .address source → copy.bytes = bytes) :
    ∃ next, copy.readTemporary source bytes = .ok next := by
  unfold PendingCopy.readTemporary
  by_cases hsource : copy.source = .address source
  · rw [if_pos hsource, if_neg fun hne => hne (h hsource)]
    exact ⟨_, rfl⟩
  · rw [if_neg hsource]
    exact ⟨_, rfl⟩

theorem readTemporaries_ok {source : SelectedStackAddress} {bytes : ℕ}
    {pending next : List PendingCopy}
    (h : pending.mapM (PendingCopy.readTemporary source bytes) = .ok next) :
    next.map PendingCopy.assignment =
      (pending.map PendingCopy.assignment).map (Parallel.Copy.redirect source) := by
  have hcopies := mapM_ok_iff.mp h
  clear h
  induction hcopies with
  | nil => rfl
  | cons hcopy _ ih => rw [List.map_cons, List.map_cons, List.map_cons, readTemporary_ok hcopy, ih]

theorem readTemporaries_total {source : SelectedStackAddress} {bytes : ℕ}
    {pending : List PendingCopy}
    (h : ∀ copy ∈ pending, copy.source = .address source → copy.bytes = bytes) :
    ∃ next, pending.mapM (PendingCopy.readTemporary source bytes) = .ok next :=
  mapM_total fun copy hmem => readTemporary_total (h copy hmem)

/-- What a pass does. -/
inductive SchedulePass (state : ScheduleState) :
    ScheduleState ⊕ Except MaterializationError (List Action) → Prop
  | done (hempty : state.pending = []) : SchedulePass state (.inr (.ok state.actions))
  | free {before after : List PendingCopy} {copy : PendingCopy}
      (hsplit : state.pending = before ++ copy :: after) (hfree : ready state.pending copy = true) :
      SchedulePass state (.inl {
        pending := before ++ after
        actions := state.actions ++ [.copy copy] })
  | save {copy : PendingCopy} {source : SelectedStackAddress} {pending : List PendingCopy}
      (hblocked : ∀ copy ∈ state.pending, ready state.pending copy = false)
      (hmem : copy ∈ state.pending) (hsource : copy.source = .address source)
      (hpending : pending.map PendingCopy.assignment =
        (state.pending.map PendingCopy.assignment).map (Parallel.Copy.redirect source)) :
      SchedulePass state (.inl { pending, actions := state.actions ++ [.save source copy.bytes] })
  | unequal {copy other : PendingCopy} (failure : MaterializationError)
      (hmem : copy ∈ state.pending) (hother : other ∈ state.pending)
      (hsource : copy.source = other.source) (hbytes : copy.bytes ≠ other.bytes) :
      SchedulePass state (.inr (.error failure))
  | stuck (hnonempty : state.pending ≠ [])
      (hblocked : ∀ copy ∈ state.pending, ready state.pending copy = false)
      (htemporary : ∀ copy ∈ state.pending, copy.source = .temporary) :
      SchedulePass state (.inr (.error .invalidParallelCopy))

theorem schedulePass_cases (state : ScheduleState) : SchedulePass state (schedulePass state) := by
  obtain ⟨pending, actions⟩ := state
  unfold schedulePass
  dsimp only
  split
  · next hempty => exact .done (List.isEmpty_iff.mp hempty)
  next hnonempty =>
  split
  · next copy hfind =>
    obtain ⟨hfree, before, after, hsplit, hbefore⟩ := List.find?_eq_some_iff_append.mp hfind
    have herase : pending.eraseP (ready pending) = before ++ after := by
      rw [show pending.eraseP (ready pending) = (before ++ copy :: after).eraseP (ready pending) by
        rw [← hsplit], List.eraseP_append_right _ fun other hother => by
          simpa using hbefore other hother, List.eraseP_cons_of_pos hfree]
    rw [herase]
    exact .free hsplit hfree
  next hfind =>
  have hblocked : ∀ copy ∈ pending, ready pending copy = false := fun copy hmem => by
    simpa using List.find?_eq_none.mp hfind copy hmem
  split
  · next hnone =>
    refine .stuck (fun heq => hnonempty (List.isEmpty_iff.mpr heq)) hblocked fun copy hmem => ?_
    have hsource := List.findSome?_eq_none_iff.mp hnone copy hmem
    rw [Option.map_eq_none_iff] at hsource
    exact object_eq_none.mp hsource
  next source bytes hsome =>
  obtain ⟨copy, hmem, hfound⟩ := List.exists_of_findSome?_eq_some hsome
  rw [Option.map_eq_some_iff] at hfound
  obtain ⟨_, hsource, heq⟩ := hfound
  cases heq
  rw [object_eq_some] at hsource
  split
  · next failure herror =>
    by_cases hequal : ∀ other ∈ pending, other.source = .address source → other.bytes = copy.bytes
    · obtain ⟨next, hok⟩ := readTemporaries_total hequal
      rw [hok] at herror
      cases herror
    · push Not at hequal
      obtain ⟨other, hother, hshared, hbytes⟩ := hequal
      exact .unequal failure hmem hother (hsource.trans hshared.symm) hbytes.symm
  · next next hok => exact .save hblocked hmem hsource (readTemporaries_ok hok)

/-- A pass schedules a copy or makes copies read the temporary. -/
def scheduleMeasure (state : ScheduleState) : ℕ :=
  state.pending.length +
    (state.pending.map PendingCopy.assignment).countP fun copy => copy.source.isSome

theorem schedulePass_decreases : Loop.Decreases schedulePass scheduleMeasure := by
  intro state next hpass
  have hcases := schedulePass_cases state
  rw [hpass] at hcases
  unfold scheduleMeasure
  cases hcases with
  | free hsplit hfree =>
    rw [hsplit]
    simp only [List.length_append, List.length_cons, List.map_append, List.map_cons,
      List.countP_append, List.countP_cons]
    omega
  | @save copy source pending hblocked hmem hsource hpending =>
    have hlength := congrArg List.length hpending
    rw [List.length_map, List.length_map, List.length_map] at hlength
    rw [hlength, hpending, List.countP_map, Nat.add_lt_add_iff_left]
    have hsome : copy.assignment.source = some source := object_eq_some.mpr hsource
    refine countP_lt_countP (fun other _ hother => ?_) (List.mem_map_of_mem hmem) ?_ ?_
    · rw [Function.comp_apply, Parallel.Copy.redirect] at hother
      split at hother
      · cases hother
      · exact hother
    · rw [hsome]
      rfl
    · rw [Function.comp_apply, Parallel.redirect_of_eq hsome]
      rfl

def schedule (pending : List PendingCopy) : Except MaterializationError (List Action) :=
  Loop.iterate schedulePass scheduleMeasure schedulePass_decreases
    ⟨pending.filter fun copy => copy.source ≠ .address copy.destination, []⟩

section Execution

variable {V : Type} (base : Option SelectedStackAddress → ℕ)

/-- The byte of an object, where each object has a first byte. The temporary is the object
without an address. -/
def byteAddress (object : Option SelectedStackAddress) (index : ℕ) : ℕ := base object + index

/-- The bytes of an object are copied one after the other. -/
def copyBytes (destination source : Option SelectedStackAddress) : ℕ → (ℕ → V) → ℕ → V
  | 0, memory => memory
  | bytes + 1, memory =>
    let memory := copyBytes destination source bytes memory
    Function.update memory (byteAddress base destination bytes)
      (memory (byteAddress base source bytes))

def Action.execute (action : Action) (memory : ℕ → V) : ℕ → V :=
  match action with
  | .save source bytes => copyBytes base none (some source) bytes memory
  | .copy pending =>
    copyBytes base (some pending.destination) pending.source.object pending.bytes memory

def execute (actions : List Action) (memory : ℕ → V) : ℕ → V :=
  actions.foldl (fun memory action => action.execute base memory) memory

/-- A copy touches as many bytes of its destination, its source and the temporary. -/
def Touched (copies : List PendingCopy) (object : Option SelectedStackAddress) (index : ℕ) : Prop :=
  ∃ copy ∈ copies, index < copy.bytes ∧
    (object = some copy.destination ∨ object = copy.source.object ∨ object = none)

/-- Distinct objects have no byte in common. -/
def DisjointObjects (copies : List PendingCopy) : Prop :=
  ∀ object index other otherIndex, Touched copies object index → Touched copies other otherIndex →
    object ≠ other → byteAddress base object index ≠ byteAddress base other otherIndex

/-- Copies of a shared source have equal sizes. -/
def EqualSizes (copies : List PendingCopy) : Prop :=
  ∀ copy ∈ copies, ∀ other ∈ copies, copy.source = other.source → copy.bytes = other.bytes

/-- Executed in order, the actions perform all copies at once. Whatever a copy reads, the
temporary included, still holds what the source of its destination held at the beginning. -/
structure Performs (copies : List PendingCopy) (actions : List Action) (memory : ℕ → V) :
    Prop where
  assigned : ∀ copy ∈ copies, ∀ index < copy.bytes,
    execute base actions memory (byteAddress base (some copy.destination) index) =
      memory (byteAddress base copy.source.object index)
  unchanged : ∀ address, (∀ copy ∈ copies, ∀ index < copy.bytes,
      address ≠ byteAddress base (some copy.destination) index ∧
        address ≠ byteAddress base none index) →
    execute base actions memory address = memory address
  intact : ∀ (before after : List Action) (read : PendingCopy),
    actions = before ++ .copy read :: after →
    ∃ copy ∈ copies, copy.destination = read.destination ∧ copy.bytes = read.bytes ∧
      ∀ index < read.bytes,
        execute base before memory (byteAddress base read.source.object index) =
          memory (byteAddress base copy.source.object index)

end Execution

section Correctness

theorem ready_iff {pending : List PendingCopy} {candidate : PendingCopy} :
    ready pending candidate = true ↔
      Parallel.Unread (pending.map PendingCopy.assignment) candidate.destination := by
  simp [ready, Parallel.Unread, PendingCopy.assignment]

theorem blocked_assignments {pending : List PendingCopy}
    (h : ∀ copy ∈ pending, ready pending copy = false) :
    ∀ copy ∈ pending.map PendingCopy.assignment,
      ¬ Parallel.Unread (pending.map PendingCopy.assignment) copy.destination := by
  intro copy hmem
  rw [List.mem_map] at hmem
  obtain ⟨original, horiginal, rfl⟩ := hmem
  intro hunread
  have hready := ready_iff.mpr hunread
  rw [h original horiginal] at hready
  cases hready

theorem schedulePass_steps {state next : ScheduleState} (hpass : schedulePass state = .inl next) :
    ∃ action, Parallel.Step (state.pending.map PendingCopy.assignment) action
        (next.pending.map PendingCopy.assignment) ∧
      next.actions.map Action.assignment = state.actions.map Action.assignment ++ [action] := by
  have hcases := schedulePass_cases state
  rw [hpass] at hcases
  cases hcases with
  | @free before after copy hsplit hfree =>
    rw [ready_iff, hsplit, List.map_append, List.map_cons] at hfree
    refine ⟨.copy copy.assignment, ?_, by rw [List.map_append]; rfl⟩
    rw [hsplit, List.map_append, List.map_cons, List.map_append]
    exact .free _ _ _ hfree
  | @save copy source pending hblocked hmem hsource hpending =>
    refine ⟨.save source copy.bytes, ?_, by rw [List.map_append]; rfl⟩
    rw [hpending]
    exact .save copy.assignment (blocked_assignments hblocked) (List.mem_map_of_mem hmem)
      (object_eq_some.mpr hsource)

/-- With distinct destinations and equal sizes the loop only ends when nothing is pending. -/
theorem schedulePass_finishes {state : ScheduleState}
    {result : Except MaterializationError (List Action)}
    (hdistinct : Parallel.Distinct (state.pending.map PendingCopy.assignment))
    (huniform : Parallel.Uniform (state.pending.map PendingCopy.assignment))
    (hpass : schedulePass state = .inr result) :
    state.pending = [] ∧ result = .ok state.actions := by
  have hcases := schedulePass_cases state
  rw [hpass] at hcases
  cases hcases with
  | done hempty => exact ⟨hempty, rfl⟩
  | unequal failure hmem hother hsource hbytes =>
    exact absurd (huniform _ (List.mem_map_of_mem hmem) _ (List.mem_map_of_mem hother)
      (congrArg Source.object hsource)) hbytes
  | stuck hnonempty hblocked htemporary =>
    obtain ⟨copy, hmem⟩ := List.exists_mem_of_ne_nil _ hnonempty
    have hnone := Parallel.no_temporary hdistinct (blocked_assignments hblocked) copy.assignment
      (List.mem_map_of_mem hmem)
    exact absurd (object_eq_none.mpr (htemporary copy hmem)) hnone

/-- The loop schedules what is pending. -/
theorem schedule_schedules {pending : List PendingCopy}
    (hdistinct : Parallel.Distinct (pending.map PendingCopy.assignment))
    (huniform : Parallel.Uniform (pending.map PendingCopy.assignment)) :
    ∃ actions, Loop.iterate schedulePass scheduleMeasure schedulePass_decreases ⟨pending, []⟩ =
        .ok actions ∧
      Parallel.Schedules (pending.map PendingCopy.assignment) (actions.map Action.assignment) := by
  have hfinishes : ∀ (state : ScheduleState) result,
      Parallel.Distinct (state.pending.map PendingCopy.assignment) →
      Parallel.Uniform (state.pending.map PendingCopy.assignment) →
      schedulePass state = .inr result → state.pending.map PendingCopy.assignment = [] ∧
        ∃ actions, result = .ok actions ∧
          actions.map Action.assignment = state.actions.map Action.assignment := by
    intro state result hdistinct huniform hpass
    obtain ⟨hempty, hresult⟩ := schedulePass_finishes hdistinct huniform hpass
    exact ⟨by rw [hempty, List.map_nil], _, hresult, rfl⟩
  obtain ⟨more, hmore, actions, hresult, hactions⟩ := Parallel.Schedules.of_loop
    (fun state : ScheduleState => state.pending.map PendingCopy.assignment)
    (fun state => state.actions.map Action.assignment)
    (fun result more => ∃ actions, result = .ok actions ∧ actions.map Action.assignment = more)
    (fun state next _ _ hpass => schedulePass_steps hpass) hfinishes
    (Loop.iterate_returns schedulePass scheduleMeasure schedulePass_decreases ⟨pending, []⟩)
    hdistinct huniform
  rw [List.map_nil, List.nil_append] at hactions
  rw [← hactions] at hmore
  exact ⟨actions, hresult, hmore⟩

theorem copyBytes_eq {V : Type} (base : Option SelectedStackAddress → ℕ)
    (destination source : Option SelectedStackAddress) (bytes : ℕ) (memory : ℕ → V) :
    copyBytes base destination source bytes memory =
      Parallel.copyCells (byteAddress base) destination source bytes memory := by
  induction bytes with
  | zero => rfl
  | succ bytes ih => rw [copyBytes, Parallel.copyCells, ih]

theorem execute_eq {V : Type} (base : Option SelectedStackAddress → ℕ) (actions : List Action)
    (memory : ℕ → V) : execute base actions memory =
      Parallel.execute (byteAddress base) (actions.map Action.assignment) memory := by
  unfold execute Parallel.execute
  rw [List.foldl_map]
  congr 1
  funext memory action
  cases action with
  | save source bytes => exact copyBytes_eq base _ _ _ _
  | copy copy => exact copyBytes_eq base _ _ _ _

theorem changes_assignments (copies : List PendingCopy) :
    (copies.filter fun copy => copy.source ≠ .address copy.destination).map
      PendingCopy.assignment = Parallel.changes (copies.map PendingCopy.assignment) := by
  rw [Parallel.changes, List.filter_map]
  congr 1
  refine List.filter_congr fun copy _ => ?_
  simp [PendingCopy.assignment]

theorem distinct_assignments {copies : List PendingCopy} :
    Parallel.Distinct (copies.map PendingCopy.assignment) ↔
      (copies.map PendingCopy.destination).Nodup := by
  rw [Parallel.Distinct, List.map_map]
  rfl

theorem object_injective : Function.Injective Source.object := by
  intro source other h
  cases source <;> cases other <;> simp_all [Source.object]

theorem uniform_assignments {copies : List PendingCopy} (h : EqualSizes copies) :
    Parallel.Uniform (copies.map PendingCopy.assignment) := by
  intro copy hmem other hother hsource
  rw [List.mem_map] at hmem hother
  obtain ⟨original, horiginal, rfl⟩ := hmem
  obtain ⟨original', horiginal', rfl⟩ := hother
  exact h original horiginal original' horiginal' (object_injective hsource)

theorem inUse_assignments {copies : List PendingCopy} {object : Option SelectedStackAddress}
    {index : ℕ} : Parallel.InUse (copies.map PendingCopy.assignment) object index ↔
      Touched copies object index := by
  constructor
  · rintro ⟨copy, hmem, hrest⟩
    rw [List.mem_map] at hmem
    obtain ⟨original, horiginal, rfl⟩ := hmem
    exact ⟨original, horiginal, hrest⟩
  · rintro ⟨copy, hmem, hrest⟩
    exact ⟨copy.assignment, List.mem_map_of_mem hmem, hrest⟩

theorem separate_assignments {base : Option SelectedStackAddress → ℕ} {copies : List PendingCopy}
    (h : DisjointObjects base copies) :
    Parallel.Separate (byteAddress base) (copies.map PendingCopy.assignment) := by
  intro object index other otherIndex huse hother heq
  have hsame : object = other := by
    by_contra hne
    exact h _ _ _ _ (inUse_assignments.mp huse) (inUse_assignments.mp hother) hne heq
  subst hsame
  unfold byteAddress at heq
  exact ⟨rfl, by omega⟩

/-- The schedule of copies of disjoint objects performs them all at once. -/
theorem schedule_assigns {copies : List PendingCopy}
    (hdistinct : (copies.map PendingCopy.destination).Nodup) (hequal : EqualSizes copies) :
    ∃ actions, schedule copies = .ok actions ∧
      ∀ (V : Type) (base : Option SelectedStackAddress → ℕ), DisjointObjects base copies →
        ∀ memory : ℕ → V, Performs base copies actions memory := by
  have hall := distinct_assignments.mpr hdistinct
  have huniform := uniform_assignments hequal
  have hkept : Parallel.Distinct ((copies.filter fun copy =>
      copy.source ≠ .address copy.destination).map PendingCopy.assignment) := by
    rw [changes_assignments]
    exact (List.filter_sublist.map _).nodup hall
  have hkeptUniform : Parallel.Uniform ((copies.filter fun copy =>
      copy.source ≠ .address copy.destination).map PendingCopy.assignment) :=
    uniform_assignments fun copy hmem other hother =>
      hequal copy (List.mem_of_mem_filter hmem) other (List.mem_of_mem_filter hother)
  obtain ⟨actions, hresult, hschedules⟩ := schedule_schedules hkept hkeptUniform
  rw [changes_assignments] at hschedules
  refine ⟨actions, hresult, fun V base hdisjoint memory => ?_⟩
  have hseparate := separate_assignments hdisjoint
  obtain ⟨hassigned, hframe⟩ := hschedules.assigns hall huniform hseparate memory
  refine ⟨fun copy hmem => ?_, fun address haddress => ?_, fun before after read hsplit => ?_⟩
  · rw [execute_eq]
    exact hassigned copy.assignment (List.mem_map_of_mem hmem)
  · rw [execute_eq]
    refine hframe address fun copy hmem index hindex => ?_
    rw [List.mem_map] at hmem
    obtain ⟨original, horiginal, rfl⟩ := hmem
    exact haddress original horiginal index hindex
  · have hsplit' : actions.map Action.assignment =
        before.map Action.assignment ++ .copy read.assignment :: after.map Action.assignment := by
      rw [hsplit, List.map_append, List.map_cons]
      rfl
    obtain ⟨root, hroot, hdestination, hextent, hread⟩ :=
      hschedules.reads hall huniform hseparate memory hsplit'
    rw [List.mem_map] at hroot
    obtain ⟨copy, hmem, rfl⟩ := hroot
    rw [execute_eq]
    exact ⟨copy, hmem, hdestination, hextent, hread⟩

end Correctness

end MemoryParallelCopy

/-- Both schedulers schedule all copies, and the schedule performs them at once. -/
theorem schedulers_perform_copies {L M : Type} [DecidableEq L]
    (copies : List (ParallelCopy L M)) (memoryCopies : List MemoryParallelCopy.PendingCopy)
    (base : Option SelectedStackAddress → ℕ)
    (hdistinct : (copies.map ParallelCopy.destination).Nodup)
    (hmemory : (memoryCopies.map MemoryParallelCopy.PendingCopy.destination).Nodup)
    (hequal : MemoryParallelCopy.EqualSizes memoryCopies)
    (hdisjoint : MemoryParallelCopy.DisjointObjects base memoryCopies) :
    (∃ actions, schedule copies = .ok actions ∧
      ∀ (V : Type) (memory : Option L → V), Performs copies actions memory) ∧
    ∃ actions, MemoryParallelCopy.schedule memoryCopies = .ok actions ∧
      ∀ (V : Type) (memory : ℕ → V),
        MemoryParallelCopy.Performs base memoryCopies actions memory := by
  obtain ⟨actions, hresult, hperforms⟩ := MemoryParallelCopy.schedule_assigns hmemory hequal
  exact ⟨schedule_assigns hdistinct, actions, hresult,
    fun V memory => hperforms V base hdisjoint memory⟩

/-- Two objects of three bytes and a temporary behind them. -/
def exchangeBase : Option SelectedStackAddress → ℕ
  | some (.incoming offset) => offset
  | _ => 16

/-- Two locations and two objects are exchanged. -/
theorem schedulers_perform_exchange :
    (∃ actions, schedule [⟨1, .location 2, ()⟩, ⟨2, .location 1, ()⟩] = .ok actions ∧
      ∀ (V : Type) (memory : Option ℕ → V),
        Performs [⟨1, .location 2, ()⟩, ⟨2, .location 1, ()⟩] actions memory) ∧
    ∃ actions, MemoryParallelCopy.schedule
        [⟨.incoming 0, .address (.incoming 8), 3⟩, ⟨.incoming 8, .address (.incoming 0), 3⟩] =
          .ok actions ∧
      ∀ (V : Type) (memory : ℕ → V), MemoryParallelCopy.Performs exchangeBase
        [⟨.incoming 0, .address (.incoming 8), 3⟩, ⟨.incoming 8, .address (.incoming 0), 3⟩]
        actions memory := by
  refine schedulers_perform_copies _ _ exchangeBase (by decide) (by decide)
    (by unfold MemoryParallelCopy.EqualSizes; decide) ?_
  intro object index other otherIndex htouched hother hne heq
  simp only [MemoryParallelCopy.Touched, List.mem_cons, List.not_mem_nil, or_false,
    exists_eq_or_imp, exists_eq_left, MemoryParallelCopy.Source.object] at htouched hother
  rcases htouched with ⟨_, rfl | rfl | rfl⟩ | ⟨_, rfl | rfl | rfl⟩ <;>
    rcases hother with ⟨_, rfl | rfl | rfl⟩ | ⟨_, rfl | rfl | rfl⟩ <;>
    first
    | exact hne rfl
    | (simp only [MemoryParallelCopy.byteAddress, exchangeBase] at heq; omega)

end Nocter.Arm64
