import Nocter.Library.ParallelAssignment

/-!
# Schedules of register copies

Simultaneous assignments of locations of any kind. A copy is scheduled when no
pending copy reads its destination; if there is none, a source is saved in the
temporary and its readers read the temporary from then on.
-/

namespace Nocter.Arm64

inductive MaterializationError where
  | invalidParallelCopy
  deriving DecidableEq

inductive ParallelSource (L : Type) where
  | location (location : L)
  | temporary
  deriving DecidableEq

structure ParallelCopy (L M : Type) where
  destination : L
  source : ParallelSource L
  metadata : M

inductive ParallelAction (L M : Type) where
  | save (source : L)
  | copy (destination : L) (source : ParallelSource L) (metadata : M)

variable {L M V : Type}

def ParallelSource.saved : ParallelSource L → Option L
  | .location source => some source
  | .temporary => none

@[simp] theorem saved_eq_some {source : ParallelSource L} {location : L} :
    source.saved = some location ↔ source = .location location := by
  cases source <;> simp [ParallelSource.saved]

@[simp] theorem saved_eq_none {source : ParallelSource L} :
    source.saved = none ↔ source = .temporary := by
  cases source <;> simp [ParallelSource.saved]

structure ScheduleState (L M : Type) where
  pending : List (ParallelCopy L M)
  actions : List (ParallelAction L M)

section Schedule

variable [DecidableEq L]

/-- No pending copy reads the destination of the candidate. -/
def ready (pending : List (ParallelCopy L M)) (candidate : ParallelCopy L M) : Bool :=
  !pending.any fun copy => copy.source = .location candidate.destination

def ParallelCopy.readTemporary (source : L) (copy : ParallelCopy L M) : ParallelCopy L M :=
  if copy.source = .location source then { copy with source := .temporary } else copy

/-- One pass of the loop of `schedule`. -/
def schedulePass (state : ScheduleState L M) :
    ScheduleState L M ⊕ Except MaterializationError (List (ParallelAction L M)) :=
  let { pending, actions } := state
  if pending.isEmpty then .inr (.ok actions)
  else
    match pending.find? (ready pending) with
    | some copy => .inl {
        pending := pending.eraseP (ready pending)
        actions := actions ++ [.copy copy.destination copy.source copy.metadata] }
    | none =>
      match pending.findSome? fun copy => copy.source.saved with
      | none => .inr (.error .invalidParallelCopy)
      | some source => .inl {
          pending := pending.map (ParallelCopy.readTemporary source)
          actions := actions ++ [.save source] }

/-- What a pass does. -/
inductive SchedulePass (state : ScheduleState L M) :
    ScheduleState L M ⊕ Except MaterializationError (List (ParallelAction L M)) → Prop
  | done (hempty : state.pending = []) : SchedulePass state (.inr (.ok state.actions))
  | free {before after : List (ParallelCopy L M)} {copy : ParallelCopy L M}
      (hsplit : state.pending = before ++ copy :: after) (hfree : ready state.pending copy = true) :
      SchedulePass state (.inl {
        pending := before ++ after
        actions := state.actions ++ [.copy copy.destination copy.source copy.metadata] })
  | save {copy : ParallelCopy L M} {source : L}
      (hblocked : ∀ copy ∈ state.pending, ready state.pending copy = false)
      (hmem : copy ∈ state.pending) (hsource : copy.source = .location source) :
      SchedulePass state (.inl {
        pending := state.pending.map (ParallelCopy.readTemporary source)
        actions := state.actions ++ [.save source] })
  | stuck (hnonempty : state.pending ≠ [])
      (hblocked : ∀ copy ∈ state.pending, ready state.pending copy = false)
      (htemporary : ∀ copy ∈ state.pending, copy.source = .temporary) :
      SchedulePass state (.inr (.error .invalidParallelCopy))

theorem schedulePass_cases (state : ScheduleState L M) : SchedulePass state (schedulePass state) := by
  obtain ⟨pending, actions⟩ := state
  unfold schedulePass
  dsimp only
  split
  · next hempty => exact .done (List.isEmpty_iff.mp hempty)
  next hnonempty =>
  split
  · next copy hfind =>
    obtain ⟨hfree, before, after, hsplit, hbefore⟩ := List.find?_eq_some_iff_append.mp hfind
    have herase : pending.eraseP (ready pending) = before ++ after := by
      rw [show pending.eraseP (ready pending) = (before ++ copy :: after).eraseP (ready pending) by
        rw [← hsplit], List.eraseP_append_right _ fun other hother => by
          simpa using hbefore other hother, List.eraseP_cons_of_pos hfree]
    rw [herase]
    exact .free hsplit hfree
  next hfind =>
  have hblocked : ∀ copy ∈ pending, ready pending copy = false := fun copy hmem => by
    simpa using List.find?_eq_none.mp hfind copy hmem
  split
  · next hnone =>
    refine .stuck (fun heq => hnonempty (List.isEmpty_iff.mpr heq)) hblocked fun copy hmem => ?_
    exact saved_eq_none.mp (List.findSome?_eq_none_iff.mp hnone copy hmem)
  · next source hsome =>
    obtain ⟨copy, hmem, hsource⟩ := List.exists_of_findSome?_eq_some hsome
    exact .save hblocked hmem (saved_eq_some.mp hsource)

/-- A pass schedules a copy or makes copies read the temporary. -/
def scheduleMeasure (state : ScheduleState L M) : ℕ :=
  state.pending.length + state.pending.countP fun copy => copy.source.saved.isSome

theorem schedulePass_decreases :
    Loop.Decreases (schedulePass (L := L) (M := M)) scheduleMeasure := by
  intro state next hpass
  have hcases := schedulePass_cases state
  rw [hpass] at hcases
  unfold scheduleMeasure
  cases hcases with
  | free hsplit hfree =>
    rw [hsplit]
    simp only [List.length_append, List.length_cons, List.countP_append, List.countP_cons]
    omega
  | @save copy source hblocked hmem hsource =>
    rw [List.length_map, List.countP_map, Nat.add_lt_add_iff_left]
    refine countP_lt_countP (fun other _ hother => ?_) hmem ?_ ?_
    · simp only [Function.comp_apply, ParallelCopy.readTemporary] at hother
      split at hother
      · cases hother
      · exact hother
    · simp [hsource, ParallelSource.saved]
    · simp [ParallelCopy.readTemporary, hsource, ParallelSource.saved]

def schedule (pending : List (ParallelCopy L M)) :
    Except MaterializationError (List (ParallelAction L M)) :=
  Loop.iterate schedulePass scheduleMeasure schedulePass_decreases
    ⟨pending.filter fun copy => copy.source ≠ .location copy.destination, []⟩

/-- A memory of locations; the temporary has no location. -/
def ParallelAction.execute (action : ParallelAction L M) (memory : Option L → V) : Option L → V :=
  match action with
  | .save source => Function.update memory none (memory (some source))
  | .copy destination source _ => Function.update memory (some destination) (memory source.saved)

def execute (actions : List (ParallelAction L M)) (memory : Option L → V) : Option L → V :=
  actions.foldl (fun memory action => action.execute memory) memory

/-- Executed in order, the actions perform all copies at once. Whatever a copy reads, the
temporary included, still holds what the source of its destination held at the beginning. -/
structure Performs (copies : List (ParallelCopy L M)) (actions : List (ParallelAction L M))
    (memory : Option L → V) : Prop where
  assigned : ∀ copy ∈ copies,
    execute actions memory (some copy.destination) = memory copy.source.saved
  unchanged : ∀ location, (∀ copy ∈ copies, copy.destination ≠ location) →
    execute actions memory (some location) = memory (some location)
  intact : ∀ (before after : List (ParallelAction L M)) (destination : L)
      (source : ParallelSource L) (metadata : M),
    actions = before ++ .copy destination source metadata :: after →
    ∃ copy ∈ copies, copy.destination = destination ∧
      execute before memory source.saved = memory copy.source.saved

end Schedule

def ParallelCopy.assignment (copy : ParallelCopy L M) : Parallel.Copy L :=
  ⟨copy.destination, copy.source.saved, 1⟩

def ParallelAction.assignment : ParallelAction L M → Parallel.Action L
  | .save source => .save source 1
  | .copy destination source _ => .copy ⟨destination, source.saved, 1⟩

section Correctness

variable [DecidableEq L]

theorem ready_iff {pending : List (ParallelCopy L M)} {candidate : ParallelCopy L M} :
    ready pending candidate = true ↔
      Parallel.Unread (pending.map ParallelCopy.assignment) candidate.destination := by
  simp [ready, Parallel.Unread, ParallelCopy.assignment]

theorem readTemporary_assignment (source : L) (copy : ParallelCopy L M) :
    (copy.readTemporary source).assignment = copy.assignment.redirect source := by
  unfold ParallelCopy.readTemporary Parallel.Copy.redirect ParallelCopy.assignment
  by_cases h : copy.source = .location source
  · rw [if_pos h, if_pos (saved_eq_some.mpr h)]
    rfl
  · rw [if_neg h, if_neg fun hsaved => h (saved_eq_some.mp hsaved)]

theorem blocked_assignments {pending : List (ParallelCopy L M)}
    (h : ∀ copy ∈ pending, ready pending copy = false) :
    ∀ copy ∈ pending.map ParallelCopy.assignment,
      ¬ Parallel.Unread (pending.map ParallelCopy.assignment) copy.destination := by
  intro copy hmem
  rw [List.mem_map] at hmem
  obtain ⟨original, horiginal, rfl⟩ := hmem
  intro hunread
  have hready := ready_iff.mpr hunread
  rw [h original horiginal] at hready
  cases hready

theorem schedulePass_steps {state next : ScheduleState L M} (hpass : schedulePass state = .inl next) :
    ∃ action, Parallel.Step (state.pending.map ParallelCopy.assignment) action
        (next.pending.map ParallelCopy.assignment) ∧ next.actions.map ParallelAction.assignment =
        state.actions.map ParallelAction.assignment ++ [action] := by
  have hcases := schedulePass_cases state
  rw [hpass] at hcases
  cases hcases with
  | @free before after copy hsplit hfree =>
    rw [ready_iff, hsplit, List.map_append, List.map_cons] at hfree
    refine ⟨.copy copy.assignment, ?_, by rw [List.map_append]; rfl⟩
    rw [hsplit, List.map_append, List.map_cons, List.map_append]
    exact .free _ _ _ hfree
  | @save copy source hblocked hmem hsource =>
    refine ⟨.save source 1, ?_, by rw [List.map_append]; rfl⟩
    have hredirect : (state.pending.map (ParallelCopy.readTemporary source)).map
        ParallelCopy.assignment = (state.pending.map ParallelCopy.assignment).map
          (Parallel.Copy.redirect source) := by
      rw [List.map_map, List.map_map]
      exact List.map_congr_left fun other _ => readTemporary_assignment source other
    rw [hredirect]
    exact .save copy.assignment (blocked_assignments hblocked) (List.mem_map_of_mem hmem)
      (saved_eq_some.mpr hsource)

/-- With distinct destinations the loop only ends when nothing is pending. -/
theorem schedulePass_finishes {state : ScheduleState L M}
    {result : Except MaterializationError (List (ParallelAction L M))}
    (hdistinct : Parallel.Distinct (state.pending.map ParallelCopy.assignment))
    (hpass : schedulePass state = .inr result) :
    state.pending = [] ∧ result = .ok state.actions := by
  have hcases := schedulePass_cases state
  rw [hpass] at hcases
  cases hcases with
  | done hempty => exact ⟨hempty, rfl⟩
  | stuck hnonempty hblocked htemporary =>
    obtain ⟨copy, hmem⟩ := List.exists_mem_of_ne_nil _ hnonempty
    have hnone := Parallel.no_temporary hdistinct (blocked_assignments hblocked) copy.assignment
      (List.mem_map_of_mem hmem)
    exact absurd (saved_eq_none.mpr (htemporary copy hmem)) hnone

/-- The loop schedules what is pending. -/
theorem schedule_schedules {pending : List (ParallelCopy L M)}
    (hdistinct : Parallel.Distinct (pending.map ParallelCopy.assignment)) :
    ∃ actions, Loop.iterate schedulePass scheduleMeasure schedulePass_decreases ⟨pending, []⟩ =
        .ok actions ∧ Parallel.Schedules (pending.map ParallelCopy.assignment)
        (actions.map ParallelAction.assignment) := by
  have huniform : Parallel.Uniform (pending.map ParallelCopy.assignment) := by
    intro copy hmem other hother _
    rw [List.mem_map] at hmem hother
    obtain ⟨_, _, rfl⟩ := hmem
    obtain ⟨_, _, rfl⟩ := hother
    rfl
  have hfinishes : ∀ (state : ScheduleState L M) result,
      Parallel.Distinct (state.pending.map ParallelCopy.assignment) →
      Parallel.Uniform (state.pending.map ParallelCopy.assignment) →
      schedulePass state = .inr result → state.pending.map ParallelCopy.assignment = [] ∧
        ∃ actions, result = .ok actions ∧ actions.map ParallelAction.assignment =
          state.actions.map ParallelAction.assignment := by
    intro state result hdistinct _ hpass
    obtain ⟨hempty, hresult⟩ := schedulePass_finishes hdistinct hpass
    exact ⟨by rw [hempty, List.map_nil], _, hresult, rfl⟩
  obtain ⟨more, hmore, actions, hresult, hactions⟩ := Parallel.Schedules.of_loop
    (fun state : ScheduleState L M => state.pending.map ParallelCopy.assignment)
    (fun state => state.actions.map ParallelAction.assignment)
    (fun result more => ∃ actions, result = .ok actions ∧
      actions.map ParallelAction.assignment = more)
    (fun state next _ _ hpass => schedulePass_steps hpass) hfinishes
    (Loop.iterate_returns schedulePass scheduleMeasure schedulePass_decreases ⟨pending, []⟩)
    hdistinct huniform
  rw [List.map_nil, List.nil_append] at hactions
  rw [← hactions] at hmore
  exact ⟨actions, hresult, hmore⟩

/-- Each location is a single cell. -/
theorem execute_eq (actions : List (ParallelAction L M)) (memory : Option L → V) :
    execute actions memory =
      Parallel.execute (fun place _ => place) (actions.map ParallelAction.assignment) memory := by
  unfold execute Parallel.execute
  rw [List.foldl_map]
  congr 1
  funext memory action
  cases action <;> rfl

theorem changes_assignments (copies : List (ParallelCopy L M)) :
    (copies.filter fun copy => copy.source ≠ .location copy.destination).map
      ParallelCopy.assignment = Parallel.changes (copies.map ParallelCopy.assignment) := by
  rw [Parallel.changes, List.filter_map]
  congr 1
  refine List.filter_congr fun copy _ => ?_
  simp [ParallelCopy.assignment]

omit [DecidableEq L] in
theorem distinct_assignments {copies : List (ParallelCopy L M)} :
    Parallel.Distinct (copies.map ParallelCopy.assignment) ↔
      (copies.map ParallelCopy.destination).Nodup := by
  rw [Parallel.Distinct, List.map_map]
  rfl

omit [DecidableEq L] in
theorem assignment_extent {copies : List (ParallelCopy L M)} :
    ∀ copy ∈ copies.map ParallelCopy.assignment, copy.extent = 1 := by
  intro copy hmem
  rw [List.mem_map] at hmem
  obtain ⟨_, _, rfl⟩ := hmem
  rfl

omit [DecidableEq L] in
theorem separate_assignments (copies : List (ParallelCopy L M)) :
    Parallel.Separate (fun place (_ : ℕ) => place) (copies.map ParallelCopy.assignment) := by
  rintro place index other otherIndex ⟨copy, hmem, hlt, _⟩ ⟨copy', hmem', hlt', _⟩ heq
  rw [assignment_extent copy hmem] at hlt
  rw [assignment_extent copy' hmem'] at hlt'
  exact ⟨heq, by omega⟩

/-- The schedule of copies with distinct destinations performs them all at once. -/
theorem schedule_assigns {copies : List (ParallelCopy L M)}
    (hdistinct : (copies.map ParallelCopy.destination).Nodup) :
    ∃ actions, schedule copies = .ok actions ∧
      ∀ (V : Type) (memory : Option L → V), Performs copies actions memory := by
  have hall := distinct_assignments.mpr hdistinct
  have hkept : Parallel.Distinct ((copies.filter fun copy =>
      copy.source ≠ .location copy.destination).map ParallelCopy.assignment) := by
    rw [changes_assignments]
    exact (List.filter_sublist.map _).nodup hall
  obtain ⟨actions, hresult, hschedules⟩ := schedule_schedules hkept
  rw [changes_assignments] at hschedules
  have huniform : Parallel.Uniform (copies.map ParallelCopy.assignment) :=
    fun copy hmem other hother _ =>
      (assignment_extent copy hmem).trans (assignment_extent other hother).symm
  refine ⟨actions, hresult, fun V memory => ?_⟩
  obtain ⟨hassigned, hframe⟩ :=
    hschedules.assigns hall huniform (separate_assignments copies) memory
  refine ⟨fun copy hmem => ?_, fun location hlocation => ?_,
    fun before after destination source metadata hsplit => ?_⟩
  · rw [execute_eq]
    exact hassigned copy.assignment (List.mem_map_of_mem hmem) 0 Nat.one_pos
  · rw [execute_eq]
    refine hframe _ fun copy hmem index _ => ?_
    rw [List.mem_map] at hmem
    obtain ⟨original, horiginal, rfl⟩ := hmem
    exact ⟨fun heq => hlocation original horiginal (Option.some.inj heq).symm, by simp⟩
  · have hsplit' : actions.map ParallelAction.assignment =
        before.map ParallelAction.assignment ++ .copy ⟨destination, source.saved, 1⟩ ::
          after.map ParallelAction.assignment := by
      rw [hsplit, List.map_append, List.map_cons]
      rfl
    obtain ⟨root, hroot, hdestination, _, hread⟩ :=
      hschedules.reads hall huniform (separate_assignments copies) memory hsplit'
    rw [List.mem_map] at hroot
    obtain ⟨copy, hmem, rfl⟩ := hroot
    rw [execute_eq]
    exact ⟨copy, hmem, hdestination, hread 0 Nat.one_pos⟩

end Correctness

end Nocter.Arm64
