import Nocter.TaskRuntime.SchedulerRuns

/-!
# Failing operations of the scheduler

A suspension that fails after some registrations withdraws them from the reactor in
reverse order and gives their positions back. A shutdown that is refused touches
nothing.
-/

namespace Nocter.TaskRuntime

open SlotTable TransitionSystem

variable {ρ ε : Type}

/-- The reactor accepts the members one after the other. -/
inductive Accepts (R : Reactor ρ ε) :
    ρ → List (RegistrationId × ReactorInterest) → ρ → Prop
  | nil (r : ρ) : Accepts R r [] r
  | cons {r r' r'' : ρ} {id : RegistrationId} {interest : ReactorInterest}
      {rest : List (RegistrationId × ReactorInterest)}
      (accepted : R.register r id interest = (.ok (), r')) (later : Accepts R r' rest r'') :
      Accepts R r ((id, interest) :: rest) r''

/-- The reactor is told to drop the members one after the other. -/
def Reactor.deregisterAll (R : Reactor ρ ε) (r : ρ)
    (members : List (RegistrationId × ReactorInterest)) : ρ :=
  members.foldl (fun r member => R.deregister r member.1 member.2) r

/-- Why the member after the installed ones failed, and the reactor the failure left. -/
inductive Refuses (R : Reactor ρ ε) (r : ρ) (interest : ReactorInterest) :
    SchedulerError ε → ρ → Prop
  | capacity : Refuses R r interest .capacityExhausted r
  | reactor {id : RegistrationId} {error : ε} {r' : ρ}
      (refused : R.register r id interest = (.error error, r')) :
      Refuses R r interest (.reactor error) r'

namespace Scheduler

/-- What a suspension that failed at one of its interests leaves: the members before the
failing one were installed and then dropped in reverse order, and nothing else is left. -/
structure RolledBack (R : Reactor ρ ε) (s : Scheduler ρ) (interests : List ReactorInterest)
    (error : SchedulerError ε) (s' : Scheduler ρ) : Prop where
  tasks : s'.tasks = s.tasks
  runnable : s'.runnable = s.runnable
  registrations : Restores lastGeneration s.registrations s'.registrations
  reactor : ∃ (installed : List (RegistrationId × ReactorInterest)) (failing : ReactorInterest)
    (rest : List ReactorInterest) (accepted refused : ρ),
    interests = installed.map Prod.snd ++ failing :: rest ∧
    Accepts R s.reactor installed accepted ∧ Refuses R accepted failing error refused ∧
    s'.reactor = R.deregisterAll refused installed.reverse

variable (R : Reactor ρ ε) {s s' : Scheduler ρ} {task : TaskId} {error : SchedulerError ε}

theorem removeRegistrationsReverse_append (s : Scheduler ρ) (installed : List RegistrationId)
    (r : RegistrationId) : s.removeRegistrationsReverse R (installed ++ [r]) =
      (s.removeRegistration R r).removeRegistrationsReverse R installed := by
  simp [removeRegistrationsReverse, removeRegistrations]

theorem removeRegistration_of_lookup {r : RegistrationId} {active : Registration}
    (h : s.registrations.lookup r = some active) :
    s.removeRegistration R r =
      { s with
        registrations := s.registrations.release lastGeneration r
        reactor := R.deregister s.reactor r active.interest } := by
  simp [removeRegistration, registration, h, releaseRegistration]

/-- A failing installation undoes its own members before those installed earlier. -/
theorem installAll_error (interests : List ReactorInterest) (installed : List RegistrationId)
    (hw : s.registrations.WellFormed)
    (h : s.installAll R task installed interests = (.error error, s')) :
    ∃ u, RolledBack R s interests error u ∧ s' = u.removeRegistrationsReverse R installed := by
  induction interests generalizing s installed with
  | nil => simp [installAll] at h
  | cons interest rest ih =>
    unfold installAll allocateRegistration at h
    cases ha : s.registrations.allocate slotCapacity ⟨task, interest⟩ with
    | none =>
      simp only [ha, Prod.mk.injEq, Except.error.injEq] at h
      obtain ⟨rfl, rfl⟩ := h
      exact ⟨s, ⟨rfl, rfl, Restores.refl hw, [], interest, rest, s.reactor, s.reactor, rfl,
        .nil _, .capacity, rfl⟩, rfl⟩
    | some pair =>
      obtain ⟨r, registrations⟩ := pair
      have hlookup : registrations.lookup r = some ⟨task, interest⟩ := by
        rw [allocate_lookup hw ha, if_pos rfl]
      have hw' := allocate_wellFormed hw ha
      simp only [ha] at h
      cases hreg : R.register s.reactor r interest with
      | mk outcome reactor =>
        cases outcome with
        | error e =>
          simp only [hreg, Prod.mk.injEq, Except.error.injEq] at h
          obtain ⟨rfl, rfl⟩ := h
          refine ⟨({ s with reactor, registrations } : Scheduler ρ).releaseRegistration r,
            ⟨rfl, rfl, ?_, [], interest, rest, s.reactor, reactor, rfl, .nil _,
              .reactor hreg, rfl⟩, rfl⟩
          exact (Restores.refl hw').release hw (by decide) ha
        | ok _ =>
          simp only [hreg] at h
          obtain ⟨u, hu, rfl⟩ := ih (installed ++ [r]) hw' h
          obtain ⟨members, failing, rest', accepted, refused, rfl, hacc, href, hr⟩ := hu.reactor
          have hactive : u.registrations.lookup r = some ⟨task, interest⟩ := by
            rw [hu.registrations.lookup]
            exact hlookup
          refine ⟨u.removeRegistration R r, ?_, removeRegistrationsReverse_append R u installed r⟩
          rw [removeRegistration_of_lookup R hactive]
          refine ⟨hu.tasks, hu.runnable, hu.registrations.release hw (by decide) ha,
            (r, interest) :: members, failing, rest', accepted, refused, rfl,
            .cons hreg hacc, href, ?_⟩
          simp [hr, Reactor.deregisterAll]

theorem requireState_ok (h : s.requireState (ε := ε) task .running = .ok ()) :
    s.tasks.lookup task = some .running := by
  unfold requireState at h
  cases hs : s.state task with
  | none => simp [hs] at h
  | some actual =>
    simp only [hs] at h
    split_ifs at h with hactual
    obtain ⟨old, hlookup, hvisible⟩ := state_eq_some.mp hs
    rw [hlookup, visible_eq_running (hvisible.trans hactual)]

theorem removeRegistrations_tasks (registrations : List RegistrationId) :
    (s.removeRegistrations R registrations).tasks = s.tasks := by
  induction registrations generalizing s with
  | nil => rfl
  | cons r rest ih =>
    have hone : (s.removeRegistration R r).tasks = s.tasks := by
      unfold removeRegistration
      cases s.registration r <;> rfl
    exact (ih (s := s.removeRegistration R r)).trans hone

/-- A task that is neither running nor being cancelled can be cancelled, which leaves every
other task alone. -/
theorem cancel_ok {old : TaskSlotState} (hl : s.tasks.lookup task = some old)
    (hb : blocksShutdown old.visible = false) : ∃ kind s', s.cancel R task = (.ok kind, s') ∧
      ∀ other, other ≠ task → s'.tasks.lookup other = s.tasks.lookup other := by
  have hpublish : ∀ (u : Scheduler ρ) (kind : CancellationKind),
      u.tasks = s.tasks.store task none →
      ∃ s', u.publishCancellation (ε := ε) task kind = (.ok kind, s') ∧
        ∀ other, other ≠ task → s'.tasks.lookup other = s.tasks.lookup other := by
    intro u kind hu
    have hentry : (u.tasks.entry task).isSome := hu ▸ entry_store_isSome hl none
    refine ⟨{ u with tasks := s.tasks.store task (some (.cancelling kind)) }, ?_, ?_⟩
    · simp only [publishCancellation, storeState, if_pos hentry]
      rw [hu, store_store hl]
    · intro other hne
      rw [store_lookup hl, if_neg hne]
  unfold cancel takeState
  rw [hl]
  cases old with
  | runnable => exact ⟨.pendingFrame, hpublish _ _ rfl⟩
  | completed => exact ⟨.completedOutput, hpublish _ _ rfl⟩
  | waiting registrations =>
    exact ⟨.pendingFrame, hpublish _ _ (removeRegistrations_tasks R registrations)⟩
  | running => cases hb
  | cancelling kind => cases hb

theorem cancelAll_ok (tasks : List TaskId) (hnodup : tasks.Nodup)
    (h : ∀ t ∈ tasks, ∃ old, s.tasks.lookup t = some old ∧ blocksShutdown old.visible = false) :
    ∃ cancellations s', s.cancelAll R tasks = (.ok cancellations, s') := by
  induction tasks generalizing s with
  | nil => exact ⟨[], s, rfl⟩
  | cons t rest ih =>
    obtain ⟨hnew, hnodup⟩ := List.nodup_cons.mp hnodup
    obtain ⟨old, hl, hb⟩ := h t (by simp)
    obtain ⟨kind, u, hcancel, hothers⟩ := cancel_ok R hl hb
    have hrest : ∀ other ∈ rest, ∃ old, u.tasks.lookup other = some old ∧
        blocksShutdown old.visible = false := by
      intro other hother
      have hne : other ≠ t := fun he => hnew (he ▸ hother)
      rw [hothers other hne]
      exact h other (by simp [hother])
    obtain ⟨cancellations, s', hall⟩ := ih hnodup hrest
    exact ⟨⟨t, kind⟩ :: cancellations, s', by simp only [cancelAll, hcancel, hall]⟩

theorem liveTasks_nodup (s : Scheduler ρ) : s.liveTasks.Nodup := by
  have hslots : s.tasks.slots.zipIdx.Pairwise fun a b => a.2 < b.2 := by
    rw [← List.pairwise_map (f := Prod.snd) (R := (· < ·)), List.zipIdx_map_snd]
    exact List.pairwise_lt_range'
  refine (hslots.filterMap _ ?_).imp fun {a b} (hlt : a.slot < b.slot) he => ?_
  · intro a b hlt x hx y hy
    obtain ⟨_, _, rfl⟩ := Option.map_eq_some_iff.mp hx
    obtain ⟨_, _, rfl⟩ := Option.map_eq_some_iff.mp hy
    exact hlt
  · rw [he] at hlt
    exact lt_irrefl _ hlt

theorem lookup_of_mem_liveTasks (h : task ∈ s.liveTasks) :
    ∃ old, s.tasks.lookup task = some old := by
  obtain ⟨⟨slot, index⟩, hmem, hsome⟩ := List.mem_filterMap.mp h
  obtain ⟨old, hvalue, rfl⟩ := Option.map_eq_some_iff.mp hsome
  have hget := List.mem_zipIdx_iff_getElem?.mp hmem
  refine ⟨old, lookup_eq_some.mpr ?_⟩
  rw [hget, ← hvalue]

/-- Shutdown fails before it cancels anything or not at all. -/
theorem beginShutdown_error (h : s.beginShutdown R = (.error error, s')) : s' = s := by
  unfold beginShutdown at h
  split at h
  · exact (Prod.mk.inj h).2.symm
  · rename_i hnone
    have hready : ∀ t ∈ s.liveTasks, ∃ old, s.tasks.lookup t = some old ∧
        blocksShutdown old.visible = false := by
      intro t ht
      obtain ⟨old, hl⟩ := lookup_of_mem_liveTasks ht
      have hfree := List.findSome?_eq_none_iff.mp hnone t ht
      refine ⟨old, hl, ?_⟩
      simpa [state, hl] using hfree
    obtain ⟨cancellations, u, hall⟩ := cancelAll_ok R s.liveTasks (liveTasks_nodup s) hready
    rw [hall] at h
    cases h

/-- In every reachable state a failing suspension either rejects its arguments and leaves the
state alone, or it is rolled back; a failing shutdown leaves the state alone. -/
theorem failures_restore (R : Reactor ρ ε) (reactor : ρ)
    {s : Scheduler (ρ × List RegistrationId)} (h : (runs R reactor).Reachable s) :
    (∀ task interests error s', s.suspend R.recording task interests = (.error error, s') →
      if s.state task = some .running ∧ interests ≠ [] then
        s'.state task = some .running ∧ RolledBack R.recording s interests error s'
      else s' = s) ∧
    ∀ error s', s.beginShutdown R.recording = (.error error, s') → s' = s := by
  have hc := consistent_of_reachable h
  refine ⟨fun task interests error s' hs => ?_, fun error s' => beginShutdown_error R.recording⟩
  unfold suspend at hs
  cases hreq : s.requireState (ε := ε) task .running with
  | error e =>
    have hstate : ¬ s.state task = some .running := by
      intro hstate
      simp [requireState, hstate] at hreq
    rw [if_neg fun hboth => hstate hboth.1]
    simp only [hreq] at hs
    exact (Prod.mk.inj hs).2.symm
  | ok _ =>
    have hlookup := requireState_ok hreq
    have hstate : s.state task = some .running := state_eq_some.mpr ⟨_, hlookup, rfl⟩
    by_cases hempty : interests = []
    · rw [if_neg fun hboth => hboth.2 hempty]
      simp only [hreq, hempty, List.isEmpty_nil, if_true] at hs
      exact (Prod.mk.inj hs).2.symm
    · rw [if_pos ⟨hstate, hempty⟩]
      simp only [hreq, List.isEmpty_eq_false_iff.mpr hempty, Bool.false_eq_true, if_false] at hs
      cases hinstall : s.installAll R.recording task [] interests with
      | mk outcome u =>
        rw [hinstall] at hs
        cases outcome with
        | error e =>
          simp only [Prod.mk.injEq, Except.error.injEq] at hs
          obtain ⟨rfl, rfl⟩ := hs
          obtain ⟨v, hv, rfl⟩ := installAll_error R.recording interests [] hc.agree.wellFormed
            hinstall
          refine ⟨?_, hv⟩
          rw [← hstate]
          exact congrArg (fun tasks => (tasks.lookup task).map TaskSlotState.visible) hv.tasks
        | ok registrations =>
          -- the task is still running, so the last transition succeeds
          have hwait : s.waitSet task = [] := by
            simp [waitSet, hlookup, TaskSlotState.waitSet]
          have htasks := (installAll_detaches R interests [] hc.agree hwait).tasks
          rw [hinstall] at htasks
          have hrunning : u.tasks.lookup task = some .running := by
            rw [← hlookup]
            exact congrArg (·.lookup task) htasks
          have htransition := transitionState_eq (ε := ε) (n := .waiting registrations) hrunning
          simp only [show TaskState.running = TaskSlotState.running.visible from rfl,
            htransition] at hs
          cases hs

/-- A reactor that keeps at most `limit` registrations. -/
def boundedReactor (limit : ℕ) : Reactor (List RegistrationId) Unit where
  register r id _ := if r.length < limit then (.ok (), id :: r) else (.error (), r)
  deregister r id _ := r.erase id
  wait r := (.ok r, r)

theorem second_registration_rolled_back :
    let s := [Operation.spawn, .nextProgress].foldl
      (Scheduler.apply (boundedReactor 1).recording) (new ([], []))
    let s' := (s.suspend (boundedReactor 1).recording ⟨0, 0⟩ [.timer 5, .timer 6]).2
    s'.state ⟨0, 0⟩ = some .running ∧
      RolledBack (boundedReactor 1).recording s [.timer 5, .timer 6] (.reactor ()) s' := by
  intro s s'
  have h := (failures_restore (boundedReactor 1) [] (s := s) (reachable_foldl _ _ _)).1
    ⟨0, 0⟩ [.timer 5, .timer 6] (.reactor ()) s' rfl
  rw [if_pos (by decide)] at h
  exact h

/-- A rolled back registration may leave a new position on the free list. -/
theorem rollback_extends_free_list :
    ¬ ∀ s, (runs (boundedReactor 0) []).Reachable s → ∀ task interests error s',
      s.suspend (boundedReactor 0).recording task interests = (.error error, s') →
      s.state task = some .running → interests ≠ [] →
      s'.registrations.free = s.registrations.free := by
  intro h
  have hfree := h _ (reachable_foldl _ _ [.spawn, .nextProgress]) ⟨0, 0⟩ [.timer 5]
    (.reactor ()) _ rfl (by decide) (by decide)
  revert hfree
  decide

end Scheduler

end Nocter.TaskRuntime
