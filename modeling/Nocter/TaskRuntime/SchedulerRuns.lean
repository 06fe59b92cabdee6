import Nocter.TaskRuntime.SchedulerInvariant

/-!
# Delivery of reactor events

An event batch is a list of registrations in any order and with any repetitions.
Accepting it wakes every task that waits on a member exactly once and touches no
other task, because the first member of a wait set removes the whole set.
-/

namespace Nocter.TaskRuntime

open SlotTable Function

variable {ρ ε : Type}

namespace Scheduler

variable {s s' s'' : Scheduler (ρ × List RegistrationId)} {t : TaskId}

/-- The tasks in `woken` became runnable and were queued in that order. -/
structure Delivers (s s' : Scheduler (ρ × List RegistrationId)) (woken : List TaskId) : Prop where
  advances : Advances s s'
  lookup : ∀ t, s'.tasks.lookup t = if t ∈ woken then some .runnable else s.tasks.lookup t
  runnable : s'.runnable = s.runnable ++ woken

theorem Consistent.delivers_nil (h : Consistent s) : Delivers s s [] :=
  ⟨h.advances, fun t => by simp, by simp⟩

theorem Delivers.trans {woken woken' : List TaskId} (h : Delivers s s' woken)
    (h' : Delivers s' s'' woken') : Delivers s s'' (woken ++ woken') := by
  refine ⟨h.advances.trans h'.advances, fun t => ?_, ?_⟩
  · rw [h'.lookup t, h.lookup t]
    by_cases ht : t ∈ woken <;> by_cases ht' : t ∈ woken' <;> simp [ht, ht']
  · rw [h'.runnable, h.runnable, List.append_assoc]

theorem Delivers.waitSet {woken : List TaskId} (h : Delivers s s' woken) (t : TaskId) :
    s'.waitSet t = if t ∈ woken then [] else s.waitSet t := by
  simp only [Scheduler.waitSet, h.lookup t]
  split_ifs <;> rfl

theorem lookup_of_mem_waitSet {r : RegistrationId} (h : r ∈ s.waitSet t) :
    s.tasks.lookup t = some (.waiting (s.waitSet t)) := by
  cases hl : s.tasks.lookup t with
  | none => simp [waitSet, hl] at h
  | some old => cases old <;> simp_all [waitSet, TaskSlotState.waitSet]

variable (R : Reactor ρ ε)

theorem acceptReady_named (h : Consistent s) {r : RegistrationId} (hr : r ∈ s.waitSet t) :
    ∃ s', s.acceptReady R.recording (r, t) = (.ok (), s') ∧ Delivers s s' [t] := by
  have hl := lookup_of_mem_waitSet hr
  have hd := removeRegistrations_detaches R (s.waitSet t) h.agree (List.Perm.refl _)
  set s₁ := s.removeRegistrations R.recording (s.waitSet t) with hs₁
  have hl₁ : s₁.tasks.lookup t = some (.waiting (s.waitSet t)) := hd.tasks ▸ hl
  have htr := transitionState_eq (ε := ε) (n := .runnable) hl₁
  have hqueue : t ∉ s.runnable := h.not_queued hl (by simp) (by simp)
  have ha : s.acceptReady R.recording (r, t) =
      (.ok (), { s₁ with
        tasks := s₁.tasks.store t (some .runnable), runnable := s₁.runnable ++ [t] }) := by
    simp only [acceptReady, hl, if_pos hr, ← hs₁]
    rw [show TaskState.waiting = (TaskSlotState.waiting (s.waitSet t)).visible from rfl, htr]
  refine ⟨_, ha, ?_, fun t' => ?_, ?_⟩
  · refine h.store_enqueue hl hqueue ?_ hd.agree hd.evolves ?_
    · rw [hd.tasks]
    · rw [hd.runnable]
  · simp [hd.tasks, store_lookup hl]
  · rw [hd.runnable]

theorem acceptReady_unnamed {r : RegistrationId} (hr : r ∉ s.waitSet t) :
    s.acceptReady R.recording (r, t) = (.ok (), s) := by
  unfold acceptReady
  cases hl : s.tasks.lookup t with
  | none => rfl
  | some old =>
    cases old with
    | waiting registrations =>
      have hnot : r ∉ registrations := by
        simpa [waitSet, hl, TaskSlotState.waitSet] using hr
      simp [hnot]
    | _ => rfl

/-- A batch wakes the tasks whose wait sets it names, each of them once. -/
theorem acceptAll_delivers (members : List (RegistrationId × TaskId)) (h : Consistent s) :
    ∃ s' woken, s.acceptAll R.recording members = (.ok (), s') ∧ Delivers s s' woken ∧
      woken.Nodup ∧ ∀ t, t ∈ woken ↔ ∃ r ∈ s.waitSet t, (r, t) ∈ members := by
  induction members generalizing s with
  | nil => exact ⟨s, [], rfl, h.delivers_nil, List.nodup_nil, by simp⟩
  | cons member rest ih =>
    obtain ⟨r, t⟩ := member
    by_cases hr : r ∈ s.waitSet t
    · obtain ⟨s₁, ha, hd⟩ := acceptReady_named R h hr
      obtain ⟨s₂, woken, hrest, hd', hnd, hmem⟩ := ih hd.advances.consistent
      have hcleared : t ∉ woken := by
        rw [hmem, hd.waitSet]
        simp
      refine ⟨s₂, t :: woken, ?_, hd.trans hd', List.nodup_cons.mpr ⟨hcleared, hnd⟩,
        fun t' => ?_⟩
      · simp only [acceptAll, ha, hrest]
      · rw [List.mem_cons, hmem, hd.waitSet]
        by_cases ht : t' = t
        · subst ht
          simp only [true_or, true_iff]
          exact ⟨r, hr, by simp⟩
        · simp [ht]
    · obtain ⟨s₂, woken, hrest, hd', hnd, hmem⟩ := ih h
      refine ⟨s₂, woken, ?_, hd', hnd, fun t' => ?_⟩
      · simp only [acceptAll, acceptReady_unnamed R hr, hrest]
      · rw [hmem]
        constructor
        · rintro ⟨r', hr', hin⟩
          exact ⟨r', hr', List.mem_cons_of_mem _ hin⟩
        · rintro ⟨r', hr', hin⟩
          rcases List.mem_cons.mp hin with he | hin
          · obtain ⟨rfl, rfl⟩ := Prod.mk.inj he
            exact absurd hr' hr
          · exact ⟨r', hr', hin⟩

/-- The batch is resolved through the live registrations only. -/
theorem mem_ready_iff (h : Consistent s) {events : List RegistrationId} {r : RegistrationId} :
    (r, t) ∈ s.ready events ↔ r ∈ events ∧ r ∈ s.waitSet t := by
  rw [h.agree.mem_holds_iff]
  simp only [ready, List.mem_mergeSort, List.mem_filterMap, Option.map_eq_some_iff,
    Prod.mk.injEq]
  constructor
  · rintro ⟨r', hin, active, hl, rfl, rfl⟩
    exact ⟨hin, active.interest, hl⟩
  · rintro ⟨hin, interest, hl⟩
    exact ⟨r, hin, ⟨t, interest⟩, hl, rfl, rfl⟩

theorem acceptEvents_delivers (h : Consistent s) (events : List RegistrationId) :
    ∃ s' woken, s.acceptEvents R.recording events = (.ok (), s') ∧ Delivers s s' woken ∧
      woken.Nodup ∧ ∀ t, t ∈ woken ↔ ∃ r ∈ events, r ∈ s.waitSet t := by
  obtain ⟨s', woken, he, hd, hnd, hmem⟩ := acceptAll_delivers R (s.ready events) h
  refine ⟨s', woken, he, hd, hnd, fun t => ?_⟩
  rw [hmem]
  constructor
  · rintro ⟨r, hr, hin⟩
    exact ⟨r, ((mem_ready_iff h).mp hin).1, hr⟩
  · rintro ⟨r, hin, hr⟩
    exact ⟨r, hr, (mem_ready_iff h).mpr ⟨hin, hr⟩⟩

/-- Taking a task skips the entries that are no longer runnable, and only those. -/
theorem takeRunnableFrom_cases {σ : Type} (s : Scheduler σ) (queue : List TaskId) :
    ((∀ t ∈ queue, s.tasks.lookup t ≠ some .runnable) ∧
        s.takeRunnableFrom (ε := ε) queue = (.ok none, { s with runnable := [] })) ∨
      ∃ skipped t rest, queue = skipped ++ t :: rest ∧
        (∀ t' ∈ skipped, s.tasks.lookup t' ≠ some .runnable) ∧
        s.tasks.lookup t = some .runnable ∧ s.takeRunnableFrom (ε := ε) queue =
          (.ok (some t), { s with tasks := s.tasks.store t (some .running), runnable := rest }) := by
  induction queue with
  | nil => exact Or.inl ⟨by simp, rfl⟩
  | cons t rest ih =>
    by_cases hr : s.state t = some .runnable
    · obtain ⟨old, hl, hv⟩ := state_eq_some.mp hr
      obtain rfl := visible_eq_runnable hv
      have htr := transitionState_eq (ε := ε) (n := .running)
        (s := ({ s with runnable := rest } : Scheduler σ)) hl
      refine Or.inr ⟨[], t, rest, rfl, by simp, hl, ?_⟩
      simp only [takeRunnableFrom, if_pos hr]
      rw [show TaskState.runnable = TaskSlotState.visible .runnable from rfl, htr]
    · have hne : s.tasks.lookup t ≠ some .runnable := fun hl =>
        hr (state_eq_some.mpr ⟨_, hl, rfl⟩)
      have he : s.takeRunnableFrom (ε := ε) (t :: rest) = s.takeRunnableFrom rest := by
        simp only [takeRunnableFrom, if_neg hr]
      rw [he]
      rcases ih with ⟨hall, hnone⟩ | ⟨skipped, t', rest', rfl, hall, hl, hsome⟩
      · exact Or.inl ⟨by simpa using ⟨hne, hall⟩, hnone⟩
      · exact Or.inr ⟨t :: skipped, t', rest', rfl, by simpa using ⟨hne, hall⟩, hl, hsome⟩

theorem takeRunnable_eq_none (h : Consistent s) {s' : Scheduler (ρ × List RegistrationId)}
    (ht : s.takeRunnable (ε := ε) = (.ok none, s')) :
    s' = { s with runnable := [] } ∧ ∀ t, s.tasks.lookup t ≠ some .runnable := by
  rcases takeRunnableFrom_cases (ε := ε) s s.runnable with
    ⟨hall, hnone⟩ | ⟨_, _, _, _, _, _, hsome⟩
  · rw [takeRunnable, hnone] at ht
    refine ⟨(Prod.mk.inj ht).2.symm, fun t hl => ?_⟩
    exact hall t (h.queued_of_runnable t hl) hl
  · rw [takeRunnable, hsome] at ht
    cases ht

theorem recording_wait {r : ρ × List RegistrationId} {outcome : Except ε (List RegistrationId)}
    {after : ρ} (h : R.wait r.1 = (outcome, after)) :
    R.recording.wait r = (outcome, (after, r.2)) := by
  simp [Reactor.recording, h]

theorem waited_advances (h : Consistent s) (reactor : ρ) :
    Advances s { s with reactor := (reactor, s.reactor.2) } :=
  ⟨⟨h.tasks, h.agree, h.runnable_nodup, h.queued_of_runnable, h.of_queued⟩, Evolves.refl _,
    Evolves.refl _⟩

/-- Accepting a batch and resuming from the queue is the tail of a progress step. -/
theorem nextProgress_of_batch {s₁ s₂ : Scheduler (ρ × List RegistrationId)}
    {events : List RegistrationId} {after : ρ × List RegistrationId}
    (htake : s.takeRunnable (ε := ε) = (.ok none, s₁)) (hactive : s₁.hasActiveRegistration = true)
    (hwait : R.recording.wait s₁.reactor = (.ok events, after))
    (ha : acceptEvents R.recording { s₁ with reactor := after } events = (.ok (), s₂)) :
    (s.nextProgress R.recording).2 = (s₂.takeRunnable (ε := ε)).2 := by
  simp only [nextProgress, htake, hactive, if_true, hwait, ha]
  rcases s₂.takeRunnable (ε := ε) with ⟨_ | _ | _, s₃⟩ <;> rfl

theorem nextProgress_advances (h : Consistent s) : Advances s (s.nextProgress R.recording).2 := by
  have ht := takeRunnable_advances (ε := ε) h
  rcases htake : s.takeRunnable (ε := ε) with ⟨_ | _ | t, s₁⟩
  · simpa [nextProgress, htake] using ht
  · rw [htake] at ht
    by_cases hactive : s₁.hasActiveRegistration
    · rcases hwait : R.wait s₁.reactor.1 with ⟨_ | events, after⟩
      · have hw := ht.trans (waited_advances ht.consistent after)
        simpa [nextProgress, htake, hactive, recording_wait R hwait] using hw
      · have hw := waited_advances ht.consistent after
        obtain ⟨s₂, woken, ha, hd, _⟩ := acceptEvents_delivers R hw.consistent events
        have hlast := takeRunnable_advances (ε := ε) hd.advances.consistent
        rw [nextProgress_of_batch R htake hactive (recording_wait R hwait) ha]
        exact ((ht.trans hw).trans hd.advances).trans hlast
    · simpa [nextProgress, htake, hactive] using ht
  · simpa [nextProgress, htake] using ht

/-- One operation keeps the scheduler consistent and revives no identity. -/
theorem apply_advances (h : Consistent s) (op : Operation) :
    Advances s (s.apply R.recording op) := by
  cases op with
  | spawn => exact spawn_advances h
  | nextProgress => exact nextProgress_advances R h
  | yieldNow task => exact yieldNow_advances h task
  | suspend task interests => exact suspend_advances R h task interests
  | complete task => exact complete_advances h task
  | cancel task => exact cancel_advances R h task
  | finishCancellation task => exact finishCancellation_advances h task
  | consumeCompleted task => exact consumeCompleted_advances h task
  | beginShutdown => exact beginShutdown_advances R h

end Scheduler

end Nocter.TaskRuntime

/-!
# Runs of the scheduler

The scheduler is driven by any sequence of operations over any reactor. Every state
of such a run is consistent, and identities released at one moment of a run resolve
to nothing at every later moment.
-/

namespace Nocter.TaskRuntime

open SlotTable Function TransitionSystem

variable {ρ ε : Type}

namespace Scheduler

variable (R : Reactor ρ ε)

/-- All runs of a new scheduler over one reactor. -/
def runs (reactor : ρ) : TransitionSystem (Scheduler (ρ × List RegistrationId)) :=
  ofStep (new (reactor, [])) (Scheduler.apply R.recording)

variable {R} {reactor : ρ} {s s' s'' : Scheduler (ρ × List RegistrationId)} {t : TaskId}

theorem consistent_next (h : Consistent s) (hn : (runs R reactor).next s s') : Consistent s' := by
  obtain ⟨op, rfl⟩ := hn
  exact (apply_advances R h op).consistent

theorem consistent_of_reachable (h : (runs R reactor).Reachable s) : Consistent s := by
  refine h.invariant ?_ (fun s s' hs hn => consistent_next hs hn)
  rintro s rfl
  exact consistent_new reactor

/-- A run never revives a released task or registration. -/
theorem evolves_of_steps (h : (runs R reactor).Reachable s) (hr : (runs R reactor).Steps s s') :
    s.tasks.Evolves s'.tasks ∧ s.registrations.Evolves s'.registrations := by
  have hs := consistent_of_reachable h
  refine hr.refines (P := Consistent)
    (R := fun s s' => s.tasks.Evolves s'.tasks ∧ s.registrations.Evolves s'.registrations)
    (fun s t hs hn => consistent_next hs hn) (fun s => ⟨Evolves.refl _, Evolves.refl _⟩)
    (fun s t u h h' => ⟨h.1.trans h'.1, h.2.trans h'.2⟩) ?_ hs
  rintro s t hs ⟨op, rfl⟩
  exact ⟨(apply_advances R hs op).tasks, (apply_advances R hs op).registrations⟩

theorem live_iff_mem_waitSet (h : Consistent s) (r : RegistrationId) :
    s.registrations.Live r ↔ ∃ t, r ∈ s.waitSet t := by
  constructor
  · intro hl
    obtain ⟨active, ha⟩ := live_iff.mp hl
    exact ⟨active.task, h.agree.owned r active ha⟩
  · rintro ⟨t, hr⟩
    obtain ⟨interest, hl⟩ := h.agree.held t r hr
    exact live_iff.mpr ⟨_, hl⟩

theorem mem_waitSet_iff (r : RegistrationId) :
    r ∈ s.waitSet t ↔ ∃ registrations, s.tasks.lookup t = some (.waiting registrations) ∧
      r ∈ registrations := by
  constructor
  · intro hr
    exact ⟨s.waitSet t, lookup_of_mem_waitSet hr, hr⟩
  · rintro ⟨registrations, hl, hr⟩
    simpa [waitSet, hl, TaskSlotState.waitSet] using hr

/-- The tables of one moment: the live registrations are the members of the waiting
tasks' lists and the ones the reactor holds, and the queue has one entry for each
runnable task and otherwise only entries that resume nothing. -/
structure Exact (ε : Type) (s : Scheduler (ρ × List RegistrationId)) : Prop where
  registered : ∀ r, s.registrations.Live r ↔ ∃ t registrations,
    s.tasks.lookup t = some (.waiting registrations) ∧ r ∈ registrations
  told : ∀ r, s.reactor.2.count r = if s.registrations.Live r then 1 else 0
  runnable : ∀ t, s.state t = some .runnable → s.runnable.count t = 1
  unqueued : ∀ t, (s.state t = some .running ∨ s.state t = some .waiting ∨
    s.state t = some .completed) → s.runnable.count t = 0
  cancelling : ∀ t kind, s.state t = some (.cancelling kind) → s.runnable.count t ≤ 1
  resumed : ∀ t s', s.takeRunnable (ε := ε) = (.ok (some t), s') →
    s.state t = some .runnable

theorem Consistent.exact (h : Consistent s) : Exact ε s where
  registered r := by
    rw [live_iff_mem_waitSet h]
    simp only [mem_waitSet_iff]
  told r := by
    by_cases hr : s.registrations.Live r
    · rw [if_pos hr]
      exact List.count_eq_one_of_mem h.agree.told_nodup ((h.agree.mem_told r).mpr hr)
    · rw [if_neg hr]
      exact List.count_eq_zero_of_not_mem fun hm => hr ((h.agree.mem_told r).mp hm)
  runnable t ht := by
    obtain ⟨old, hl, hv⟩ := state_eq_some.mp ht
    obtain rfl := visible_eq_runnable hv
    exact List.count_eq_one_of_mem h.runnable_nodup (h.queued_of_runnable t hl)
  unqueued t ht := by
    refine List.count_eq_zero_of_not_mem fun hq => ?_
    rcases h.of_queued t hq with hl | ⟨kind, hl⟩ | hs
    · simp [state, hl, TaskSlotState.visible] at ht
    · simp [state, hl, TaskSlotState.visible] at ht
    · simp [state, hs.lookup_eq_none] at ht
  cancelling t kind _ := List.nodup_iff_count_le_one.mp h.runnable_nodup t
  resumed t s' ht := by
    rcases takeRunnableFrom_cases (ε := ε) s s.runnable with
      ⟨_, hnone⟩ | ⟨_, t', _, _, _, hl, hsome⟩
    · rw [takeRunnable, hnone] at ht
      cases ht
    · rw [takeRunnable, hsome] at ht
      obtain ⟨ht, _⟩ := Prod.mk.inj ht
      cases ht
      exact state_eq_some.mpr ⟨_, hl, rfl⟩

/-- A wait that collected a batch wakes exactly the tasks the batch names. The first
of them is resumed and the others are queued, each once. -/
structure Wakes (R : Reactor ρ ε) (s : Scheduler (ρ × List RegistrationId))
    (events : List RegistrationId) (woken : List TaskId) : Prop where
  nodup : woken.Nodup
  named : ∀ t, t ∈ woken ↔ ∃ r ∈ events, ∃ registrations,
    s.tasks.lookup t = some (.waiting registrations) ∧ r ∈ registrations
  outcome : (s.nextProgress R.recording).1 =
    .ok (woken.head?.elim SchedulerProgress.idle SchedulerProgress.resume)
  runnable : (s.nextProgress R.recording).2.runnable = woken.tail
  lookup : ∀ t, (s.nextProgress R.recording).2.tasks.lookup t =
    if woken.head? = some t then some .running
    else if t ∈ woken then some .runnable else s.tasks.lookup t

theorem takeRunnable_of_head {rest : List TaskId} (hq : s.runnable = t :: rest)
    (hl : s.tasks.lookup t = some .runnable) : s.takeRunnable (ε := ε) =
      (.ok (some t), { s with tasks := s.tasks.store t (some .running), runnable := rest }) := by
  rcases takeRunnableFrom_cases (ε := ε) s (t :: rest) with
    ⟨hall, _⟩ | ⟨skipped, t', rest', he, hall, _, hsome⟩
  · exact absurd hl (hall t (by simp))
  · cases skipped with
    | nil =>
      obtain ⟨rfl, rfl⟩ := List.cons.inj he
      rw [takeRunnable, hq, hsome]
    | cons first skipped =>
      obtain ⟨rfl, _⟩ := List.cons.inj he
      exact absurd hl (hall t (by simp))

/-- Resuming after a delivery into an empty queue takes the first woken task. -/
theorem takeRunnable_delivered {woken : List TaskId} (hd : Delivers s s' woken)
    (hq : s.runnable = []) :
    ∃ s'', s'.takeRunnable (ε := ε) = (.ok woken.head?, s'') ∧ s''.runnable = woken.tail ∧
      ∀ t, s''.tasks.lookup t = if woken.head? = some t then some .running
        else if t ∈ woken then some .runnable else s.tasks.lookup t := by
  have hrun : s'.runnable = woken := by simpa [hq] using hd.runnable
  cases woken with
  | nil =>
    refine ⟨{ s' with runnable := [] }, ?_, rfl, fun t => ?_⟩
    · rw [takeRunnable, hrun]
      rfl
    · simpa using hd.lookup t
  | cons first rest =>
    have hl : s'.tasks.lookup first = some .runnable := by simp [hd.lookup first]
    refine ⟨_, takeRunnable_of_head hrun hl, rfl, fun t => ?_⟩
    simp only [store_lookup hl, hd.lookup t, List.head?_cons, Option.some.injEq,
      eq_comm (a := first)]

theorem nextProgress_wakes (h : Consistent s) {s₁ : Scheduler (ρ × List RegistrationId)}
    (htake : s.takeRunnable (ε := ε) = (.ok none, s₁))
    (hactive : s₁.hasActiveRegistration = true) {events : List RegistrationId} {after : ρ}
    (hwait : R.wait s.reactor.1 = (.ok events, after)) :
    ∃ woken, Wakes R s events woken := by
  have hc := (takeRunnable_advances (ε := ε) h).consistent
  rw [htake] at hc
  obtain ⟨rfl, _⟩ := takeRunnable_eq_none h htake
  let s₀ : Scheduler (ρ × List RegistrationId) :=
    { s with reactor := (after, s.reactor.2), runnable := [] }
  have hc₀ : Consistent s₀ := (waited_advances hc after).consistent
  obtain ⟨s₂, woken, he, hd, hnd, hmem⟩ := acceptEvents_delivers R hc₀ events
  obtain ⟨s₃, hlast, hqueue, hlookup⟩ := takeRunnable_delivered (ε := ε) hd rfl
  have hnext : s.nextProgress R.recording =
      (.ok (woken.head?.elim SchedulerProgress.idle SchedulerProgress.resume), s₃) := by
    simp only [nextProgress, htake, hactive, if_true, recording_wait R hwait]
    rw [show ({ s with reactor := (after, s.reactor.2), runnable := [] } :
      Scheduler (ρ × List RegistrationId)) = s₀ from rfl, he]
    simp only [hlast]
    cases woken.head? <;> rfl
  refine ⟨woken, hnd, fun t => ?_, by rw [hnext], by rw [hnext]; exact hqueue, fun t => ?_⟩
  · rw [hmem]
    simp only [mem_waitSet_iff]
    rfl
  · rw [hnext]
    exact hlookup t

/-- In every reachable state the tables are exact and a collected batch wakes exactly
the tasks it names; a task or registration freed during a run never resolves again. -/
theorem scheduler_tables_exact (R : Reactor ρ ε) (reactor : ρ)
    {s : Scheduler (ρ × List RegistrationId)} (h : (runs R reactor).Reachable s) :
    Exact ε s ∧
      (∀ s₁ events after, s.takeRunnable (ε := ε) = (.ok none, s₁) →
        s₁.hasActiveRegistration = true → R.wait s.reactor.1 = (.ok events, after) →
        ∃ woken, Wakes R s events woken) ∧
      ∀ s' s'', (runs R reactor).Steps s s' → (runs R reactor).Steps s' s'' → ∀ id,
        (s.tasks.Live id → ¬ s'.tasks.Live id → s''.tasks.lookup id = none) ∧
        (s.registrations.Live id → ¬ s'.registrations.Live id →
          s''.registrations.lookup id = none) := by
  have hc := consistent_of_reachable h
  refine ⟨hc.exact, fun s₁ events after ht ha hw => nextProgress_wakes hc ht ha hw, ?_⟩
  intro s' s'' hr hr' id
  have he := evolves_of_steps h hr
  have he' := evolves_of_steps (h.steps hr) hr'
  exact ⟨he.1.freed_stays_dead he'.1, he.2.freed_stays_dead he'.2⟩

/-- A reactor that reports every registration as ready. -/
def levelReactor : Reactor (List RegistrationId) Unit where
  register r id _ := (.ok (), id :: r)
  deregister r id _ := r.erase id
  wait r := (.ok r, r)

theorem suspended_tables_exact :
    let s := [Operation.spawn, .nextProgress, .suspend ⟨0, 0⟩ [.timer 5]].foldl
      (Scheduler.apply levelReactor.recording) (new ([], []))
    s.registrations.Live ⟨0, 0⟩ ∧ Exact Unit s ∧
      ∃ woken, Wakes levelReactor s [⟨0, 0⟩] woken := by
  intro s
  have h := scheduler_tables_exact levelReactor [] (s := s) (reachable_foldl _ _ _)
  exact ⟨by decide, h.1, h.2.1 _ _ _ rfl rfl rfl⟩

/-- Cancelling a runnable task leaves its queue entry behind. -/
theorem cancelled_task_still_queued :
    ¬ ∀ s, (runs levelReactor []).Reachable s → ∀ t state, s.state t = some state →
      t ∈ s.runnable → state = .runnable := by
  intro h
  have hs := h _ (reachable_foldl _ _ [.spawn, .cancel ⟨0, 0⟩]) ⟨0, 0⟩
    (.cancelling .pendingFrame) (by decide) (by decide)
  cases hs

end Scheduler

end Nocter.TaskRuntime
