import Nocter.Library.TransitionSystem
import Nocter.TaskRuntime.Scheduler

/-!
# The scheduler invariant

Every operation keeps the wait sets, the registration table, the reactor and the
run queue consistent, and never revives a released identity. The queue may keep
the entry of a task cancelled while it was runnable; such an entry is skipped when
it is reached, so it never resumes anything.
-/

namespace Nocter.TaskRuntime

open SlotTable Function

variable {ρ ε : Type}

namespace Scheduler

structure Consistent (s : Scheduler (ρ × List RegistrationId)) : Prop where
  tasks : s.tasks.WellFormed
  agree : Agree s.registrations s.reactor.2 s.waitSet
  runnable_nodup : s.runnable.Nodup
  queued_of_runnable : ∀ t, s.tasks.lookup t = some .runnable → t ∈ s.runnable
  of_queued : ∀ t ∈ s.runnable, s.tasks.lookup t = some .runnable ∨
    (∃ kind, s.tasks.lookup t = some (.cancelling kind)) ∨ s.tasks.Spent t

/-- What one or more operations guarantee about the states around them. -/
structure Advances (s s' : Scheduler (ρ × List RegistrationId)) : Prop where
  consistent : Consistent s'
  tasks : s.tasks.Evolves s'.tasks
  registrations : s.registrations.Evolves s'.registrations

variable {s s' s'' : Scheduler (ρ × List RegistrationId)} {t : TaskId}
  {old b : TaskSlotState}

theorem Consistent.advances (h : Consistent s) : Advances s s :=
  ⟨h, Evolves.refl _, Evolves.refl _⟩

theorem Advances.trans (h : Advances s s') (h' : Advances s' s'') : Advances s s'' :=
  ⟨h'.consistent, h.tasks.trans h'.tasks, h.registrations.trans h'.registrations⟩

theorem consistent_new (reactor : ρ) : Consistent (Scheduler.new (reactor, [])) where
  tasks := wellFormed_empty
  agree := by
    have he : (Scheduler.new (reactor, ([] : List RegistrationId))).waitSet = fun _ => [] := by
      funext t
      simp [waitSet, Scheduler.new]
    rw [he]
    exact Agree.empty
  runnable_nodup := List.nodup_nil
  queued_of_runnable t h := by simp [Scheduler.new] at h
  of_queued t h := by simp [Scheduler.new] at h

theorem waitSet_of_store (h : s.tasks.lookup t = some old)
    (ht : s'.tasks = s.tasks.store t (some b)) : s'.waitSet = update s.waitSet t b.waitSet := by
  funext t'
  by_cases he : t' = t
  · subst he
    simp [waitSet, ht, store_lookup h]
  · simp [waitSet, ht, store_lookup h, he]

/-- A task that is not runnable and not being cancelled has no queue entry. -/
theorem Consistent.not_queued (h : Consistent s) (hl : s.tasks.lookup t = some old)
    (hr : old ≠ .runnable) (hc : ∀ kind, old ≠ .cancelling kind) : t ∉ s.runnable := by
  intro hq
  rcases h.of_queued t hq with hq | ⟨kind, hq⟩ | hq
  · rw [hl] at hq
    exact hr (Option.some.inj hq)
  · rw [hl] at hq
    exact hc kind (Option.some.inj hq)
  · rw [hq.lookup_eq_none] at hl
    cases hl

/-- One task changes its state, with the queue and the wait sets moving along. -/
theorem Consistent.store (h : Consistent s) (hl : s.tasks.lookup t = some old)
    (ht : s'.tasks = s.tasks.store t (some b))
    (ha : Agree s'.registrations s'.reactor.2 (update s.waitSet t b.waitSet))
    (he : s.registrations.Evolves s'.registrations) (hn : s'.runnable.Nodup)
    (hother : ∀ t', t' ≠ t → (t' ∈ s'.runnable ↔ t' ∈ s.runnable))
    (hself : b = .runnable → t ∈ s'.runnable)
    (hmem : t ∈ s'.runnable → b = .runnable ∨ ∃ kind, b = .cancelling kind) : Advances s s' := by
  have hlookup := store_lookup (b := b) hl
  refine ⟨⟨?_, ?_, hn, ?_, ?_⟩, ?_, he⟩
  · rw [ht]
    exact store_wellFormed h.tasks hl
  · rw [waitSet_of_store hl ht]
    exact ha
  · intro t' hr
    rw [ht, hlookup] at hr
    split_ifs at hr with heq
    · rw [heq]
      exact hself (Option.some.inj hr)
    · exact (hother t' heq).mpr (h.queued_of_runnable t' hr)
  · intro t' hq
    rw [ht, hlookup]
    by_cases heq : t' = t
    · subst heq
      rcases hmem hq with rfl | ⟨kind, rfl⟩
      · simp
      · simp
    · rw [if_neg heq]
      rcases h.of_queued t' ((hother t' heq).mp hq) with hq | hq | hq
      · exact Or.inl hq
      · exact Or.inr (Or.inl hq)
      · exact Or.inr (Or.inr ((store_evolves hl).1 t' hq))
  · rw [ht]
    exact store_evolves hl

/-- A state change of an unqueued task appends it to the queue when it becomes
runnable and leaves the queue alone when it stays unqueued. -/
theorem Consistent.store_enqueue (h : Consistent s) (hl : s.tasks.lookup t = some old)
    (hnot : t ∉ s.runnable) (ht : s'.tasks = s.tasks.store t (some .runnable))
    (ha : Agree s'.registrations s'.reactor.2 (update s.waitSet t []))
    (he : s.registrations.Evolves s'.registrations)
    (hq : s'.runnable = s.runnable ++ [t]) : Advances s s' := by
  refine h.store hl ht ha he ?_ ?_ ?_ ?_
  · rw [hq]
    exact h.runnable_nodup.append (List.nodup_singleton t) (by simpa using hnot)
  · intro t' hne
    simp [hq, hne]
  · intro _
    simp [hq]
  · intro _
    exact Or.inl rfl

theorem Consistent.store_unqueued (h : Consistent s) (hl : s.tasks.lookup t = some old)
    (hnot : t ∉ s.runnable) (hnew : b ≠ .runnable) (ht : s'.tasks = s.tasks.store t (some b))
    (ha : Agree s'.registrations s'.reactor.2 (update s.waitSet t b.waitSet))
    (he : s.registrations.Evolves s'.registrations) (hq : s'.runnable = s.runnable) :
    Advances s s' := by
  refine h.store hl ht ha he (hq ▸ h.runnable_nodup) (fun t' _ => by rw [hq])
    (fun hr => absurd hr hnew) (fun hr => absurd (hq ▸ hr) hnot)

theorem transitionState_cases {σ : Type} (s : Scheduler σ) (t : TaskId) (expected : TaskState)
    (n : TaskSlotState) :
    (∃ error, s.transitionState (ε := ε) t expected n = (.error error, s)) ∨
      ∃ old, s.tasks.lookup t = some old ∧ old.visible = expected ∧
        s.transitionState (ε := ε) t expected n =
          (.ok (), { s with tasks := s.tasks.store t (some n) }) := by
  cases hl : s.tasks.lookup t with
  | none =>
    exact Or.inl ⟨.unknownTask t, by simp [transitionState, requireState, state, hl]⟩
  | some old =>
    by_cases hv : old.visible = expected
    · refine Or.inr ⟨old, rfl, hv, ?_⟩
      simp [transitionState, requireState, state, hl, hv, storeState, entry_isSome_of_lookup hl]
    · exact Or.inl ⟨.invalidTaskState t old.visible, by
        simp [transitionState, requireState, state, hl, hv]⟩

theorem transitionState_eq {σ : Type} {s : Scheduler σ} {t : TaskId} {old n : TaskSlotState}
    (hl : s.tasks.lookup t = some old) :
    s.transitionState (ε := ε) t old.visible n =
      (.ok (), { s with tasks := s.tasks.store t (some n) }) := by
  simp [transitionState, requireState, state, hl, storeState, entry_isSome_of_lookup hl]

theorem visible_eq_running {old : TaskSlotState} (h : old.visible = .running) : old = .running := by
  cases old <;> first | rfl | cases h

theorem visible_eq_runnable {old : TaskSlotState} (h : old.visible = .runnable) :
    old = .runnable := by
  cases old <;> first | rfl | cases h

theorem state_eq_some {σ : Type} {s : Scheduler σ} {t : TaskId} {v : TaskState} :
    s.state t = some v ↔ ∃ old, s.tasks.lookup t = some old ∧ old.visible = v := by
  simp [state, Option.map_eq_some_iff]

theorem spawn_advances (h : Consistent s) : Advances s (s.spawn (ε := ε)).2 := by
  cases ha : s.tasks.allocate slotCapacity .runnable with
  | none => simpa [spawn, allocateTask, ha] using h.advances
  | some pair =>
    obtain ⟨t, tasks⟩ := pair
    have he : (s.spawn (ε := ε)).2 = { s with tasks, runnable := s.runnable ++ [t] } := by
      simp [spawn, allocateTask, ha]
    obtain ⟨hdead, hnew⟩ := allocate_fresh h.tasks ha
    have hl := allocate_lookup h.tasks ha
    have hnot : t ∉ s.runnable := by
      intro hq
      rcases h.of_queued t hq with hq | ⟨_, hq⟩ | hq
      · rw [hdead] at hq
        cases hq
      · rw [hdead] at hq
        cases hq
      · exact hnew hq
    rw [he]
    refine ⟨⟨allocate_wellFormed h.tasks ha, ?_, ?_, ?_, ?_⟩, allocate_evolves h.tasks ha,
      Evolves.refl _⟩
    · have hw : ({ s with tasks, runnable := s.runnable ++ [t] } :
          Scheduler (ρ × List RegistrationId)).waitSet = s.waitSet := by
        funext t'
        by_cases hne : t' = t
        · subst hne
          simp [waitSet, hl, hdead, TaskSlotState.waitSet]
        · simp [waitSet, hl, hne]
      rw [hw]
      exact h.agree
    · exact h.runnable_nodup.append (List.nodup_singleton t) (by simpa using hnot)
    · intro t' hr
      by_cases hne : t' = t
      · simp [hne]
      · simp only [hl, if_neg hne] at hr
        simp [h.queued_of_runnable t' hr]
    · intro t' hq
      by_cases hne : t' = t
      · subst hne
        exact Or.inl (by simp [hl])
      · have hq' : t' ∈ s.runnable := by simpa [hne] using hq
        simp only [hl, if_neg hne]
        rcases h.of_queued t' hq' with hq | hq | hq
        · exact Or.inl hq
        · exact Or.inr (Or.inl hq)
        · exact Or.inr (Or.inr ((allocate_evolves h.tasks ha).1 t' hq))

/-- Dropping a leading entry that resumes nothing keeps the queue exact. -/
theorem Consistent.drop_head {rest : List TaskId} (h : Consistent { s with runnable := t :: rest })
    (hr : s.state t ≠ some .runnable) : Consistent { s with runnable := rest } := by
  have hn := List.nodup_cons.mp h.runnable_nodup
  refine ⟨h.tasks, h.agree, hn.2, ?_, ?_⟩
  · intro t' hl
    rcases List.mem_cons.mp (h.queued_of_runnable t' hl) with rfl | hmem
    · exact absurd (state_eq_some.mpr ⟨_, hl, rfl⟩) hr
    · exact hmem
  · intro t' hmem
    exact h.of_queued t' (List.mem_cons_of_mem t hmem)

theorem takeRunnableFrom_advances (queue : List TaskId)
    (h : Consistent { s with runnable := queue }) :
    Advances { s with runnable := queue } (s.takeRunnableFrom (ε := ε) queue).2 := by
  induction queue with
  | nil => exact h.advances
  | cons t rest ih =>
    by_cases hr : s.state t = some .runnable
    · obtain ⟨old, hl, hv⟩ := state_eq_some.mp hr
      obtain rfl := visible_eq_runnable hv
      have he : (s.takeRunnableFrom (ε := ε) (t :: rest)).2 =
          { s with tasks := s.tasks.store t (some .running), runnable := rest } := by
        have := transitionState_eq (ε := ε) (n := .running)
          (s := ({ s with runnable := rest } : Scheduler (ρ × List RegistrationId))) hl
        simp only [takeRunnableFrom, if_pos hr]
        rw [show TaskState.runnable = TaskSlotState.visible .runnable from rfl, this]
      rw [he]
      have hn := List.nodup_cons.mp h.runnable_nodup
      have hw : update ({ s with runnable := t :: rest } :
          Scheduler (ρ × List RegistrationId)).waitSet t [] =
            ({ s with runnable := t :: rest } : Scheduler (ρ × List RegistrationId)).waitSet := by
        rw [update_eq_self_iff]
        simp [waitSet, hl, TaskSlotState.waitSet]
      refine h.store (t := t) (b := .running) hl rfl ?_ (Evolves.refl _) hn.2 ?_ ?_ ?_
      · simp only [TaskSlotState.waitSet]
        rw [hw]
        exact h.agree
      · intro t' hne
        simp [hne]
      · intro hne
        cases hne
      · intro hmem
        exact absurd hmem hn.1
    · have he : s.takeRunnableFrom (ε := ε) (t :: rest) = s.takeRunnableFrom rest := by
        simp only [takeRunnableFrom, if_neg hr]
      rw [he]
      have hd := h.drop_head hr
      exact (show Advances { s with runnable := t :: rest } { s with runnable := rest } from
        ⟨hd, Evolves.refl _, Evolves.refl _⟩).trans (ih hd)

theorem takeRunnable_advances (h : Consistent s) :
    Advances s (s.takeRunnable (ε := ε)).2 := takeRunnableFrom_advances s.runnable h

theorem yieldNow_advances (h : Consistent s) (t : TaskId) :
    Advances s (s.yieldNow (ε := ε) t).2 := by
  rcases transitionState_cases (ε := ε) s t .running .runnable with ⟨e, he⟩ | ⟨old, hl, hv, he⟩
  · simpa [yieldNow, he] using h.advances
  · obtain rfl := visible_eq_running hv
    have hw : update s.waitSet t [] = s.waitSet := by
      rw [update_eq_self_iff]
      simp [waitSet, hl, TaskSlotState.waitSet]
    have hs : (s.yieldNow (ε := ε) t).2 =
        { s with tasks := s.tasks.store t (some .runnable), runnable := s.runnable ++ [t] } := by
      simp [yieldNow, he]
    rw [hs]
    refine h.store_enqueue hl (h.not_queued hl (by simp) (by simp)) rfl ?_ (Evolves.refl _) rfl
    rw [hw]
    exact h.agree

theorem complete_advances (h : Consistent s) (t : TaskId) :
    Advances s (s.complete (ε := ε) t).2 := by
  rcases transitionState_cases (ε := ε) s t .running .completed with ⟨e, he⟩ | ⟨old, hl, hv, he⟩
  · simpa [complete, he] using h.advances
  · obtain rfl := visible_eq_running hv
    have hw : update s.waitSet t [] = s.waitSet := by
      rw [update_eq_self_iff]
      simp [waitSet, hl, TaskSlotState.waitSet]
    have hs : (s.complete (ε := ε) t).2 =
        { s with tasks := s.tasks.store t (some .completed) } := by
      simp [complete, he]
    rw [hs]
    refine h.store_unqueued (b := .completed) hl (h.not_queued hl (by simp) (by simp))
      (by simp) rfl ?_ (Evolves.refl _) rfl
    simp only [TaskSlotState.waitSet]
    rw [hw]
    exact h.agree

/-- A step that leaves every task as it was. -/
theorem Detaches.advances {holds : TaskId → List RegistrationId} (h : Consistent s)
    (hd : Detaches s s' holds) (hw : holds = s.waitSet) : Advances s s' := by
  have hws : s'.waitSet = s.waitSet := by
    funext t
    simp [waitSet, hd.tasks]
  refine ⟨⟨hd.tasks ▸ h.tasks, ?_, hd.runnable ▸ h.runnable_nodup, ?_, ?_⟩, ?_, hd.evolves⟩
  · rw [hws, ← hw]
    exact hd.agree
  · rw [hd.tasks, hd.runnable]
    exact h.queued_of_runnable
  · rw [hd.tasks, hd.runnable]
    exact h.of_queued
  · rw [hd.tasks]
    exact Evolves.refl _

variable (R : Reactor ρ ε)

theorem suspend_advances (h : Consistent s) (t : TaskId) (interests : List ReactorInterest) :
    Advances s (s.suspend R.recording t interests).2 := by
  cases hreq : s.requireState (ε := ε) t .running with
  | error e => simpa [suspend, hreq] using h.advances
  | ok _ =>
    by_cases hemp : interests.isEmpty
    · simpa [suspend, hreq, hemp] using h.advances
    · have hl : s.tasks.lookup t = some .running := by
        cases hl : s.tasks.lookup t with
        | none => simp [requireState, state, hl] at hreq
        | some old =>
            simp only [requireState, state, hl, Option.map_some] at hreq
            split_ifs at hreq with hv
            rw [visible_eq_running hv]
      have hempty : s.waitSet t = [] := by simp [waitSet, hl, TaskSlotState.waitSet]
      have hd := installAll_detaches R interests [] h.agree hempty
      cases hinst : s.installAll R.recording t [] interests with
      | mk outcome s₁ =>
          rw [hinst] at hd
          cases outcome with
          | error e =>
              have hs : (s.suspend R.recording t interests).2 = s₁ := by
                simp [suspend, hreq, hemp, hinst]
              rw [hs]
              exact hd.advances h (update_eq_self_iff.mpr hempty.symm)
          | ok registrations =>
              have hl₁ : s₁.tasks.lookup t = some .running := hd.tasks ▸ hl
              have htr := transitionState_eq (ε := ε) (n := .waiting registrations) hl₁
              have hs : (s.suspend R.recording t interests).2 =
                  { s₁ with tasks := s₁.tasks.store t (some (.waiting registrations)) } := by
                simp only [suspend, hreq, hemp, hinst]
                rw [show TaskState.running = TaskSlotState.visible .running from rfl, htr]
                rfl
              have htasks : s₁.tasks = s.tasks := hd.tasks
              rw [hs]
              refine h.store_unqueued (b := .waiting registrations) hl
                (h.not_queued hl (by simp) (by simp)) (by simp) ?_ hd.agree hd.evolves hd.runnable
              simp only [htasks]

/-- Publishing the cleanup of a task whose state was taken out and whose wait set
has been emptied. -/
theorem publishCancellation_advances {u : Scheduler (ρ × List RegistrationId)}
    (h : Consistent s) (hl : s.tasks.lookup t = some old)
    (ht : u.tasks = s.tasks.store t none) (hq : u.runnable = s.runnable)
    (ha : Agree u.registrations u.reactor.2 (update s.waitSet t []))
    (he : s.registrations.Evolves u.registrations) (kind : CancellationKind) :
    Advances s (u.publishCancellation (ε := ε) t kind).2 := by
  have hs : (u.publishCancellation (ε := ε) t kind).2 =
      { u with tasks := s.tasks.store t (some (.cancelling kind)) } := by
    have hentry : (u.tasks.entry t).isSome := ht ▸ entry_store_isSome hl none
    simp only [publishCancellation, storeState, if_pos hentry]
    rw [ht, store_store hl]
  rw [hs]
  refine h.store hl rfl ha he (hq ▸ h.runnable_nodup) (fun t' _ => by rw [hq]) ?_ ?_
  · intro hr
    cases hr
  · intro _
    exact Or.inr ⟨kind, rfl⟩

theorem refuseCancellation_eq (hl : s.tasks.lookup t = some old) :
    (({ s with tasks := s.tasks.store t none } :
      Scheduler (ρ × List RegistrationId)).refuseCancellation (ε := ε) t old).2 = s := by
  have hentry := entry_store_isSome hl none
  simp only [refuseCancellation, storeState, if_pos hentry]
  rw [store_store hl, store_self hl]

theorem cancel_advances (h : Consistent s) (t : TaskId) :
    Advances s (s.cancel R.recording t).2 := by
  cases hl : s.tasks.lookup t with
  | none => simpa [cancel, takeState, hl] using h.advances
  | some old =>
    have hempty : old.waitSet = [] → update s.waitSet t [] = s.waitSet := by
      intro ho
      rw [update_eq_self_iff]
      simp [waitSet, hl, ho]
    have hplain : ∀ kind, old.waitSet = [] → Advances s
        (({ s with tasks := s.tasks.store t none } :
          Scheduler (ρ × List RegistrationId)).publishCancellation (ε := ε) t kind).2 := by
      intro kind ho
      refine publishCancellation_advances
        (u := { s with tasks := s.tasks.store t none }) h hl rfl rfl ?_ (Evolves.refl _) kind
      rw [hempty ho]
      exact h.agree
    cases old with
    | runnable => simpa [cancel, takeState, hl] using hplain .pendingFrame rfl
    | completed => simpa [cancel, takeState, hl] using hplain .completedOutput rfl
    | running => simpa [cancel, takeState, hl, refuseCancellation_eq hl] using h.advances
    | cancelling kind => simpa [cancel, takeState, hl, refuseCancellation_eq hl] using h.advances
    | waiting registrations =>
        have hp : (s.waitSet t).Perm registrations := by
          simp [waitSet, hl, TaskSlotState.waitSet]
        have hd := removeRegistrations_detaches R
          (s := { s with tasks := s.tasks.store t none }) registrations h.agree hp
        have hp := publishCancellation_advances (ε := ε) h hl hd.tasks hd.runnable hd.agree
          hd.evolves .pendingFrame
        simpa [cancel, takeState, hl] using hp

/-- Retiring a task that waits for nothing and is not queued as runnable. -/
theorem releaseTask_advances (h : Consistent s) (hl : s.tasks.lookup t = some old)
    (hw : old.waitSet = []) : Advances s (s.releaseTask t) := by
  have hlookup := release_lookup (m := lastGeneration) hl
  have hev := release_evolves (m := lastGeneration) h.tasks hl
  refine ⟨⟨release_wellFormed h.tasks hl, ?_, h.runnable_nodup, ?_, ?_⟩, hev, Evolves.refl _⟩
  · have he : (s.releaseTask t).waitSet = s.waitSet := by
      funext t'
      by_cases hne : t' = t
      · subst hne
        simp [waitSet, releaseTask, hlookup, hl, hw]
      · simp [waitSet, releaseTask, hlookup, hne]
    rw [he]
    exact h.agree
  · intro t' hr
    simp only [releaseTask, hlookup] at hr
    split_ifs at hr
    exact h.queued_of_runnable t' hr
  · intro t' hq
    by_cases hne : t' = t
    · subst hne
      exact Or.inr (Or.inr (release_spent h.tasks hl))
    · simp only [releaseTask, hlookup, if_neg hne]
      rcases h.of_queued t' hq with hq | hq | hq
      · exact Or.inl hq
      · exact Or.inr (Or.inl hq)
      · exact Or.inr (Or.inr (hev.1 t' hq))

theorem finishCancellation_advances (h : Consistent s) (t : TaskId) :
    Advances s (s.finishCancellation (ε := ε) t).2 := by
  cases hl : s.tasks.lookup t with
  | none => simpa [finishCancellation, state, hl] using h.advances
  | some old =>
    cases old with
    | cancelling kind =>
      simpa [finishCancellation, state, hl, TaskSlotState.visible] using
        releaseTask_advances h hl rfl
    | _ => simpa [finishCancellation, state, hl, TaskSlotState.visible] using h.advances

theorem consumeCompleted_advances (h : Consistent s) (t : TaskId) :
    Advances s (s.consumeCompleted (ε := ε) t).2 := by
  cases hl : s.tasks.lookup t with
  | none => simpa [consumeCompleted, requireState, state, hl] using h.advances
  | some old =>
    cases old with
    | completed =>
      simpa [consumeCompleted, requireState, state, hl, TaskSlotState.visible] using
        releaseTask_advances h hl rfl
    | _ => simpa [consumeCompleted, requireState, state, hl, TaskSlotState.visible] using
      h.advances

theorem cancelAll_advances (h : Consistent s) (tasks : List TaskId) :
    Advances s (s.cancelAll R.recording tasks).2 := by
  induction tasks generalizing s with
  | nil => exact h.advances
  | cons t rest ih =>
    have hc := cancel_advances R h t
    cases hr : s.cancel R.recording t with
    | mk outcome s₁ =>
      rw [hr] at hc
      cases outcome with
      | error e => simpa [cancelAll, hr] using hc
      | ok kind =>
        have hrest := ih hc.consistent
        cases hr' : s₁.cancelAll R.recording rest with
        | mk outcome' s₂ =>
          rw [hr'] at hrest
          cases outcome' <;> simpa [cancelAll, hr, hr'] using hc.trans hrest

theorem beginShutdown_advances (h : Consistent s) : Advances s (s.beginShutdown R.recording).2 := by
  unfold beginShutdown
  split
  · exact h.advances
  · exact cancelAll_advances R h s.liveTasks

end Scheduler

end Nocter.TaskRuntime
