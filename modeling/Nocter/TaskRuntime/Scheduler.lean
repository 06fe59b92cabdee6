import Nocter.Library.SlotTable

/-!
# The single-threaded task scheduler

The scheduler owns the lifecycle and wakeup identity of every task. Tasks and
reactor registrations live in two slot tables, runnable tasks wait in one FIFO
queue, and the reactor is an arbitrary adapter: its registration and wait results
range over all behaviours of its own state.
-/

namespace Nocter.TaskRuntime

open SlotTable

abbrev TaskId := SlotId
abbrev RegistrationId := SlotId

inductive ReadinessDirection where
  | readable
  | writable
deriving DecidableEq, Repr

inductive ReactorInterest where
  | descriptor (descriptor : ℕ) (direction : ReadinessDirection)
  | timer (deadline : ℕ)
  | processExit (process : ℕ)
deriving DecidableEq, Repr

/-- Which computation-owned storage must be destroyed after cancellation. -/
inductive CancellationKind where
  | pendingFrame
  | completedOutput
deriving DecidableEq, Repr

inductive TaskState where
  | runnable
  | running
  | waiting
  | completed
  | cancelling (kind : CancellationKind)
deriving DecidableEq, Repr

inductive SchedulerProgress where
  | resume (task : TaskId)
  | idle
deriving DecidableEq, Repr

structure TaskCancellation where
  task : TaskId
  kind : CancellationKind
deriving DecidableEq, Repr

inductive SchedulerError (ε : Type) where
  | unknownTask (task : TaskId)
  | invalidTaskState (task : TaskId) (actual : TaskState)
  | emptyWaitSet (task : TaskId)
  | capacityExhausted
  | reactor (error : ε)
deriving DecidableEq, Repr

inductive TaskSlotState where
  | runnable
  | running
  | waiting (registrations : List RegistrationId)
  | completed
  | cancelling (kind : CancellationKind)
deriving DecidableEq, Repr

/-- The lifecycle state visible outside the scheduler. -/
def TaskSlotState.visible : TaskSlotState → TaskState
  | .runnable => .runnable
  | .running => .running
  | .waiting _ => .waiting
  | .completed => .completed
  | .cancelling kind => .cancelling kind

structure Registration where
  task : TaskId
  interest : ReactorInterest
deriving DecidableEq, Repr

/-- The target adapter for readiness registration and blocking event collection.
`register` and `wait` may fail; `deregister` may not. -/
structure Reactor (ρ ε : Type) where
  register : ρ → RegistrationId → ReactorInterest → Except ε Unit × ρ
  deregister : ρ → RegistrationId → ReactorInterest → ρ
  wait : ρ → Except ε (List RegistrationId) × ρ

/-- Slot positions are `u32` values. -/
def slotCapacity : ℕ := 2 ^ 32

/-- Generations are `u32` values advanced with `checked_add`. -/
def lastGeneration : ℕ := 2 ^ 32 - 1

structure Scheduler (ρ : Type) where
  reactor : ρ
  tasks : SlotTable TaskSlotState
  registrations : SlotTable Registration
  runnable : List TaskId

namespace Scheduler

variable {ρ ε : Type} (R : Reactor ρ ε)

def new (reactor : ρ) : Scheduler ρ := ⟨reactor, SlotTable.empty, SlotTable.empty, []⟩

def state (s : Scheduler ρ) (task : TaskId) : Option TaskState :=
  (s.tasks.lookup task).map TaskSlotState.visible

def registration (s : Scheduler ρ) (id : RegistrationId) : Option Registration :=
  s.registrations.lookup id

def hasActiveRegistration (s : Scheduler ρ) : Bool :=
  s.registrations.slots.any fun slot => slot.value.isSome

def allocateTask (s : Scheduler ρ) : Except (SchedulerError ε) TaskId × Scheduler ρ :=
  match s.tasks.allocate slotCapacity .runnable with
  | some (task, tasks) => (.ok task, { s with tasks })
  | none => (.error .capacityExhausted, s)

def releaseTask (s : Scheduler ρ) (task : TaskId) : Scheduler ρ :=
  { s with tasks := s.tasks.release lastGeneration task }

def allocateRegistration (s : Scheduler ρ) (task : TaskId) (interest : ReactorInterest) :
    Except (SchedulerError ε) RegistrationId × Scheduler ρ :=
  match s.registrations.allocate slotCapacity ⟨task, interest⟩ with
  | some (registration, registrations) => (.ok registration, { s with registrations })
  | none => (.error .capacityExhausted, s)

def releaseRegistration (s : Scheduler ρ) (registration : RegistrationId) : Scheduler ρ :=
  { s with registrations := s.registrations.release lastGeneration registration }

def removeRegistration (s : Scheduler ρ) (registration : RegistrationId) : Scheduler ρ :=
  match s.registration registration with
  | none => s
  | some active =>
      let released := s.releaseRegistration registration
      { released with reactor := R.deregister released.reactor registration active.interest }

def removeRegistrations (s : Scheduler ρ) (registrations : List RegistrationId) : Scheduler ρ :=
  registrations.foldl (removeRegistration R) s

def removeRegistrationsReverse (s : Scheduler ρ) (registrations : List RegistrationId) :
    Scheduler ρ :=
  s.removeRegistrations R registrations.reverse

def requireState (s : Scheduler ρ) (task : TaskId) (expected : TaskState) :
    Except (SchedulerError ε) Unit :=
  match s.state task with
  | none => .error (.unknownTask task)
  | some actual => if actual = expected then .ok () else .error (.invalidTaskState task actual)

def takeState (s : Scheduler ρ) (task : TaskId) :
    Except (SchedulerError ε) TaskSlotState × Scheduler ρ :=
  match s.tasks.lookup task with
  | none => (.error (.unknownTask task), s)
  | some state => (.ok state, { s with tasks := s.tasks.store task none })

def storeState (s : Scheduler ρ) (task : TaskId) (state : TaskSlotState) :
    Except (SchedulerError ε) Unit × Scheduler ρ :=
  if (s.tasks.entry task).isSome then
    (.ok (), { s with tasks := s.tasks.store task (some state) })
  else (.error (.unknownTask task), s)

def transitionState (s : Scheduler ρ) (task : TaskId) (expected : TaskState)
    (next : TaskSlotState) : Except (SchedulerError ε) Unit × Scheduler ρ :=
  match s.requireState task expected with
  | .error error => (.error error, s)
  | .ok () => s.storeState task next

/-- Installs one pending computation and queues it once. -/
def spawn (s : Scheduler ρ) : Except (SchedulerError ε) TaskId × Scheduler ρ :=
  match s.allocateTask with
  | (.error error, s) => (.error error, s)
  | (.ok task, s) => (.ok task, { s with runnable := s.runnable ++ [task] })

/-- Pops the queue until a task that is still runnable appears. Entries of tasks
cancelled since they were queued are dropped here and nowhere else. -/
def takeRunnableFrom (s : Scheduler ρ) :
    List TaskId → Except (SchedulerError ε) (Option TaskId) × Scheduler ρ
  | [] => (.ok none, { s with runnable := [] })
  | task :: rest =>
      if s.state task = some .runnable then
        match ({ s with runnable := rest } : Scheduler ρ).transitionState task .runnable .running with
        | (.error error, s) => (.error error, s)
        | (.ok (), s) => (.ok (some task), s)
      else s.takeRunnableFrom rest

def takeRunnable (s : Scheduler ρ) : Except (SchedulerError ε) (Option TaskId) × Scheduler ρ :=
  s.takeRunnableFrom s.runnable

/-- The derived lexicographic order on slot and generation. -/
def idLe (a b : SlotId) : Bool :=
  a.slot < b.slot || (a.slot == b.slot && a.generation ≤ b.generation)

def readyLe (a b : RegistrationId × TaskId) : Bool :=
  if a.1 = b.1 then idLe a.2 b.2 else idLe a.1 b.1

/-- The live registrations named by a batch, with their owners, in sorted order. -/
def ready (s : Scheduler ρ) (events : List RegistrationId) : List (RegistrationId × TaskId) :=
  (events.filterMap fun registration =>
    (s.registration registration).map fun active => (registration, active.task)).mergeSort readyLe

/-- Wakes the owner of one ready registration. The complete wait set is removed
first, so later members of the same batch find nothing to wake. -/
def acceptReady (s : Scheduler ρ) (member : RegistrationId × TaskId) :
    Except (SchedulerError ε) Unit × Scheduler ρ :=
  match s.tasks.lookup member.2 with
  | some (.waiting registrations) =>
      if member.1 ∈ registrations then
        match (s.removeRegistrations R registrations).transitionState member.2 .waiting .runnable with
        | (.error error, s) => (.error error, s)
        | (.ok (), s) => (.ok (), { s with runnable := s.runnable ++ [member.2] })
      else (.ok (), s)
  | _ => (.ok (), s)

def acceptAll (s : Scheduler ρ) :
    List (RegistrationId × TaskId) → Except (SchedulerError ε) Unit × Scheduler ρ
  | [] => (.ok (), s)
  | member :: rest =>
      match s.acceptReady R member with
      | (.error error, s) => (.error error, s)
      | (.ok (), s) => s.acceptAll rest

def acceptEvents (s : Scheduler ρ) (events : List RegistrationId) :
    Except (SchedulerError ε) Unit × Scheduler ρ :=
  s.acceptAll R (s.ready events)

/-- Blocks in the reactor only when no queued task is runnable. -/
def nextProgress (s : Scheduler ρ) : Except (SchedulerError ε) SchedulerProgress × Scheduler ρ :=
  match s.takeRunnable with
  | (.error error, s) => (.error error, s)
  | (.ok (some task), s) => (.ok (.resume task), s)
  | (.ok none, s) =>
      if s.hasActiveRegistration then
        match R.wait s.reactor with
        | (.error error, reactor) => (.error (.reactor error), { s with reactor })
        | (.ok events, reactor) =>
            match ({ s with reactor } : Scheduler ρ).acceptEvents R events with
            | (.error error, s) => (.error error, s)
            | (.ok (), s) =>
                match s.takeRunnable with
                | (.error error, s) => (.error error, s)
                | (.ok (some task), s) => (.ok (.resume task), s)
                | (.ok none, s) => (.ok .idle, s)
      else (.ok .idle, s)

def yieldNow (s : Scheduler ρ) (task : TaskId) : Except (SchedulerError ε) Unit × Scheduler ρ :=
  match s.transitionState task .running .runnable with
  | (.error error, s) => (.error error, s)
  | (.ok (), s) => (.ok (), { s with runnable := s.runnable ++ [task] })

/-- Registers the remaining interests one after the other; a failure removes every
member installed so far. -/
def installAll (s : Scheduler ρ) (task : TaskId) (installed : List RegistrationId) :
    List ReactorInterest → Except (SchedulerError ε) (List RegistrationId) × Scheduler ρ
  | [] => (.ok installed, s)
  | interest :: rest =>
      match s.allocateRegistration task interest with
      | (.error error, s) => (.error error, s.removeRegistrationsReverse R installed)
      | (.ok registration, s) =>
          match R.register s.reactor registration interest with
          | (.error error, reactor) =>
              (.error (.reactor error),
                (({ s with reactor } : Scheduler ρ).releaseRegistration
                  registration).removeRegistrationsReverse R installed)
          | (.ok (), reactor) =>
              ({ s with reactor } : Scheduler ρ).installAll task (installed ++ [registration]) rest

def suspend (s : Scheduler ρ) (task : TaskId) (interests : List ReactorInterest) :
    Except (SchedulerError ε) (List RegistrationId) × Scheduler ρ :=
  match s.requireState task .running with
  | .error error => (.error error, s)
  | .ok () =>
      if interests.isEmpty then (.error (.emptyWaitSet task), s)
      else
        match s.installAll R task [] interests with
        | (.error error, s) => (.error error, s)
        | (.ok registrations, s) =>
            match s.transitionState task .running (.waiting registrations) with
            | (.error error, s) => (.error error, s)
            | (.ok (), s) => (.ok registrations, s)

def complete (s : Scheduler ρ) (task : TaskId) : Except (SchedulerError ε) Unit × Scheduler ρ :=
  s.transitionState task .running .completed

/-- Publishes the cleanup obligation of a cancelled task. -/
def publishCancellation (s : Scheduler ρ) (task : TaskId) (kind : CancellationKind) :
    Except (SchedulerError ε) CancellationKind × Scheduler ρ :=
  match s.storeState task (.cancelling kind) with
  | (.error error, s) => (.error error, s)
  | (.ok (), s) => (.ok kind, s)

/-- Puts back the state of a task that cannot be cancelled. -/
def refuseCancellation (s : Scheduler ρ) (task : TaskId) (state : TaskSlotState) :
    Except (SchedulerError ε) CancellationKind × Scheduler ρ :=
  match s.storeState task state with
  | (.error error, s) => (.error error, s)
  | (.ok (), s) => (.error (.invalidTaskState task state.visible), s)

/-- Detaches every wakeup of a task before its cleanup obligation is published. -/
def cancel (s : Scheduler ρ) (task : TaskId) :
    Except (SchedulerError ε) CancellationKind × Scheduler ρ :=
  match s.takeState task with
  | (.error error, s) => (.error error, s)
  | (.ok state, s) =>
      match state with
      | .runnable => s.publishCancellation task .pendingFrame
      | .waiting registrations =>
          (s.removeRegistrations R registrations).publishCancellation task .pendingFrame
      | .completed => s.publishCancellation task .completedOutput
      | .running => s.refuseCancellation task .running
      | .cancelling kind => s.refuseCancellation task (.cancelling kind)

def finishCancellation (s : Scheduler ρ) (task : TaskId) :
    Except (SchedulerError ε) Unit × Scheduler ρ :=
  match s.state task with
  | none => (.error (.unknownTask task), s)
  | some (.cancelling _) => (.ok (), s.releaseTask task)
  | some actual => (.error (.invalidTaskState task actual), s)

def consumeCompleted (s : Scheduler ρ) (task : TaskId) :
    Except (SchedulerError ε) Unit × Scheduler ρ :=
  match s.requireState task .completed with
  | .error error => (.error error, s)
  | .ok () => (.ok (), s.releaseTask task)

/-- The identities of all slots that hold a task. -/
def liveTasks (s : Scheduler ρ) : List TaskId :=
  s.tasks.slots.zipIdx.filterMap fun entry =>
    entry.1.value.map fun _ => ⟨entry.2, entry.1.generation⟩

def blocksShutdown : TaskState → Bool
  | .running => true
  | .cancelling _ => true
  | _ => false

def cancelAll (s : Scheduler ρ) :
    List TaskId → Except (SchedulerError ε) (List TaskCancellation) × Scheduler ρ
  | [] => (.ok [], s)
  | task :: rest =>
      match s.cancel R task with
      | (.error error, s) => (.error error, s)
      | (.ok kind, s) =>
          match s.cancelAll rest with
          | (.error error, s) => (.error error, s)
          | (.ok cancellations, s) => (.ok (⟨task, kind⟩ :: cancellations), s)

/-- Cancels every task, unless one is running or already being cancelled. -/
def beginShutdown (s : Scheduler ρ) :
    Except (SchedulerError ε) (List TaskCancellation) × Scheduler ρ :=
  match s.liveTasks.findSome? fun task =>
      (s.state task).bind fun state => if blocksShutdown state then some (task, state) else none with
  | some (task, actual) => (.error (.invalidTaskState task actual), s)
  | none => s.cancelAll R s.liveTasks

end Scheduler

/-- The operations of the scheduler with their caller-supplied arguments. -/
inductive Operation where
  | spawn
  | nextProgress
  | yieldNow (task : TaskId)
  | suspend (task : TaskId) (interests : List ReactorInterest)
  | complete (task : TaskId)
  | cancel (task : TaskId)
  | finishCancellation (task : TaskId)
  | consumeCompleted (task : TaskId)
  | beginShutdown
deriving DecidableEq, Repr

/-- The state one operation leaves, whatever it returns. -/
def Scheduler.apply {ρ ε : Type} (R : Reactor ρ ε) (s : Scheduler ρ) : Operation → Scheduler ρ
  | .spawn => (s.spawn (ε := ε)).2
  | .nextProgress => (s.nextProgress R).2
  | .yieldNow task => (s.yieldNow (ε := ε) task).2
  | .suspend task interests => (s.suspend R task interests).2
  | .complete task => (s.complete (ε := ε) task).2
  | .cancel task => (s.cancel R task).2
  | .finishCancellation task => (s.finishCancellation (ε := ε) task).2
  | .consumeCompleted task => (s.consumeCompleted (ε := ε) task).2
  | .beginShutdown => (s.beginShutdown R).2

end Nocter.TaskRuntime

/-!
# Wait sets and the reactor's view of them

The reactor is observed through a recording adapter that remembers which
registrations it was told to install and not yet to remove. An allocation of wait
sets to tasks agrees with the registration table and with that record; installing
or removing one registration moves all three together.
-/

namespace Nocter.TaskRuntime

open SlotTable Function

variable {ρ ε : Type}

/-- The reactor together with the registrations it accepted and was not yet told
to remove. A rejected registration is not retained by the adapter. -/
def Reactor.recording (R : Reactor ρ ε) : Reactor (ρ × List RegistrationId) ε where
  register r id interest :=
    match R.register r.1 id interest with
    | (.ok (), r') => (.ok (), (r', id :: r.2))
    | (.error error, r') => (.error error, (r', r.2))
  deregister r id interest := (R.deregister r.1 id interest, r.2.erase id)
  wait r := ((R.wait r.1).1, ((R.wait r.1).2, r.2))

def TaskSlotState.waitSet : TaskSlotState → List RegistrationId
  | .waiting registrations => registrations
  | _ => []

/-- The registrations a task is suspended on; none unless it is waiting. -/
def Scheduler.waitSet (s : Scheduler ρ) (task : TaskId) : List RegistrationId :=
  (s.tasks.lookup task).elim [] TaskSlotState.waitSet

/-- The live registrations are partitioned into the wait sets and are exactly the
ones the reactor holds. -/
structure Agree (registrations : SlotTable Registration) (told : List RegistrationId)
    (holds : TaskId → List RegistrationId) : Prop where
  wellFormed : registrations.WellFormed
  owned : ∀ r active, registrations.lookup r = some active → r ∈ holds active.task
  held : ∀ t, ∀ r ∈ holds t, ∃ interest, registrations.lookup r = some ⟨t, interest⟩
  holds_nodup : ∀ t, (holds t).Nodup
  mem_told : ∀ r, r ∈ told ↔ registrations.Live r
  told_nodup : told.Nodup

namespace Agree

variable {registrations registrations' : SlotTable Registration} {told : List RegistrationId}
  {holds : TaskId → List RegistrationId} {task : TaskId} {r : RegistrationId}
  {interest : ReactorInterest}

theorem empty : Agree SlotTable.empty [] (fun _ => []) where
  wellFormed := wellFormed_empty
  owned r active h := by simp at h
  held t r h := by simp at h
  holds_nodup t := List.nodup_nil
  mem_told r := by simp [Live]
  told_nodup := List.nodup_nil

theorem mem_holds_iff (h : Agree registrations told holds) :
    r ∈ holds task ↔ ∃ interest, registrations.lookup r = some ⟨task, interest⟩ :=
  ⟨h.held task r, fun ⟨_, hi⟩ => h.owned r _ hi⟩

theorem install (h : Agree registrations told holds)
    (ha : registrations.allocate slotCapacity ⟨task, interest⟩ = some (r, registrations')) :
    Agree registrations' (r :: told) (update holds task (holds task ++ [r])) := by
  have hl := allocate_lookup h.wellFormed ha
  obtain ⟨hfresh, _⟩ := allocate_fresh h.wellFormed ha
  have hnot : ∀ t, r ∉ holds t := by
    intro t hr
    obtain ⟨i, hi⟩ := h.held t r hr
    rw [hfresh] at hi
    cases hi
  refine ⟨allocate_wellFormed h.wellFormed ha, ?_, ?_, ?_, ?_, ?_⟩
  · intro r' active hr'
    rw [hl] at hr'
    by_cases he : r' = r
    · rw [if_pos he] at hr'
      cases hr'
      simp [he]
    · rw [if_neg he] at hr'
      have hmem := h.owned r' active hr'
      by_cases ht : active.task = task
      · rw [ht] at hmem ⊢
        simp [hmem]
      · simpa [ht] using hmem
  · intro t r' hr'
    rw [hl]
    by_cases ht : t = task
    · subst ht
      rw [update_self, List.mem_append, List.mem_singleton] at hr'
      rcases hr' with hr' | rfl
      · have hne : r' ≠ r := fun he => hnot t (he ▸ hr')
        rw [if_neg hne]
        exact h.held t r' hr'
      · exact ⟨interest, by rw [if_pos rfl]⟩
    · rw [update_of_ne ht] at hr'
      have hne : r' ≠ r := fun he => hnot t (he ▸ hr')
      rw [if_neg hne]
      exact h.held t r' hr'
  · intro t
    by_cases ht : t = task
    · subst ht
      rw [update_self]
      exact List.Nodup.append (h.holds_nodup t) (List.nodup_singleton r) (by simpa using hnot t)
    · rw [update_of_ne ht]
      exact h.holds_nodup t
  · intro r'
    rw [List.mem_cons, h.mem_told]
    by_cases he : r' = r <;> simp [Live, hl, he]
  · refine List.nodup_cons.mpr ⟨fun hr => ?_, h.told_nodup⟩
    rw [h.mem_told, Live, hfresh] at hr
    cases hr

theorem remove (h : Agree registrations told holds) (hr : r ∈ holds task) :
    Agree (registrations.release lastGeneration r) (told.erase r)
      (update holds task ((holds task).erase r)) := by
  obtain ⟨i, hi⟩ := h.held task r hr
  have hl := release_lookup (m := lastGeneration) hi
  have hother : ∀ t, t ≠ task → r ∉ holds t := by
    intro t ht hr'
    obtain ⟨j, hj⟩ := h.held t r hr'
    rw [hi] at hj
    exact ht (by simpa using (congrArg Registration.task (Option.some.inj hj)).symm)
  refine ⟨release_wellFormed h.wellFormed hi, ?_, ?_, ?_, ?_, h.told_nodup.erase r⟩
  · intro r' active hr'
    rw [hl] at hr'
    split_ifs at hr' with he
    have hmem := h.owned r' active hr'
    by_cases ht : active.task = task
    · rw [ht] at hmem ⊢
      rw [update_self]
      exact (List.mem_erase_of_ne he).mpr hmem
    · rwa [update_of_ne ht]
  · intro t r' hr'
    have hne : r' ≠ r ∧ r' ∈ holds t := by
      by_cases ht : t = task
      · subst ht
        rw [update_self] at hr'
        exact (List.Nodup.mem_erase_iff (h.holds_nodup t)).mp hr'
      · rw [update_of_ne ht] at hr'
        exact ⟨fun he => hother t ht (he ▸ hr'), hr'⟩
    rw [hl, if_neg hne.1]
    exact h.held t r' hne.2
  · intro t
    by_cases ht : t = task
    · subst ht
      rw [update_self]
      exact (h.holds_nodup t).erase r
    · rw [update_of_ne ht]
      exact h.holds_nodup t
  · intro r'
    rw [h.told_nodup.mem_erase_iff, h.mem_told]
    by_cases he : r' = r <;> simp [Live, hl, he]

/-- A registration whose installation the reactor rejected leaves no trace. -/
theorem reject (h : Agree registrations told holds)
    (ha : registrations.allocate slotCapacity ⟨task, interest⟩ = some (r, registrations')) :
    Agree (registrations'.release lastGeneration r) told holds := by
  have hi := h.install ha
  have hmem : r ∈ update holds task (holds task ++ [r]) task := by simp
  have hnot : r ∉ holds task := by
    intro hr
    obtain ⟨i, hl⟩ := h.held task r hr
    rw [(allocate_fresh h.wellFormed ha).1] at hl
    cases hl
  have hr := hi.remove hmem
  rw [update_self, List.erase_append_right _ hnot, update_idem] at hr
  simpa using hr

end Agree

namespace Scheduler

variable (R : Reactor ρ ε) {s : Scheduler (ρ × List RegistrationId)}
  {holds : TaskId → List RegistrationId} {task : TaskId}

/-- A step that touches only registrations and the reactor. -/
structure Detaches (s s' : Scheduler (ρ × List RegistrationId))
    (holds : TaskId → List RegistrationId) : Prop where
  tasks : s'.tasks = s.tasks
  runnable : s'.runnable = s.runnable
  agree : Agree s'.registrations s'.reactor.2 holds
  evolves : s.registrations.Evolves s'.registrations

theorem removeRegistration_detaches {r : RegistrationId}
    (h : Agree s.registrations s.reactor.2 holds) (hr : r ∈ holds task) :
    Detaches s (s.removeRegistration R.recording r) (update holds task ((holds task).erase r)) := by
  obtain ⟨i, hi⟩ := h.held task r hr
  have he : s.removeRegistration R.recording r =
      { s.releaseRegistration r with
        reactor := R.recording.deregister s.reactor r i } := by
    simp [removeRegistration, registration, hi, releaseRegistration]
  rw [he]
  exact ⟨rfl, rfl, h.remove hr, release_evolves h.wellFormed hi⟩

/-- Removing a complete wait set, in any order, empties it and nothing else. -/
theorem removeRegistrations_detaches (registrations : List RegistrationId)
    (h : Agree s.registrations s.reactor.2 holds) (hp : (holds task).Perm registrations) :
    Detaches s (s.removeRegistrations R.recording registrations) (update holds task []) := by
  induction registrations generalizing s holds with
  | nil =>
    have he : update holds task [] = holds := by
      rw [← hp.eq_nil]
      exact update_eq_self task holds
    exact ⟨rfl, rfl, by rw [he]; exact h, Evolves.refl _⟩
  | cons r rest ih =>
    have hr : r ∈ holds task := hp.mem_iff.mpr (by simp)
    have h₁ := removeRegistration_detaches R h hr
    have hp' : (update holds task ((holds task).erase r) task).Perm rest := by
      rw [update_self]
      simpa using hp.erase r
    have h₂ := ih h₁.agree hp'
    refine ⟨h₂.tasks.trans h₁.tasks, h₂.runnable.trans h₁.runnable, ?_,
      h₁.evolves.trans h₂.evolves⟩
    have hagree := h₂.agree
    rw [update_idem] at hagree
    exact hagree

theorem removeRegistrationsReverse_detaches (registrations : List RegistrationId)
    (h : Agree s.registrations s.reactor.2 holds) (hp : holds task = registrations) :
    Detaches s (s.removeRegistrationsReverse R.recording registrations) (update holds task []) := by
  apply removeRegistrations_detaches R _ h
  rw [hp]
  exact registrations.reverse_perm.symm

/-- The wait set an installation leaves: complete on success, empty on failure. -/
def installedSet (outcome : Except (SchedulerError ε) (List RegistrationId)) :
    List RegistrationId :=
  outcome.toOption.getD []

theorem installAll_detaches (interests : List ReactorInterest) (installed : List RegistrationId)
    (h : Agree s.registrations s.reactor.2 holds) (hi : holds task = installed) :
    Detaches s (s.installAll R.recording task installed interests).2
      (update holds task
        (installedSet (s.installAll R.recording task installed interests).1)) := by
  induction interests generalizing s holds installed with
  | nil =>
    have he : update holds task installed = holds := by rw [← hi, update_eq_self]
    exact ⟨rfl, rfl, by simpa [installAll, installedSet, Except.toOption, he] using h,
      Evolves.refl _⟩
  | cons interest rest ih =>
    cases ha : s.registrations.allocate slotCapacity ⟨task, interest⟩ with
    | none =>
        have he : s.installAll R.recording task installed (interest :: rest) =
            (.error .capacityExhausted, s.removeRegistrationsReverse R.recording installed) := by
          simp [installAll, allocateRegistration, ha]
        rw [he]
        exact removeRegistrationsReverse_detaches R installed h hi
    | some pair =>
        obtain ⟨r, registrations'⟩ := pair
        cases hreg : R.register s.reactor.1 r interest with
        | mk outcome reactor =>
            cases outcome with
            | error error =>
              let s₁ : Scheduler (ρ × List RegistrationId) :=
                { s with
                  registrations := registrations'.release lastGeneration r
                  reactor := (reactor, s.reactor.2) }
              have he : s.installAll R.recording task installed (interest :: rest) =
                  (.error (.reactor error),
                    s₁.removeRegistrationsReverse R.recording installed) := by
                simp [installAll, allocateRegistration, ha, Reactor.recording, hreg,
                  releaseRegistration, s₁]
              have hl : registrations'.lookup r = some ⟨task, interest⟩ := by
                rw [allocate_lookup h.wellFormed ha, if_pos rfl]
              have hev : s.registrations.Evolves s₁.registrations :=
                (allocate_evolves h.wellFormed ha).trans
                  (release_evolves (allocate_wellFormed h.wellFormed ha) hl)
              have hd := removeRegistrationsReverse_detaches R (s := s₁) installed (h.reject ha) hi
              rw [he]
              exact ⟨hd.tasks, hd.runnable, hd.agree, hev.trans hd.evolves⟩
            | ok _ =>
              let s₁ : Scheduler (ρ × List RegistrationId) :=
                { s with
                  registrations := registrations'
                  reactor := (reactor, r :: s.reactor.2) }
              have he : s.installAll R.recording task installed (interest :: rest) =
                  s₁.installAll R.recording task (installed ++ [r]) rest := by
                simp [installAll, allocateRegistration, ha, Reactor.recording, hreg, s₁]
              have hagree := h.install ha
              rw [hi] at hagree
              have hd := ih (s := s₁) (installed ++ [r]) hagree (by simp)
              rw [he]
              refine ⟨hd.tasks, hd.runnable, ?_,
                (allocate_evolves h.wellFormed ha).trans hd.evolves⟩
              have hfinal := hd.agree
              rw [update_idem] at hfinal
              exact hfinal

end Scheduler

end Nocter.TaskRuntime
