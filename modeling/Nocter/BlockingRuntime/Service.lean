import Nocter.Library.KeyedTable
import Nocter.BlockingRuntime.Identity

/-!
# The bounded blocking-job service

One mutex guards the whole state, so every operation is one atomic step. Accepted
inputs wait in a FIFO queue, move to a worker guard when claimed, and leave an
outcome behind that the waiter consumes. The notifier carries no meaning; the model
counts its calls.
-/

namespace Nocter.BlockingRuntime

inductive ServiceError where
  | zeroWorkers
  | jobCapacityBelowWorkers (workers maximumJobs : ℕ)
  | foreignCapacityEpoch (observed : CapacityEpoch)
  | unknownJob (job : JobId)
  | invalidJobState (job : JobId)
deriving DecidableEq, Repr

/-- Worker and total-admission limits; the constructor's two checks are fields. -/
structure ServiceCapacity where
  workers : ℕ
  maximumJobs : ℕ
  workers_pos : 0 < workers
  workers_le : workers ≤ maximumJobs

def ServiceCapacity.new (workers maximumJobs : ℕ) : Except ServiceError ServiceCapacity :=
  if hw : workers = 0 then .error .zeroWorkers
  else if hm : maximumJobs < workers then .error (.jobCapacityBelowWorkers workers maximumJobs)
  else .ok ⟨workers, maximumJobs, Nat.pos_of_ne_zero hw, Nat.le_of_not_lt hm⟩

structure ServiceSnapshot where
  accepting : Bool
  queued : ℕ
  running : ℕ
  completed : ℕ
  abandonedRunning : ℕ
  capacityEpoch : CapacityEpoch
deriving DecidableEq, Repr

def ServiceSnapshot.admitted (s : ServiceSnapshot) : ℕ :=
  s.queued + s.running + s.completed + s.abandonedRunning

/-- Failure to admit a job, with the input handed back. -/
inductive SubmitError (ι : Type) where
  | closed (input : ι)
  | saturated (input : ι) (observedEpoch : CapacityEpoch)
  | identityExhausted (input : ι)
deriving DecidableEq, Repr

def SubmitError.intoInput {ι : Type} : SubmitError ι → ι
  | .closed input => input
  | .saturated input _ => input
  | .identityExhausted input => input

inductive JobOutcome (ο : Type) where
  | completed (output : ο)
  | workerLost
deriving DecidableEq, Repr

inductive JobStatus where
  | queued
  | running
  | completed
deriving DecidableEq, Repr

inductive Cancellation (ι ο : Type) where
  | queued (input : ι)
  | running
  | completed (outcome : JobOutcome ο)
deriving DecidableEq, Repr

structure ShutdownCleanup (ι ο : Type) where
  queued : List ι
  completed : List (JobOutcome ο)
deriving DecidableEq, Repr

inductive ActiveJobState (ο : Type) where
  | running
  | abandonedRunning
  | completed (outcome : JobOutcome ο)
deriving DecidableEq, Repr

/-- A worker owns every job in one of these two states. -/
def ActiveJobState.isRunning {ο : Type} : ActiveJobState ο → Bool
  | .running => true
  | .abandonedRunning => true
  | .completed _ => false

structure BlockingJobService (ι ο : Type) where
  identity : ServiceIdentity
  capacity : ServiceCapacity
  accepting : Bool
  nextJob : ℕ
  capacityEpoch : CapacityEpoch
  queue : List (JobId × ι)
  active : KeyedTable JobId (ActiveJobState ο)
  notifications : ℕ

namespace BlockingJobService

open KeyedTable

variable {ι ο : Type}

def new (identity : ServiceIdentity) (capacity : ServiceCapacity) : BlockingJobService ι ο where
  identity := identity
  capacity := capacity
  accepting := true
  nextJob := 0
  capacityEpoch := CapacityEpoch.initial identity
  queue := []
  active := ∅
  notifications := 0

def notify (s : BlockingJobService ι ο) : BlockingJobService ι ο :=
  { s with notifications := s.notifications + 1 }

def releaseCapacity (s : BlockingJobService ι ο) : BlockingJobService ι ο :=
  { s with capacityEpoch := s.capacityEpoch.advance }

def runningCount (s : BlockingJobService ι ο) : ℕ := s.active.countValues ActiveJobState.isRunning

def admittedCount (s : BlockingJobService ι ο) : ℕ := s.queue.length + s.active.entries.length

def snapshot (s : BlockingJobService ι ο) : ServiceSnapshot where
  accepting := s.accepting
  queued := s.queue.length
  running := s.active.countValues fun | .running => true | _ => false
  completed := s.active.countValues fun | .completed _ => true | _ => false
  abandonedRunning := s.active.countValues fun | .abandonedRunning => true | _ => false
  capacityEpoch := s.capacityEpoch

def status (s : BlockingJobService ι ο) (job : JobId) : Option JobStatus :=
  if s.queue.any fun queued => queued.1 = job then some .queued
  else
    match s.active.lookup job with
    | some .running => some .running
    | some (.completed _) => some .completed
    | some .abandonedRunning => none
    | none => none

def capacityChangedSince (s : BlockingJobService ι ο) (observed : CapacityEpoch) :
    Except ServiceError Bool :=
  if observed.belongsTo s.identity then .ok (s.capacityEpoch != observed)
  else .error (.foreignCapacityEpoch observed)

def submit (s : BlockingJobService ι ο) (input : ι) :
    Except (SubmitError ι) JobId × BlockingJobService ι ο :=
  if s.accepting then
    if s.capacity.maximumJobs ≤ s.admittedCount then
      (.error (.saturated input s.capacityEpoch), s)
    else
      match checkedAdd u64Max s.nextJob 1 with
      | none => (.error (.identityExhausted input), s)
      | some nextJob =>
          let job : JobId := ⟨s.identity, s.nextJob⟩
          (.ok job, { s with nextJob, queue := s.queue ++ [(job, input)] })
  else (.error (.closed input), s)

/-- Moves the next queued input to a worker guard while a worker is available. -/
def claim (s : BlockingJobService ι ο) : Option (JobId × ι) × BlockingJobService ι ο :=
  if s.capacity.workers ≤ s.runningCount then (none, s)
  else
    match s.queue with
    | [] => (none, s)
    | (job, input) :: queue =>
        (some (job, input), { s with queue, active := s.active.insert job .running })

def cancel (s : BlockingJobService ι ο) (job : JobId) :
    Except ServiceError (Cancellation ι ο) × BlockingJobService ι ο :=
  match s.queue.findIdx? fun queued => queued.1 = job with
  | some position =>
      match s.queue[position]? with
      | none => (.error (.unknownJob job), s)
      | some (_, input) =>
          (.ok (.queued input),
            ({ s with queue := s.queue.eraseIdx position } :
              BlockingJobService ι ο).releaseCapacity.notify)
  | none =>
      match s.active.lookup job with
      | none => (.error (.unknownJob job), s)
      | some .running => (.ok .running, { s with active := s.active.insert job .abandonedRunning })
      | some (.completed outcome) =>
          (.ok (.completed outcome),
            ({ s with active := s.active.erase job } :
              BlockingJobService ι ο).releaseCapacity.notify)
      | some .abandonedRunning => (.error (.invalidJobState job), s)

def consume (s : BlockingJobService ι ο) (job : JobId) :
    Except ServiceError (JobOutcome ο) × BlockingJobService ι ο :=
  match s.active.lookup job with
  | none => (.error (.unknownJob job), s)
  | some (.completed outcome) =>
      (.ok outcome,
        ({ s with active := s.active.erase job } : BlockingJobService ι ο).releaseCapacity.notify)
  | some _ => (.error (.invalidJobState job), s)

/-- Detaches the listed jobs: completed outcomes are released, running jobs are
abandoned. -/
def detachActive (s : BlockingJobService ι ο) :
    List JobId → List (JobOutcome ο) × BlockingJobService ι ο
  | [] => ([], s)
  | job :: rest =>
      match s.active.lookup job with
      | none => s.detachActive rest
      | some (.completed outcome) =>
          let (completed, s) :=
            ({ s with active := s.active.erase job } :
              BlockingJobService ι ο).releaseCapacity.detachActive rest
          (outcome :: completed, s)
      | some _ =>
          ({ s with active := s.active.insert job .abandonedRunning } :
            BlockingJobService ι ο).detachActive rest

/-- Closes admission and empties the queue, releasing one slot for each input. -/
def drainQueue (s : BlockingJobService ι ο) : List ι × BlockingJobService ι ο :=
  (s.queue.map Prod.snd,
    { s with
      accepting := false
      queue := []
      capacityEpoch := CapacityEpoch.advance^[s.queue.length] s.capacityEpoch })

def beginShutdown (s : BlockingJobService ι ο) : ShutdownCleanup ι ο × BlockingJobService ι ο :=
  let (queued, s) := s.drainQueue
  let (completed, s) := s.detachActive (s.active.keys.mergeSort JobId.le)
  (⟨queued, completed⟩, s.notify)

def isDrained (s : BlockingJobService ι ο) : Bool := s.queue.isEmpty && s.active.entries.isEmpty

/-- The transition of a completion guard that goes away without an output. -/
def dropCompletion (s : BlockingJobService ι ο) (job : JobId) : BlockingJobService ι ο :=
  match s.active.lookup job with
  | none => s
  | some .running => { s with active := s.active.insert job (.completed .workerLost) }.notify
  | some .abandonedRunning =>
      ({ s with active := s.active.erase job } : BlockingJobService ι ο).releaseCapacity.notify
  | some (.completed _) => s

/-- Publishes an output, or returns it when the waiter abandoned the job. In the
two error cases the guard is still armed, so its drop runs as well. -/
def complete (s : BlockingJobService ι ο) (job : JobId) (output : ο) :
    Except ServiceError (Option ο) × BlockingJobService ι ο :=
  match s.active.lookup job with
  | none => (.error (.unknownJob job), s.dropCompletion job)
  | some .running =>
      (.ok none, { s with active := s.active.insert job (.completed (.completed output)) }.notify)
  | some .abandonedRunning =>
      (.ok (some output),
        ({ s with active := s.active.erase job } : BlockingJobService ι ο).releaseCapacity.notify)
  | some (.completed _) => (.error (.invalidJobState job), s.dropCompletion job)

end BlockingJobService

end Nocter.BlockingRuntime
