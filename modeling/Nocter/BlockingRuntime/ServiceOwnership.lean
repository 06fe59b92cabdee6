import Nocter.BlockingRuntime.Service

/-!
# The ledger of a blocking-job service

What the service is for, without its data structures: admitted jobs, worker guards
and payloads are bags, and each step of one job's life moves one entry. The balance
says that every payload is held once or was handed back once.
-/

namespace Nocter.BlockingRuntime

variable {ι ο : Type}

/-- A worker's guard: `claimed` still holds the input, `begun` only the obligation
to complete. -/
inductive WorkerGuard (ι : Type) where
  | claimed (job : JobId) (input : ι)
  | begun (job : JobId)
deriving DecidableEq, Repr

namespace WorkerGuard

def job : WorkerGuard ι → JobId
  | .claimed job _ => job
  | .begun job => job

def input? : WorkerGuard ι → Option ι
  | .claimed _ input => some input
  | .begun _ => none

end WorkerGuard

def JobOutcome.output? : JobOutcome ο → Option ο
  | .completed output => some output
  | .workerLost => none

def ActiveJobState.output? : ActiveJobState ο → Option ο
  | .completed outcome => outcome.output?
  | _ => none

/-- Bags of the jobs in each place, of the payloads that entered and left, and the
numbers of released slots and of issued identities. -/
structure ServiceLedger (ι ο : Type) where
  queued : Multiset (JobId × ι)
  active : Multiset (JobId × ActiveJobState ο)
  guards : Multiset (WorkerGuard ι)
  accepted : Multiset ι
  inputsReturned : Multiset ι
  produced : Multiset ο
  outputsReturned : Multiset ο
  released : ℕ
  issued : ℕ

@[simp] theorem ActiveJobState.isRunning_running :
    (ActiveJobState.running : ActiveJobState ο).isRunning = true := rfl

@[simp] theorem ActiveJobState.isRunning_abandonedRunning :
    (ActiveJobState.abandonedRunning : ActiveJobState ο).isRunning = true := rfl

@[simp] theorem ActiveJobState.isRunning_completed (outcome : JobOutcome ο) :
    (ActiveJobState.completed outcome).isRunning = false := rfl

namespace ServiceLedger

def jobs (l : ServiceLedger ι ο) : Multiset JobId := l.queued.map Prod.fst + l.active.map Prod.fst

def runningCount (l : ServiceLedger ι ο) : ℕ := l.active.countP fun e => e.2.isRunning

def ofOption {α : Type} (o : Option α) : Multiset α := (o.toList : Multiset α)

/-- One step of one job's life. -/
inductive Step (identity : ServiceIdentity) (capacity : ServiceCapacity) :
    ServiceLedger ι ο → ServiceLedger ι ο → Prop where
  | accept (l) (input : ι) (hroom : l.jobs.card < capacity.maximumJobs)
      (hid : l.issued < u64Max) :
      Step identity capacity l { l with
        queued := (⟨identity, l.issued⟩, input) ::ₘ l.queued
        accepted := input ::ₘ l.accepted
        issued := l.issued + 1 }
  | claim (l) {job : JobId} {input : ι} {queued} (hq : l.queued = (job, input) ::ₘ queued)
      (hworker : l.runningCount < capacity.workers) :
      Step identity capacity l { l with
        queued := queued
        active := (job, .running) ::ₘ l.active
        guards := .claimed job input ::ₘ l.guards }
  | begin (l) {job : JobId} {input : ι} {guards} (hg : l.guards = .claimed job input ::ₘ guards) :
      Step identity capacity l { l with
        guards := .begun job ::ₘ guards
        inputsReturned := input ::ₘ l.inputsReturned }
  | withdraw (l) {job : JobId} {input : ι} {queued} (hq : l.queued = (job, input) ::ₘ queued) :
      Step identity capacity l { l with
        queued := queued
        inputsReturned := input ::ₘ l.inputsReturned
        released := l.released + 1 }
  | abandon (l) {job : JobId} {state : ActiveJobState ο} {active}
      (ha : l.active = (job, state) ::ₘ active) (hr : state.isRunning = true) :
      Step identity capacity l { l with active := (job, .abandonedRunning) ::ₘ active }
  | finish (l) {job : JobId} {guard : WorkerGuard ι} {active guards} (outcome : JobOutcome ο)
      (ha : l.active = (job, .running) ::ₘ active) (hg : l.guards = guard ::ₘ guards)
      (hj : guard.job = job) :
      Step identity capacity l { l with
        active := (job, .completed outcome) ::ₘ active
        guards := guards
        inputsReturned := ofOption guard.input? + l.inputsReturned
        produced := ofOption outcome.output? + l.produced }
  | discard (l) {job : JobId} {guard : WorkerGuard ι} {active guards} (output : Option ο)
      (ha : l.active = (job, .abandonedRunning) ::ₘ active) (hg : l.guards = guard ::ₘ guards)
      (hj : guard.job = job) :
      Step identity capacity l { l with
        active := active
        guards := guards
        inputsReturned := ofOption guard.input? + l.inputsReturned
        produced := ofOption output + l.produced
        outputsReturned := ofOption output + l.outputsReturned
        released := l.released + 1 }
  | retire (l) {job : JobId} {outcome : JobOutcome ο} {active}
      (ha : l.active = (job, .completed outcome) ::ₘ active) :
      Step identity capacity l { l with
        active := active
        outputsReturned := ofOption outcome.output? + l.outputsReturned
        released := l.released + 1 }

/-- The jobs of a service are distinct, were issued by it, and fit its capacity;
each issued identity is admitted or released. -/
structure JobsBounded (identity : ServiceIdentity) (capacity : ServiceCapacity)
    (jobs : Multiset JobId) (released issued : ℕ) : Prop where
  nodup : jobs.Nodup
  own : ∀ job ∈ jobs, job.service = identity ∧ job.sequence < issued
  admitted : jobs.card ≤ capacity.maximumJobs
  epoch : released + jobs.card = issued
  issued_le : issued ≤ u64Max

/-- Bounded jobs, one guard for each running job, and every payload held once or
handed back once. -/
structure Balanced (identity : ServiceIdentity) (capacity : ServiceCapacity)
    (l : ServiceLedger ι ο) : Prop where
  bounded : JobsBounded identity capacity l.jobs l.released l.issued
  guards : l.guards.map WorkerGuard.job = (l.active.filter fun e => e.2.isRunning).map Prod.fst
  running : l.runningCount ≤ capacity.workers
  inputs : l.accepted =
    l.queued.map Prod.snd + l.guards.filterMap WorkerGuard.input? + l.inputsReturned
  outputs : l.produced = l.active.filterMap (fun e => e.2.output?) + l.outputsReturned

variable {identity : ServiceIdentity} {capacity : ServiceCapacity} {l l' : ServiceLedger ι ο}

@[simp] theorem ofOption_none {α : Type} : ofOption (none : Option α) = 0 := rfl

@[simp] theorem ofOption_some {α : Type} (a : α) : ofOption (some a) = {a} := rfl

/-- The jobs of the entries a worker owns. -/
theorem runningJobs_cons (job : JobId) (state : ActiveJobState ο)
    (s : Multiset (JobId × ActiveJobState ο)) :
    (((job, state) ::ₘ s).filter fun e => e.2.isRunning).map Prod.fst =
      (if state.isRunning then {job} else 0) + (s.filter fun e => e.2.isRunning).map Prod.fst := by
  cases h : state.isRunning <;> simp [h]

theorem countP_running_cons (job : JobId) (state : ActiveJobState ο)
    (s : Multiset (JobId × ActiveJobState ο)) :
    (((job, state) ::ₘ s).countP fun e => e.2.isRunning) =
      (s.countP fun e => e.2.isRunning) + if state.isRunning then 1 else 0 := by
  rw [Multiset.countP_cons]

theorem filterMap_cons_eq {α β : Type} (f : α → Option β) (a : α) (s : Multiset α) :
    (a ::ₘ s).filterMap f = ofOption (f a) + s.filterMap f := by
  cases h : f a <;> simp [h]

theorem JobsBounded.accept {jobs : Multiset JobId} {released issued : ℕ}
    (h : JobsBounded identity capacity jobs released issued)
    (hroom : jobs.card < capacity.maximumJobs) (hid : issued < u64Max) :
    JobsBounded identity capacity (⟨identity, issued⟩ ::ₘ jobs) released (issued + 1) := by
  have hfresh : (⟨identity, issued⟩ : JobId) ∉ jobs := fun hmem =>
    absurd (h.own _ hmem).2 (lt_irrefl _)
  refine ⟨Multiset.nodup_cons.mpr ⟨hfresh, h.nodup⟩, ?_, ?_, ?_, hid⟩
  · intro job hjob
    rcases Multiset.mem_cons.mp hjob with rfl | hjob
    · exact ⟨rfl, Nat.lt_succ_self _⟩
    · exact ⟨(h.own job hjob).1, Nat.lt_succ_of_lt (h.own job hjob).2⟩
  · rw [Multiset.card_cons]
    exact hroom
  · have := h.epoch
    rw [Multiset.card_cons]
    omega

theorem JobsBounded.release {jobs : Multiset JobId} {job : JobId} {released issued : ℕ}
    (h : JobsBounded identity capacity (job ::ₘ jobs) released issued) :
    JobsBounded identity capacity jobs (released + 1) issued := by
  have hc := h.admitted
  have he := h.epoch
  rw [Multiset.card_cons] at hc he
  exact ⟨(Multiset.nodup_cons.mp h.nodup).2,
    fun job hjob => h.own job (Multiset.mem_cons_of_mem hjob), by omega, by omega, h.issued_le⟩

/-- Every step keeps the ledger balanced. -/
theorem Step.balanced (hs : Step identity capacity l l') (h : Balanced identity capacity l) :
    Balanced identity capacity l' := by
  have hb := h.bounded
  have hg := h.guards
  have hr := h.running
  have hi := h.inputs
  have ho := h.outputs
  cases hs with
  | accept input hroom hid =>
    have hjobs : jobs { l with
        queued := (⟨identity, l.issued⟩, input) ::ₘ l.queued
        accepted := input ::ₘ l.accepted
        issued := l.issued + 1 } = ⟨identity, l.issued⟩ ::ₘ l.jobs := by
      simp [jobs]
    exact ⟨hjobs ▸ hb.accept hroom hid, hg, hr, by simp [hi], ho⟩
  | @claim job input queued hq hworker =>
    have hjobs : l.jobs = queued.map Prod.fst + (job ::ₘ l.active.map Prod.fst) := by
      simp [jobs, hq]
    refine ⟨?_, ?_, ?_, ?_, ?_⟩
    · rw [hjobs] at hb
      simpa [jobs] using hb
    · simp [hg, WorkerGuard.job, runningJobs_cons]
    · simpa [runningCount, countP_running_cons] using hworker
    · rw [hi, hq]
      simp only [filterMap_cons_eq, WorkerGuard.input?, ofOption_some, Multiset.map_cons]
      simp only [← Multiset.singleton_add]
      abel
    · simp only [filterMap_cons_eq, ActiveJobState.output?, ofOption_none, zero_add]
      exact ho
  | @begin job input guards hguard =>
    refine ⟨hb, ?_, hr, ?_, ho⟩
    · rw [← hg, hguard]
      simp [WorkerGuard.job]
    · rw [hi, hguard]
      simp only [filterMap_cons_eq, WorkerGuard.input?, ofOption_some, ofOption_none]
      simp only [← Multiset.singleton_add]
      abel
  | @withdraw job input queued hq =>
    have hjobs : l.jobs = job ::ₘ (queued.map Prod.fst + l.active.map Prod.fst) := by
      simp [jobs, hq]
    rw [hjobs] at hb
    refine ⟨hb.release, hg, hr, ?_, ho⟩
    rw [hi, hq]
    simp only [Multiset.map_cons]
    simp only [← Multiset.singleton_add]
    abel
  | @abandon job state active ha hrun =>
    have hjobs : l.jobs = l.queued.map Prod.fst + (job ::ₘ active.map Prod.fst) := by
      simp [jobs, ha]
    refine ⟨?_, ?_, ?_, hi, ?_⟩
    · rw [hjobs] at hb
      simpa [jobs] using hb
    · rw [hg, ha]
      simp [runningJobs_cons, hrun]
    · simpa [runningCount, ha, countP_running_cons, hrun] using hr
    · rw [ho, ha]
      have hnone : state.output? = none := by cases state <;> first | rfl | cases hrun
      simp only [filterMap_cons_eq, hnone]
      rfl
  | @finish job guard active guards outcome ha hguard hj =>
    have hjobs : l.jobs = l.queued.map Prod.fst + (job ::ₘ active.map Prod.fst) := by
      simp [jobs, ha]
    refine ⟨?_, ?_, ?_, ?_, ?_⟩
    · rw [hjobs] at hb
      simpa [jobs] using hb
    · rw [hguard, ha] at hg
      simpa [hj, runningJobs_cons] using hg
    · simp only [runningCount, ha, countP_running_cons] at hr ⊢
      simp at hr ⊢
      omega
    · rw [hi, hguard]
      simp only [filterMap_cons_eq]
      abel
    · rw [ho, ha]
      simp only [filterMap_cons_eq, ActiveJobState.output?, ofOption_none]
      abel
  | @discard job guard active guards output ha hguard hj =>
    have hjobs : l.jobs = job ::ₘ (l.queued.map Prod.fst + active.map Prod.fst) := by
      simp [jobs, ha]
    rw [hjobs] at hb
    refine ⟨hb.release, ?_, ?_, ?_, ?_⟩
    · rw [hguard, ha] at hg
      simpa [hj, runningJobs_cons] using hg
    · simp only [runningCount, ha, countP_running_cons] at hr ⊢
      simp at hr ⊢
      omega
    · rw [hi, hguard]
      simp only [filterMap_cons_eq]
      abel
    · rw [ho, ha]
      simp only [filterMap_cons_eq, ActiveJobState.output?, ofOption_none]
      abel
  | @retire job outcome active ha =>
    have hjobs : l.jobs = job ::ₘ (l.queued.map Prod.fst + active.map Prod.fst) := by
      simp [jobs, ha]
    rw [hjobs] at hb
    refine ⟨hb.release, ?_, ?_, hi, ?_⟩
    · rw [hg, ha]
      simp
    · simpa [runningCount, ha] using hr
    · rw [ho, ha]
      simp only [filterMap_cons_eq, ActiveJobState.output?]
      abel

/-- Any number of ledger steps. -/
def Steps (identity : ServiceIdentity) (capacity : ServiceCapacity) :
    ServiceLedger ι ο → ServiceLedger ι ο → Prop :=
  Relation.ReflTransGen (Step identity capacity)

theorem Steps.balanced (hs : Steps identity capacity l l') (h : Balanced identity capacity l) :
    Balanced identity capacity l' := by
  induction hs with
  | refl => exact h
  | tail _ hstep ih => exact hstep.balanced ih

/-- A released identity was issued and holds no slot any more. -/
def Released (identity : ServiceIdentity) (l : ServiceLedger ι ο) (job : JobId) : Prop :=
  job.service = identity ∧ job.sequence < l.issued ∧ job ∉ l.jobs

theorem Step.released (hs : Step identity capacity l l') {job : JobId}
    (hr : l.Released identity job) : l'.Released identity job := by
  obtain ⟨hid, hlt, hnot⟩ := hr
  cases hs with
  | accept input hroom hissued =>
    refine ⟨hid, Nat.lt_succ_of_lt hlt, fun hmem => ?_⟩
    simp only [jobs, Multiset.map_cons, Multiset.cons_add, Multiset.mem_cons] at hmem hnot
    rcases hmem with rfl | hmem
    · exact lt_irrefl _ hlt
    · exact hnot hmem
  | begin => exact ⟨hid, hlt, hnot⟩
  | claim hq => exact ⟨hid, hlt, by simpa [jobs, hq] using hnot⟩
  | withdraw hq => exact ⟨hid, hlt, fun hmem => hnot (by simp_all [jobs])⟩
  | abandon ha => exact ⟨hid, hlt, by simpa [jobs, ha] using hnot⟩
  | finish _ ha => exact ⟨hid, hlt, by simpa [jobs, ha] using hnot⟩
  | discard _ ha => exact ⟨hid, hlt, fun hmem => hnot (by simp_all [jobs])⟩
  | retire ha => exact ⟨hid, hlt, fun hmem => hnot (by simp_all [jobs])⟩

theorem Steps.released (hs : Steps identity capacity l l') {job : JobId}
    (hr : l.Released identity job) : l'.Released identity job := by
  induction hs with
  | refl => exact hr
  | tail _ hstep ih => exact hstep.released ih

theorem Steps.issued_le (hs : Steps identity capacity l l') : l.issued ≤ l'.issued := by
  induction hs with
  | refl => exact le_refl _
  | tail _ hstep ih =>
    refine le_trans ih ?_
    cases hstep with
    | accept => exact Nat.le_succ _
    | _ => exact le_refl _

/-- The released sequence numbers of a service. -/
def releasedSequences (l : ServiceLedger ι ο) : Finset ℕ :=
  Finset.range l.issued \ (l.jobs.map JobId.sequence).toFinset

theorem mem_releasedSequences (h : Balanced identity capacity l) (n : ℕ) :
    n ∈ l.releasedSequences ↔ l.Released identity ⟨identity, n⟩ := by
  simp only [releasedSequences, Finset.mem_sdiff, Finset.mem_range, Multiset.mem_toFinset,
    Multiset.mem_map, Released, true_and]
  refine and_congr_right fun _ => not_congr ⟨?_, fun hmem => ⟨_, hmem, rfl⟩⟩
  rintro ⟨job, hmem, rfl⟩
  rw [← (h.bounded.own job hmem).1]
  exact hmem

/-- The epoch counts the released identities. -/
theorem card_releasedSequences (h : Balanced identity capacity l) :
    l.releasedSequences.card = l.released := by
  have hinj : (l.jobs.map JobId.sequence).Nodup := by
    refine h.bounded.nodup.map_on fun a ha b hb hab => ?_
    obtain ⟨service, sequence⟩ := a
    obtain ⟨service', sequence'⟩ := b
    have ha' := (h.bounded.own _ ha).1
    have hb' := (h.bounded.own _ hb).1
    simp_all
  have hsub : (l.jobs.map JobId.sequence).toFinset ⊆ Finset.range l.issued := by
    intro n hn
    obtain ⟨job, hmem, rfl⟩ := Multiset.mem_map.mp (Multiset.mem_toFinset.mp hn)
    exact Finset.mem_range.mpr (h.bounded.own job hmem).2
  rw [releasedSequences, Finset.card_sdiff_of_subset hsub, Finset.card_range,
    Multiset.toFinset_card_of_nodup hinj, Multiset.card_map]
  have := h.bounded.epoch
  omega

/-- The epoch differs from an earlier one exactly when a slot was released since. -/
theorem Steps.released_ne_iff (hs : Steps identity capacity l l')
    (h : Balanced identity capacity l) : l'.released ≠ l.released ↔
      ∃ job, l'.Released identity job ∧ ¬ l.Released identity job := by
  have h' := hs.balanced h
  have hsub : l.releasedSequences ⊆ l'.releasedSequences := fun n hn =>
    (mem_releasedSequences h' n).mpr (hs.released ((mem_releasedSequences h n).mp hn))
  rw [← card_releasedSequences h, ← card_releasedSequences h']
  constructor
  · intro hne
    have hlt : l.releasedSequences.card < l'.releasedSequences.card :=
      lt_of_le_of_ne (Finset.card_le_card hsub) hne.symm
    obtain ⟨n, hn, hnot⟩ := Finset.exists_mem_notMem_of_card_lt_card hlt
    exact ⟨⟨identity, n⟩, (mem_releasedSequences h' n).mp hn,
      fun hr => hnot ((mem_releasedSequences h n).mpr hr)⟩
  · rintro ⟨⟨service, n⟩, hr, hnot⟩
    obtain rfl : service = identity := hr.1
    have hn := (mem_releasedSequences h' n).mpr hr
    have hss : l.releasedSequences ⊂ l'.releasedSequences :=
      Finset.ssubset_iff_subset_ne.mpr ⟨hsub, fun he =>
        hnot ((mem_releasedSequences h n).mp (he ▸ hn))⟩
    exact (Finset.card_lt_card hss).ne'

end ServiceLedger

end Nocter.BlockingRuntime

/-!
# Ownership of job payloads

A service is observed together with its worker guards and with a record of every
payload that entered it or was handed back. Its ledger forgets the data structures;
every operation of the service is a sequence of ledger steps.
-/

namespace Nocter.BlockingRuntime

open KeyedTable

/-- Who received a payload. A `lostWorker` dropped its guard with the input in it. -/
inductive Owner where
  | canceller
  | consumer
  | shutdown
  | worker
  | lostWorker
deriving DecidableEq, Repr

/-- Every payload accepted or produced, every payload handed back, and every job
identity issued so far. -/
structure PayloadRecord (ι ο : Type) where
  accepted : List ι
  inputsReturned : List (Owner × ι)
  produced : List ο
  outputsReturned : List (Owner × ο)
  issued : List JobId

structure ServiceWorld (ι ο : Type) where
  service : BlockingJobService ι ο
  guards : List (WorkerGuard ι)
  record : PayloadRecord ι ο

inductive ServiceOperation (ι ο : Type) where
  | submit (input : ι)
  | claim
  | begin (worker : ℕ)
  | complete (worker : ℕ) (output : ο)
  | dropWorker (worker : ℕ)
  | cancel (job : JobId)
  | consume (job : JobId)
  | beginShutdown

namespace CapacityEpoch

theorem advance_of_lt {e : CapacityEpoch} (h : e.sequence < u64Max) :
    e.advance = ⟨e.service, e.sequence + 1⟩ := by
  have hle : e.sequence + 1 ≤ u64Max := h
  simp only [advance, saturatingAdd_of_le hle]

theorem advance_iterate {e : CapacityEpoch} {n : ℕ} (h : e.sequence + n ≤ u64Max) :
    advance^[n] e = ⟨e.service, e.sequence + n⟩ := by
  induction n with
  | zero => rfl
  | succ n ih =>
    rw [Function.iterate_succ_apply', ih (by omega)]
    exact advance_of_lt (by simp only; omega)

end CapacityEpoch

namespace ServiceWorld

variable {ι ο : Type}

def new (identity : ServiceIdentity) (capacity : ServiceCapacity) : ServiceWorld ι ο :=
  ⟨BlockingJobService.new identity capacity, [], ⟨[], [], [], [], []⟩⟩

def returnInputs (w : ServiceWorld ι ο) (owner : Owner) (inputs : List ι) : ServiceWorld ι ο :=
  { w with record := { w.record with
      inputsReturned := w.record.inputsReturned ++ inputs.map (Prod.mk owner) } }

def returnOutputs (w : ServiceWorld ι ο) (owner : Owner) (outputs : List ο) : ServiceWorld ι ο :=
  { w with record := { w.record with
      outputsReturned := w.record.outputsReturned ++ outputs.map (Prod.mk owner) } }

def submit (w : ServiceWorld ι ο) (input : ι) : ServiceWorld ι ο :=
  match w.service.submit input with
  | (.error _, service) => { w with service }
  | (.ok job, service) =>
      { w with
        service
        record := { w.record with
          accepted := w.record.accepted ++ [input], issued := w.record.issued ++ [job] } }

def claim (w : ServiceWorld ι ο) : ServiceWorld ι ο :=
  match w.service.claim with
  | (none, service) => { w with service }
  | (some (job, input), service) =>
      { w with service, guards := w.guards ++ [.claimed job input] }

/-- Moves the input of a claimed guard to the worker's code. -/
def begin (w : ServiceWorld ι ο) (worker : ℕ) : ServiceWorld ι ο :=
  match w.guards[worker]? with
  | some (.claimed job input) =>
      ({ w with guards := .begun job :: w.guards.eraseIdx worker } :
        ServiceWorld ι ο).returnInputs .worker [input]
  | _ => w

def complete (w : ServiceWorld ι ο) (worker : ℕ) (output : ο) : ServiceWorld ι ο :=
  match w.guards[worker]? with
  | some (.begun job) =>
      let (result, service) := w.service.complete job output
      let w' : ServiceWorld ι ο :=
        { w with
          service
          guards := w.guards.eraseIdx worker
          record := { w.record with produced := w.record.produced ++ [output] } }
      match result with
      | .ok (some output) => w'.returnOutputs .worker [output]
      | _ => w'
  | _ => w

def dropWorker (w : ServiceWorld ι ο) (worker : ℕ) : ServiceWorld ι ο :=
  match w.guards[worker]? with
  | some guard =>
      ({ w with
        service := w.service.dropCompletion guard.job
        guards := w.guards.eraseIdx worker } :
          ServiceWorld ι ο).returnInputs .lostWorker guard.input?.toList
  | none => w

def cancel (w : ServiceWorld ι ο) (job : JobId) : ServiceWorld ι ο :=
  match w.service.cancel job with
  | (.ok (.queued input), service) => { w with service }.returnInputs .canceller [input]
  | (.ok (.completed outcome), service) =>
      { w with service }.returnOutputs .canceller outcome.output?.toList
  | (_, service) => { w with service }

def consume (w : ServiceWorld ι ο) (job : JobId) : ServiceWorld ι ο :=
  match w.service.consume job with
  | (.ok outcome, service) => { w with service }.returnOutputs .consumer outcome.output?.toList
  | (.error _, service) => { w with service }

def beginShutdown (w : ServiceWorld ι ο) : ServiceWorld ι ο :=
  let (cleanup, service) := w.service.beginShutdown
  ({ w with service }.returnInputs .shutdown cleanup.queued).returnOutputs .shutdown
    (cleanup.completed.filterMap JobOutcome.output?)

def apply (w : ServiceWorld ι ο) : ServiceOperation ι ο → ServiceWorld ι ο
  | .submit input => w.submit input
  | .claim => w.claim
  | .begin worker => w.begin worker
  | .complete worker output => w.complete worker output
  | .dropWorker worker => w.dropWorker worker
  | .cancel job => w.cancel job
  | .consume job => w.consume job
  | .beginShutdown => w.beginShutdown

/-- The bags of a service, its guards and its record. -/
def ledger (w : ServiceWorld ι ο) : ServiceLedger ι ο where
  queued := w.service.queue
  active := w.service.active.entryBag
  guards := w.guards
  accepted := w.record.accepted
  inputsReturned := w.record.inputsReturned.map Prod.snd
  produced := w.record.produced
  outputsReturned := w.record.outputsReturned.map Prod.snd
  released := w.service.capacityEpoch.sequence
  issued := w.service.nextJob

def Steps (w w' : ServiceWorld ι ο) : Prop :=
  ServiceLedger.Steps w.service.identity w.service.capacity w.ledger w'.ledger

structure Valid (w : ServiceWorld ι ο) : Prop where
  balanced : w.ledger.Balanced w.service.identity w.service.capacity
  epoch_service : w.service.capacityEpoch.service = w.service.identity
  issued : w.record.issued = (List.range w.service.nextJob).map (JobId.mk w.service.identity)

variable {w : ServiceWorld ι ο} {job : JobId} {state : ActiveJobState ο}

theorem card_jobs (w : ServiceWorld ι ο) : w.ledger.jobs.card = w.service.admittedCount := by
  simp [ledger, ServiceLedger.jobs, BlockingJobService.admittedCount, card_entryBag]

theorem runningCount_ledger (w : ServiceWorld ι ο) :
    w.ledger.runningCount = w.service.runningCount := by
  simp [ledger, ServiceLedger.runningCount, BlockingJobService.runningCount, countValues_eq]

@[simp] theorem ledger_returnInputs (w : ServiceWorld ι ο) (owner : Owner) (inputs : List ι) :
    (w.returnInputs owner inputs).ledger =
      { w.ledger with inputsReturned := (inputs : Multiset ι) + w.ledger.inputsReturned } := by
  simp [ledger, returnInputs, Function.comp_def, ← Multiset.coe_add, add_comm]

@[simp] theorem ledger_returnOutputs (w : ServiceWorld ι ο) (owner : Owner) (outputs : List ο) :
    (w.returnOutputs owner outputs).ledger =
      { w.ledger with outputsReturned := (outputs : Multiset ο) + w.ledger.outputsReturned } := by
  simp [ledger, returnOutputs, Function.comp_def, ← Multiset.coe_add, add_comm]

theorem mem_jobs_of_lookup (hl : w.service.active.lookup job = some state) :
    job ∈ w.ledger.jobs := by
  refine Multiset.mem_add.mpr (Or.inr (Multiset.mem_map.mpr ⟨(job, state), ?_, rfl⟩))
  exact mem_entryBag.mpr hl

theorem mem_jobs_of_queue {position : ℕ} {input : ι}
    (hq : w.service.queue[position]? = some (job, input)) : job ∈ w.ledger.jobs := by
  refine Multiset.mem_add.mpr (Or.inl (Multiset.mem_map.mpr ⟨(job, input), ?_, rfl⟩))
  exact Multiset.mem_coe.mpr (List.mem_of_getElem? hq)

/-- A held slot leaves room for its release in the epoch space. -/
theorem Valid.advance (h : Valid w) (hj : job ∈ w.ledger.jobs) : w.service.capacityEpoch.advance =
      ⟨w.service.capacityEpoch.service, w.service.capacityEpoch.sequence + 1⟩ := by
  have hpos := Multiset.card_pos_iff_exists_mem.mpr ⟨job, hj⟩
  have he : w.service.capacityEpoch.sequence + w.ledger.jobs.card = w.service.nextJob :=
    h.balanced.bounded.epoch
  have hn : w.service.nextJob ≤ u64Max := h.balanced.bounded.issued_le
  exact CapacityEpoch.advance_of_lt (by omega)

/-- A guard's job is active and owned by a worker. -/
theorem Valid.guard_active (h : Valid w) {worker : ℕ} {guard : WorkerGuard ι}
    (hg : w.guards[worker]? = some guard) :
    ∃ state, w.service.active.lookup guard.job = some state ∧ state.isRunning = true := by
  have hmem : guard.job ∈ w.ledger.guards.map WorkerGuard.job :=
    Multiset.mem_map_of_mem _ (Multiset.mem_coe.mpr (List.mem_of_getElem? hg))
  rw [h.balanced.guards] at hmem
  obtain ⟨⟨job, state⟩, hin, hj⟩ := Multiset.mem_map.mp hmem
  obtain ⟨hbag, hr⟩ := Multiset.mem_filter.mp hin
  obtain rfl : job = guard.job := hj
  exact ⟨state, mem_entryBag.mp hbag, hr⟩

end ServiceWorld

end Nocter.BlockingRuntime
