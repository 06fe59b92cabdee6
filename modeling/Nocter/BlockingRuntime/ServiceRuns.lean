import Nocter.BlockingRuntime.ServiceOwnership
import Nocter.Library.TransitionSystem

/-!
# Every service operation is a sequence of ledger steps

One lemma for each operation, including the two error exits of `complete`: they are
never taken, because a guard's job is always in the active table.
-/

namespace Nocter.BlockingRuntime

open KeyedTable Relation

variable {ι ο : Type}

namespace ServiceWorld

variable {w w' : ServiceWorld ι ο} {job : JobId} {state : ActiveJobState ο}

/-- What an operation guarantees about the worlds around it. -/
structure Refines (w w' : ServiceWorld ι ο) : Prop where
  identity : w'.service.identity = w.service.identity
  capacity : w'.service.capacity = w.service.capacity
  steps : w.Steps w'
  epoch_service : w'.service.capacityEpoch.service = w.service.capacityEpoch.service
  issued : w.record.issued = (List.range w.service.nextJob).map (JobId.mk w.service.identity) →
    w'.record.issued = (List.range w'.service.nextJob).map (JobId.mk w'.service.identity)

theorem Refines.refl (w : ServiceWorld ι ο) : Refines w w :=
  ⟨rfl, rfl, ReflTransGen.refl, rfl, id⟩

theorem Refines.valid (hr : Refines w w') (h : Valid w) : Valid w' := by
  refine ⟨?_, ?_, hr.issued h.issued⟩
  · rw [hr.identity, hr.capacity]
    exact ServiceLedger.Steps.balanced hr.steps h.balanced
  · rw [hr.epoch_service, hr.identity, h.epoch_service]

theorem Refines.trans {w'' : ServiceWorld ι ο} (hr : Refines w w') (hr' : Refines w' w'') :
    Refines w w'' := by
  refine ⟨hr'.identity.trans hr.identity, hr'.capacity.trans hr.capacity, ?_,
    hr'.epoch_service.trans hr.epoch_service, hr'.issued ∘ hr.issued⟩
  have hs := hr'.steps
  unfold Steps at hs ⊢
  rw [hr.identity, hr.capacity] at hs
  exact ReflTransGen.trans hr.steps hs

/-- An operation that issues no identity refines one ledger step. -/
theorem Refines.of_step (hid : w'.service.identity = w.service.identity)
    (hcap : w'.service.capacity = w.service.capacity)
    (hstep : ServiceLedger.Step w.service.identity w.service.capacity w.ledger w'.ledger)
    (he : w'.service.capacityEpoch.service = w.service.capacityEpoch.service)
    (hn : w'.service.nextJob = w.service.nextJob) (hi : w'.record.issued = w.record.issued) :
    Refines w w' :=
  ⟨hid, hcap, ReflTransGen.single hstep, he, fun h => by rw [hi, hn, hid, h]⟩

theorem submit_refines (w : ServiceWorld ι ο) (input : ι) : Refines w (w.submit input) := by
  unfold submit BlockingJobService.submit
  by_cases ha : w.service.accepting
  · rw [if_pos ha]
    by_cases hm : w.service.capacity.maximumJobs ≤ w.service.admittedCount
    · rw [if_pos hm]
      exact Refines.refl w
    · rw [if_neg hm]
      cases hn : checkedAdd u64Max w.service.nextJob 1 with
      | none => exact Refines.refl w
      | some next =>
        obtain ⟨hle, rfl⟩ := checkedAdd_eq_some.mp hn
        refine ⟨rfl, rfl, ReflTransGen.single ?_, rfl, fun h => ?_⟩
        · have hroom : w.ledger.jobs.card < w.service.capacity.maximumJobs := by
            rw [card_jobs]
            omega
          have hs : ServiceLedger.Step w.service.identity w.service.capacity w.ledger _ :=
            .accept w.ledger input hroom hle
          convert hs using 1
          simp [ledger, coe_append_singleton]
        · simp [h, List.range_succ]
  · rw [if_neg ha]
    exact Refines.refl w

theorem claim_refines (h : Valid w) : Refines w w.claim := by
  unfold claim BlockingJobService.claim
  by_cases hfull : w.service.capacity.workers ≤ w.service.runningCount
  · rw [if_pos hfull]
    exact Refines.refl w
  · rw [if_neg hfull]
    cases hq : w.service.queue with
    | nil => exact Refines.refl w
    | cons head queue =>
      obtain ⟨job, input⟩ := head
      have hnew : w.service.active.lookup job = none := by
        have hnd := h.balanced.bounded.nodup
        simp only [ServiceLedger.jobs, ledger, hq, ← Multiset.cons_coe, Multiset.map_cons,
          Multiset.cons_add, Multiset.nodup_cons, Multiset.mem_add, not_or] at hnd
        rw [Option.eq_none_iff_forall_ne_some]
        intro state hl
        exact hnd.1.2 (Multiset.mem_map.mpr ⟨_, mem_entryBag.mpr hl, rfl⟩)
      refine Refines.of_step rfl rfl ?_ rfl rfl rfl
      have hqueued : w.ledger.queued = (job, input) ::ₘ (queue : Multiset (JobId × ι)) := by
        simp [ledger, hq]
      have hworker : w.ledger.runningCount < w.service.capacity.workers := by
        rw [runningCount_ledger]
        omega
      have hs : ServiceLedger.Step w.service.identity w.service.capacity w.ledger _ :=
        .claim w.ledger hqueued hworker
      convert hs using 1
      simp [ledger, coe_append_singleton, entryBag_insert, erase_of_lookup_none hnew]

theorem begin_refines (w : ServiceWorld ι ο) (worker : ℕ) : Refines w (w.begin worker) := by
  unfold begin
  cases hg : w.guards[worker]? with
  | none => exact Refines.refl w
  | some guard =>
    cases guard with
    | begun job => exact Refines.refl w
    | claimed job input =>
      refine Refines.of_step rfl rfl ?_ rfl rfl rfl
      have hs : ServiceLedger.Step w.service.identity w.service.capacity w.ledger _ :=
        .begin w.ledger (coe_eq_cons_eraseIdx hg)
      rw [ledger_returnInputs]
      exact hs

/-- Withdrawing the input of one queue position. -/
theorem withdraw_refines (h : Valid w) {position : ℕ} {input : ι} (owner : Owner)
    (hq : w.service.queue[position]? = some (job, input)) :
    Refines w (({ w with
      service := ({ w.service with queue := w.service.queue.eraseIdx position } :
        BlockingJobService ι ο).releaseCapacity.notify } :
          ServiceWorld ι ο).returnInputs owner [input]) := by
  have he := h.advance (mem_jobs_of_queue hq)
  refine Refines.of_step rfl rfl ?_ rfl rfl rfl
  have hs : ServiceLedger.Step w.service.identity w.service.capacity w.ledger _ :=
    .withdraw w.ledger (coe_eq_cons_eraseIdx hq)
  rw [ledger_returnInputs]
  convert hs using 1
  simp [ledger, BlockingJobService.releaseCapacity, BlockingJobService.notify, he]

theorem abandon_refines (hl : w.service.active.lookup job = some state)
    (hr : state.isRunning = true) :
    Refines w { w with
      service := { w.service with active := w.service.active.insert job .abandonedRunning } } := by
  refine Refines.of_step rfl rfl ?_ rfl rfl rfl
  exact ServiceLedger.Step.abandon w.ledger (entryBag_of_lookup hl) hr

/-- Handing a completed outcome to its last owner. -/
theorem retire_refines (h : Valid w) {outcome : JobOutcome ο} (owner : Owner)
    (hl : w.service.active.lookup job = some (.completed outcome)) :
    Refines w (({ w with
      service := ({ w.service with active := w.service.active.erase job } :
        BlockingJobService ι ο).releaseCapacity } :
          ServiceWorld ι ο).returnOutputs owner outcome.output?.toList) := by
  have he := h.advance (mem_jobs_of_lookup hl)
  refine Refines.of_step rfl rfl ?_ rfl rfl rfl
  have hs : ServiceLedger.Step w.service.identity w.service.capacity w.ledger _ :=
    .retire w.ledger (entryBag_of_lookup hl)
  rw [ledger_returnOutputs]
  convert hs using 1
  simp [ledger, BlockingJobService.releaseCapacity, he, ServiceLedger.ofOption]

theorem notify_refines (w : ServiceWorld ι ο) : Refines w { w with service := w.service.notify } :=
  ⟨rfl, rfl, ReflTransGen.refl, rfl, id⟩

theorem cancel_refines (h : Valid w) (job : JobId) : Refines w (w.cancel job) := by
  unfold cancel BlockingJobService.cancel
  cases hf : w.service.queue.findIdx? fun queued => queued.1 = job with
  | some position =>
    cases hq : w.service.queue[position]? with
    | none => simpa [hq] using Refines.refl w
    | some entry =>
      obtain ⟨job', input⟩ := entry
      simpa [hq] using withdraw_refines h .canceller hq
  | none =>
    cases hl : w.service.active.lookup job with
    | none => simpa [hl] using Refines.refl w
    | some state =>
      cases state with
      | running => simpa [hl] using abandon_refines hl rfl
      | abandonedRunning => simpa [hl] using Refines.refl w
      | completed outcome =>
        have hr := retire_refines h .canceller hl
        simp only
        exact hr.trans (notify_refines _)

theorem consume_refines (h : Valid w) (job : JobId) : Refines w (w.consume job) := by
  unfold consume BlockingJobService.consume
  cases hl : w.service.active.lookup job with
  | none => simpa [hl] using Refines.refl w
  | some state =>
    cases state with
    | completed outcome =>
      have hr := retire_refines h .consumer hl
      simp only
      exact hr.trans (notify_refines _)
    | _ => simpa [hl] using Refines.refl w

theorem complete_refines (h : Valid w) (worker : ℕ) (output : ο) :
    Refines w (w.complete worker output) := by
  unfold complete
  cases hg : w.guards[worker]? with
  | none => exact Refines.refl w
  | some guard =>
    cases guard with
    | claimed job input => exact Refines.refl w
    | begun job =>
      obtain ⟨state, hl, hrun⟩ := h.guard_active hg
      simp only [WorkerGuard.job] at hl
      cases state with
      | completed outcome => cases hrun
      | running =>
        simp only [BlockingJobService.complete, hl]
        refine Refines.of_step rfl rfl ?_ rfl rfl rfl
        have hs : ServiceLedger.Step w.service.identity w.service.capacity w.ledger _ :=
          .finish w.ledger (.completed output) (entryBag_of_lookup hl) (coe_eq_cons_eraseIdx hg) rfl
        convert hs using 1
        simp [ledger, BlockingJobService.notify, coe_append_singleton, entryBag_insert,
          JobOutcome.output?, WorkerGuard.input?]
      | abandonedRunning =>
        simp only [BlockingJobService.complete, hl]
        have he := h.advance (mem_jobs_of_lookup hl)
        refine Refines.of_step rfl rfl ?_ rfl rfl rfl
        have hs : ServiceLedger.Step w.service.identity w.service.capacity w.ledger _ :=
          .discard w.ledger (some output) (entryBag_of_lookup hl) (coe_eq_cons_eraseIdx hg) rfl
        rw [ledger_returnOutputs]
        convert hs using 1
        simp [ledger, BlockingJobService.notify, BlockingJobService.releaseCapacity, he,
          coe_append_singleton, WorkerGuard.input?]

theorem dropWorker_refines (h : Valid w) (worker : ℕ) : Refines w (w.dropWorker worker) := by
  unfold dropWorker
  cases hg : w.guards[worker]? with
  | none => exact Refines.refl w
  | some guard =>
    obtain ⟨state, hl, hrun⟩ := h.guard_active hg
    simp only [BlockingJobService.dropCompletion, hl]
    cases state with
    | completed outcome => cases hrun
    | running =>
      refine Refines.of_step rfl rfl ?_ rfl rfl rfl
      have hs : ServiceLedger.Step w.service.identity w.service.capacity w.ledger _ :=
        .finish w.ledger .workerLost (entryBag_of_lookup hl) (coe_eq_cons_eraseIdx hg) rfl
      rw [ledger_returnInputs]
      convert hs using 1
      simp [ledger, BlockingJobService.notify, entryBag_insert, JobOutcome.output?,
        ServiceLedger.ofOption]
    | abandonedRunning =>
      have he := h.advance (mem_jobs_of_lookup hl)
      refine Refines.of_step rfl rfl ?_ rfl rfl rfl
      have hs : ServiceLedger.Step w.service.identity w.service.capacity w.ledger _ :=
        .discard w.ledger none (entryBag_of_lookup hl) (coe_eq_cons_eraseIdx hg) rfl
      rw [ledger_returnInputs]
      convert hs using 1
      simp [ledger, BlockingJobService.notify, BlockingJobService.releaseCapacity, he,
        ServiceLedger.ofOption]

/-- Withdrawing a whole queue, front to back. -/
theorem withdrawAll_steps {identity : ServiceIdentity} {capacity : ServiceCapacity}
    (queue : List (JobId × ι)) (l : ServiceLedger ι ο) (hq : l.queued = queue) :
    ServiceLedger.Steps identity capacity l { l with
      queued := 0
      inputsReturned := (queue.map Prod.snd : List ι) + l.inputsReturned
      released := l.released + queue.length } := by
  induction queue generalizing l with
  | nil =>
    have he : { l with
        queued := 0
        inputsReturned := ((([] : List (JobId × ι)).map Prod.snd : List ι) : Multiset ι) +
          l.inputsReturned
        released := l.released + ([] : List (JobId × ι)).length } = l := by
      cases l
      simp_all
    rw [he]
    exact ReflTransGen.refl
  | cons head rest ih =>
    obtain ⟨job, input⟩ := head
    have hs : ServiceLedger.Step identity capacity l { l with
        queued := rest
        inputsReturned := input ::ₘ l.inputsReturned
        released := l.released + 1 } := .withdraw l hq
    have hrest := ih { l with
      queued := rest
      inputsReturned := input ::ₘ l.inputsReturned
      released := l.released + 1 } rfl
    have hinputs : (((job, input) :: rest).map Prod.snd : Multiset ι) + l.inputsReturned =
        (rest.map Prod.snd : List ι) + input ::ₘ l.inputsReturned := by
      simp only [List.map_cons, ← Multiset.cons_coe, Multiset.cons_add, Multiset.add_cons]
    have hreleased : l.released + ((job, input) :: rest).length = l.released + 1 + rest.length := by
      simp only [List.length_cons]
      omega
    rw [hinputs, hreleased]
    exact ReflTransGen.head hs hrest

theorem drainQueue_refines (h : Valid w) :
    Refines w ({ w with service := w.service.drainQueue.2 }.returnInputs .shutdown
      w.service.drainQueue.1) := by
  have he : w.service.capacityEpoch.sequence + w.ledger.jobs.card = w.service.nextJob :=
    h.balanced.bounded.epoch
  have hn : w.service.nextJob ≤ u64Max := h.balanced.bounded.issued_le
  have hcard := w.card_jobs
  unfold BlockingJobService.admittedCount at hcard
  have hadvance := CapacityEpoch.advance_iterate (e := w.service.capacityEpoch)
    (n := w.service.queue.length) (by omega)
  refine ⟨rfl, rfl, ?_, ?_, id⟩
  · have hs : ServiceLedger.Steps w.service.identity w.service.capacity w.ledger _ :=
      withdrawAll_steps w.service.queue w.ledger rfl
    unfold Steps
    rw [ledger_returnInputs]
    convert hs using 1
    simp [ledger, BlockingJobService.drainQueue, hadvance]
  · simp [returnInputs, BlockingJobService.drainQueue, hadvance]

theorem returnOutputs_append (w : ServiceWorld ι ο) (owner : Owner) (a b : List ο) :
    w.returnOutputs owner (a ++ b) = (w.returnOutputs owner a).returnOutputs owner b := by
  simp [returnOutputs]

theorem filterMap_output_cons (outcome : JobOutcome ο) (rest : List (JobOutcome ο)) :
    (outcome :: rest).filterMap JobOutcome.output? =
      outcome.output?.toList ++ rest.filterMap JobOutcome.output? := by
  cases h : outcome.output? <;> simp [h]

theorem detachActive_refines (h : Valid w) (jobs : List JobId) :
    Refines w ({ w with service := (w.service.detachActive jobs).2 }.returnOutputs .shutdown
      ((w.service.detachActive jobs).1.filterMap JobOutcome.output?)) := by
  induction jobs generalizing w with
  | nil => simpa [BlockingJobService.detachActive, returnOutputs] using Refines.refl w
  | cons job rest ih =>
    have habandon : ∀ state, w.service.active.lookup job = some state →
        state.isRunning = true → Refines w ({ w with
          service := (({ w.service with active := w.service.active.insert job .abandonedRunning } :
            BlockingJobService ι ο).detachActive rest).2 }.returnOutputs .shutdown
          ((({ w.service with active := w.service.active.insert job .abandonedRunning } :
            BlockingJobService ι ο).detachActive rest).1.filterMap JobOutcome.output?)) := by
      intro state hl hr
      have hstep := abandon_refines hl hr
      exact hstep.trans (ih (hstep.valid h))
    cases hl : w.service.active.lookup job with
    | none => simpa only [BlockingJobService.detachActive, hl] using ih h
    | some state =>
        cases state with
        | running => simpa only [BlockingJobService.detachActive, hl] using habandon _ hl rfl
        | abandonedRunning =>
            simpa only [BlockingJobService.detachActive, hl] using habandon _ hl rfl
        | completed outcome =>
            have hstep := retire_refines h .shutdown hl
            have hrest := hstep.trans (ih (hstep.valid h))
            simp only [BlockingJobService.detachActive, hl, filterMap_output_cons,
              returnOutputs_append]
            exact hrest

theorem beginShutdown_refines (h : Valid w) : Refines w w.beginShutdown := by
  have hdrain := drainQueue_refines h
  have hdetach := detachActive_refines (hdrain.valid h)
    (w.service.drainQueue.2.active.keys.mergeSort JobId.le)
  exact (hdrain.trans hdetach).trans (notify_refines _)

/-- Every operation is a sequence of ledger steps. -/
theorem apply_refines (h : Valid w) (op : ServiceOperation ι ο) : Refines w (w.apply op) := by
  cases op with
  | submit input => exact submit_refines w input
  | claim => exact claim_refines h
  | begin worker => exact begin_refines w worker
  | complete worker output => exact complete_refines h worker output
  | dropWorker worker => exact dropWorker_refines h worker
  | cancel job => exact cancel_refines h job
  | consume job => exact consume_refines h job
  | beginShutdown => exact beginShutdown_refines h

end ServiceWorld

end Nocter.BlockingRuntime

/-!
# Runs of the blocking-job service

Submitters, waiters, workers and shutdown interleave freely, because the mutex makes
every operation atomic. The ledger's balance holds in every reachable world, and the
capacity epoch of one moment tells at any later moment whether a slot was released
in between.
-/

namespace Nocter.BlockingRuntime

open KeyedTable TransitionSystem

variable {ι ο : Type}

namespace ServiceWorld

/-- All interleavings over a new service. -/
def runs (identity : ServiceIdentity) (capacity : ServiceCapacity) :
    TransitionSystem (ServiceWorld ι ο) :=
  ofStep (new identity capacity) apply

variable {identity : ServiceIdentity} {capacity : ServiceCapacity} {w w' : ServiceWorld ι ο}

theorem valid_new (identity : ServiceIdentity) (capacity : ServiceCapacity) :
    Valid (new identity capacity : ServiceWorld ι ο) := by
  refine ⟨⟨⟨?_, ?_, ?_, ?_, ?_⟩, ?_, ?_, ?_, ?_⟩, ?_, ?_⟩ <;>
    simp [new, BlockingJobService.new, ledger, ServiceLedger.jobs, ServiceLedger.runningCount,
      CapacityEpoch.initial]

theorem valid_next (h : Valid w) (hn : (runs identity capacity).next w w') : Valid w' := by
  obtain ⟨op, rfl⟩ := hn
  exact (apply_refines h op).valid h

theorem valid_of_reachable (h : (runs identity capacity).Reachable w) : Valid w := by
  refine h.invariant ?_ (fun w w' hw hn => valid_next hw hn)
  rintro w rfl
  exact valid_new identity capacity

theorem refines_of_steps (h : Valid w) (hs : (runs identity capacity).Steps w w') :
    Refines w w' := by
  refine hs.refines (P := Valid) (fun w w' hw hn => valid_next hw hn) Refines.refl
    (fun _ _ _ hr hr' => hr.trans hr') ?_ h
  rintro w w' hw ⟨op, rfl⟩
  exact apply_refines hw op

theorem parameters_of_reachable (h : (runs identity capacity).Reachable w) :
    w.service.identity = identity ∧ w.service.capacity = capacity := by
  obtain ⟨w₀, rfl, hs⟩ := h
  have hr := refines_of_steps (valid_new identity capacity) hs
  exact ⟨hr.identity, hr.capacity⟩

/-- The inputs still inside the service or inside a worker guard. -/
def heldInputs (w : ServiceWorld ι ο) : Multiset ι :=
  ((w.service.queue.map Prod.snd ++ w.guards.filterMap WorkerGuard.input? : List ι) : Multiset ι)

/-- The outputs waiting for their consumer. -/
def heldOutputs (w : ServiceWorld ι ο) : Multiset ο :=
  ((w.service.active.entries.filterMap fun e => e.2.output? : List ο) : Multiset ο)

/-- The job occupies an admission slot. -/
def Admitted (w : ServiceWorld ι ο) (job : JobId) : Prop :=
  job ∈ w.service.queue.map Prod.fst ∨ job ∈ w.service.active

/-- The job was accepted and its slot has been released. -/
def Released (w : ServiceWorld ι ο) (job : JobId) : Prop :=
  job ∈ w.record.issued ∧ ¬ w.Admitted job

theorem mem_jobs_iff (w : ServiceWorld ι ο) (job : JobId) :
    job ∈ w.ledger.jobs ↔ w.Admitted job := by
  have hactive : job ∈ w.service.active ↔ job ∈ w.service.active.entryBag.map Prod.fst := by
    rw [← keys_eq_map, Multiset.mem_coe, AList.mem_keys]
  simp [ServiceLedger.jobs, ledger, Admitted, hactive]

theorem Valid.released_iff (h : Valid w) (job : JobId) :
    w.Released job ↔ w.ledger.Released w.service.identity job := by
  unfold Released ServiceLedger.Released
  rw [mem_jobs_iff, h.issued]
  simp only [List.mem_map, List.mem_range]
  constructor
  · rintro ⟨⟨n, hn, rfl⟩, hnot⟩
    exact ⟨rfl, hn, hnot⟩
  · rintro ⟨hid, hn, hnot⟩
    refine ⟨⟨job.sequence, hn, ?_⟩, hnot⟩
    rw [← hid]

/-- Comparing epochs answers whether a slot was released in between. -/
theorem capacityChangedSince_iff (h : Valid w) (hr : Refines w w') :
    ∃ changed, w'.service.capacityChangedSince w.service.capacityEpoch = .ok changed ∧
      (changed = true ↔ ∃ job, w'.Released job ∧ ¬ w.Released job) := by
  have hown : w.service.capacityEpoch.belongsTo w'.service.identity = true := by
    simp [CapacityEpoch.belongsTo, h.epoch_service, hr.identity]
  refine ⟨_, if_pos hown, ?_⟩
  have hne : w'.service.capacityEpoch ≠ w.service.capacityEpoch ↔
      w'.ledger.released ≠ w.ledger.released := by
    refine not_congr ?_
    rw [CapacityEpoch.ext_iff]
    exact and_iff_right hr.epoch_service
  have hv' := hr.valid h
  rw [bne_iff_ne, hne, ServiceLedger.Steps.released_ne_iff hr.steps h.balanced]
  simp only [h.released_iff, hv'.released_iff, hr.identity]

theorem submit_saturated {s : BlockingJobService ι ο} {input returned : ι}
    {epoch : CapacityEpoch} {s' : BlockingJobService ι ο}
    (h : s.submit input = (.error (.saturated returned epoch), s')) :
    epoch = s.capacityEpoch ∧ s.capacity.maximumJobs ≤ s.admittedCount := by
  unfold BlockingJobService.submit at h
  split_ifs at h with ha hm
  · obtain ⟨he, -⟩ := Prod.mk.inj h
    cases he
    exact ⟨rfl, hm⟩
  · cases hn : checkedAdd u64Max s.nextJob 1 with
    | none =>
      rw [hn] at h
      cases (Prod.mk.inj h).1
    | some next =>
      rw [hn] at h
      cases (Prod.mk.inj h).1
  · cases (Prod.mk.inj h).1

/-- Room after saturation means that a slot was released in between. -/
theorem released_of_room (h : Valid w) (hr : Refines w w')
    (hroom : w'.service.admittedCount < w.service.admittedCount) :
    ∃ job, w'.Released job ∧ ¬ w.Released job := by
  have hv' := hr.valid h
  have hissued := ServiceLedger.Steps.issued_le hr.steps
  have he := h.balanced.bounded.epoch
  have he' := hv'.balanced.bounded.epoch
  rw [card_jobs] at he he'
  have hne : w'.ledger.released ≠ w.ledger.released := by omega
  rw [ServiceLedger.Steps.released_ne_iff hr.steps h.balanced] at hne
  simpa only [h.released_iff, hv'.released_iff, hr.identity] using hne

/-- In every interleaving the admission and worker bounds hold, every payload is held
or was handed back to exactly one owner, identities are fresh, and comparing epochs
detects exactly the releases in between. -/
theorem blocking_service_exact (identity : ServiceIdentity) (capacity : ServiceCapacity)
    {w : ServiceWorld ι ο} (h : (runs identity capacity).Reachable w) :
    w.service.admittedCount ≤ capacity.maximumJobs ∧
      w.service.runningCount ≤ capacity.workers ∧
      (w.record.accepted : Multiset ι) =
        w.heldInputs + (w.record.inputsReturned.map Prod.snd : List ι) ∧
      (w.record.produced : Multiset ο) =
        w.heldOutputs + (w.record.outputsReturned.map Prod.snd : List ο) ∧
      w.record.issued.Nodup ∧
      ∀ w', (runs identity capacity).Steps w w' →
        (∃ changed, w'.service.capacityChangedSince w.service.capacityEpoch = .ok changed ∧
          (changed = true ↔ ∃ job, w'.Released job ∧ ¬ w.Released job)) ∧
        ∀ input returned epoch,
          (w.service.submit input).1 = .error (.saturated returned epoch) →
          w'.service.admittedCount < capacity.maximumJobs →
          w'.service.capacityChangedSince epoch = .ok true := by
  have hv := valid_of_reachable h
  obtain ⟨_, hcap⟩ := parameters_of_reachable h
  have hb := hv.balanced
  rw [hcap] at hb
  refine ⟨?_, ?_, ?_, ?_, ?_, fun w' hs => ?_⟩
  · rw [← card_jobs]
    exact hb.bounded.admitted
  · rw [← runningCount_ledger]
    exact hb.running
  · have hi := hb.inputs
    simp only [ledger, Multiset.map_coe, Multiset.filterMap_coe, Multiset.coe_add] at hi
    simpa only [heldInputs, Multiset.coe_add, List.append_assoc] using hi
  · have ho := hb.outputs
    simp only [ledger, entryBag, Multiset.filterMap_coe, List.filterMap_map] at ho
    exact ho
  · rw [hv.issued]
    exact List.Nodup.map (fun a b he => congrArg JobId.sequence he) List.nodup_range
  · have hr := refines_of_steps hv hs
    have hchanged := capacityChangedSince_iff hv hr
    refine ⟨hchanged, fun input returned epoch hsat hroom => ?_⟩
    obtain ⟨rfl, hfull⟩ := submit_saturated (s := w.service) (Prod.ext hsat rfl)
    rw [hcap] at hfull
    obtain ⟨changed, he, hiff⟩ := hchanged
    rw [he, hiff.mpr (released_of_room hv hr (lt_of_lt_of_le hroom hfull))]

/-- A submitter cancels while the worker runs, and the worker completes afterwards. -/
theorem abandoned_run_exact :
    let w : ServiceWorld ℕ ℕ := [ServiceOperation.submit 5, .submit 6, .claim, .begin 0,
      .cancel ⟨⟨1⟩, 0⟩, .complete 0 7].foldl apply (new ⟨1⟩ ⟨1, 2, by decide, by decide⟩)
    w.record.outputsReturned = [(.worker, 7)] ∧ w.service.admittedCount = 1 ∧
      (w.record.accepted : Multiset ℕ) =
        w.heldInputs + (w.record.inputsReturned.map Prod.snd : List ℕ) ∧
      w.record.issued.Nodup := by
  intro w
  have h := blocking_service_exact ⟨1⟩ ⟨1, 2, by decide, by decide⟩ (w := w)
    (reachable_foldl _ _ _)
  exact ⟨rfl, rfl, h.2.2.1, h.2.2.2.2.1⟩

end ServiceWorld

end Nocter.BlockingRuntime
