import Nocter.BlockingRuntime.RetirementOwnership
import Nocter.Library.TransitionSystem

/-!
# Every retirement operation is a sequence of ledger steps

The waiter's side (consume, detach) and the worker's side (claim, destroy, release)
of the service, and the proof that no operation reaches a fault.
-/

namespace Nocter.BlockingRuntime

open KeyedTable Relation

variable {α : Type}

namespace RetirementWorld

variable {w w' : RetirementWorld α} {retirement : RetirementId}

theorem reserved_pos_of_active (h : Valid w) {state : ActiveRetirement}
    (hl : w.service.active.lookup retirement = some state) : 0 < w.service.reserved := by
  have hres : w.service.reserved = _ := h.balanced.reserved
  have hcard : 0 < w.service.active.entryBag.card :=
    Multiset.card_pos_iff_exists_mem.mpr ⟨_, mem_entryBag.mpr hl⟩
  rw [hres]
  simp only [ledger]
  omega

/-- Removing a completed retirement and releasing its unit. -/
theorem settle_refines (h : Valid w) (hl : w.service.active.lookup retirement = some .completed) :
    ∃ service, ({ w.service with active := w.service.active.erase retirement } :
        RetirementService α).releaseReservation = .ok service ∧
      Refines w { w with service } := by
  refine ⟨_, released_eq h (reserved_pos_of_active h hl) rfl rfl, rfl, rfl,
    ReflTransGen.single ?_, id⟩
  exact .settle w.ledger (entryBag_of_lookup hl)

theorem consume_refines (h : Valid w) (retirement : RetirementId) :
    ∃ r, w.service.consume retirement = .ok r ∧ Refines w { w with service := r.2 } := by
  unfold RetirementService.consume
  cases hl : w.service.active.lookup retirement with
  | none =>
    by_cases hq : w.service.queue.any fun queued => queued.identity = some retirement
    · exact ⟨_, if_pos hq, Refines.refl w⟩
    · exact ⟨_, if_neg hq, Refines.refl w⟩
  | some state =>
    cases state with
    | completed =>
      obtain ⟨service, hs, hr⟩ := settle_refines h hl
      simp only [RetirementService.releaseAndNotify, hs, Except.map]
      exact ⟨_, rfl, hr.trans (notify_refines _)⟩
    | _ => exact ⟨_, rfl, Refines.refl w⟩

theorem detachQueued_eq {queue queue' : List (QueuedRetirement α)}
    (h : RetirementService.detachQueued retirement queue = some queue') :
    ∃ resource rest, (queue : Multiset (QueuedRetirement α)) =
        ⟨some retirement, resource⟩ ::ₘ rest ∧
      (queue' : Multiset (QueuedRetirement α)) = ⟨none, resource⟩ ::ₘ rest := by
  induction queue generalizing queue' with
  | nil => cases h
  | cons queued tail ih =>
    unfold RetirementService.detachQueued at h
    split_ifs at h with hid
    · cases h
      refine ⟨queued.resource, tail, ?_, rfl⟩
      rw [← hid]
      rfl
    · obtain ⟨tail', ht, rfl⟩ := Option.map_eq_some_iff.mp h
      obtain ⟨resource, rest, he, he'⟩ := ih ht
      refine ⟨resource, queued ::ₘ rest, ?_, ?_⟩
      · rw [← Multiset.cons_coe, he, Multiset.cons_swap]
      · rw [← Multiset.cons_coe, he', Multiset.cons_swap]

theorem detachRunning_refines (hl : w.service.active.lookup retirement = some .running) :
    Refines w { w with
      service := { w.service with
        active := w.service.active.insert retirement .detachedRunning } } := by
  refine ⟨rfl, rfl, ReflTransGen.single ?_, id⟩
  exact .detachRunning w.ledger (entryBag_of_lookup hl)

theorem detach_refines (h : Valid w) (retirement : RetirementId) :
    ∃ r, w.service.detach retirement = .ok r ∧ Refines w { w with service := r.2 } := by
  unfold RetirementService.detach
  cases hq : RetirementService.detachQueued retirement w.service.queue with
  | some queue =>
    obtain ⟨resource, rest, he, he'⟩ := detachQueued_eq hq
    refine ⟨_, rfl, rfl, rfl, ReflTransGen.single ?_, id⟩
    have hs : RetirementLedger.Step w.service.identity w.service.capacity w.ledger _ :=
      .detachQueued w.ledger he
    convert hs using 1
    simp [ledger, he']
  | none =>
    cases hl : w.service.active.lookup retirement with
    | none => exact ⟨_, rfl, Refines.refl w⟩
    | some state =>
        cases state with
        | running => exact ⟨_, rfl, detachRunning_refines hl⟩
        | detachedRunning => exact ⟨_, rfl, Refines.refl w⟩
        | completed =>
          obtain ⟨service, hs, hr⟩ := settle_refines h hl
          simp only [RetirementService.releaseAndNotify, hs, Except.map]
          exact ⟨_, rfl, hr.trans (notify_refines _)⟩

/-- Forgetting every queued identity, entry by entry. -/
theorem forgetQueue_steps {identity : ServiceIdentity} {capacity : RetirementCapacity}
    (queue : List (QueuedRetirement α)) (rest : Multiset (QueuedRetirement α))
    (l : RetirementLedger α) (hq : l.queued = queue + rest) :
    RetirementLedger.Steps identity capacity l { l with
      queued := (queue.map fun queued => { queued with identity := none } :
        List (QueuedRetirement α)) + rest } := by
  induction queue generalizing rest l with
  | nil =>
    have he : { l with queued := ((([] : List (QueuedRetirement α)).map
        fun queued => { queued with identity := none } : List (QueuedRetirement α)) :
          Multiset (QueuedRetirement α)) + rest } = l := by
      cases l
      simp_all
    rw [he]
    exact ReflTransGen.refl
  | cons queued tail ih =>
    let forgotten : QueuedRetirement α := { queued with identity := none }
    have hmap : (((queued :: tail).map fun queued => { queued with identity := none } :
        List (QueuedRetirement α)) : Multiset (QueuedRetirement α)) + rest =
        (tail.map fun queued => { queued with identity := none } :
          List (QueuedRetirement α)) + forgotten ::ₘ rest := by
      simp only [List.map_cons, ← Multiset.cons_coe, Multiset.cons_add, Multiset.add_cons,
        forgotten]
    rw [hmap]
    have hfirst : RetirementLedger.Steps identity capacity l
        { l with queued := tail + forgotten ::ₘ rest } := by
      rw [← Multiset.cons_coe, Multiset.cons_add] at hq
      rw [Multiset.add_cons]
      obtain ⟨observed, resource⟩ := queued
      cases observed with
      | none =>
          rw [← hq]
          exact ReflTransGen.refl
      | some retirement => exact ReflTransGen.single (.detachQueued l hq)
    exact ReflTransGen.trans hfirst
      (ih (forgotten ::ₘ rest) { l with queued := tail + forgotten ::ₘ rest } rfl)

theorem detachActive_refines (h : Valid w) (retirements : List RetirementId) :
    ∃ r, w.service.detachActive retirements = .ok r ∧ Refines w { w with service := r.2 } := by
  induction retirements generalizing w with
  | nil => exact ⟨_, rfl, Refines.refl w⟩
  | cons retirement rest ih =>
    unfold RetirementService.detachActive
    cases hl : w.service.active.lookup retirement with
    | none => exact ih h
    | some state =>
      cases state with
      | detachedRunning => exact ih h
      | running =>
        have hstep := detachRunning_refines hl
        obtain ⟨r, he, hr⟩ := ih (hstep.valid h)
        simp only at he
        simp only [he, Except.map]
        exact ⟨_, rfl, hstep.trans hr⟩
      | completed =>
        obtain ⟨service, hs, hstep⟩ := settle_refines h hl
        obtain ⟨r, he, hr⟩ := ih (hstep.valid h)
        simp only at he
        simp only [hs, he, Except.map]
        exact ⟨_, rfl, hstep.trans hr⟩

theorem detachAll_refines (h : Valid w) :
    ∃ service, w.service.detachAll = .ok service ∧ Refines w { w with service } := by
  have hforget : Refines w { w with
      service := { w.service with
        queue := w.service.queue.map fun queued => { queued with identity := none } } } := by
    refine ⟨rfl, rfl, ?_, id⟩
    have hs : RetirementLedger.Steps w.service.identity w.service.capacity w.ledger _ :=
      forgetQueue_steps w.service.queue 0 w.ledger (add_zero _).symm
    convert hs using 1
    simp [ledger]
  obtain ⟨r, he, hr⟩ := detachActive_refines (hforget.valid h)
    (w.service.active.keys.mergeSort RetirementId.le)
  simp only at he
  simp only [RetirementService.detachAll, he]
  refine ⟨_, rfl, ?_⟩
  split_ifs
  · exact (hforget.trans hr).trans (notify_refines _)
  · exact hforget.trans hr

theorem runningCount_ledger (w : RetirementWorld α) :
    w.ledger.runningCount = w.service.runningCount := by
  simp [ledger, RetirementLedger.runningCount, RetirementService.runningCount, countValues_eq]

theorem claim_refines (h : Valid w) : ∃ w', w.claim = .ok w' ∧ Refines w w' := by
  unfold claim RetirementService.claim
  by_cases hfull : w.service.runningCount = w.service.capacity.workers
  · rw [if_pos hfull]
    exact ⟨_, rfl, Refines.refl w⟩
  · rw [if_neg hfull]
    have hrunning := h.balanced.running
    rw [runningCount_ledger] at hrunning
    have hworker : w.ledger.runningCount < w.service.capacity.workers := by
      rw [runningCount_ledger]
      omega
    cases hq : w.service.queue with
    | nil => exact ⟨_, rfl, Refines.refl w⟩
    | cons head queue =>
        obtain ⟨observed, resource⟩ := head
        cases observed with
        | none =>
          refine ⟨_, rfl, rfl, rfl, ReflTransGen.single ?_, id⟩
          have hqueued : w.ledger.queued = ⟨none, resource⟩ ::ₘ
              (queue : Multiset (QueuedRetirement α)) := by
            simp [ledger, hq]
          exact .claimUnobserved w.ledger hqueued hworker
        | some retirement =>
          have hqueued : w.ledger.queued = ⟨some retirement, resource⟩ ::ₘ
              (queue : Multiset (QueuedRetirement α)) := by
            simp [ledger, hq]
          have hnew : w.service.active.lookup retirement = none := by
            have hnd := h.balanced.own.nodup
            have hids : w.ledger.identities = retirement ::ₘ
                ((queue : Multiset (QueuedRetirement α)).filterMap QueuedRetirement.identity +
                  w.ledger.active.map Prod.fst) := by
              simp only [RetirementLedger.identities, hqueued]
              rw [← Multiset.cons_add]
              simp
            rw [hids, Multiset.nodup_cons, Multiset.mem_add, not_or] at hnd
            rw [Option.eq_none_iff_forall_ne_some]
            intro state hl
            exact hnd.1.2 (Multiset.mem_map.mpr ⟨_, mem_entryBag.mpr hl, rfl⟩)
          simp only [hnew, Option.isSome_none, Bool.false_eq_true, if_false]
          refine ⟨_, rfl, rfl, rfl, ReflTransGen.single ?_, id⟩
          have hs : RetirementLedger.Step w.service.identity w.service.capacity w.ledger _ :=
            .claim w.ledger hqueued hworker
          convert hs using 1
          simp [ledger, entryBag_insert, erase_of_lookup_none hnew]

theorem destroy_refines (w : RetirementWorld α) (worker : ℕ) : Refines w (w.destroy worker) := by
  unfold destroy
  rcases hg : w.guards[worker]? with _ | ⟨observed, _ | resource⟩
  · exact Refines.refl w
  · exact Refines.refl w
  · refine ⟨rfl, rfl, ReflTransGen.single ?_, id⟩
    have hs : RetirementLedger.Step w.service.identity w.service.capacity w.ledger _ :=
      .destroy w.ledger (coe_eq_cons_eraseIdx hg)
    convert hs using 1
    simp [ledger, coe_append_singleton]

theorem abort_refines (w : RetirementWorld α) (worker : ℕ) : Refines w (w.abort worker) := by
  unfold abort
  rcases hg : w.guards[worker]? with _ | ⟨observed, _ | resource⟩
  · exact Refines.refl w
  · exact ⟨rfl, rfl, ReflTransGen.single (.abort w.ledger (coe_eq_cons_eraseIdx hg)), id⟩
  · exact Refines.refl w

/-- An observed guard's identity is active and owned by a worker. -/
theorem Valid.guard_active (h : Valid w) {worker : ℕ} {resource : Option α}
    (hg : w.guards[worker]? = some ⟨some retirement, resource⟩) :
    ∃ state, w.service.active.lookup retirement = some state ∧ state.isRunning = true := by
  have hmem : retirement ∈ w.ledger.guards.filterMap RetiringResource.identity :=
    (Multiset.mem_filterMap _ _).mpr ⟨_, Multiset.mem_coe.mpr (List.mem_of_getElem? hg), rfl⟩
  have hrun := Multiset.mem_of_le h.balanced.observed hmem
  obtain ⟨⟨retirement', state⟩, hin, rfl⟩ := Multiset.mem_map.mp hrun
  obtain ⟨hbag, hr⟩ := Multiset.mem_filter.mp hin
  exact ⟨state, mem_entryBag.mp hbag, hr⟩

theorem release_refines (h : Valid w) (worker : ℕ) :
    ∃ w', w.release worker = .ok w' ∧ Refines w w' := by
  unfold release
  rcases hg : w.guards[worker]? with _ | ⟨observed, _ | resource⟩
  · exact ⟨_, rfl, Refines.refl w⟩
  · cases observed with
    | some retirement =>
      obtain ⟨state, hl, hrun⟩ := h.guard_active hg
      cases state with
      | completed => cases hrun
      | running =>
          simp only [RetiringResource.release, hl, Except.map]
          refine ⟨_, rfl, rfl, rfl, ReflTransGen.single ?_, id⟩
          exact .finish w.ledger (coe_eq_cons_eraseIdx hg) (entryBag_of_lookup hl)
      | detachedRunning =>
          have hrel := released_eq h (reserved_pos_of_active h hl)
            (s := { w.service with active := w.service.active.erase retirement }) rfl rfl
          simp only [RetiringResource.release, hl, RetirementService.releaseAndNotify, hrel,
            Except.map]
          refine ⟨_, rfl, rfl, rfl, ReflTransGen.single ?_, id⟩
          exact .finishDetached w.ledger (coe_eq_cons_eraseIdx hg) (entryBag_of_lookup hl)
    | none =>
      have hcount : 0 < w.service.unobservedRunning := by
        refine lt_of_lt_of_le ?_ h.balanced.unobserved
        exact Multiset.countP_pos.mpr ⟨_, Multiset.mem_coe.mpr (List.mem_of_getElem? hg), rfl⟩
      have hpos : 0 < w.service.reserved := by
        have hres : w.service.reserved = _ := h.balanced.reserved
        rw [hres]
        simp only [ledger]
        omega
      have hrel := released_eq h hpos (s := { w.service with
        unobservedRunning := w.service.unobservedRunning - 1 }) rfl rfl
      simp only [RetiringResource.release, if_neg (Nat.ne_of_gt hcount),
        RetirementService.releaseAndNotify, hrel, Except.map]
      refine ⟨_, rfl, rfl, rfl, ReflTransGen.single ?_, id⟩
      exact .finishUnobserved w.ledger (coe_eq_cons_eraseIdx hg)
        (Nat.succ_pred_eq_of_pos hcount).symm
  · exact ⟨_, rfl, Refines.refl w⟩

theorem closeAdmission_refines (w : RetirementWorld α) :
    Refines w { w with service := w.service.closeAdmission } := by
  unfold RetirementService.closeAdmission
  split_ifs
  · exact ⟨rfl, rfl, ReflTransGen.refl, id⟩
  · exact Refines.refl w

/-- No operation faults, and every operation is a sequence of ledger steps. -/
theorem apply_refines (h : Valid w) (op : RetirementOperation α) :
    ∃ w', w.apply op = .ok w' ∧ Refines w w' := by
  cases op with
  | reserve => exact ⟨_, rfl, reserve_refines h⟩
  | dropPermit index => exact dropPermit_refines h index
  | attach index resource => exact attach_refines h index resource
  | retire index => exact retire_refines h index
  | dropOwner index => exact dropOwner_refines h index
  | consume retirement =>
    obtain ⟨r, he, hr⟩ := consume_refines h retirement
    exact ⟨_, by simp only [apply, he, Except.map], hr⟩
  | detach retirement =>
    obtain ⟨r, he, hr⟩ := detach_refines h retirement
    exact ⟨_, by simp only [apply, he, Except.map], hr⟩
  | detachAll =>
    obtain ⟨service, he, hr⟩ := detachAll_refines h
    exact ⟨_, by simp only [apply, he, Except.map], hr⟩
  | claim => exact claim_refines h
  | destroy worker => exact ⟨_, rfl, destroy_refines w worker⟩
  | release worker => exact release_refines h worker
  | abort worker => exact ⟨_, rfl, abort_refines w worker⟩
  | closeAdmission => exact ⟨_, rfl, closeAdmission_refines w⟩

end RetirementWorld

end Nocter.BlockingRuntime

/-!
# Runs of the retirement service

Permits, owners, waiters and cleanup workers interleave freely. In every reachable
world the reservation is accounted for, no operation can panic, and every attached
resource is in one place or was destroyed once.
-/

namespace Nocter.BlockingRuntime

open KeyedTable TransitionSystem

variable {α : Type}

namespace RetirementWorld

/-- All interleavings over a new service. -/
def runs (identity : ServiceIdentity) (capacity : RetirementCapacity) :
    TransitionSystem (RetirementWorld α) :=
  ofFallible (new identity capacity) apply

variable {identity : ServiceIdentity} {capacity : RetirementCapacity} {w w' : RetirementWorld α}

theorem valid_new (identity : ServiceIdentity) (capacity : RetirementCapacity) :
    Valid (new identity capacity : RetirementWorld α) := by
  refine ⟨⟨?_, ?_, ?_, ?_, ⟨?_, ?_⟩, ?_, ?_, ?_⟩, ⟨?_, ?_⟩⟩ <;>
    simp [new, RetirementService.new, ledger, RetirementLedger.identities,
      RetirementLedger.runningIdentities, RetirementLedger.runningCount, RetirementEpoch.initial]

theorem refines_next (h : Valid w) (hn : (runs identity capacity).next w w') : Refines w w' := by
  obtain ⟨op, hop⟩ := hn
  obtain ⟨w'', he, hr⟩ := apply_refines h op
  rw [hop] at he
  cases he
  exact hr

theorem valid_of_reachable (h : (runs identity capacity).Reachable w) : Valid w := by
  refine h.invariant ?_ (fun w w' hw hn => (refines_next hw hn).valid hw)
  rintro w rfl
  exact valid_new identity capacity

theorem capacity_of_reachable (h : (runs identity capacity).Reachable w) :
    w.service.capacity = capacity := by
  obtain ⟨w₀, rfl, hs⟩ := h
  have hr : Refines (new identity capacity) w :=
    hs.refines (P := Valid) (fun w w' hw hn => (refines_next hw hn).valid hw) Refines.refl
      (fun _ _ _ hr hr' => hr.trans hr') (fun w w' hw hn => refines_next hw hn)
      (valid_new identity capacity)
  exact hr.capacity

/-- Every live owner holds a resource, so the bag of owned resources counts them. -/
theorem card_owners (h : Valid w) : w.ledger.owners.card = w.owners.length := by
  have hall : ∀ owners : List (ResourceOwner α),
      (∀ owner ∈ owners, ∃ resource, owner = ⟨some resource, true⟩) →
        (owners.filterMap ResourceOwner.resource).length = owners.length := by
    intro owners ho
    induction owners with
    | nil => rfl
    | cons owner rest ih =>
        obtain ⟨resource, rfl⟩ := ho owner (by simp)
        have hrest := ih fun owner hmem => ho owner (List.mem_cons_of_mem _ hmem)
        simp [hrest]
  exact hall w.owners h.handles.owners

/-- An active retirement is running or completed. -/
theorem running_add_completed (s : RetirementService α) :
    s.runningCount + s.snapshot.completed = s.unobservedRunning + s.active.entries.length := by
  have hsplit := List.length_eq_countP_add_countP
    (fun e : (_ : RetirementId) × ActiveRetirement => e.2.isRunning) (l := s.active.entries)
  have hnot : ∀ state : ActiveRetirement, state.isCompleted = !state.isRunning := by
    intro state
    cases state <;> rfl
  simp only [RetirementService.runningCount, RetirementService.snapshot, countValues, hnot]
  simp only [Bool.not_eq_true, Bool.decide_eq_false] at hsplit
  omega

/-- The resources of the owners, of the queue and of the worker guards. -/
def heldResources (w : RetirementWorld α) : Multiset α :=
  ((w.owners.filterMap ResourceOwner.resource ++ w.service.queue.map QueuedRetirement.resource ++
    w.guards.filterMap RetiringResource.resource : List α) : Multiset α)

theorem heldResources_of_drained (h : Valid w) (hd : w.service.snapshot.drained = true) :
    w.heldResources = 0 := by
  have hres : w.service.reserved = _ := h.balanced.reserved
  have hzero : w.service.reserved = 0 := by
    simpa [RetirementSnapshot.drained, RetirementService.snapshot] using hd
  have howners := card_owners h
  simp only [ledger, Multiset.coe_card, card_entryBag] at hres howners
  have hactive : w.service.active.entryBag = 0 := by
    rw [← Multiset.card_eq_zero, card_entryBag]
    omega
  have hobs := h.balanced.observed
  have hunobs := h.balanced.unobserved
  have hguards : w.guards = [] := by
    rw [List.eq_nil_iff_forall_not_mem]
    rintro ⟨observed, resource⟩ hmem
    cases observed with
    | none =>
      have hpos : 0 < w.ledger.guards.countP fun g => g.identity = none :=
        Multiset.countP_pos.mpr ⟨_, Multiset.mem_coe.mpr hmem, rfl⟩
      simp only [ledger] at hpos hunobs
      omega
    | some retirement =>
      have hin : retirement ∈ w.ledger.guards.filterMap RetiringResource.identity :=
        (Multiset.mem_filterMap _ _).mpr ⟨_, Multiset.mem_coe.mpr hmem, rfl⟩
      have hrun := Multiset.mem_of_le hobs hin
      simp [RetirementLedger.runningIdentities, ledger, hactive] at hrun
  have hq : w.service.queue = [] := List.length_eq_zero_iff.mp (by omega)
  have ho : w.owners.filterMap ResourceOwner.resource = [] :=
    List.length_eq_zero_iff.mp (by omega)
  simp [heldResources, hguards, hq, ho]

/-- In every interleaving the reservation is the sum of the permits, live owners and
queued, running and completed retirements, the limits hold, every attached resource
is held once or was destroyed once, and no operation reaches a panic. -/
theorem retirement_reservation_exact (identity : ServiceIdentity) (capacity : RetirementCapacity)
    {w : RetirementWorld α} (h : (runs identity capacity).Reachable w) :
    w.service.reserved = w.permits.length + w.owners.length + w.service.snapshot.queued +
        w.service.snapshot.running + w.service.snapshot.completed ∧
      w.service.reserved ≤ capacity.maximumResources ∧
      w.service.snapshot.running ≤ capacity.workers ∧
      (w.attached : Multiset α) = w.heldResources + (w.destroyed : Multiset α) ∧
      (w.service.snapshot.drained = true → (w.attached : Multiset α) = w.destroyed) ∧
      ∀ op, ∃ w', w.apply op = .ok w' := by
  have hv := valid_of_reachable h
  have hb := hv.balanced
  rw [capacity_of_reachable h] at hb
  have hresources : (w.attached : Multiset α) = w.heldResources + (w.destroyed : Multiset α) := by
    have hr := hb.resources
    simp only [ledger, Multiset.map_coe, Multiset.filterMap_coe, Multiset.coe_add] at hr
    simpa only [heldResources, Multiset.coe_add] using hr
  refine ⟨?_, hb.limit, ?_, hresources, fun hd => ?_, fun op => ?_⟩
  · have hres := hb.reserved
    have howners := card_owners hv
    have hsum := running_add_completed w.service
    simp only [ledger, Multiset.coe_card, card_entryBag] at hres howners
    simp only [RetirementService.snapshot] at hsum ⊢
    omega
  · have hrun := hb.running
    rw [runningCount_ledger] at hrun
    exact hrun
  · rw [hresources, heldResources_of_drained hv hd, zero_add]
  · obtain ⟨w', he, _⟩ := apply_refines hv op
    exact ⟨w', he⟩

/-- A waiter detaches while its resource is destroyed by the worker. -/
theorem detached_run_exact :
    ∃ w : RetirementWorld ℕ, [RetirementOperation.reserve, .attach 0 7, .retire 0, .claim,
        .destroy 0, .detach ⟨⟨1⟩, 0⟩, .release 0].foldlM apply
          (new ⟨1⟩ ⟨1, 1, by decide, by decide⟩) = .ok w ∧
      w.service.snapshot.drained = true ∧ w.destroyed = [7] ∧
      (w.attached : Multiset ℕ) = w.destroyed ∧ w.service.snapshot.running ≤ 1 ∧
      ∀ op, ∃ w', w.apply op = .ok w' := by
  have hrun : [RetirementOperation.reserve, .attach 0 7, .retire 0, .claim, .destroy 0,
      .detach ⟨⟨1⟩, 0⟩, .release 0].foldlM apply
        (new ⟨1⟩ ⟨1, 1, by decide, by decide⟩ : RetirementWorld ℕ) = .ok _ := rfl
  have h := retirement_reservation_exact ⟨1⟩ ⟨1, 1, by decide, by decide⟩ (reachable_foldlM hrun)
  exact ⟨_, hrun, rfl, rfl, h.2.2.2.2.1 rfl, h.2.2.1, h.2.2.2.2.2⟩

end RetirementWorld

end Nocter.BlockingRuntime
