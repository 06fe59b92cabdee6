import Mathlib.Tactic
import Nocter.Library.Traversal
import Nocter.Machine.Context

/-!
# The context plan is a least fixed point

A function needs a context when a rule of the program gives it one: it starts with the
context, or it calls, destroys or consumes something that needs it. The rounds of the
plan only add functions the rules give, and stop when the rules add nothing more.
-/

namespace Nocter.Machine

variable (kind : MachineContextKind) (functions : List MachineFunction)

/-- The functions that need the context, by the rules of calls, destructions, packs and frames. -/
inductive Requires : MachineFunctionId → Prop
  | initial {f : MachineFunctionId} {function : MachineFunction}
      (hf : functions[f]? = some function) (h : initialRequirement kind function ≠ .none) :
      Requires f
  | frame {f t : MachineFunctionId} {function : MachineFunction} {frame : MachineAsyncFrame}
      (hf : functions[f]? = some function) (hframe : function.execution = .deferred frame)
      (ht : t ∈ frameTargets frame) (h : Requires t) : Requires f
  | ambient {f : MachineFunctionId} {function : MachineFunction} {operation : MachineOperation}
      {call : MachineCall} (hf : functions[f]? = some function)
      (ho : operation ∈ function.body.operations) (hk : operation.kind = .call call)
      (ht : (∃ contexts, call.target = .primitive contexts ∧
        primitiveUsesContext kind contexts = true) ∨ ∃ callable, call.target = .erased callable)
      (hp : passesIncoming kind call.allocation = true) : Requires f
  | call {f t : MachineFunctionId} {function : MachineFunction} {operation : MachineOperation}
      {call : MachineCall} (hf : functions[f]? = some function)
      (ho : operation ∈ function.body.operations) (hk : operation.kind = .call call)
      (ht : call.target = .direct t) (hp : passesIncoming kind call.allocation = true)
      (h : Requires t) : Requires f
  | drop {f t : MachineFunctionId} {function : MachineFunction} {operation : MachineOperation}
      {place : MachineAddressId} {allocation : MachineCallAllocation}
      (hf : functions[f]? = some function) (ho : operation ∈ function.body.operations)
      (hk : operation.kind = .invokeDrop t place allocation)
      (hp : passesIncoming kind allocation = true) (h : Requires t) : Requires f
  | prepared {f t target : MachineFunctionId} {function : MachineFunction}
      {operation : MachineOperation} {call : MachineCall} {packId : MachinePackId}
      {pack : MachinePack} (hf : functions[f]? = some function)
      (ho : operation ∈ function.body.operations) (hk : operation.kind = .call call)
      (ht : call.target = .direct target) (hpack : call.pack = some (.prepared packId))
      (hknown : function.body.pack packId = some pack)
      (hcallback : t ∈ pack.segments.flatMap segmentCallbacks) (h : Requires t) :
      Requires target
  | forwarded {f target : MachineFunctionId} {function : MachineFunction}
      {operation : MachineOperation} {call : MachineCall} (hf : functions[f]? = some function)
      (ho : operation ∈ function.body.operations) (hk : operation.kind = .call call)
      (ht : call.target = .direct target) (hpack : call.pack = some .forwarded)
      (h : Requires f) : Requires target

/-- Every identity the contexts consult is known. -/
structure Referenced : Prop where
  frames : ∀ function ∈ functions, ∀ frame, function.execution = .deferred frame →
    ∀ t ∈ frameTargets frame, t < functions.length
  calls : ∀ function ∈ functions, ∀ operation ∈ function.body.operations, ∀ call t,
    operation.kind = .call call → call.target = .direct t → t < functions.length
  drops : ∀ function ∈ functions, ∀ operation ∈ function.body.operations,
    ∀ t place allocation, operation.kind = .invokeDrop t place allocation → t < functions.length
  packs : ∀ function ∈ functions, ∀ operation ∈ function.body.operations, ∀ call packId,
    operation.kind = .call call → call.pack = some (.prepared packId) →
    ∃ pack, function.body.pack packId = some pack ∧
      ∀ t ∈ pack.segments.flatMap segmentCallbacks, t < functions.length

/-- The function has the context. -/
def Marked (requirements : Requirements) (f : MachineFunctionId) : Prop :=
  ∃ requirement, requirements[f]? = some requirement ∧ requirement ≠ .none

/-- The second requirements have every context of the first. -/
structure Extends (requirements requirements' : Requirements) : Prop where
  length : requirements'.length = requirements.length
  kept : ∀ (f : ℕ) (requirement : MachineContextRequirement),
    requirements[f]? = some requirement → requirement ≠ .none →
      requirements'[f]? = some requirement

/-- Only needed contexts have been given, each in the way of its function. -/
structure Sound (requirements : Requirements) : Prop where
  length : requirements.length = functions.length
  given : ∀ (f : ℕ) (requirement : MachineContextRequirement),
    requirements[f]? = some requirement → requirement ≠ .none → Requires kind functions f ∧
      ∃ function, functions[f]? = some function ∧ requirement = requirementOf function.kind

variable {kind functions} {requirements requirements' previous : Requirements}
  {f : MachineFunctionId} {function : MachineFunction}

theorem Extends.refl (requirements : Requirements) : Extends requirements requirements :=
  ⟨rfl, fun _ _ h _ => h⟩

theorem Extends.trans {later : Requirements} (h : Extends requirements requirements')
    (h' : Extends requirements' later) : Extends requirements later :=
  ⟨h'.length.trans h.length, fun f r hr hne => h'.kept f r (h.kept f r hr hne) hne⟩

theorem Marked.mono (h : Extends requirements requirements') (hm : Marked requirements f) :
    Marked requirements' f := by
  obtain ⟨requirement, hr, hne⟩ := hm
  exact ⟨requirement, h.kept f requirement hr hne, hne⟩

theorem requirementOf_ne_none (kind : MachineFunctionKind) : requirementOf kind ≠ .none := by
  cases kind <;> decide

section Queries

theorem functionRequires_iff {b : Bool} : functionRequiresContext kind requirements f = .ok b ↔
      ∃ requirement, requirements[f]? = some requirement ∧ b = decide (requirement ≠ .none) := by
  unfold functionRequiresContext
  cases requirements[f]? with
  | none => simp
  | some requirement => simp [eq_comm]

theorem marked_of_requires (h : functionRequiresContext kind requirements f = .ok true) :
    Marked requirements f := by
  obtain ⟨requirement, hr, hne⟩ := functionRequires_iff.mp h
  exact ⟨requirement, hr, of_decide_eq_true hne.symm⟩

theorem requires_of_marked (h : Marked requirements f) :
    functionRequiresContext kind requirements f = .ok true := by
  obtain ⟨requirement, hr, hne⟩ := h
  exact functionRequires_iff.mpr ⟨requirement, hr, (decide_eq_true hne).symm⟩

/-- A search among functions finds one that has the context exactly when there is one. -/
theorem anyRequires_ok {targets : List MachineFunctionId} {b : Bool}
    (h : targets.anyM (functionRequiresContext kind requirements) = .ok b) :
    b = true ↔ ∃ t ∈ targets, Marked requirements t := by
  constructor
  · rintro rfl
    obtain ⟨t, ht, hrequires⟩ := anyM_true h
    exact ⟨t, ht, marked_of_requires hrequires⟩
  · rintro ⟨t, ht, hmarked⟩
    cases b with
    | true => rfl
    | false =>
      have hfalse := anyM_false h t ht
      rw [requires_of_marked hmarked] at hfalse
      cases hfalse

end Queries

/-- Marking gives one function its context and changes nothing else. -/
theorem markRequirement_ok (hs : Sound kind functions requirements)
    (h : markRequirement kind functions requirements f = .ok requirements')
    (hf : Requires kind functions f) :
    Sound kind functions requirements' ∧ Extends requirements requirements' ∧
      Marked requirements' f := by
  unfold markRequirement at h
  cases hr : requirements[f]? with
  | none =>
    rw [hr] at h
    cases h
  | some requirement =>
    rw [hr] at h
    have hlt : f < requirements.length := (List.getElem?_eq_some_iff.mp hr).1
    by_cases hne : requirement ≠ .none
    · simp only [if_pos hne] at h
      cases h
      exact ⟨hs, Extends.refl _, requirement, hr, hne⟩
    · simp only [if_neg hne] at h
      cases hfunction : functions[f]? with
      | none =>
        rw [hfunction] at h
        cases h
      | some target =>
        rw [hfunction] at h
        cases h
        refine ⟨⟨by rw [List.length_set, hs.length], fun g r hg hgne => ?_⟩,
          ⟨by rw [List.length_set], fun g r hg hgne => ?_⟩, requirementOf target.kind,
          by simp [hlt], requirementOf_ne_none _⟩
        · by_cases he : f = g
          · subst he
            simp only [List.getElem?_set_self hlt, Option.some.injEq] at hg
            exact ⟨hf, target, hfunction, hg.symm⟩
          · rw [List.getElem?_set_ne he] at hg
            exact hs.given g r hg hgne
        · by_cases he : f = g
          · subst he
            obtain rfl := Option.some.inj (hr.symm.trans hg)
            exact absurd hgne hne
          · rwa [List.getElem?_set_ne he]

theorem markRequirement_total (kind : MachineContextKind)
    (hlength : requirements.length = functions.length) (hf : f < functions.length) :
    ∃ requirements', markRequirement kind functions requirements f = .ok requirements' ∧
      requirements'.length = functions.length := by
  have hlt : f < requirements.length := hlength.symm ▸ hf
  unfold markRequirement
  cases hr : requirements[f]? with
  | none => exact absurd hlt (not_lt.mpr (List.getElem?_eq_none_iff.mp hr))
  | some requirement =>
    rw [List.getElem?_eq_getElem hf]
    by_cases hne : requirement ≠ .none
    · exact ⟨requirements, if_pos hne, hlength⟩
    · refine ⟨requirements.set f (requirementOf functions[f].kind), if_neg hne, ?_⟩
      rw [List.length_set, hlength]

section Bodies

/-- What a function needs its context for, within its own body. -/
theorem bodyRequires_true (hs : Sound kind functions previous) (hf : functions[f]? = some function)
    (h : bodyRequiresContext kind previous function = .ok true) : Requires kind functions f := by
  unfold bodyRequiresContext at h
  obtain ⟨b, hframe, h⟩ := except_bind_ok.mp h
  have hneeds : ∀ t, Marked previous t → Requires kind functions t := by
    rintro t ⟨requirement, hr, hne⟩
    exact (hs.given t requirement hr hne).1
  cases b with
  | true =>
    unfold asyncFrameRequiresContext at hframe
    cases hexecution : function.execution with
    | immediate =>
      rw [hexecution] at hframe
      cases hframe
    | deferred frame =>
      rw [hexecution] at hframe
      obtain ⟨t, ht, hmarked⟩ := (anyRequires_ok hframe).mp rfl
      exact .frame hf hexecution ht (hneeds t hmarked)
  | false =>
    obtain ⟨operation, ho, hoperation⟩ := anyM_true h
    unfold operationRequiresContext at hoperation
    split at hoperation
    · rename_i call hk
      obtain ⟨target, htarget, hoperation⟩ := except_bind_ok.mp hoperation
      obtain ⟨rfl, hp⟩ := Bool.and_eq_true_iff.mp (Except.ok.inj hoperation)
      unfold targetRequiresContext at htarget
      split at htarget
      · rename_i t ht
        exact .call hf ho hk ht hp (hneeds t (marked_of_requires htarget))
      · rename_i contexts ht
        exact .ambient hf ho hk (Or.inl ⟨contexts, ht, Except.ok.inj htarget⟩) hp
      · cases htarget
      · rename_i callable ht
        exact .ambient hf ho hk (Or.inr ⟨callable, ht⟩) hp
    · rename_i t place allocation hk
      obtain ⟨target, htarget, hoperation⟩ := except_bind_ok.mp hoperation
      obtain ⟨rfl, hp⟩ := Bool.and_eq_true_iff.mp (Except.ok.inj hoperation)
      exact .drop hf ho hk hp (hneeds t (marked_of_requires htarget))
    · cases hoperation

theorem bodyRequires_false (h : bodyRequiresContext kind previous function = .ok false) :
    asyncFrameRequiresContext kind previous function = .ok false ∧
      ∀ operation ∈ function.body.operations,
        operationRequiresContext kind previous operation.kind = .ok false := by
  unfold bodyRequiresContext at h
  obtain ⟨b, hframe, h⟩ := except_bind_ok.mp h
  cases b with
  | true => cases h
  | false => exact ⟨hframe, anyM_false h⟩

/-- A body that passed on no context uses none. -/
theorem bodyRequires_of (b : Bool) (h : bodyRequiresContext kind previous function = .ok b)
    (hneeds : (∃ frame t, function.execution = .deferred frame ∧ t ∈ frameTargets frame ∧
        Marked previous t) ∨
      ∃ operation ∈ function.body.operations,
        operationRequiresContext kind previous operation.kind = .ok true ∨
        operationRequiresContext kind previous operation.kind ≠ .ok false) : b = true := by
  cases b with
  | true => rfl
  | false =>
    obtain ⟨hframe, hoperations⟩ := bodyRequires_false h
    rcases hneeds with ⟨frame, t, hexecution, ht, hmarked⟩ | ⟨operation, ho, hcase⟩
    · unfold asyncFrameRequiresContext at hframe
      rw [hexecution] at hframe
      exact absurd ((anyRequires_ok hframe).mpr ⟨t, ht, hmarked⟩) (by decide)
    · have hfalse := hoperations operation ho
      rcases hcase with htrue | hne
      · rw [htrue] at hfalse
        cases hfalse
      · exact absurd hfalse hne

end Bodies

section Rounds

/-- The pack a call passes calls back functions that have the context. -/
def PackNeeds (previous : Requirements) (f : MachineFunctionId) (function : MachineFunction)
    (call : MachineCall) : Prop :=
  (∃ packId pack t, call.pack = some (.prepared packId) ∧
    function.body.pack packId = some pack ∧ t ∈ pack.segments.flatMap segmentCallbacks ∧
    Marked previous t) ∨
  call.pack = some .forwarded ∧ Marked previous f

/-- The function an operation passes such a pack to has the context. -/
def PackMarked (previous : Requirements) (f : MachineFunctionId) (function : MachineFunction)
    (operation : MachineOperation) (requirements : Requirements) : Prop :=
  ∀ call target, operation.kind = .call call → call.target = .direct target →
    PackNeeds previous f function call → Marked requirements target

theorem PackMarked.mono {operation : MachineOperation} (h : Extends requirements requirements')
    (hm : PackMarked previous f function operation requirements) :
    PackMarked previous f function operation requirements' :=
  fun call target hk ht hneeds => (hm call target hk ht hneeds).mono h

/-- What one operation of a function with needed contexts marks is needed. -/
theorem propagateOperation_ok {operation : MachineOperation}
    (hprevious : Sound kind functions previous) (hs : Sound kind functions requirements)
    (hf : functions[f]? = some function) (ho : operation ∈ function.body.operations)
    (h : propagateOperation kind functions previous f function requirements operation.kind =
      .ok requirements') : Sound kind functions requirements' ∧ Extends requirements requirements' ∧
      PackMarked previous f function operation requirements' := by
  have hneeds : ∀ t, Marked previous t → Requires kind functions t := by
    rintro t ⟨requirement, hr, hne⟩
    exact (hprevious.given t requirement hr hne).1
  unfold propagateOperation at h
  split at h
  · rename_i call hk
    split at h
    · rename_i target ht
      split at h
      · rename_i packId hpack
        cases hknown : function.body.pack packId with
        | none =>
          rw [hknown] at h
          cases h
        | some pack =>
          rw [hknown] at h
          obtain ⟨b, hb, h⟩ := except_bind_ok.mp h
          have hany := anyRequires_ok hb
          cases b with
          | true =>
            obtain ⟨t, hcallback, hmarked⟩ := hany.mp rfl
            obtain ⟨hs', hext, hmark⟩ := markRequirement_ok hs h
              (.prepared hf ho hk ht hpack hknown hcallback (hneeds t hmarked))
            refine ⟨hs', hext, fun call' target' hk' ht' _ => ?_⟩
            obtain rfl := MachineOperationKind.call.inj (hk.symm.trans hk')
            obtain rfl := MachineCallTarget.direct.inj (ht.symm.trans ht')
            exact hmark
          | false =>
            cases h
            refine ⟨hs, Extends.refl _, fun call' target' hk' ht' hcase => ?_⟩
            obtain rfl := MachineOperationKind.call.inj (hk.symm.trans hk')
            rcases hcase with ⟨packId', pack', t, hpack', hknown', hcallback, hmarked⟩ | ⟨hpack', _⟩
            · obtain rfl := MachineCallPack.prepared.inj (Option.some.inj (hpack.symm.trans hpack'))
              obtain rfl := Option.some.inj (hknown.symm.trans hknown')
              exact absurd (hany.mpr ⟨t, hcallback, hmarked⟩) (by decide)
            · rw [hpack] at hpack'
              cases hpack'
      · rename_i hpack
        obtain ⟨b, hb, h⟩ := except_bind_ok.mp h
        cases b with
        | true =>
          obtain ⟨hs', hext, hmark⟩ := markRequirement_ok hs h
            (.forwarded hf ho hk ht hpack (hneeds f (marked_of_requires hb)))
          refine ⟨hs', hext, fun call' target' hk' ht' _ => ?_⟩
          obtain rfl := MachineOperationKind.call.inj (hk.symm.trans hk')
          obtain rfl := MachineCallTarget.direct.inj (ht.symm.trans ht')
          exact hmark
        | false =>
          cases h
          refine ⟨hs, Extends.refl _, fun call' target' hk' ht' hcase => ?_⟩
          obtain rfl := MachineOperationKind.call.inj (hk.symm.trans hk')
          rcases hcase with ⟨packId', _, _, hpack', _⟩ | ⟨_, hmarked⟩
          · rw [hpack] at hpack'
            cases hpack'
          · rw [requires_of_marked hmarked] at hb
            cases hb
      · rename_i hpack
        cases h
        refine ⟨hs, Extends.refl _, fun call' target' hk' ht' hcase => ?_⟩
        obtain rfl := MachineOperationKind.call.inj (hk.symm.trans hk')
        rcases hcase with ⟨packId', _, _, hpack', _⟩ | ⟨hpack', _⟩ <;>
          · rw [hpack] at hpack'
            cases hpack'
    · rename_i hnot
      cases h
      refine ⟨hs, Extends.refl _, fun call' target' hk' ht' _ => ?_⟩
      obtain rfl := MachineOperationKind.call.inj (hk.symm.trans hk')
      exact absurd ht' (hnot target')
  · rename_i hnot
    cases h
    exact ⟨hs, Extends.refl _, fun call target hk _ _ => absurd hk (hnot call)⟩

/-- What a round leaves behind: the rules have been applied once to the previous contexts. -/
structure Applied (kind : MachineContextKind) (functions : List MachineFunction)
    (previous requirements : Requirements) : Prop where
  bodies : ∀ (f : ℕ) (function : MachineFunction), functions[f]? = some function →
    ∃ b, bodyRequiresContext kind previous function = .ok b ∧ (b = true → Marked requirements f)
  packs : ∀ (f : ℕ) (function : MachineFunction), functions[f]? = some function →
    ∀ operation ∈ function.body.operations,
      PackMarked previous f function operation requirements

theorem propagate_ok (hs : Sound kind functions previous)
    (h : propagate kind functions previous = .ok requirements') :
    Sound kind functions requirements' ∧ Extends previous requirements' ∧
      Applied kind functions previous requirements' := by
  unfold propagate at h
  obtain ⟨middle, hpacks, hbodies⟩ := except_bind_ok.mp h
  have hentry : ∀ entry ∈ functions.zipIdx, functions[entry.2]? = some entry.1 :=
    fun entry hentry => List.mem_zipIdx_iff_getElem?.mp hentry
  -- the calls of one function
  have hfunction : ∀ entry ∈ functions.zipIdx, ∀ s t, entry.1.body.operations.foldlM
      (fun requirements operation => propagateOperation kind functions previous entry.2 entry.1
        requirements operation.kind) s = .ok t → Sound kind functions s →
      Sound kind functions t ∧ Extends s t ∧ ∀ operation ∈ entry.1.body.operations,
        PackMarked previous entry.2 entry.1 operation t := by
    intro entry hmem s t hstep hI
    refine foldlM_ok_spec (I := Sound kind functions) (R := Extends)
      (Q := PackMarked previous entry.2 entry.1) Extends.refl (fun _ _ _ h h' => h.trans h')
      (fun _ _ _ hle hQ => hQ.mono hle) ?_ hstep hI
    exact fun operation ho s t hoperation hI =>
      propagateOperation_ok hs hI (hentry entry hmem) ho hoperation
  obtain ⟨hsound, hext, hmarked⟩ := foldlM_ok_spec (I := Sound kind functions) (R := Extends)
    (Q := fun (entry : MachineFunction × ℕ) requirements =>
      ∀ operation ∈ entry.1.body.operations,
        PackMarked previous entry.2 entry.1 operation requirements)
    Extends.refl (fun _ _ _ h h' => h.trans h')
    (fun _ _ _ hle hQ operation ho => (hQ operation ho).mono hle) hfunction hpacks hs
  obtain ⟨hsound', hext', hmarked'⟩ := foldlM_ok_spec (I := Sound kind functions) (R := Extends)
    (Q := fun (entry : MachineFunction × ℕ) requirements => ∃ b, bodyRequiresContext kind previous entry.1 = .ok b ∧
      (b = true → Marked requirements entry.2))
    Extends.refl (fun _ _ _ h h' => h.trans h')
    (fun entry s t hle ⟨b, hb, hmark⟩ => ⟨b, hb, fun he => (hmark he).mono hle⟩)
    (fun entry hmem s t hstep hI => by
      obtain ⟨b, hb, hstep⟩ := except_bind_ok.mp hstep
      cases b with
      | true =>
        obtain ⟨hs', hle, hmark⟩ := markRequirement_ok hI hstep
          (bodyRequires_true hs (hentry entry hmem) hb)
        exact ⟨hs', hle, true, hb, fun _ => hmark⟩
      | false =>
        cases hstep
        exact ⟨hI, Extends.refl _, false, hb, fun he => by cases he⟩) hbodies hsound
  refine ⟨hsound', hext.trans hext', fun f function hf => ?_, fun f function hf operation ho => ?_⟩
  · exact hmarked' (function, f) (List.mem_zipIdx_iff_getElem?.mpr hf)
  · exact (hmarked (function, f) (List.mem_zipIdx_iff_getElem?.mpr hf) operation ho).mono hext'

/-- Without unknown identities a round has a result. -/
theorem propagate_total (kind : MachineContextKind) (hr : Referenced functions)
    (hlength : previous.length = functions.length) :
    ∃ requirements', propagate kind functions previous = .ok requirements' := by
  have hentry : ∀ entry ∈ functions.zipIdx, entry.1 ∈ functions ∧ entry.2 < functions.length := by
    intro entry hentry
    have hget := List.mem_zipIdx_iff_getElem?.mp hentry
    exact ⟨List.mem_of_getElem? hget, (List.getElem?_eq_some_iff.mp hget).1⟩
  have hknown : ∀ t, t < functions.length → ∃ b, functionRequiresContext kind previous t = .ok b :=
    fun t ht => ⟨_, functionRequires_iff.mpr
      ⟨_, List.getElem?_eq_getElem (hlength.symm ▸ ht), rfl⟩⟩
  have hpacks : ∃ middle, propagatePackCallbacks kind functions previous previous = .ok middle ∧
      middle.length = functions.length := by
    refine foldlM_total (I := fun requirements : Requirements =>
      requirements.length = functions.length) (fun entry hmem s hs => ?_) hlength
    obtain ⟨hin, hlt⟩ := hentry entry hmem
    refine foldlM_total (fun operation ho s hs => ?_) hs
    unfold propagateOperation
    split
    · rename_i call hk
      split
      · rename_i target ht
        have htarget := hr.calls entry.1 hin operation ho call target hk ht
        split
        · rename_i packId hpack
          obtain ⟨pack, hpackKnown, hcallbacks⟩ :=
            hr.packs entry.1 hin operation ho call packId hk hpack
          have hany : ∃ b, (pack.segments.flatMap segmentCallbacks).anyM
              (functionRequiresContext kind previous) = .ok b :=
            anyM_total fun t ht => hknown t (hcallbacks t ht)
          obtain ⟨b, hb⟩ := hany
          rw [hpackKnown]
          cases b with
          | true =>
            obtain ⟨t, ht, hlen⟩ := markRequirement_total kind hs htarget
            exact ⟨t, except_bind_ok.mpr ⟨true, hb, ht⟩, hlen⟩
          | false => exact ⟨s, except_bind_ok.mpr ⟨false, hb, rfl⟩, hs⟩
        · obtain ⟨b, hb⟩ := hknown entry.2 hlt
          cases b with
          | true =>
            obtain ⟨t, ht, hlen⟩ := markRequirement_total kind hs htarget
            exact ⟨t, except_bind_ok.mpr ⟨true, hb, ht⟩, hlen⟩
          | false => exact ⟨s, except_bind_ok.mpr ⟨false, hb, rfl⟩, hs⟩
        · exact ⟨s, rfl, hs⟩
      · exact ⟨s, rfl, hs⟩
    · exact ⟨s, rfl, hs⟩
  obtain ⟨middle, hmiddle, hlen⟩ := hpacks
  have hbodies : ∃ last, propagateFunctionBodies kind functions previous middle = .ok last ∧
      last.length = functions.length := by
    refine foldlM_total (I := fun requirements : Requirements =>
      requirements.length = functions.length) (fun entry hmem s hs => ?_) hlen
    obtain ⟨hin, hlt⟩ := hentry entry hmem
    have hframe : ∃ b, asyncFrameRequiresContext kind previous entry.1 = .ok b := by
      unfold asyncFrameRequiresContext
      split
      · rename_i frame hexecution
        exact anyM_total fun t ht => hknown t (hr.frames entry.1 hin frame hexecution t ht)
      · exact ⟨false, rfl⟩
    have hoperations : ∃ b, (entry.1.body.operations.anyM fun operation =>
        operationRequiresContext kind previous operation.kind) = .ok b := by
      refine anyM_total fun operation ho => ?_
      unfold operationRequiresContext
      split
      · rename_i call hk
        have htarget : ∃ b, targetRequiresContext kind previous call.target = .ok b := by
          unfold targetRequiresContext
          split
          · rename_i t ht
            exact hknown t (hr.calls entry.1 hin operation ho call t hk ht)
          · exact ⟨_, rfl⟩
          · exact ⟨_, rfl⟩
          · exact ⟨_, rfl⟩
        obtain ⟨b, hb⟩ := htarget
        exact ⟨_, except_bind_ok.mpr ⟨b, hb, rfl⟩⟩
      · rename_i t place allocation hk
        obtain ⟨b, hb⟩ := hknown t (hr.drops entry.1 hin operation ho t place allocation hk)
        exact ⟨_, except_bind_ok.mpr ⟨b, hb, rfl⟩⟩
      · exact ⟨false, rfl⟩
    have hbody : ∃ b, bodyRequiresContext kind previous entry.1 = .ok b := by
      obtain ⟨b, hb⟩ := hframe
      cases b with
      | true => exact ⟨true, except_bind_ok.mpr ⟨true, hb, rfl⟩⟩
      | false =>
        obtain ⟨b, hrest⟩ := hoperations
        exact ⟨b, except_bind_ok.mpr ⟨false, hb, hrest⟩⟩
    obtain ⟨b, hb⟩ := hbody
    cases b with
    | true =>
      obtain ⟨t, ht, hlen⟩ := markRequirement_total kind hs hlt
      exact ⟨t, except_bind_ok.mpr ⟨true, hb, ht⟩, hlen⟩
    | false => exact ⟨s, except_bind_ok.mpr ⟨false, hb, rfl⟩, hs⟩
  obtain ⟨last, hlast, _⟩ := hbodies
  exact ⟨last, except_bind_ok.mpr ⟨middle, hmiddle, hlast⟩⟩

/-- How many functions have not been given the context. -/
def missing (requirements : Requirements) : ℕ := List.count .none requirements

/-- A round that changes something leaves fewer functions without the context. -/
theorem Extends.missing_lt (h : Extends requirements requirements') (hne : requirements' ≠ requirements) :
    missing requirements' < missing requirements := by
  have hall : List.Forall₂ (fun a b : MachineContextRequirement => a ≠ .none → b = a)
      requirements requirements' := by
    refine List.forall₂_iff_get.mpr ⟨h.length.symm, fun i hi hi' hne => ?_⟩
    have hkept := h.kept i _ (List.getElem?_eq_getElem hi) hne
    exact Option.some.inj ((List.getElem?_eq_getElem hi').symm.trans hkept)
  have hcount : requirements'.count .none ≤ requirements.count .none ∧
      (requirements'.count .none = requirements.count .none → requirements' = requirements) := by
    clear h hne
    induction hall with
    | nil => exact ⟨le_rfl, fun _ => rfl⟩
    | @cons a b rest rest' hab _ ih =>
      by_cases ha : a = .none
      · subst ha
        by_cases hb : b = .none
        · subst hb
          rw [List.count_cons_self, List.count_cons_self]
          refine ⟨Nat.succ_le_succ ih.1, fun he => ?_⟩
          rw [ih.2 (Nat.succ.inj he)]
        · rw [List.count_cons_self, List.count_cons_of_ne hb]
          refine ⟨ih.1.trans (Nat.le_succ _), fun he => ?_⟩
          have hle := ih.1
          omega
      · obtain rfl := hab ha
        rw [List.count_cons_of_ne ha, List.count_cons_of_ne ha]
        refine ⟨ih.1, fun he => ?_⟩
        rw [ih.2 he]
  exact lt_of_le_of_ne hcount.1 fun he => hne (hcount.2 he)

/-- When a round changes nothing, every rule has been followed. -/
theorem marked_of_applied (h : Applied kind functions previous previous)
    (hinitial : ∀ (f : ℕ) (function : MachineFunction), functions[f]? = some function →
      initialRequirement kind function ≠ .none → Marked previous f)
    (hf : Requires kind functions f) : Marked previous f := by
  have hoperation : ∀ {f : ℕ} {function : MachineFunction} {operation : MachineOperation},
      functions[f]? = some function → operation ∈ function.body.operations →
      operationRequiresContext kind previous operation.kind = .ok true → Marked previous f := by
    intro f function operation hf ho htrue
    obtain ⟨b, hb, hmark⟩ := h.bodies f function hf
    exact hmark (bodyRequires_of b hb (Or.inr ⟨operation, ho, Or.inl htrue⟩))
  induction hf with
  | initial hf hne => exact hinitial _ _ hf hne
  | frame hf hframe ht _ ih =>
    obtain ⟨b, hb, hmark⟩ := h.bodies _ _ hf
    exact hmark (bodyRequires_of b hb (Or.inl ⟨_, _, hframe, ht, ih⟩))
  | ambient hf ho hk ht hp =>
    refine hoperation hf ho ?_
    rw [hk]
    refine except_bind_ok.mpr ⟨true, ?_, by rw [hp]; rfl⟩
    rcases ht with ⟨contexts, ht, huses⟩ | ⟨callable, ht⟩
    · rw [ht, ← huses]
      rfl
    · rw [ht]
      rfl
  | call hf ho hk ht hp _ ih =>
    refine hoperation hf ho ?_
    rw [hk]
    refine except_bind_ok.mpr ⟨true, ?_, by rw [hp]; rfl⟩
    rw [ht]
    exact requires_of_marked ih
  | drop hf ho hk hp _ ih =>
    refine hoperation hf ho ?_
    rw [hk]
    exact except_bind_ok.mpr ⟨true, requires_of_marked ih, by rw [hp]; rfl⟩
  | prepared hf ho hk ht hpack hknown hcallback _ ih =>
    exact h.packs _ _ hf _ ho _ _ hk ht (Or.inl ⟨_, _, _, hpack, hknown, hcallback, ih⟩)
  | forwarded hf ho hk ht hpack _ ih =>
    exact h.packs _ _ hf _ ho _ _ hk ht (Or.inr ⟨hpack, ih⟩)

end Rounds

/-- The plan gives the context to exactly the functions that need it. -/
structure LeastPlan (kind : MachineContextKind) (functions : List MachineFunction)
    (plan : Requirements) : Prop where
  length : plan.length = functions.length
  needed : ∀ (f : ℕ) (function : MachineFunction), functions[f]? = some function →
    Requires kind functions f → plan[f]? = some (requirementOf function.kind)
  unneeded : ∀ (f : ℕ) (function : MachineFunction), functions[f]? = some function →
    ¬ Requires kind functions f → plan[f]? = some .none
  supplied : ∀ (f : ℕ) (function : MachineFunction), functions[f]? = some function →
    ∀ operation ∈ function.body.operations, ∀ call, operation.kind = .call call →
      callRequiresIncoming kind plan call = .ok true →
      plan[f]? = some (requirementOf function.kind)

theorem leastPlan_of_applied {plan : Requirements} (hs : Sound kind functions plan)
    (h : Applied kind functions plan plan)
    (hinitial : ∀ (f : ℕ) (function : MachineFunction), functions[f]? = some function →
      initialRequirement kind function ≠ .none → Marked plan f) :
    LeastPlan kind functions plan := by
  have hneeded : ∀ (f : ℕ) (function : MachineFunction), functions[f]? = some function →
      Requires kind functions f → plan[f]? = some (requirementOf function.kind) := by
    intro f function hf hrequires
    obtain ⟨requirement, hr, hne⟩ := marked_of_applied h hinitial hrequires
    obtain ⟨_, function', hf', rfl⟩ := hs.given f requirement hr hne
    rwa [Option.some.inj (hf.symm.trans hf')]
  refine ⟨hs.length, hneeded, fun f function hf hnot => ?_,
    fun f function hf operation ho call hk hcall => hneeded f function hf ?_⟩
  · have hlt : f < plan.length := hs.length ▸ (List.getElem?_eq_some_iff.mp hf).1
    have hget := List.getElem?_eq_getElem hlt
    by_cases hne : plan[f] = .none
    · rw [hget, hne]
    · exact absurd (hs.given f _ hget hne).1 hnot
  · obtain ⟨b, hb, hmark⟩ := h.bodies f function hf
    have htrue : operationRequiresContext kind plan operation.kind = .ok true := by
      rw [hk]
      exact hcall
    obtain ⟨requirement, hr, hne⟩ :=
      hmark (bodyRequires_of b hb (Or.inr ⟨operation, ho, Or.inl htrue⟩))
    exact (hs.given f requirement hr hne).1

/-- For every call graph the rounds end; without unknown identities they end with a plan, and
every plan gives the context to exactly the functions that need it. -/
theorem context_plan_least (kind : MachineContextKind) (functions : List MachineFunction) :
    ∃ bound, ∀ rounds, bound ≤ rounds → ∃ outcome,
      buildPlan kind functions rounds = some outcome ∧
      (Referenced functions → ∃ plan, outcome = .ok plan) ∧
      ∀ plan, outcome = .ok plan → LeastPlan kind functions plan := by
  let first := functions.map (initialRequirement kind)
  have hrequirement : ∀ function : MachineFunction, initialRequirement kind function ≠ .none →
      initialRequirement kind function = requirementOf function.kind := by
    rintro ⟨functionKind, execution, body⟩ hne
    cases kind <;> cases functionKind <;> cases execution <;>
      first | rfl | exact absurd rfl hne
  refine ⟨missing first + 1, fun rounds hrounds => ?_⟩
  refine Loop.attempt_spec
    (P := fun previous => Sound kind functions previous ∧
      ∀ (f : ℕ) (function : MachineFunction), functions[f]? = some function →
        initialRequirement kind function ≠ .none → Marked previous f)
    missing ?_ ?_ hrounds
  · rintro previous ⟨hs, hinitial⟩
    cases hround : propagate kind functions previous with
    | error error =>
      right
      refine ⟨.error error, by simp only [buildRound, hround], fun hr => ?_, fun plan hplan => ?_⟩
      · obtain ⟨next, hnext⟩ := propagate_total kind hr hs.length
        rw [hround] at hnext
        cases hnext
      · cases hplan
    | ok next =>
      obtain ⟨hs', hext, happlied⟩ := propagate_ok hs hround
      by_cases hsame : next = previous
      · right
        subst hsame
        refine ⟨.ok next, by simp only [buildRound, hround, if_true], fun _ => ⟨next, rfl⟩, ?_⟩
        rintro plan ⟨⟩
        exact leastPlan_of_applied hs happlied hinitial
      · left
        refine ⟨next, by simp only [buildRound, hround, if_neg hsame], ⟨hs', fun f function hf hne =>
          (hinitial f function hf hne).mono hext⟩, hext.missing_lt hsame⟩
  · refine ⟨⟨List.length_map _, fun f requirement hr hne => ?_⟩, fun f function hf hne => ?_⟩
    · rw [List.getElem?_map] at hr
      obtain ⟨function, hf, rfl⟩ := Option.map_eq_some_iff.mp hr
      exact ⟨.initial hf hne, function, hf, hrequirement function hne⟩
    · exact ⟨initialRequirement kind function, by rw [List.getElem?_map, hf]; rfl, hne⟩

section Reachability

variable (kind functions)

/-- Following calls and cleanup alone: the function reads the context itself, calls a callable
value, or reaches a function that does. -/
inductive Reaches : MachineFunctionId → Prop
  | reads {f : MachineFunctionId} {function : MachineFunction} {operation : MachineOperation}
      {call : MachineCall} (hf : functions[f]? = some function)
      (ho : operation ∈ function.body.operations) (hk : operation.kind = .call call)
      (ht : (∃ contexts, call.target = .primitive contexts ∧
        primitiveUsesContext kind contexts = true) ∨ ∃ callable, call.target = .erased callable) :
      Reaches f
  | call {f t : MachineFunctionId} {function : MachineFunction} {operation : MachineOperation}
      {call : MachineCall} (hf : functions[f]? = some function)
      (ho : operation ∈ function.body.operations) (hk : operation.kind = .call call)
      (ht : call.target = .direct t) (h : Reaches t) : Reaches f
  | drop {f t : MachineFunctionId} {function : MachineFunction} {operation : MachineOperation}
      {place : MachineAddressId} {allocation : MachineCallAllocation}
      (hf : functions[f]? = some function) (ho : operation ∈ function.body.operations)
      (hk : operation.kind = .invokeDrop t place allocation) (h : Reaches t) : Reaches f
  | frame {f t : MachineFunctionId} {function : MachineFunction} {frame : MachineAsyncFrame}
      (hf : functions[f]? = some function) (hframe : function.execution = .deferred frame)
      (ht : t ∈ frameTargets frame) (h : Reaches t) : Reaches f

end Reachability

/-- A function with one operation, a call. -/
def calling (target : MachineCallTarget) (allocation : MachineCallAllocation) : MachineFunction :=
  { kind := .callable
    execution := .immediate
    body :=
      { addresses := [], values := [], packs := [], blocks := [], entry := 0
        operations := [⟨.call ⟨target, [], allocation, none⟩, none⟩] } }

/-- Reaching an allocation is not needing the context: a caller that names the allocation of
its call has no lane, though its callee allocates from its own. -/
theorem explicit_allocation_stops_context : ¬ ∀ functions : List MachineFunction,
    ∀ rounds plan, buildPlan .allocation functions rounds = some (.ok plan) →
    ∀ f, f < functions.length →
      (plan[f]? ≠ some .none ↔ Reaches .allocation functions f) := by
  intro h
  let inner := calling (.primitive ⟨true, false⟩) .inherit
  let outer := calling (.direct 1) (.explicit 0)
  have hcase := h [outer, inner] 2 [.none, .incoming] rfl 0 (by decide)
  refine hcase.mpr ?_ rfl
  have houter : [outer, inner][0]? = some outer := rfl
  have hinner : [outer, inner][1]? = some inner := rfl
  refine .call houter List.mem_cons_self rfl rfl ?_
  exact .reads hinner List.mem_cons_self rfl (Or.inl ⟨⟨true, false⟩, rfl, rfl⟩)

end Nocter.Machine
