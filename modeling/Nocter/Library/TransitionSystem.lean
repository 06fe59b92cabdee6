import Mathlib.Logic.Relation
import Mathlib.Data.Set.Basic

/-!
# Transition systems and their runs

A system is a set of initial states and a step relation. Safety is proved by
exhibiting a predicate that holds initially and is kept by one step; facts about
two or more moments of one run are proved from relations that every step refines.
-/

namespace Nocter

universe u v

structure TransitionSystem (σ : Type u) where
  initial : σ → Prop
  next : σ → σ → Prop

namespace TransitionSystem

variable {σ : Type u} (S : TransitionSystem σ)

/-- A run of any length between two states. -/
def Steps : σ → σ → Prop := Relation.ReflTransGen S.next

def Reachable (s : σ) : Prop := ∃ s₀, S.initial s₀ ∧ S.Steps s₀ s

variable {S}

theorem Steps.refl (s : σ) : S.Steps s s := Relation.ReflTransGen.refl

theorem Steps.trans {s t u : σ} (h : S.Steps s t) (h' : S.Steps t u) : S.Steps s u :=
  Relation.ReflTransGen.trans h h'

theorem Steps.single {s t : σ} (h : S.next s t) : S.Steps s t := Relation.ReflTransGen.single h

theorem Reachable.of_initial {s : σ} (h : S.initial s) : S.Reachable s := ⟨s, h, Steps.refl s⟩

theorem Reachable.steps {s t : σ} (hs : S.Reachable s) (h : S.Steps s t) : S.Reachable t := by
  obtain ⟨s₀, h₀, hr⟩ := hs
  exact ⟨s₀, h₀, hr.trans h⟩

theorem Reachable.next {s t : σ} (hs : S.Reachable s) (h : S.next s t) : S.Reachable t :=
  hs.steps (Steps.single h)

/-- A predicate kept by every step is kept by every run. -/
theorem Steps.invariant {P : σ → Prop} (hstep : ∀ s t, P s → S.next s t → P t)
    {s t : σ} (h : S.Steps s t) (hs : P s) : P t := by
  induction h with
  | refl => exact hs
  | tail _ hn ih => exact hstep _ _ ih hn

theorem Reachable.invariant {P : σ → Prop} (hinit : ∀ s, S.initial s → P s)
    (hstep : ∀ s t, P s → S.next s t → P t) {s : σ} (h : S.Reachable s) : P s := by
  obtain ⟨s₀, h₀, hr⟩ := h
  exact hr.invariant hstep (hinit s₀ h₀)

/-- Every run between states satisfying an inductive predicate refines any
reflexive and transitive relation that its single steps refine. -/
theorem Steps.refines {P : σ → Prop} {R : σ → σ → Prop}
    (hP : ∀ s t, P s → S.next s t → P t) (hrefl : ∀ s, R s s)
    (htrans : ∀ s t u, R s t → R t u → R s u)
    (hstep : ∀ s t, P s → S.next s t → R s t) {s t : σ} (h : S.Steps s t) (hs : P s) : R s t := by
  induction h with
  | refl => exact hrefl s
  | @tail t u ht hn ih =>
    have hpt : P t := Steps.invariant (S := S) hP ht hs
    exact htrans _ _ _ ih (hstep _ _ hpt hn)

/-- The system of a total step function on operations, started in one state. -/
def ofStep {ω : Type v} (s₀ : σ) (step : σ → ω → σ) : TransitionSystem σ where
  initial s := s = s₀
  next s t := ∃ op, step s op = t

theorem reachable_foldl {ω : Type v} (s₀ : σ) (step : σ → ω → σ) (ops : List ω) :
    (ofStep s₀ step).Reachable (ops.foldl step s₀) := by
  suffices h : ∀ s, (ofStep s₀ step).Reachable s →
    (ofStep s₀ step).Reachable (ops.foldl step s) from h s₀ (Reachable.of_initial rfl)
  induction ops with
  | nil => exact fun s hs => hs
  | cons op ops ih => exact fun s hs => ih _ (hs.next ⟨op, rfl⟩)

/-- The system of a step function that may fault; a faulting operation is no step. -/
def ofFallible {ω : Type v} {ε : Type v} (s₀ : σ) (step : σ → ω → Except ε σ) :
    TransitionSystem σ where
  initial s := s = s₀
  next s t := ∃ op, step s op = .ok t

theorem reachable_foldlM {ω : Type v} {ε : Type v} {s₀ s : σ} {step : σ → ω → Except ε σ}
    {ops : List ω} (h : ops.foldlM step s₀ = .ok s) : (ofFallible s₀ step).Reachable s := by
  suffices hall : ∀ t, (ofFallible s₀ step).Reachable t → ops.foldlM step t = .ok s →
    (ofFallible s₀ step).Reachable s from hall s₀ (Reachable.of_initial rfl) h
  clear h
  induction ops with
  | nil =>
    intro t ht h
    cases h
    exact ht
  | cons op ops ih =>
    intro t ht h
    rw [List.foldlM_cons] at h
    cases hs : step t op with
    | error e =>
      rw [hs] at h
      cases h
    | ok u =>
      rw [hs] at h
      exact ih u (ht.next ⟨op, hs⟩) h

/-- The system of a step function without a result where it cannot go on. -/
def ofPartial {ω : Type v} (s₀ : σ) (step : σ → ω → Option σ) : TransitionSystem σ where
  initial s := s = s₀
  next s t := ∃ op, step s op = some t

theorem reachable_of_run {ω : Type v} {s₀ s : σ} {step : σ → ω → Option σ} {ops : List ω}
    (h : ops.foldlM step s₀ = some s) : (ofPartial s₀ step).Reachable s := by
  suffices hall : ∀ t, (ofPartial s₀ step).Reachable t → ops.foldlM step t = some s →
    (ofPartial s₀ step).Reachable s from hall s₀ (Reachable.of_initial rfl) h
  clear h
  induction ops with
  | nil =>
    intro t ht h
    cases h
    exact ht
  | cons op ops ih =>
    intro t ht h
    rw [List.foldlM_cons] at h
    obtain ⟨u, hu, hrest⟩ := Option.bind_eq_some_iff.mp h
    exact ih u (ht.next ⟨op, hu⟩) hrest

end TransitionSystem

end Nocter
