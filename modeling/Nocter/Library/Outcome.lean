import Mathlib.Data.Nat.Notation
import Mathlib.Logic.Basic

/-!
# Outcomes of checked code

Code that searches for a value hands it out or reports its absence. An access outside of an array
and an operation whose result does not fit trap instead, and end the program.
-/

namespace Nocter

inductive Outcome (α : Type) where
  | value (result : α)
  | absent
  | trapped
deriving DecidableEq

namespace Outcome

variable {α β : Type}

def bind (outcome : Outcome α) (next : α → Outcome β) : Outcome β :=
  match outcome with
  | value result => next result
  | absent => absent
  | trapped => trapped

instance : Monad Outcome where
  pure := value
  bind := bind

@[simp] theorem pure_eq (result : α) : (pure result : Outcome α) = value result := rfl

@[simp] theorem value_bind (result : α) (next : α → Outcome β) : (value result >>= next) = next result := rfl

@[simp] theorem trapped_bind (next : α → Outcome β) : (trapped >>= next) = trapped := rfl

instance : LawfulMonad Outcome := LawfulMonad.mk' Outcome
  (fun outcome => by cases outcome <;> rfl) (fun _ _ => rfl) (fun outcome _ _ => by cases outcome <;> rfl)

/-- An array read. -/
def read (values : List α) (index : ℕ) : Outcome α :=
  match values[index]? with
  | some result => value result
  | none => trapped

/-- The result of an operation on a type with this largest value. -/
def bounded (limit result : ℕ) : Outcome ℕ := if result ≤ limit then value result else trapped

/-- A subtraction of sizes. -/
def minus (left right : ℕ) : Outcome ℕ := if right ≤ left then value (left - right) else trapped

theorem read_eq_value {values : List α} {index : ℕ} {result : α} (h : values[index]? = some result) :
    read values index = value result := by
  rw [read, h]

theorem bounded_eq_value {limit result : ℕ} (h : result ≤ limit) : bounded limit result = value result :=
  if_pos h

theorem minus_eq_value {left right : ℕ} (h : right ≤ left) : minus left right = value (left - right) :=
  if_pos h

/-- The code never traps, and it hands out exactly the values with this property. -/
def Decides (outcome : Outcome α) (P : α → Prop) : Prop :=
  outcome ≠ trapped ∧ ∀ result, outcome = value result ↔ P result

theorem decides_value (result : α) : Decides (value result) (· = result) :=
  ⟨fun h => (by cases h), fun _ => ⟨fun h => (by cases h; rfl), fun h => by rw [h]⟩⟩

theorem decides_absent {P : α → Prop} (h : ∀ result, ¬P result) : Decides absent P :=
  ⟨fun h => (by cases h), fun result => ⟨fun h => (by cases h), fun hP => absurd hP (h result)⟩⟩

theorem Decides.congr {outcome : Outcome α} {P Q : α → Prop} (h : Decides outcome P)
    (hPQ : ∀ result, P result ↔ Q result) : Decides outcome Q :=
  ⟨h.1, fun result => (h.2 result).trans (hPQ result)⟩

theorem Decides.bind {outcome : Outcome α} {next : α → Outcome β} {P : α → Prop} {Q : α → β → Prop}
    (h : Decides outcome P) (hnext : ∀ middle, P middle → Decides (next middle) (Q middle)) :
    Decides (outcome >>= next) fun result => ∃ middle, P middle ∧ Q middle result := by
  cases outcome with
  | value middle =>
    have hmiddle := (h.2 middle).mp rfl
    refine ⟨(hnext middle hmiddle).1, fun result => ?_⟩
    rw [value_bind, (hnext middle hmiddle).2 result]
    constructor
    · exact fun hresult => ⟨middle, hmiddle, hresult⟩
    · rintro ⟨other, hother, hresult⟩
      cases (h.2 other).mpr hother
      exact hresult
  | absent =>
    refine decides_absent fun result => ?_
    rintro ⟨middle, hmiddle, -⟩
    cases (h.2 middle).mpr hmiddle
  | trapped => exact absurd rfl h.1

end Outcome

end Nocter
