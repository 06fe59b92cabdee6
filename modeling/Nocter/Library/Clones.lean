import Mathlib.Data.List.Forall2
import Mathlib.Data.List.Basic

/-!
# Values and their clones

A program creates values, clones them and applies operations to one of them at a time. Two
kinds of values that answer every operation alike answer every program alike. An operation
changes the value it is applied to and no other.
-/

namespace Nocter.Clones

variable {σ τ ω α : Type}

inductive Command (ω : Type) where
  | create
  | clone (source : ℕ)
  | apply (target : ℕ) (operation : ω)

/-- The value that a command may change. -/
def Command.target : Command ω → Option ℕ
  | .create => none
  | .clone _ => none
  | .apply target _ => some target

/-- A command that names no value does nothing. `none` stands for a trap. -/
def perform (initial : σ) (step : σ → ω → Option (α × σ)) (values : List σ) :
    Command ω → Option (Option α × List σ)
  | .create => some (none, values ++ [initial])
  | .clone source => some (none, values ++ values[source]?.toList)
  | .apply target operation =>
    match values[target]? with
    | none => some (none, values)
    | some value => do
      let (answer, value) ← step value operation
      some (some answer, values.set target value)

def run (initial : σ) (step : σ → ω → Option (α × σ)) :
    List (Command ω) → List σ → Option (List (Option α) × List σ)
  | [], values => some ([], values)
  | command :: commands, values => do
    let (answer, values) ← perform initial step values command
    let (answers, values) ← run initial step commands values
    some (answer :: answers, values)

variable {initial : σ} {step : σ → ω → Option (α × σ)} {start : τ} {next : τ → ω → Option (α × τ)}
  {R : σ → τ → Prop}

theorem forall₂_getElem? {xs : List σ} {ys : List τ} (h : List.Forall₂ R xs ys) (index : ℕ) :
    (xs[index]? = none ∧ ys[index]? = none) ∨
      ∃ x y, xs[index]? = some x ∧ ys[index]? = some y ∧ R x y := by
  induction h generalizing index with
  | nil => exact Or.inl ⟨rfl, rfl⟩
  | cons hxy _ ih =>
    cases index with
    | zero => exact Or.inr ⟨_, _, rfl, rfl, hxy⟩
    | succ index => exact ih index

theorem forall₂_set {xs : List σ} {ys : List τ} (h : List.Forall₂ R xs ys) (index : ℕ) {x : σ}
    {y : τ} (hxy : R x y) : List.Forall₂ R (xs.set index x) (ys.set index y) := by
  induction h generalizing index with
  | nil => exact List.Forall₂.nil
  | cons hhead htail ih =>
    cases index with
    | zero => exact List.Forall₂.cons hxy htail
    | succ index => exact List.Forall₂.cons hhead (ih index)

theorem forall₂_concat {xs : List σ} {ys : List τ} (h : List.Forall₂ R xs ys) {x : σ} {y : τ}
    (hxy : R x y) : List.Forall₂ R (xs ++ [x]) (ys ++ [y]) := by
  induction h with
  | nil => exact List.Forall₂.cons hxy List.Forall₂.nil
  | cons hhead _ ih => exact List.Forall₂.cons hhead ih

/-- Both kinds of values answer an operation, and they answer it alike. -/
def Simulates (R : σ → τ → Prop) (step : σ → ω → Option (α × σ)) (next : τ → ω → Option (α × τ)) :
    Prop :=
  ∀ value model operation, R value model → ∃ answer value' model',
    step value operation = some (answer, value') ∧ next model operation = some (answer, model') ∧
      R value' model'

theorem perform_simulates (hinitial : R initial start) (hsteps : Simulates R step next)
    {values : List σ} {models : List τ} (h : List.Forall₂ R values models) (command : Command ω) :
    ∃ answer values' models', perform initial step values command = some (answer, values') ∧
      perform start next models command = some (answer, models') ∧
      List.Forall₂ R values' models' := by
  cases command with
  | create => exact ⟨none, _, _, rfl, rfl, forall₂_concat h hinitial⟩
  | clone source =>
    refine ⟨none, _, _, rfl, rfl, ?_⟩
    obtain ⟨hvalue, hmodel⟩ | ⟨value, model, hvalue, hmodel, hrelated⟩ := forall₂_getElem? h source
    · rw [hvalue, hmodel, Option.toList_none, Option.toList_none, List.append_nil, List.append_nil]
      exact h
    · rw [hvalue, hmodel]
      exact forall₂_concat h hrelated
  | apply target operation =>
    obtain ⟨hvalue, hmodel⟩ | ⟨value, model, hvalue, hmodel, hrelated⟩ := forall₂_getElem? h target
    · exact ⟨none, values, models, by rw [perform, hvalue], by rw [perform, hmodel], h⟩
    · obtain ⟨answer, value', model', hstep, hnext, hlater⟩ :=
        hsteps value model operation hrelated
      refine ⟨some answer, values.set target value', models.set target model', ?_, ?_,
        forall₂_set h target hlater⟩
      · simp only [perform, hvalue, hstep, Option.bind_eq_bind, Option.bind_some]
      · simp only [perform, hmodel, hnext, Option.bind_eq_bind, Option.bind_some]

/-- Every program runs without a trap, gets the same answers of both kinds of values and
leaves related values. -/
theorem run_simulates (hinitial : R initial start) (hsteps : Simulates R step next)
    (commands : List (Command ω)) {values : List σ} {models : List τ}
    (h : List.Forall₂ R values models) :
    ∃ answers values' models', run initial step commands values = some (answers, values') ∧
      run start next commands models = some (answers, models') ∧
      List.Forall₂ R values' models' := by
  induction commands generalizing values models with
  | nil => exact ⟨[], values, models, rfl, rfl, h⟩
  | cons command commands ih =>
    obtain ⟨answer, values', models', hvalues, hmodels, hlater⟩ :=
      perform_simulates hinitial hsteps h command
    obtain ⟨answers, values'', models'', hrun, hrun', hlast⟩ := ih hlater
    refine ⟨answer :: answers, values'', models'', ?_, ?_, hlast⟩
    · simp only [run, hvalues, hrun, Option.bind_eq_bind, Option.bind_some]
    · simp only [run, hmodels, hrun', Option.bind_eq_bind, Option.bind_some]

theorem perform_untouched {values values' : List σ} {command : Command ω} {answer : Option α}
    (h : perform initial step values command = some (answer, values')) {index : ℕ} {value : σ}
    (hvalue : values[index]? = some value) (htarget : command.target ≠ some index) :
    values'[index]? = some value := by
  have hindex : index < values.length := (List.getElem?_eq_some_iff.mp hvalue).1
  cases command with
  | create =>
    obtain ⟨-, rfl⟩ := Prod.mk.inj (Option.some.inj h)
    rwa [List.getElem?_append_left hindex]
  | clone source =>
    obtain ⟨-, rfl⟩ := Prod.mk.inj (Option.some.inj h)
    rwa [List.getElem?_append_left hindex]
  | apply target operation =>
    have hne : target ≠ index := fun he => htarget (congrArg some he)
    rw [perform] at h
    cases hold : values[target]? with
    | none =>
      rw [hold] at h
      obtain ⟨-, rfl⟩ := Prod.mk.inj (Option.some.inj h)
      exact hvalue
    | some old =>
      rw [hold] at h
      obtain ⟨⟨answer', later⟩, -, hlater⟩ := Option.bind_eq_some_iff.mp h
      obtain ⟨-, rfl⟩ := Prod.mk.inj (Option.some.inj hlater)
      rwa [List.getElem?_set_ne hne]

/-- A value that no command names is left as it is. -/
theorem run_untouched {commands : List (Command ω)} {values values' : List σ}
    {answers : List (Option α)} (h : run initial step commands values = some (answers, values'))
    {index : ℕ} {value : σ} (hvalue : values[index]? = some value)
    (htargets : ∀ command ∈ commands, command.target ≠ some index) :
    values'[index]? = some value := by
  induction commands generalizing values answers with
  | nil =>
    obtain ⟨-, rfl⟩ := Prod.mk.inj (Option.some.inj h)
    exact hvalue
  | cons command commands ih =>
    obtain ⟨⟨answer, later⟩, hstep, hrest⟩ := Option.bind_eq_some_iff.mp h
    obtain ⟨⟨answers', last⟩, hrun, hlast⟩ := Option.bind_eq_some_iff.mp hrest
    obtain ⟨-, rfl⟩ := Prod.mk.inj (Option.some.inj hlast)
    have hkept := perform_untouched hstep hvalue (htargets command List.mem_cons_self)
    exact ih hrun hkept fun other hother => htargets other (List.mem_cons_of_mem _ hother)

end Nocter.Clones
