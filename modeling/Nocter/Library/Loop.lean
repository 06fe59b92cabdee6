import Mathlib.Data.Nat.Notation
import Mathlib.Data.Sum.Basic

/-!
# Loops

The body of a loop either goes on with new values of its variables or returns.
A loop whose body decreases a measure has a result; in general returning is a
relation between the first values of the variables and the result.
-/

namespace Nocter

universe u v

namespace Loop

variable {σ : Type u} {ρ : Type v}

/-- The loop started with these variables returns this result. -/
inductive Returns (body : σ → σ ⊕ ρ) : σ → ρ → Prop
  | done {s : σ} {r : ρ} (h : body s = .inr r) : Returns body s r
  | again {s t : σ} {r : ρ} (h : body s = .inl t) (ht : Returns body t r) : Returns body s r

theorem Returns.unique {body : σ → σ ⊕ ρ} {s : σ} {r r' : ρ} (h : Returns body s r)
    (h' : Returns body s r') : r = r' := by
  induction h with
  | done hb =>
    cases h' with
    | done hb' => exact Sum.inr.inj (hb.symm.trans hb')
    | again hb' _ => cases hb.symm.trans hb'
  | again hb _ ih =>
    cases h' with
    | done hb' => cases hb.symm.trans hb'
    | again hb' ht' =>
      obtain rfl := Sum.inl.inj (hb.symm.trans hb')
      exact ih ht'

theorem Returns.of_next {body : σ → σ ⊕ ρ} {s t : σ} {r : ρ} (hb : body s = .inl t)
    (h : Returns body s r) : Returns body t r := by
  cases h with
  | done hb' => cases hb.symm.trans hb'
  | again hb' ht =>
    obtain rfl := Sum.inl.inj (hb.symm.trans hb')
    exact ht

/-- A loop whose body leaves its variables as they are never returns. -/
theorem not_returns_of_fixed {body : σ → σ ⊕ ρ} {s : σ} (hb : body s = .inl s) (r : ρ) :
    ¬ Returns body s r := by
  intro h
  generalize hs : s = t at h
  induction h with
  | done hb' =>
    subst hs
    cases hb.symm.trans hb'
  | again hb' _ ih =>
    subst hs
    exact ih (Sum.inl.inj (hb.symm.trans hb'))

/-- A body that decreases a measure whenever it goes on. -/
def Decreases (body : σ → σ ⊕ ρ) (measure : σ → ℕ) : Prop :=
  ∀ s t, body s = .inl t → measure t < measure s

section Bounded

variable (body : σ → σ ⊕ ρ) (measure : σ → ℕ) (decreases : Decreases body measure)

def iterateWithin : (fuel : ℕ) → (s : σ) → measure s < fuel → ρ
  | 0, _, h => absurd h (Nat.not_lt_zero _)
  | fuel + 1, s, h =>
    match hb : body s with
    | .inr r => r
    | .inl t =>
      iterateWithin fuel t (Nat.lt_of_lt_of_le (decreases s t hb) (Nat.le_of_lt_succ h))

/-- The result of a loop whose body decreases a measure. -/
def iterate (s : σ) : ρ := iterateWithin body measure decreases (measure s + 1) s (Nat.lt_succ_self _)

theorem iterateWithin_returns (fuel : ℕ) (s : σ) (h : measure s < fuel) :
    Returns body s (iterateWithin body measure decreases fuel s h) := by
  induction fuel generalizing s with
  | zero => exact absurd h (Nat.not_lt_zero _)
  | succ fuel ih =>
    rw [iterateWithin]
    split
    · next r hb => exact .done hb
    · next t hb => exact .again hb (ih t _)

theorem iterate_returns (s : σ) : Returns body s (iterate body measure decreases s) :=
  iterateWithin_returns body measure decreases _ s _

end Bounded

variable {body : σ → σ ⊕ ρ} {measure : σ → ℕ} {decreases : Decreases body measure}

theorem iterate_eq_iff {s : σ} {r : ρ} :
    iterate body measure decreases s = r ↔ Returns body s r := by
  constructor
  · rintro rfl
    exact iterate_returns body measure decreases s
  · exact fun h => (iterate_returns body measure decreases s).unique h

theorem iterate_of_done {s : σ} {r : ρ} (hb : body s = .inr r) :
    iterate body measure decreases s = r := iterate_eq_iff.mpr (.done hb)

/-- What the body keeps while it goes on and guarantees when it returns holds of
the result. -/
theorem Returns.invariant {P : σ → Prop} {Q : ρ → Prop}
    (hnext : ∀ s t, P s → body s = .inl t → P t) (hdone : ∀ s r, P s → body s = .inr r → Q r)
    {s : σ} {r : ρ} (h : Returns body s r) (hs : P s) : Q r := by
  induction h with
  | done hb => exact hdone _ _ hs hb
  | again hb _ ih => exact ih (hnext _ _ hs hb)

/-- The result of a loop that makes at most so many passes. -/
def within (body : σ → σ ⊕ ρ) : ℕ → σ → Option ρ
  | 0, _ => none
  | passes + 1, s =>
    match body s with
    | .inr r => some r
    | .inl t => within body passes t

theorem within_of_done {s : σ} {r : ρ} (hb : body s = .inr r) (passes : ℕ) :
    within body (passes + 1) s = some r := by
  rw [within, hb]

theorem within_of_again {s t : σ} (hb : body s = .inl t) (passes : ℕ) :
    within body (passes + 1) s = within body passes t := by
  rw [within, hb]

/-- A loop whose body decreases a measure has a result within enough passes. -/
theorem within_spec {body : σ → σ ⊕ ρ} {P : σ → Prop} {Q : ρ → Prop} (measure : σ → ℕ)
    (hnext : ∀ s t, P s → body s = .inl t → P t ∧ measure t < measure s)
    (hdone : ∀ s r, P s → body s = .inr r → Q r) {passes : ℕ} {s : σ} (hs : P s)
    (hpasses : measure s < passes) : ∃ r, within body passes s = some r ∧ Q r := by
  induction passes generalizing s with
  | zero => exact absurd hpasses (Nat.not_lt_zero _)
  | succ passes ih =>
    cases hb : body s with
    | inr r =>
      rw [within_of_done hb]
      exact ⟨r, rfl, hdone s r hs hb⟩
    | inl t =>
      obtain ⟨ht, hless⟩ := hnext s t hs hb
      rw [within_of_again hb]
      exact ih ht (by omega)

/-- What the body keeps while it goes on and guarantees when it returns holds of a result that
is found within so many passes. -/
theorem within_sound {body : σ → σ ⊕ ρ} {P : σ → Prop} {Q : ρ → Prop}
    (hnext : ∀ s t, P s → body s = .inl t → P t) (hdone : ∀ s r, P s → body s = .inr r → Q r)
    {passes : ℕ} {s : σ} {r : ρ} (hs : P s) (h : within body passes s = some r) : Q r := by
  induction passes generalizing s with
  | zero => cases h
  | succ passes ih =>
    cases hb : body s with
    | inr r' =>
      rw [within_of_done hb] at h
      exact Option.some.inj h ▸ hdone s r' hs hb
    | inl t =>
      rw [within_of_again hb] at h
      exact ih (hnext s t hs hb) h

/-- More passes do not change the result. -/
theorem within_mono {body : σ → σ ⊕ ρ} {passes more : ℕ} {s : σ} {r : ρ}
    (h : within body passes s = some r) (hle : passes ≤ more) : within body more s = some r := by
  induction passes generalizing more s with
  | zero => cases h
  | succ passes ih =>
    obtain ⟨more, rfl⟩ : ∃ rest, more = rest + 1 := ⟨more - 1, by omega⟩
    cases hb : body s with
    | inr r' =>
      rw [within_of_done hb] at h ⊢
      exact h
    | inl t =>
      rw [within_of_again hb] at h ⊢
      exact ih h (by omega)

/-- The result of a loop that makes at most so many passes and whose body has no result where
it traps. -/
def attempt (body : σ → Option (σ ⊕ ρ)) : ℕ → σ → Option ρ
  | 0, _ => none
  | passes + 1, s => (body s).bind (Sum.elim (attempt body passes) some)

/-- A loop whose body neither traps nor fails to decrease a measure has a result. -/
theorem attempt_spec {body : σ → Option (σ ⊕ ρ)} {P : σ → Prop} {Q : ρ → Prop} (measure : σ → ℕ)
    (hbody : ∀ s, P s → (∃ t, body s = some (.inl t) ∧ P t ∧ measure t < measure s) ∨
      ∃ r, body s = some (.inr r) ∧ Q r)
    {passes : ℕ} {s : σ} (hs : P s) (hpasses : measure s < passes) :
    ∃ r, attempt body passes s = some r ∧ Q r := by
  induction passes generalizing s with
  | zero => exact absurd hpasses (Nat.not_lt_zero _)
  | succ passes ih =>
    rw [attempt]
    rcases hbody s hs with ⟨t, ht, hP, hless⟩ | ⟨r, hr, hQ⟩
    · rw [ht]
      exact ih hP (by omega)
    · rw [hr]
      exact ⟨r, rfl, hQ⟩

theorem attempt_sound {body : σ → Option (σ ⊕ ρ)} {P : σ → Prop} {Q : ρ → Prop}
    (hnext : ∀ s t, P s → body s = some (.inl t) → P t)
    (hdone : ∀ s r, P s → body s = some (.inr r) → Q r)
    {passes : ℕ} {s : σ} {r : ρ} (hs : P s) (h : attempt body passes s = some r) : Q r := by
  induction passes generalizing s with
  | zero => cases h
  | succ passes ih =>
    obtain ⟨found, hfound, h⟩ := Option.bind_eq_some_iff.mp h
    cases found with
    | inl t => exact ih (hnext s t hs hfound) h
    | inr r' => exact Option.some.inj h ▸ hdone s r' hs hfound

section Counted

variable {α : Type u}

/-- A loop whose counter runs through `count` values from `first` on. The body has no
result where it traps. -/
def counted (body : ℕ → α → Option α) : ℕ → ℕ → α → Option α
  | 0, _, s => some s
  | count + 1, first, s => body first s >>= counted body count (first + 1)

theorem counted_spec {body : ℕ → α → Option α} {P : ℕ → α → Prop} {last : ℕ}
    (hbody : ∀ i s, i < last → P i s → ∃ t, body i s = some t ∧ P (i + 1) t) {count first : ℕ}
    (hlast : first + count = last) {s : α} (hs : P first s) :
    ∃ t, counted body count first s = some t ∧ P last t := by
  induction count generalizing first s with
  | zero =>
    obtain rfl : first = last := hlast
    exact ⟨s, rfl, hs⟩
  | succ count ih =>
    obtain ⟨t, ht, hP⟩ := hbody first s (by omega) hs
    obtain ⟨u, hu, hlast⟩ := ih (by omega) hP
    refine ⟨u, ?_, hlast⟩
    rw [counted, ht]
    exact hu

/-- A counted loop that the body may leave with a result. -/
def countedUntil (body : ℕ → α → Option (α ⊕ ρ)) : ℕ → ℕ → α → Option (α ⊕ ρ)
  | 0, _, s => some (.inl s)
  | count + 1, first, s =>
    body first s >>= Sum.elim (countedUntil body count (first + 1)) fun r => some (.inr r)

theorem countedUntil_spec {body : ℕ → α → Option (α ⊕ ρ)} {P : ℕ → α → Prop} {Q : ρ → Prop}
    {last : ℕ}
    (hbody : ∀ i s, i < last → P i s → (∃ t, body i s = some (.inl t) ∧ P (i + 1) t) ∨
      ∃ r, body i s = some (.inr r) ∧ Q r) {count first : ℕ}
    (hlast : first + count = last) {s : α} (hs : P first s) :
    (∃ t, countedUntil body count first s = some (.inl t) ∧ P last t) ∨
      ∃ r, countedUntil body count first s = some (.inr r) ∧ Q r := by
  induction count generalizing first s with
  | zero =>
    obtain rfl : first = last := hlast
    exact Or.inl ⟨s, rfl, hs⟩
  | succ count ih =>
    rw [countedUntil]
    rcases hbody first s (by omega) hs with ⟨t, ht, hP⟩ | ⟨r, hr, hQ⟩
    · rw [ht]
      exact ih (by omega) hP
    · rw [hr]
      exact Or.inr ⟨r, rfl, hQ⟩

end Counted

end Loop

end Nocter
