import Mathlib.Data.List.Forall2

/-!
# Traversals that may fail

A traversal has a result when every element has one, and its results stand in the order
of the elements.
-/

namespace Nocter

universe u

variable {ε α β : Type u}

theorem mapM_ok_iff {f : α → Except ε β} {values : List α} {results : List β} :
    values.mapM f = .ok results ↔
      List.Forall₂ (fun value result => f value = .ok result) values results := by
  induction values generalizing results with
  | nil =>
    rw [List.mapM_nil, List.forall₂_nil_left_iff]
    exact ⟨fun h => (Except.ok.inj h).symm, fun h => by rw [h]; rfl⟩
  | cons value values ih =>
    rw [List.mapM_cons, List.forall₂_cons_left_iff]
    constructor
    · intro h
      cases hvalue : f value with
      | error failure =>
        rw [hvalue] at h
        cases h
      | ok result =>
        cases hrest : values.mapM f with
        | error failure =>
          rw [hvalue, hrest] at h
          cases h
        | ok rest =>
          rw [hvalue, hrest] at h
          cases h
          exact ⟨result, rest, rfl, ih.mp hrest, rfl⟩
    · rintro ⟨result, rest, hvalue, hrest, rfl⟩
      rw [hvalue, ih.mpr hrest]
      rfl

/-- A traversal whose elements all have results has one. -/
theorem mapM_total {f : α → Except ε β} {values : List α}
    (h : ∀ value ∈ values, ∃ result, f value = .ok result) :
    ∃ results, values.mapM f = .ok results := by
  induction values with
  | nil => exact ⟨[], rfl⟩
  | cons value values ih =>
    obtain ⟨result, hresult⟩ := h value List.mem_cons_self
    obtain ⟨results, hresults⟩ := ih fun other hmem => h other (List.mem_cons_of_mem _ hmem)
    exact ⟨result :: results, by rw [List.mapM_cons, hresult, hresults]; rfl⟩

theorem mapM_some_iff {f : α → Option β} {values : List α} {results : List β} :
    values.mapM f = some results ↔
      List.Forall₂ (fun value result => f value = some result) values results := by
  induction values generalizing results with
  | nil =>
    rw [List.mapM_nil, List.forall₂_nil_left_iff]
    exact ⟨fun h => (Option.some.inj h).symm, fun h => by rw [h]; rfl⟩
  | cons value values ih =>
    rw [List.mapM_cons, List.forall₂_cons_left_iff]
    constructor
    · intro h
      obtain ⟨result, hresult, h⟩ := Option.bind_eq_some_iff.mp h
      obtain ⟨rest, hrest, h⟩ := Option.bind_eq_some_iff.mp h
      cases h
      exact ⟨result, rest, hresult, ih.mp hrest, rfl⟩
    · rintro ⟨result, rest, hvalue, hrest, rfl⟩
      rw [hvalue, ih.mpr hrest]
      rfl

theorem mapM_some_total {f : α → Option β} {values : List α}
    (h : ∀ value ∈ values, ∃ result, f value = some result) :
    ∃ results, values.mapM f = some results := by
  induction values with
  | nil => exact ⟨[], rfl⟩
  | cons value values ih =>
    obtain ⟨result, hresult⟩ := h value List.mem_cons_self
    obtain ⟨results, hresults⟩ := ih fun other hmem => h other (List.mem_cons_of_mem _ hmem)
    exact ⟨result :: results, by rw [List.mapM_cons, hresult, hresults]; rfl⟩

/-- The results of a traversal with indices stand at the indices of their elements. -/
theorem zipIdx_mapM_some {f : α × ℕ → Option β} {values : List α} {results : List β}
    (h : values.zipIdx.mapM f = some results) :
    results.length = values.length ∧ ∀ index value, values[index]? = some value →
      ∃ result, results[index]? = some result ∧ f (value, index) = some result := by
  have hresults := mapM_some_iff.mp h
  have hlength := hresults.length_eq
  rw [List.length_zipIdx] at hlength
  refine ⟨hlength.symm, fun index value hvalue => ?_⟩
  obtain ⟨hlt, hvalue⟩ := List.getElem?_eq_some_iff.mp hvalue
  have hentry := hresults.get (by rw [List.length_zipIdx]; exact hlt) (by omega : index < results.length)
  simp only [List.get_eq_getElem, List.getElem_zipIdx, hvalue, Nat.zero_add] at hentry
  exact ⟨_, List.getElem?_eq_getElem (by omega), hentry⟩

theorem except_bind_ok {x : Except ε α} {f : α → Except ε β} {b : β} :
    x >>= f = .ok b ↔ ∃ a, x = .ok a ∧ f a = .ok b := by
  cases x with
  | error failure =>
    constructor
    · intro h
      cases h
    · rintro ⟨_, h, _⟩
      cases h
  | ok a =>
    constructor
    · exact fun h => ⟨a, rfl, h⟩
    · rintro ⟨_, h, h'⟩
      cases h
      exact h'

theorem except_foldlM_cons {f : β → α → Except ε β} {a : α} {rest : List α} {b c : β} :
    (a :: rest).foldlM f b = .ok c ↔ ∃ d, f b a = .ok d ∧ rest.foldlM f d = .ok c := by
  rw [List.foldlM_cons, except_bind_ok]

/-- The results of a traversal with indices stand at the indices of their elements. -/
theorem zipIdx_mapM_ok {f : α × ℕ → Except ε β} {values : List α} {results : List β}
    (h : values.zipIdx.mapM f = .ok results) :
    results.length = values.length ∧ ∀ index value, values[index]? = some value →
      ∃ result, results[index]? = some result ∧ f (value, index) = .ok result := by
  have hresults := mapM_ok_iff.mp h
  have hlength := hresults.length_eq
  rw [List.length_zipIdx] at hlength
  refine ⟨hlength.symm, fun index value hvalue => ?_⟩
  obtain ⟨hlt, hvalue⟩ := List.getElem?_eq_some_iff.mp hvalue
  have hentry := hresults.get (by rw [List.length_zipIdx]; exact hlt) (by omega : index < results.length)
  simp only [List.get_eq_getElem, List.getElem_zipIdx, hvalue, Nat.zero_add] at hentry
  exact ⟨_, List.getElem?_eq_getElem (by omega), hentry⟩

/-- What the steps of a traversal keep, and what every element leaves behind for good. -/
theorem foldlM_ok_spec {f : β → α → Except ε β} {I : β → Prop} {R : β → β → Prop}
    {Q : α → β → Prop} (hrefl : ∀ s, R s s) (htrans : ∀ s t u, R s t → R t u → R s u)
    (hmono : ∀ a s t, R s t → Q a s → Q a t) {values : List α}
    (hstep : ∀ a ∈ values, ∀ s t, f s a = .ok t → I s → I t ∧ R s t ∧ Q a t) {s t : β}
    (h : values.foldlM f s = .ok t) (hs : I s) : I t ∧ R s t ∧ ∀ a ∈ values, Q a t := by
  induction values generalizing s with
  | nil =>
    cases h
    exact ⟨hs, hrefl _, fun a ha => absurd ha List.not_mem_nil⟩
  | cons a rest ih =>
    obtain ⟨middle, hfirst, hrest⟩ := except_foldlM_cons.mp h
    obtain ⟨hmiddle, hle, hQ⟩ := hstep a List.mem_cons_self s middle hfirst hs
    obtain ⟨hlast, hle', hQ'⟩ := ih (fun b hb => hstep b (List.mem_cons_of_mem _ hb)) hrest hmiddle
    refine ⟨hlast, htrans _ _ _ hle hle', fun b hb => ?_⟩
    rcases List.mem_cons.mp hb with rfl | hmem
    · exact hmono _ _ _ hle' hQ
    · exact hQ' b hmem

/-- A traversal whose steps all have results has one. -/
theorem foldlM_total {f : β → α → Except ε β} {I : β → Prop} {values : List α}
    (hstep : ∀ a ∈ values, ∀ s, I s → ∃ t, f s a = .ok t ∧ I t) {s : β} (hs : I s) :
    ∃ t, values.foldlM f s = .ok t ∧ I t := by
  induction values generalizing s with
  | nil => exact ⟨s, rfl, hs⟩
  | cons a rest ih =>
    obtain ⟨middle, hfirst, hmiddle⟩ := hstep a List.mem_cons_self s hs
    obtain ⟨t, ht, hI⟩ := ih (fun b hb => hstep b (List.mem_cons_of_mem _ hb)) hmiddle
    exact ⟨t, except_foldlM_cons.mpr ⟨middle, hfirst, ht⟩, hI⟩

theorem forM_ok_iff {f : α → Except ε PUnit.{u + 1}} {values : List α} :
    values.forM f = .ok ⟨⟩ ↔ ∀ a ∈ values, f a = .ok ⟨⟩ := by
  induction values with
  | nil => exact ⟨fun _ a ha => absurd ha List.not_mem_nil, fun _ => rfl⟩
  | cons a rest ih =>
    change (f a >>= fun _ => rest.forM f) = .ok ⟨⟩ ↔ _
    rw [except_bind_ok, List.forall_mem_cons, ← ih]
    exact ⟨fun ⟨_, ha, hrest⟩ => ⟨ha, hrest⟩, fun ⟨ha, hrest⟩ => ⟨_, ha, hrest⟩⟩

section AnyM

variable {ε : Type} {α : Type u} {p : α → Except ε Bool} {values : List α}

theorem anyM_true (h : values.anyM p = .ok true) : ∃ a ∈ values, p a = .ok true := by
  induction values with
  | nil => cases h
  | cons a rest ih =>
    rw [List.anyM] at h
    cases ha : p a with
    | error failure =>
      rw [ha] at h
      cases h
    | ok b =>
      rw [ha] at h
      cases b with
      | true => exact ⟨a, List.mem_cons_self, ha⟩
      | false =>
        obtain ⟨other, hmem, hother⟩ := ih h
        exact ⟨other, List.mem_cons_of_mem _ hmem, hother⟩

theorem anyM_false (h : values.anyM p = .ok false) : ∀ a ∈ values, p a = .ok false := by
  induction values with
  | nil => exact fun a ha => absurd ha List.not_mem_nil
  | cons a rest ih =>
    rw [List.anyM] at h
    cases ha : p a with
    | error failure =>
      rw [ha] at h
      cases h
    | ok b =>
      rw [ha] at h
      cases b with
      | true => cases h
      | false =>
        intro other hmem
        rcases List.mem_cons.mp hmem with rfl | hrest
        · exact ha
        · exact ih h other hrest

theorem anyM_total (h : ∀ a ∈ values, ∃ b, p a = .ok b) : ∃ b, values.anyM p = .ok b := by
  induction values with
  | nil => exact ⟨false, rfl⟩
  | cons a rest ih =>
    obtain ⟨b, hb⟩ := h a List.mem_cons_self
    rw [List.anyM, hb]
    cases b with
    | true => exact ⟨true, rfl⟩
    | false => exact ih fun other hmem => h other (List.mem_cons_of_mem _ hmem)

end AnyM

section Spares

/-- The computation never fails with the error. -/
def Spares (error : ε) (x : Except ε α) : Prop := x ≠ .error error

variable {error : ε}

theorem spares_ok (a : α) : Spares error (.ok a) := fun h => by cases h

theorem spares_error {other : ε} (h : other ≠ error) : Spares error (.error other : Except ε α) :=
  fun he => h (Except.error.inj he)

theorem Spares.bind {x : Except ε α} {f : α → Except ε β} (hx : Spares error x)
    (hf : ∀ a, Spares error (f a)) : Spares error (x >>= f) := by
  cases x with
  | error failure => exact fun h => hx (by cases h; rfl)
  | ok a => exact hf a

theorem Spares.foldlM {f : β → α → Except ε β} (hf : ∀ b a, Spares error (f b a))
    (values : List α) (b : β) : Spares error (values.foldlM f b) := by
  induction values generalizing b with
  | nil => exact spares_ok b
  | cons a rest ih =>
    rw [List.foldlM_cons]
    exact (hf b a).bind ih

theorem Spares.forM {f : α → Except ε PUnit} (hf : ∀ a, Spares error (f a)) (values : List α) :
    Spares error (values.forM f) := by
  induction values with
  | nil => exact spares_ok _
  | cons a rest ih => exact (hf a).bind fun _ => ih

theorem Spares.mapM {f : α → Except ε β} (hf : ∀ a, Spares error (f a)) (values : List α) :
    Spares error (values.mapM f) := by
  induction values with
  | nil => exact spares_ok []
  | cons a rest ih =>
    rw [List.mapM_cons]
    exact (hf a).bind fun b => ih.bind fun bs => spares_ok (b :: bs)

end Spares

end Nocter
