import Mathlib.Data.List.Basic

/-!
# Decoders of a stream

A decoder looks at the input that is available to it. It takes some of it and
puts out values, asks for more, is done or fails. More input never changes a
decision that it has made, so what it decodes does not depend on how the stream
is cut into pieces.
-/

namespace Nocter

universe u v w

inductive StreamStep (σ : Type u) (γ : Type w) where
  | take (count : ℕ) (out : List γ) (next : σ)
  | need
  | done
  | fail

structure StreamDecoder (σ : Type u) (β : Type v) (γ : Type w) where
  step : σ → List β → StreamStep σ γ
  /-- The states in which the stream may end. -/
  accepting : σ → Prop
  take_le : ∀ {s input count out next}, step s input = .take count out next → count ≤ input.length
  stable : ∀ {s input} (more : List β), step s input ≠ .need → step s (input ++ more) = step s input

namespace StreamDecoder

variable {σ : Type u} {β : Type v} {γ : Type w} (D : StreamDecoder σ β γ)

/-- From `s` the decoder takes `count` values of the input, puts `out` out and is in `t`. -/
inductive Reaches : σ → List β → List γ → ℕ → σ → Prop
  | refl (s : σ) (input : List β) : Reaches s input [] 0 s
  | take {s t u : σ} {input : List β} {out outs : List γ} {count n : ℕ}
      (h : D.step s input = .take count out t) (ht : Reaches t (input.drop count) outs n u) :
      Reaches s input (out ++ outs) (count + n) u

def Accepts (s : σ) (input : List β) (out : List γ) (count : ℕ) : Prop :=
  ∃ t, D.Reaches s input out count t ∧
    (D.step t (input.drop count) = .done ∨
      D.step t (input.drop count) = .need ∧ D.accepting t)

def Rejects (s : σ) (input : List β) : Prop :=
  ∃ out count t, D.Reaches s input out count t ∧
    (D.step t (input.drop count) = .fail ∨
      D.step t (input.drop count) = .need ∧ ¬ D.accepting t)

variable {D}

theorem Reaches.count_le {s t : σ} {input : List β} {out : List γ} {count : ℕ}
    (h : D.Reaches s input out count t) : count ≤ input.length := by
  induction h with
  | refl s input => exact Nat.zero_le _
  | take hstep _ ih =>
    have hle := D.take_le hstep
    rw [List.length_drop] at ih
    omega

theorem Reaches.trans {s t u : σ} {input : List β} {out outs : List γ} {count n : ℕ}
    (h : D.Reaches s input out count t) (h' : D.Reaches t (input.drop count) outs n u) :
    D.Reaches s input (out ++ outs) (count + n) u := by
  induction h with
  | refl s input =>
    rw [List.nil_append, Nat.zero_add]
    rwa [List.drop_zero] at h'
  | take hstep _ ih =>
    rw [← List.drop_drop] at h'
    rw [List.append_assoc, Nat.add_assoc]
    exact .take hstep (ih h')

theorem Reaches.single {s t : σ} {input : List β} {out : List γ} {count : ℕ}
    (h : D.step s input = .take count out t) : D.Reaches s input out count t := by
  have hr := Reaches.take h (Reaches.refl t (input.drop count))
  rwa [List.append_nil, Nat.add_zero] at hr

theorem Reaches.tail {s t u : σ} {input : List β} {out outs : List γ} {count n : ℕ}
    (h : D.Reaches s input out count t) (hstep : D.step t (input.drop count) = .take n outs u) :
    D.Reaches s input (out ++ outs) (count + n) u := h.trans (Reaches.single hstep)

theorem Reaches.append {s t : σ} {input : List β} {out : List γ} {count : ℕ}
    (h : D.Reaches s input out count t) (more : List β) :
    D.Reaches s (input ++ more) out count t := by
  induction h with
  | refl s input => exact .refl s _
  | @take s t u input out outs count n hstep _ ih =>
    have hle := D.take_le hstep
    have hstep' : D.step s (input ++ more) = .take count out t := by
      rw [D.stable more (by rw [hstep]; simp), hstep]
    refine .take hstep' ?_
    rwa [List.drop_append_of_le_length hle]

/-- A decoder that passes values through one by one passes any number of them. -/
theorem Reaches.copy {D : StreamDecoder σ β β} (state : ℕ → σ) {count : ℕ}
    (hstep : ∀ i < count, ∀ b rest, D.step (state i) (b :: rest) = .take 1 [b] (state (i + 1)))
    {input : List β} (h : count ≤ input.length) :
    D.Reaches (state 0) input (input.take count) count (state count) := by
  induction count with
  | zero =>
    rw [List.take_zero]
    exact .refl _ _
  | succ count ih =>
    have hr := ih (fun i hi => hstep i (Nat.lt_succ_of_lt hi)) (Nat.le_of_succ_le h)
    have hlt : count < input.length := h
    rw [List.take_add_one, List.getElem?_eq_getElem hlt, Option.toList_some]
    refine hr.tail ?_
    rw [List.drop_eq_getElem_cons hlt]
    exact hstep count (Nat.lt_succ_self _) _ _

/-- The decoder takes nothing from this input. -/
def Halts (D : StreamDecoder σ β γ) (s : σ) (input : List β) : Prop :=
  ∀ count out t, D.step s input ≠ .take count out t

theorem Halts.reaches {s t : σ} {input : List β} {out : List γ} {count : ℕ}
    (hs : D.Halts s input) (h : D.Reaches s input out count t) : out = [] ∧ count = 0 ∧ t = s := by
  cases h with
  | refl => exact ⟨rfl, rfl, rfl⟩
  | take hstep _ => exact absurd hstep (hs _ _ _)

/-- The way to a point where the decoder halts goes through every point that it reaches. -/
theorem Reaches.of_halts {s t final : σ} {input : List β} {out total : List γ} {count n : ℕ}
    (h : D.Reaches s input out count t) (hfinal : D.Reaches s input total n final)
    (hhalts : D.Halts final (input.drop n)) : ∃ outs rest, total = out ++ outs ∧ n = count + rest ∧
      D.Reaches t (input.drop count) outs rest final := by
  induction h generalizing total n with
  | refl s input => exact ⟨total, n, rfl, (Nat.zero_add n).symm, by rwa [List.drop_zero]⟩
  | @take s t u input out outs count m hstep _ ih =>
    cases hfinal with
    | refl => exact absurd hstep (hhalts _ _ _)
    | take hstep' hrest =>
      rw [hstep] at hstep'
      cases hstep'
      rw [← List.drop_drop] at hhalts
      obtain ⟨tail, k, rfl, rfl, htail⟩ := ih hrest hhalts
      refine ⟨tail, k, (List.append_assoc ..).symm, (Nat.add_assoc ..).symm, ?_⟩
      rwa [← List.drop_drop]

/-- Two points where the decoder halts are one. -/
theorem Reaches.halts_unique {s t u : σ} {input : List β} {out out' : List γ} {count count' : ℕ}
    (h : D.Reaches s input out count t) (ht : D.Halts t (input.drop count))
    (h' : D.Reaches s input out' count' u) (hu : D.Halts u (input.drop count')) :
    out = out' ∧ count = count' ∧ t = u := by
  obtain ⟨outs, rest, rfl, rfl, hrest⟩ := h.of_halts h' hu
  obtain ⟨rfl, rfl, rfl⟩ := ht.reaches hrest
  exact ⟨(List.append_nil _).symm, rfl, rfl⟩

/-- A decision that needs no more input is the decision on every continuation. -/
theorem Reaches.settled {s t u : σ} {input more : List β} {out out' : List γ} {count count' : ℕ}
    (h : D.Reaches s input out count t) (ht : D.Halts t (input.drop count))
    (hmore : D.step t (input.drop count) = .need → more = [])
    (h' : D.Reaches s (input ++ more) out' count' u) (hu : D.Halts u ((input ++ more).drop count')) :
    out = out' ∧ count = count' ∧ t = u ∧
      D.step t (input.drop count) = D.step u ((input ++ more).drop count') := by
  have hstep : D.step t ((input ++ more).drop count) = D.step t (input.drop count) := by
    by_cases hneed : D.step t (input.drop count) = .need
    · rw [hmore hneed, List.append_nil]
    · rw [List.drop_append_of_le_length h.count_le, D.stable more hneed]
  have ht' : D.Halts t ((input ++ more).drop count) := by
    intro n outs next htake
    exact ht n outs next (hstep.symm.trans htake)
  obtain ⟨rfl, rfl, rfl⟩ := (h.append more).halts_unique ht' h' hu
  exact ⟨rfl, rfl, rfl, hstep.symm⟩

theorem halts_of_need {s : σ} {input : List β} (h : D.step s input = .need) : D.Halts s input := by
  intro count out t htake
  cases h.symm.trans htake

theorem halts_of_done {s : σ} {input : List β} (h : D.step s input = .done) : D.Halts s input := by
  intro count out t htake
  cases h.symm.trans htake

theorem halts_of_fail {s : σ} {input : List β} (h : D.step s input = .fail) : D.Halts s input := by
  intro count out t htake
  cases h.symm.trans htake

theorem Reaches.of_accepts {s t : σ} {input : List β} {out total : List γ} {count n : ℕ}
    (h : D.Reaches s input out count t) (ha : D.Accepts s input total n) :
    ∃ outs rest, total = out ++ outs ∧ n = count + rest ∧
      D.Accepts t (input.drop count) outs rest := by
  obtain ⟨final, hreach, hend⟩ := ha
  have hhalts : D.Halts final (input.drop n) :=
    hend.elim halts_of_done fun hneed => halts_of_need hneed.1
  obtain ⟨outs, rest, rfl, rfl, hrest⟩ := h.of_halts hreach hhalts
  refine ⟨outs, rest, rfl, rfl, final, hrest, ?_⟩
  rwa [List.drop_drop]

theorem Accepts.unique {s : σ} {input : List β} {out out' : List γ} {count count' : ℕ}
    (h : D.Accepts s input out count) (h' : D.Accepts s input out' count') :
    out = out' ∧ count = count' := by
  obtain ⟨t, hreach, hend⟩ := h
  obtain ⟨u, hreach', hend'⟩ := h'
  have ht : D.Halts t (input.drop count) :=
    hend.elim halts_of_done fun hneed => halts_of_need hneed.1
  have hu : D.Halts u (input.drop count') :=
    hend'.elim halts_of_done fun hneed => halts_of_need hneed.1
  obtain ⟨hout, hcount, _⟩ := hreach.halts_unique ht hreach' hu
  exact ⟨hout, hcount⟩

/-- An input is not both accepted and rejected. -/
theorem Rejects.not_accepts {s : σ} {input : List β} (h : D.Rejects s input)
    (out : List γ) (count : ℕ) : ¬ D.Accepts s input out count := by
  rintro ⟨u, hreach', hend'⟩
  obtain ⟨out, count, t, hreach, hend⟩ := h
  have ht : D.Halts t (input.drop count) :=
    hend.elim halts_of_fail fun hneed => halts_of_need hneed.1
  have hu : D.Halts u _ := hend'.elim halts_of_done fun hneed => halts_of_need hneed.1
  obtain ⟨rfl, rfl, rfl⟩ := hreach.halts_unique ht hreach' hu
  rcases hend with hfail | ⟨hneed, hnot⟩
  · rw [hfail] at hend'
    rcases hend' with h' | ⟨h', _⟩ <;> cases h'
  · rw [hneed] at hend'
    rcases hend' with h' | ⟨_, haccept⟩
    · cases h'
    · exact hnot haccept

/-- A run of the decoder over a stream of which only a part has arrived: `delivered`
and `consumed` are what it has put out and taken, `pending` has arrived and `unread`
has not. -/
structure Follows (D : StreamDecoder σ β γ) (s₀ : σ) (stream : List β) (s : σ)
    (pending unread : List β) (delivered : List γ) (consumed : ℕ) : Prop where
  reaches : D.Reaches s₀ stream delivered consumed s
  rest : stream.drop consumed = pending ++ unread

namespace Follows

variable {s₀ s : σ} {stream pending unread : List β} {delivered : List γ} {consumed : ℕ}

theorem start (s₀ : σ) (stream : List β) : D.Follows s₀ stream s₀ [] stream [] 0 :=
  ⟨.refl s₀ stream, by rw [List.drop_zero, List.nil_append]⟩

theorem arrive {piece : List β} (h : D.Follows s₀ stream s pending (piece ++ unread) delivered consumed) :
    D.Follows s₀ stream s (pending ++ piece) unread delivered consumed :=
  ⟨h.reaches, by rw [h.rest, List.append_assoc]⟩

theorem advance (h : D.Follows s₀ stream s pending unread delivered consumed) {out : List γ}
    {count : ℕ} {t : σ} (hr : D.Reaches s pending out count t) :
    D.Follows s₀ stream t (pending.drop count) unread (delivered ++ out) (consumed + count) := by
  constructor
  · refine h.reaches.trans ?_
    rw [h.rest]
    exact hr.append unread
  · rw [← List.drop_drop, h.rest, List.drop_append_of_le_length hr.count_le]

/-- A decoder that is done has decoded the whole stream. -/
theorem accepts_of_done (h : D.Follows s₀ stream s pending unread delivered consumed)
    (hdone : D.step s pending = .done) : D.Accepts s₀ stream delivered consumed := by
  refine ⟨s, h.reaches, Or.inl ?_⟩
  rw [h.rest, D.stable unread (by rw [hdone]; simp), hdone]

theorem accepts_at_end (h : D.Follows s₀ stream s pending [] delivered consumed)
    (hneed : D.step s pending = .need) (haccept : D.accepting s) :
    D.Accepts s₀ stream delivered consumed := by
  refine ⟨s, h.reaches, Or.inr ⟨?_, haccept⟩⟩
  rw [h.rest, List.append_nil, hneed]

theorem rejects_of_fail (h : D.Follows s₀ stream s pending unread delivered consumed)
    (hfail : D.step s pending = .fail) : D.Rejects s₀ stream := by
  refine ⟨delivered, consumed, s, h.reaches, Or.inl ?_⟩
  rw [h.rest, D.stable unread (by rw [hfail]; simp), hfail]

theorem rejects_at_end (h : D.Follows s₀ stream s pending [] delivered consumed)
    (hneed : D.step s pending = .need) (haccept : ¬ D.accepting s) : D.Rejects s₀ stream := by
  refine ⟨delivered, consumed, s, h.reaches, Or.inr ⟨?_, haccept⟩⟩
  rw [h.rest, List.append_nil, hneed]

end Follows

end StreamDecoder

end Nocter
