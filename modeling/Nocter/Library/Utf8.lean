import Mathlib.Data.List.Basic
import Mathlib.Data.Nat.Notation

/-!
# UTF-8

The byte sequences that encode Unicode scalar values, by the ranges of their
bytes, and the texts made of them. A byte below 128 stands for itself wherever it
occurs, so a text may be cut at it.
-/

namespace Nocter

namespace Utf8

def Tail (b : UInt8) : Prop := 128 ≤ b ∧ b ≤ 191

/-- The second byte behind a first byte of three. -/
def SecondOfThree (a b : UInt8) : Prop :=
  (if a = 224 then 160 else 128) ≤ b ∧ b ≤ if a = 237 then 159 else 191

/-- The second byte behind a first byte of four. -/
def SecondOfFour (a b : UInt8) : Prop :=
  (if a = 240 then 144 else 128) ≤ b ∧ b ≤ if a = 244 then 143 else 191

/-- The encoding of one scalar value. -/
inductive Scalar : List UInt8 → Prop
  | one {a : UInt8} (ha : a < 128) : Scalar [a]
  | two {a b : UInt8} (ha : 194 ≤ a ∧ a ≤ 223) (hb : Tail b) : Scalar [a, b]
  | three {a b c : UInt8} (ha : 224 ≤ a ∧ a ≤ 239) (hb : SecondOfThree a b) (hc : Tail c) :
      Scalar [a, b, c]
  | four {a b c d : UInt8} (ha : 240 ≤ a ∧ a ≤ 244) (hb : SecondOfFour a b) (hc : Tail c)
      (hd : Tail d) : Scalar [a, b, c, d]

/-- The encodings of any number of scalar values. -/
inductive Valid : List UInt8 → Prop
  | nil : Valid []
  | cons {scalar rest : List UInt8} (hscalar : Scalar scalar) (hrest : Valid rest) :
      Valid (scalar ++ rest)

theorem SecondOfThree.le {a b : UInt8} (h : SecondOfThree a b) : 128 ≤ b := by
  have hle := h.1
  split at hle
  · exact UInt8.le_trans (by decide) hle
  · exact hle

theorem SecondOfFour.le {a b : UInt8} (h : SecondOfFour a b) : 128 ≤ b := by
  have hle := h.1
  split at hle
  · exact UInt8.le_trans (by decide) hle
  · exact hle

/-- A byte below 128 is a scalar value by itself. -/
theorem Scalar.cases {scalar : List UInt8} (h : Scalar scalar) :
    (∃ a < 128, scalar = [a]) ∨ scalar ≠ [] ∧ ∀ b ∈ scalar, 128 ≤ b := by
  have hlead : ∀ {a low : UInt8}, 194 ≤ low → low ≤ a → 128 ≤ a := by
    intro a low hlow ha
    exact UInt8.le_trans (UInt8.le_trans (by decide) hlow) ha
  cases h with
  | one ha => exact Or.inl ⟨_, ha, rfl⟩
  | two ha hb =>
    refine Or.inr ⟨by simp, fun x hx => ?_⟩
    rcases List.mem_pair.mp hx with rfl | rfl
    · exact hlead (UInt8.le_refl _) ha.1
    · exact hb.1
  | three ha hb hc =>
    refine Or.inr ⟨by simp, fun x hx => ?_⟩
    simp only [List.mem_cons, List.not_mem_nil, or_false] at hx
    rcases hx with rfl | rfl | rfl
    · exact hlead (by decide) ha.1
    · exact hb.le
    · exact hc.1
  | four ha hb hc hd =>
    refine Or.inr ⟨by simp, fun x hx => ?_⟩
    simp only [List.mem_cons, List.not_mem_nil, or_false] at hx
    rcases hx with rfl | rfl | rfl | rfl
    · exact hlead (by decide) ha.1
    · exact hb.le
    · exact hc.1
    · exact hd.1

theorem Valid.append {text more : List UInt8} (h : Valid text) (h' : Valid more) :
    Valid (text ++ more) := by
  induction h with
  | nil => exact h'
  | cons hscalar _ ih =>
    rw [List.append_assoc]
    exact .cons hscalar ih

theorem Valid.single {a : UInt8} (ha : a < 128) : Valid [a] := .cons (.one ha) .nil

theorem Valid.ascii {text : List UInt8} (h : ∀ byte ∈ text, byte < 128) : Valid text := by
  induction text with
  | nil => exact .nil
  | cons byte text ih =>
    obtain ⟨hbyte, hrest⟩ := List.forall_mem_cons.mp h
    exact .cons (.one hbyte) (ih hrest)

/-- A text is cut at a byte below 128. -/
theorem Valid.split {text more : List UInt8} {a : UInt8} (ha : a < 128)
    (h : Valid (text ++ a :: more)) : Valid text ∧ Valid more := by
  generalize hwhole : text ++ a :: more = whole at h
  induction h generalizing text with
  | nil => simp at hwhole
  | @cons scalar rest hscalar hrest ih =>
    obtain ⟨b, hb, rfl⟩ | ⟨hne, hlarge⟩ := hscalar.cases
    · cases text with
      | nil =>
        simp only [List.nil_append, List.singleton_append, List.cons.injEq] at hwhole
        exact ⟨.nil, by rw [hwhole.2]; exact hrest⟩
      | cons c text =>
        simp only [List.cons_append, List.nil_append, List.cons.injEq] at hwhole
        obtain ⟨htext, hmore⟩ := ih hwhole.2
        rw [hwhole.1]
        exact ⟨.cons (.one hb) htext, hmore⟩
    · obtain ⟨tail, rfl, htail⟩ | ⟨tail, hscalarEq, htail⟩ := List.append_eq_append_iff.mp hwhole
      · cases tail with
        | nil =>
          rw [List.append_nil] at hscalar
          have htext := Valid.cons hscalar .nil
          rw [List.append_nil] at htext
          exact ⟨htext, (@ih [] htail).2⟩
        | cons c tail =>
          simp only [List.cons_append, List.cons.injEq] at htail
          have hlarge' := hlarge c (by simp)
          rw [← htail.1] at hlarge'
          exact absurd ha (UInt8.not_lt.mpr hlarge')
      · obtain ⟨hrestValid, hmore⟩ := ih htail.symm
        rw [hscalarEq]
        exact ⟨.cons hscalar hrestValid, hmore⟩

section Cutting

variable {text more : List UInt8} {a : UInt8}

theorem Tail.ne_lead {low : UInt8} (h : Tail a) (hlow : 192 ≤ low) : ¬low ≤ a := by
  intro hle
  have hlead := UInt8.le_iff_toNat_le.mp (UInt8.le_trans hlow hle)
  have hlimit := UInt8.le_iff_toNat_le.mp h.2
  simp only [UInt8.reduceToNat] at hlead hlimit
  omega

theorem SecondOfThree.tail {b : UInt8} (h : SecondOfThree a b) : Tail b := by
  refine ⟨h.le, ?_⟩
  have hlimit := h.2
  split at hlimit
  · exact UInt8.le_trans hlimit (by decide)
  · exact hlimit

theorem SecondOfFour.tail {b : UInt8} (h : SecondOfFour a b) : Tail b := by
  refine ⟨h.le, ?_⟩
  have hlimit := h.2
  split at hlimit
  · exact UInt8.le_trans hlimit (by decide)
  · exact hlimit

/-- Only the bytes behind the first one are tails. -/
theorem Scalar.shape {scalar : List UInt8} (h : Scalar scalar) :
    ∃ first rest, scalar = first :: rest ∧ ¬Tail first ∧ ∀ b ∈ rest, Tail b := by
  cases h with
  | one ha =>
    refine ⟨_, _, rfl, fun htail => absurd ha (UInt8.not_lt.mpr htail.1), ?_⟩
    simp
  | two ha hb =>
    refine ⟨_, _, rfl, fun htail => htail.ne_lead (by decide) ha.1, ?_⟩
    simpa using hb
  | three ha hb hc =>
    refine ⟨_, _, rfl, fun htail => htail.ne_lead (by decide) ha.1, ?_⟩
    simpa using ⟨hb.tail, hc⟩
  | four ha hb hc hd =>
    refine ⟨_, _, rfl, fun htail => htail.ne_lead (by decide) ha.1, ?_⟩
    simpa using ⟨hb.tail, hc, hd⟩

/-- The length of the encoding that a byte starts. -/
def width (first : UInt8) : ℕ :=
  if first < 128 then 1 else if first < 224 then 2 else if first < 240 then 3 else 4

theorem Scalar.length_eq {rest : List UInt8} (h : Scalar (a :: rest)) : (a :: rest).length = width a := by
  have hnot : ∀ {low limit : UInt8}, low ≤ a → limit ≤ low → ¬a < limit := by
    intro low limit hlow hlimit
    exact UInt8.not_lt.mpr (UInt8.le_trans hlimit hlow)
  cases h with
  | one ha => rw [width, if_pos ha]; rfl
  | two ha hb =>
    rw [width, if_neg (hnot ha.1 (by decide)), if_pos (UInt8.lt_of_le_of_lt ha.2 (by decide))]
    rfl
  | three ha hb hc =>
    rw [width, if_neg (hnot ha.1 (by decide)), if_neg (hnot ha.1 (by decide)),
      if_pos (UInt8.lt_of_le_of_lt ha.2 (by decide))]
    rfl
  | four ha hb hc hd =>
    rw [width, if_neg (hnot ha.1 (by decide)), if_neg (hnot ha.1 (by decide)),
      if_neg (hnot ha.1 (by decide))]
    rfl

/-- A text is cut in front of a byte that starts a scalar value. -/
theorem Valid.cut (ha : ¬Tail a) (h : Valid (text ++ a :: more)) : Valid text ∧ Valid (a :: more) := by
  generalize hwhole : text ++ a :: more = whole at h
  induction h generalizing text with
  | nil => simp at hwhole
  | @cons scalar rest hscalar hrest ih =>
    obtain ⟨tail, rfl, htail⟩ | ⟨tail, rfl, htail⟩ := List.append_eq_append_iff.mp hwhole
    · cases tail with
      | nil =>
        rw [List.append_nil] at hscalar
        have htext := Valid.cons hscalar .nil
        rw [List.append_nil] at htext
        refine ⟨htext, ?_⟩
        rw [List.nil_append] at htail
        rw [htail]
        exact hrest
      | cons b tail =>
        rw [List.cons_append, List.cons.injEq] at htail
        obtain ⟨first, behind, hfirst, -, hbehind⟩ := hscalar.shape
        cases text with
        | nil =>
          have hvalid := Valid.cons hscalar hrest
          rw [← hwhole] at hvalid
          exact ⟨.nil, hvalid⟩
        | cons c text =>
          rw [List.cons_append, List.cons.injEq] at hfirst
          refine absurd (hbehind b ?_) (htail.1 ▸ ha)
          rw [← hfirst.2]
          simp
    · obtain ⟨hbefore, hmore⟩ := ih htail.symm
      exact ⟨.cons hscalar hbefore, hmore⟩

theorem Scalar.prefix_free {scalar scalar' : List UInt8} (h : Scalar scalar) (h' : Scalar scalar')
    (hwhole : scalar ++ text = scalar' ++ more) : scalar = scalar' ∧ text = more := by
  obtain ⟨first, rest, rfl, -⟩ := h.shape
  obtain ⟨first', rest', rfl, -⟩ := h'.shape
  have hfirst := (List.cons.inj hwhole).1
  subst hfirst
  exact List.append_inj hwhole (h.length_eq.trans h'.length_eq.symm)

/-- What follows a text in a text. -/
theorem Valid.rest (h : Valid text) (hwhole : Valid (text ++ more)) : Valid more := by
  induction h with
  | nil => exact hwhole
  | @cons scalar rest hscalar _ ih =>
    apply ih
    rw [List.append_assoc] at hwhole
    generalize hequal : scalar ++ (rest ++ more) = whole at hwhole
    cases hwhole with
    | nil =>
      obtain ⟨first, behind, rfl, -⟩ := hscalar.shape
      cases hequal
    | cons hscalar' hrest' =>
      rw [(hscalar.prefix_free hscalar' hequal).2]
      exact hrest'

theorem Valid.head (h : Valid (a :: more)) : ¬Tail a := by
  generalize hwhole : a :: more = whole at h
  cases h with
  | nil => cases hwhole
  | cons hscalar _ =>
    obtain ⟨first, behind, rfl, hfirst, -⟩ := hscalar.shape
    rw [(List.cons.inj hwhole).1]
    exact hfirst

/-- A text is cut at both ends of a text in it. -/
theorem Valid.cut_around {window : List UInt8} (h : Valid (text ++ (window ++ more))) (hwindow : Valid window)
    (hne : window ≠ []) : Valid text ∧ Valid more := by
  cases window with
  | nil => exact absurd rfl hne
  | cons a window =>
    obtain ⟨htext, hrest⟩ := Valid.cut hwindow.head h
    exact ⟨htext, hwindow.rest hrest⟩

end Cutting

end Utf8

end Nocter
