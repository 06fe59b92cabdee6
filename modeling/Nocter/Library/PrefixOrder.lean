import Mathlib.Data.List.Basic
import Mathlib.Data.List.Infix
import Mathlib.Data.Set.Insert
import Mathlib.Order.Basic

/-!
# Coordinates of the prefixes of a list

A coordinate that grows with every element orders the prefixes of one list by their
length, so two such coordinates of one list translate into each other.
-/

namespace Nocter

variable {α β : Type} [Preorder β] {f : List α → β}

/-- The coordinate of a prefix grows with every further element. -/
def Grows (f : List α → β) : Prop := ∀ pre a, f pre < f (pre ++ [a])

namespace Grows

theorem le_append (h : Grows f) (pre more : List α) : f pre ≤ f (pre ++ more) := by
  induction more generalizing pre with
  | nil => simp
  | cons a more ih =>
    have hrest := ih (pre ++ [a])
    rw [List.append_assoc] at hrest
    exact (h pre a).le.trans hrest

theorem lt_append (h : Grows f) (pre : List α) (a : α) (more : List α) :
    f pre < f (pre ++ a :: more) := by
  have hrest := h.le_append (pre ++ [a]) more
  rw [List.append_assoc] at hrest
  exact (h pre a).trans_le hrest

theorem lt_of_length_lt (h : Grows f) {p q l : List α} (hp : p <+: l) (hq : q <+: l)
    (hlt : p.length < q.length) : f p < f q := by
  obtain ⟨more, rfl⟩ := List.prefix_of_prefix_length_le hp hq hlt.le
  cases more with
  | nil => simp at hlt
  | cons a more => exact h.lt_append p a more

theorem lt_iff (h : Grows f) {p q l : List α} (hp : p <+: l) (hq : q <+: l) :
    f p < f q ↔ p.length < q.length := by
  refine ⟨fun hlt => ?_, h.lt_of_length_lt hp hq⟩
  rcases lt_trichotomy p.length q.length with hlen | hlen | hlen
  · exact hlen
  · rw [(List.prefix_of_prefix_length_le hp hq hlen.le).eq_of_length hlen] at hlt
    exact absurd hlt (lt_irrefl _)
  · exact absurd (h.lt_of_length_lt hq hp hlen) hlt.asymm

end Grows

end Nocter

/-!
# Append-only logs over fresh allocations

A family of logs grows by copying a log and by appending one freshly allocated
entry to a log. Two logs of such a family that hold the same allocation at one
position agree on every earlier position.
-/

namespace Nocter

variable {α : Type} (address : α → ℕ)

/-- Addresses from `bound` on are unused, and one shared entry means a shared
prefix. -/
structure PrefixCoherent (bound : ℕ) (logs : Set (List α)) : Prop where
  used : ∀ log ∈ logs, ∀ entry ∈ log, address entry < bound
  agree : ∀ left ∈ logs, ∀ right ∈ logs, ∀ i a b, left[i]? = some a → right[i]? = some b →
    address a = address b → left.take (i + 1) = right.take (i + 1)

namespace PrefixCoherent

variable {address} {bound : ℕ} {logs : Set (List α)}

theorem empty : PrefixCoherent address bound ∅ :=
  ⟨fun _ h => h.elim, fun _ h => h.elim⟩

theorem mono {bound' : ℕ} {logs' : Set (List α)} (h : PrefixCoherent address bound logs)
    (hbound : bound ≤ bound') (hlogs : logs' ⊆ logs) : PrefixCoherent address bound' logs' :=
  ⟨fun log hlog entry he => (h.used log (hlogs hlog) entry he).trans_le hbound,
    fun left hl right hr => h.agree left (hlogs hl) right (hlogs hr)⟩

theorem insert_nil (h : PrefixCoherent address bound logs) :
    PrefixCoherent address bound (insert [] logs) := by
  refine ⟨fun log hlog entry he => ?_, fun left hl right hr i a b ha hb hab => ?_⟩
  · rcases Set.mem_insert_iff.mp hlog with rfl | hlog
    · simp at he
    · exact h.used log hlog entry he
  · rcases Set.mem_insert_iff.mp hl with rfl | hl
    · simp at ha
    rcases Set.mem_insert_iff.mp hr with rfl | hr
    · simp at hb
    exact h.agree left hl right hr i a b ha hb hab

/-- The last entry of an extended log is in no other log, the earlier ones are
those of the log it extends. -/
theorem extend_agree (h : PrefixCoherent address bound logs) {log other : List α} {entry : α}
    (hlog : log ∈ logs) (hother : other ∈ logs) (hentry : address entry = bound) {i : ℕ} {a b : α}
    (ha : (log ++ [entry])[i]? = some a) (hb : other[i]? = some b) (hab : address a = address b) :
    (log ++ [entry]).take (i + 1) = other.take (i + 1) := by
  by_cases hlt : i < log.length
  · rw [List.getElem?_append_left hlt] at ha
    rw [List.take_append_of_le_length hlt]
    exact h.agree log hlog other hother i a b ha hb hab
  · rw [List.getElem?_append_right (not_lt.mp hlt)] at ha
    obtain ⟨_, rfl⟩ := List.getElem?_eq_some_iff.mp ha
    have hused := h.used other hother b (List.mem_of_getElem? hb)
    rw [← hab, List.getElem_singleton, hentry] at hused
    exact absurd hused (lt_irrefl bound)

theorem extend (h : PrefixCoherent address bound logs) {log : List α} (entry : α)
    (hlog : log ∈ logs) (hentry : address entry = bound) :
    PrefixCoherent address (bound + 1) (insert (log ++ [entry]) logs) := by
  refine ⟨fun other hother e he => ?_, fun left hl right hr i a b ha hb hab => ?_⟩
  · rcases Set.mem_insert_iff.mp hother with rfl | hother
    · rcases List.mem_append.mp he with he | he
      · exact (h.used log hlog e he).trans (Nat.lt_succ_self bound)
      · rw [List.mem_singleton.mp he, hentry]
        exact Nat.lt_succ_self bound
    · exact (h.used other hother e he).trans (Nat.lt_succ_self bound)
  · rcases Set.mem_insert_iff.mp hl with rfl | hl
    · rcases Set.mem_insert_iff.mp hr with rfl | hr
      · rfl
      · exact h.extend_agree hlog hr hentry ha hb hab
    · rcases Set.mem_insert_iff.mp hr with rfl | hr
      · exact (h.extend_agree hlog hl hentry hb ha hab.symm).symm
      · exact h.agree left hl right hr i a b ha hb hab

end PrefixCoherent

end Nocter
