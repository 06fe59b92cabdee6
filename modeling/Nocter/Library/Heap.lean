import Mathlib.Logic.Equiv.Basic
import Mathlib.Order.Lattice

/-!
# Binary heaps in level order

A sequence is heap ordered from an index on when no child is above its parent. Sifting moves a
hole towards the leaves: every pair but those below the hole is in order, and what is below the
hole is also below its parent. Taking the root of a heap away and putting the last entry in its
place leaves a hole at the root.
-/

namespace Nocter.Heap

variable {β : Type*}

def swapped (f : ℕ → β) (i j : ℕ) : ℕ → β := f ∘ Equiv.swap i j

@[simp] theorem swapped_left (f : ℕ → β) (i j : ℕ) : swapped f i j i = f j :=
  congrArg f (Equiv.swap_apply_left i j)

@[simp] theorem swapped_right (f : ℕ → β) (i j : ℕ) : swapped f i j j = f i :=
  congrArg f (Equiv.swap_apply_right i j)

theorem swapped_other (f : ℕ → β) {i j k : ℕ} (hi : k ≠ i) (hj : k ≠ j) : swapped f i j k = f k :=
  congrArg f (Equiv.swap_apply_of_ne_of_ne hi hj)

variable [LinearOrder β] {f : ℕ → β} {first hole child stop : ℕ}

def IsChild (child parent : ℕ) : Prop := child = parent * 2 + 1 ∨ child = parent * 2 + 2

/-- No child in front of `stop` is above a parent from `first` on. -/
def Ordered (f : ℕ → β) (first stop : ℕ) : Prop :=
  ∀ parent child, first ≤ parent → IsChild child parent → child < stop → f child ≤ f parent

/-- Heap order but for the children of the hole. -/
structure Sifting (f : ℕ → β) (first hole stop : ℕ) : Prop where
  outside : ∀ parent child, first ≤ parent → parent ≠ hole → IsChild child parent →
    child < stop → f child ≤ f parent
  across : ∀ parent child, first ≤ parent → IsChild hole parent → IsChild child hole →
    child < stop → f child ≤ f parent

theorem IsChild.lt {child parent : ℕ} (h : IsChild child parent) : parent < child := by
  rcases h with rfl | rfl <;> omega

theorem IsChild.parent_unique {child parent other : ℕ} (h : IsChild child parent)
    (h' : IsChild child other) : parent = other := by
  unfold IsChild at h h'
  omega

/-- Without children in front of `stop` there is nothing to order. -/
theorem ordered_of_half_le (h : stop / 2 ≤ first) : Ordered f first stop := by
  intro parent child hparent hchild hstop
  unfold IsChild at hchild
  omega

theorem Ordered.sifting (h : Ordered f (hole + 1) stop) : Sifting f hole hole stop where
  outside := fun parent child hfirst hne hchild hstop =>
    h parent child (by omega) hchild hstop
  across := fun parent child hfirst hhole _ _ => absurd hhole.lt (Nat.not_lt.mpr hfirst)

/-- The hole moves to a greatest child that is above it. -/
theorem Sifting.step (h : Sifting f first hole stop) (hfirst : first ≤ hole)
    (hchild : IsChild child hole)
    (hgreatest : ∀ other, IsChild other hole → other < stop → f other ≤ f child)
    (hless : f hole ≤ f child) (hstop : child < stop) :
    Sifting (swapped f hole child) first child stop := by
  have hlt := hchild.lt
  constructor
  · intro parent other hparent hne hother hotherStop
    by_cases hp : parent = hole
    · subst hp
      have hotherLt := hother.lt
      rw [swapped_left]
      by_cases ho : other = child
      · rw [ho, swapped_right]
        exact hless
      · rw [swapped_other f (by omega) ho]
        exact hgreatest other hother hotherStop
    · rw [swapped_other f hp hne]
      by_cases ho : other = hole
      · rw [ho, swapped_left]
        exact h.across parent child hparent (ho ▸ hother) hchild hstop
      · have hne' : other ≠ child := fun heq => hp ((heq ▸ hother).parent_unique hchild)
        rw [swapped_other f ho hne']
        exact h.outside parent other hparent hp hother hotherStop
  · intro parent other hparent hgrand hother hotherStop
    obtain rfl := hgrand.parent_unique hchild
    have hotherLt := hother.lt
    rw [swapped_left, swapped_other f (by omega) (by omega)]
    exact h.outside child other (by omega) (by omega) hother hotherStop

theorem Sifting.ordered (h : Sifting f first hole stop)
    (hgreatest : ∀ child, IsChild child hole → child < stop → f child ≤ f hole) :
    Ordered f first stop := by
  intro parent child hparent hchild hstop
  by_cases hp : parent = hole
  · rw [hp] at hchild ⊢
    exact hgreatest child hchild hstop
  · exact h.outside parent child hparent hp hchild hstop

/-- The root of a heap is its greatest entry. -/
theorem Ordered.le_root (h : Ordered f 0 stop) {k : ℕ} (hk : k < stop) : f k ≤ f 0 := by
  induction k using Nat.strongRecOn with
  | ind k ih =>
    rcases Nat.eq_zero_or_pos k with rfl | hpos
    · exact le_rfl
    · have hparent : IsChild k ((k - 1) / 2) := by
        unfold IsChild
        omega
      exact (h _ k (Nat.zero_le _) hparent hk).trans (ih _ hparent.lt (Nat.lt_trans hparent.lt hk))

/-- The last entry of a heap in the place of its root. -/
theorem Ordered.sifting_root (h : Ordered f 0 (stop + 1)) :
    Sifting (swapped f 0 stop) 0 0 stop where
  outside := by
    intro parent child _ hne hchild hstop
    have hlt := hchild.lt
    rw [swapped_other f hne (by omega), swapped_other f (by omega) (by omega)]
    exact h parent child (Nat.zero_le _) hchild (by omega)
  across := fun parent child _ hhole _ _ => absurd hhole.lt (Nat.not_lt_zero _)

/-- From `stop` on every entry has its final place among the first `size` ones. -/
def Settled (f : ℕ → β) (stop size : ℕ) : Prop :=
  ∀ i j, i ≤ j → stop ≤ j → j < size → f i ≤ f j

/-- What is in front of the settled entries may be reordered. -/
theorem Settled.comp {size : ℕ} (h : Settled f stop size) (order : Equiv.Perm ℕ)
    (hfixed : ∀ k, stop ≤ k → order k = k) : Settled (f ∘ order) stop size := by
  intro i j hij hstop hsize
  rw [Function.comp_apply, Function.comp_apply, hfixed j hstop]
  refine h (order i) j ?_ hstop hsize
  by_cases hi : stop ≤ i
  · rwa [hfixed i hi]
  · -- An entry in front stays in front.
    by_contra hlt
    have himage : order (order i) = order i := hfixed _ (by omega)
    have := order.injective himage
    omega

/-- The root of a heap in front of settled entries settles behind the others. -/
theorem Settled.root {size : ℕ} (h : Settled f (stop + 1) size) (hheap : Ordered f 0 (stop + 1)) :
    Settled (swapped f 0 stop) stop size := by
  intro i j hij hstop hsize
  by_cases hj : j = stop
  · rw [hj, swapped_right]
    by_cases hi : i = stop
    · rw [hi, swapped_right]
    · by_cases hzero : i = 0
      · rw [hzero, swapped_left]
        exact hheap.le_root (Nat.lt_succ_self _)
      · rw [swapped_other f hzero hi]
        exact hheap.le_root (by omega)
  · rw [swapped_other f (by omega) hj]
    unfold swapped
    rw [Function.comp_apply]
    refine h _ j ?_ (by omega) hsize
    by_cases hi : i = stop
    · rw [hi, Equiv.swap_apply_right]
      exact Nat.zero_le _
    · by_cases hzero : i = 0
      · rw [hzero, Equiv.swap_apply_left]
        omega
      · rw [Equiv.swap_apply_of_ne_of_ne hzero hi]
        exact hij

end Nocter.Heap
