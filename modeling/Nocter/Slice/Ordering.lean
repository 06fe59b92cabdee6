import Mathlib.Data.List.Sort
import Mathlib.Order.WithBot
import Nocter.Library.Heap
import Nocter.Library.Loop

/-!
# In-place slice ordering

The heap sort of `std/slice`. A step has no result where an index is out of bounds or a swap is
refused, which the source answers with an abort.
-/

namespace Nocter.Slice

variable {α : Type}

/-- `none` stands for the answer false. -/
def swapSliceValues (values : List α) (left right : ℕ) : Option (List α) := do
  let leftValue ← values[left]?
  let rightValue ← values[right]?
  return (values.set left rightValue).set right leftValue

section Sorting

variable [LinearOrder α]

/-- The child of `root` that `sift_down` compares with it. -/
def selectChild (values : List α) (root stop : ℕ) : Option ℕ :=
  let left := root * 2 + 1
  let right := left + 1
  if right < stop then do
    let leftValue ← values[left]?
    let rightValue ← values[right]?
    return if leftValue < rightValue then right else left
  else some left

/-- One pass of the loop of `sift_down` on the slice and the root. -/
def siftStep (stop : ℕ) (state : List α × ℕ) : Option (List α × ℕ ⊕ List α) :=
  if state.2 < stop / 2 then do
    let child ← selectChild state.1 state.2 stop
    let rootValue ← state.1[state.2]?
    let childValue ← state.1[child]?
    if rootValue < childValue then do
      let values ← swapSliceValues state.1 state.2 child
      return .inl (values, child)
    else return .inr state.1
  else some (.inr state.1)

def siftDown (values : List α) (initialRoot stop : ℕ) : Option (List α) :=
  Loop.attempt (siftStep stop) (stop + 1) (values, initialRoot)

/-- The first loop of `sort`, for the roots below a bound. -/
def buildHeap (values : List α) : ℕ → Option (List α)
  | 0 => some values
  | root + 1 => do
    let values ← siftDown values root values.length
    buildHeap values root

/-- The second loop of `sort`, in front of a bound. -/
def extractRoots (values : List α) : ℕ → Option (List α)
  | 0 => some values
  | 1 => some values
  | stop + 2 => do
    let values ← swapSliceValues values 0 (stop + 1)
    let values ← siftDown values 0 (stop + 1)
    extractRoots values (stop + 1)

def sort (values : List α) : Option (List α) :=
  if values.length < 2 then some values
  else do
    let values ← buildHeap values (values.length / 2)
    extractRoots values values.length

end Sorting

/-- The entries of a slice, with a least value behind its end. -/
def view (values : List α) (index : ℕ) : WithBot α := values[index]?

theorem view_getElem {values : List α} {index : ℕ} (h : index < values.length) :
    view values index = (values[index] : α) := List.getElem?_eq_getElem h

theorem swapSliceValues_eq {values : List α} {left right : ℕ} (hleft : left < values.length)
    (hright : right < values.length) : ∃ result, swapSliceValues values left right = some result ∧
      result.Perm values ∧ view result = Heap.swapped (view values) left right := by
  refine ⟨(values.set left values[right]).set right values[left], ?_,
    List.set_set_perm hleft hright, ?_⟩
  · rw [swapSliceValues, List.getElem?_eq_getElem hleft, List.getElem?_eq_getElem hright]
    rfl
  · funext index
    have hset : left < (values.set left values[right]).length := by rwa [List.length_set]
    have hset' : right < (values.set left values[right]).length := by rwa [List.length_set]
    by_cases hr : index = right
    · rw [hr, Heap.swapped_right, view_getElem hleft]
      exact List.getElem?_set_self hset'
    · by_cases hl : index = left
      · rw [hl, Heap.swapped_left, view_getElem hright]
        exact (List.getElem?_set_ne (fun h => hr (hl.trans h.symm))).trans
          (List.getElem?_set_self hleft)
      · rw [Heap.swapped_other _ hl hr]
        exact (List.getElem?_set_ne (Ne.symm hr)).trans (List.getElem?_set_ne (Ne.symm hl))

section Reordered

open Heap

/-- What sifting leaves: a reordering of the entries in front of `stop`. -/
structure Reordered (values result : List α) (stop : ℕ) : Prop where
  perm : result.Perm values
  view_eq : ∃ order : Equiv.Perm ℕ, (∀ k, stop ≤ k → order k = k) ∧
    view result = view values ∘ order

theorem Reordered.refl (values : List α) (stop : ℕ) : Reordered values values stop :=
  ⟨List.Perm.refl _, Equiv.refl ℕ, fun _ _ => rfl, rfl⟩

theorem Reordered.swap {values result next : List α} {left right stop : ℕ}
    (h : Reordered values result stop) (hperm : next.Perm result)
    (hview : view next = swapped (view result) left right) (hleft : left < stop)
    (hright : right < stop) : Reordered values next stop := by
  obtain ⟨order, hfixed, hresult⟩ := h.view_eq
  refine ⟨hperm.trans h.perm, (Equiv.swap left right).trans order, ?_, ?_⟩
  · intro k hk
    rw [Equiv.trans_apply, Equiv.swap_apply_of_ne_of_ne (by omega) (by omega), hfixed k hk]
  · rw [hview, swapped, hresult]
    rfl

end Reordered

section Sorted

variable [LinearOrder α]

open Heap

/-- The selected child is a greatest one in front of `stop`. -/
theorem selectChild_spec {values : List α} {root stop : ℕ} (hroot : root < stop / 2)
    (hstop : stop ≤ values.length) : ∃ child, selectChild values root stop = some child ∧
      IsChild child root ∧ child < stop ∧
      ∀ other, IsChild other root → other < stop → view values other ≤ view values child := by
  have hleft : root * 2 + 1 < values.length := by omega
  rw [selectChild]
  by_cases hright : root * 2 + 1 + 1 < stop
  · have hright' : root * 2 + 1 + 1 < values.length := by omega
    rw [if_pos hright, List.getElem?_eq_getElem hleft, List.getElem?_eq_getElem hright']
    by_cases hless : values[root * 2 + 1] < values[root * 2 + 1 + 1]
    · refine ⟨root * 2 + 1 + 1, ?_, Or.inr rfl, hright, ?_⟩
      · simp only [Option.bind_eq_bind, Option.bind_some, if_pos hless, Option.pure_def]
      · rintro other (rfl | rfl) hother
        · rw [view_getElem hleft, view_getElem hright', WithBot.coe_le_coe]
          exact hless.le
        · exact le_rfl
    · refine ⟨root * 2 + 1, ?_, Or.inl rfl, by omega, ?_⟩
      · simp only [Option.bind_eq_bind, Option.bind_some, if_neg hless, Option.pure_def]
      · rintro other (rfl | rfl) hother
        · exact le_rfl
        · rw [view_getElem hleft, view_getElem hright', WithBot.coe_le_coe]
          exact not_lt.mp hless
  · refine ⟨root * 2 + 1, if_neg hright, Or.inl rfl, by omega, ?_⟩
    rintro other (rfl | rfl) hother
    · exact le_rfl
    · exact absurd hother hright

/-- A pass moves the hole to a child, with a swap in bounds, or leaves a heap. -/
theorem siftStep_spec {start values : List α} {first root stop : ℕ}
    (hreordered : Reordered start values stop) (hfirst : first ≤ root)
    (hsifting : Sifting (view values) first root stop) (hstop : stop ≤ values.length) :
    (∃ next child, siftStep stop (values, root) = some (.inl (next, child)) ∧
      Reordered start next stop ∧ root < child ∧ child < stop ∧
      Sifting (view next) first child stop) ∨
    ∃ result, siftStep stop (values, root) = some (.inr result) ∧
      Reordered start result stop ∧ Ordered (view result) first stop := by
  rw [siftStep]
  by_cases hroot : root < stop / 2
  · rw [if_pos hroot]
    obtain ⟨child, hselect, hchild, hchildStop, hgreatest⟩ := selectChild_spec hroot hstop
    have hlt := hchild.lt
    have hroot' : root < values.length := by omega
    have hchild' : child < values.length := by omega
    by_cases hless : values[root] < values[child]
    · obtain ⟨next, hswap, hperm, hview⟩ := swapSliceValues_eq hroot' hchild'
      refine Or.inl ⟨next, child, ?_, hreordered.swap hperm hview (by omega) hchildStop, hlt,
        hchildStop, ?_⟩
      · simp only [hselect, List.getElem?_eq_getElem hroot', List.getElem?_eq_getElem hchild',
          Option.bind_eq_bind, Option.bind_some, if_pos hless, hswap, Option.pure_def]
      · rw [hview]
        refine hsifting.step hfirst hchild hgreatest ?_ hchildStop
        rw [view_getElem hroot', view_getElem hchild', WithBot.coe_le_coe]
        exact hless.le
    · refine Or.inr ⟨values, ?_, hreordered, hsifting.ordered fun other hother hotherStop => ?_⟩
      · simp only [hselect, List.getElem?_eq_getElem hroot', List.getElem?_eq_getElem hchild',
          Option.bind_eq_bind, Option.bind_some, if_neg hless, Option.pure_def]
      · refine le_trans (hgreatest other hother hotherStop) ?_
        rw [view_getElem hroot', view_getElem hchild', WithBot.coe_le_coe]
        exact not_lt.mp hless
  · refine Or.inr ⟨values, if_neg hroot, hreordered, hsifting.ordered fun child hchild hlt => ?_⟩
    unfold IsChild at hchild
    omega

/-- Sifting a hole down gives a heap from `first` on. -/
theorem siftDown_spec {values : List α} {first root stop : ℕ} (hfirst : first ≤ root)
    (hroot : root < stop) (hsifting : Sifting (view values) first root stop)
    (hstop : stop ≤ values.length) : ∃ result, siftDown values root stop = some result ∧
      Reordered values result stop ∧ Ordered (view result) first stop := by
  refine @Loop.attempt_spec _ _ (siftStep stop)
    (fun state => Reordered values state.1 stop ∧ first ≤ state.2 ∧ state.2 < stop ∧
      Sifting (view state.1) first state.2 stop)
    (fun result => Reordered values result stop ∧ Ordered (view result) first stop)
    (fun state => stop - state.2) ?_ _ _ ⟨Reordered.refl _ _, hfirst, hroot, hsifting⟩ (by omega)
  rintro ⟨current, hole⟩ ⟨hreordered, hfirst, hhole, hsifting⟩
  have hlength := hreordered.perm.length_eq
  rcases siftStep_spec hreordered hfirst hsifting (by omega) with
    ⟨next, child, hstep, hnext, hlt, hchild, hsifting'⟩ | ⟨result, hstep, hresult, hheap⟩
  · exact Or.inl ⟨(next, child), hstep, ⟨hnext, by omega, hchild, hsifting'⟩, by dsimp only; omega⟩
  · exact Or.inr ⟨result, hstep, hresult, hheap⟩

theorem buildHeap_spec {values : List α} {root : ℕ} (hroot : root ≤ values.length / 2)
    (hheap : Ordered (view values) root values.length) :
    ∃ result, buildHeap values root = some result ∧ result.Perm values ∧
      Ordered (view result) 0 result.length := by
  induction root generalizing values with
  | zero => exact ⟨values, rfl, List.Perm.refl _, hheap⟩
  | succ root ih =>
    obtain ⟨next, hsift, hreordered, hnext⟩ :=
      siftDown_spec le_rfl (by omega) hheap.sifting le_rfl
    have hlength := hreordered.perm.length_eq
    obtain ⟨result, hresult, hperm, hordered⟩ :=
      @ih next (by omega) (by rw [hlength]; exact hnext)
    refine ⟨result, ?_, hperm.trans hreordered.perm, hordered⟩
    rw [buildHeap, hsift, Option.bind_eq_bind, Option.bind_some, hresult]

/-- The roots settle one by one behind a shrinking heap. -/
theorem extractRoots_spec {values : List α} {stop : ℕ} (hstop : stop ≤ values.length)
    (hheap : Ordered (view values) 0 stop) (hsettled : Settled (view values) stop values.length) :
    ∃ result, extractRoots values stop = some result ∧ result.Perm values ∧
      Settled (view result) 0 result.length := by
  induction stop using Nat.strongRecOn generalizing values with
  | ind stop ih =>
    match stop with
    | 0 => exact ⟨values, rfl, List.Perm.refl _, hsettled⟩
    | 1 =>
      refine ⟨values, rfl, List.Perm.refl _, fun i j hij _ hsize => ?_⟩
      by_cases hj : 1 ≤ j
      · exact hsettled i j hij hj hsize
      · obtain rfl : i = j := by omega
        exact le_rfl
    | stop + 2 =>
      obtain ⟨next, hswap, hperm, hview⟩ :=
        swapSliceValues_eq (by omega : 0 < values.length) (by omega : stop + 1 < values.length)
      have hlength := hperm.length_eq
      obtain ⟨sifted, hsift, hreordered, hordered⟩ := siftDown_spec (Nat.le_refl 0)
        (Nat.succ_pos stop) (hview ▸ hheap.sifting_root) (by omega : stop + 1 ≤ next.length)
      have hlength' := hreordered.perm.length_eq
      obtain ⟨order, hfixed, hsifted⟩ := hreordered.view_eq
      have hroots : Settled (view sifted) (stop + 1) sifted.length := by
        rw [hlength', hlength, hsifted, hview]
        exact (hsettled.root hheap).comp order hfixed
      obtain ⟨result, hresult, hresultPerm, hsorted⟩ :=
        ih (stop + 1) (by omega) (by omega) hordered hroots
      refine ⟨result, ?_, hresultPerm.trans (hreordered.perm.trans hperm), hsorted⟩
      rw [extractRoots, hswap, Option.bind_eq_bind, Option.bind_some, hsift, Option.bind_some,
        hresult]

theorem pairwise_of_settled {values : List α} (h : Settled (view values) 0 values.length) :
    values.Pairwise (· ≤ ·) := by
  rw [List.pairwise_iff_getElem]
  intro i j hi hj hij
  have hle := h i j hij.le (Nat.zero_le _) hj
  rwa [view_getElem hi, view_getElem hj, WithBot.coe_le_coe] at hle

/-- Every slice is sorted in place, with every index and every swap in bounds. -/
theorem sort_sorts (values : List α) :
    ∃ result, sort values = some result ∧ result.Perm values ∧ result.Pairwise (· ≤ ·) := by
  rw [sort]
  by_cases hshort : values.length < 2
  · refine ⟨values, if_pos hshort, List.Perm.refl _, pairwise_of_settled fun i j hij _ hj => ?_⟩
    obtain rfl : i = j := by omega
    exact le_rfl
  · rw [if_neg hshort]
    obtain ⟨heap, hbuild, hperm, hheap⟩ :=
      buildHeap_spec le_rfl (@ordered_of_half_le _ _ (view values) _ _ le_rfl)
    obtain ⟨result, hextract, hresult, hsettled⟩ := extractRoots_spec le_rfl hheap
      (fun i j _ hj hsize => absurd hsize (Nat.not_lt.mpr hj))
    refine ⟨result, ?_, hresult.trans hperm, pairwise_of_settled hsettled⟩
    rw [hbuild, Option.bind_eq_bind, Option.bind_some, hextract]

example : sort [3, 1, 2, 1] = some [1, 1, 2, 3] := by decide

end Sorted

end Nocter.Slice
