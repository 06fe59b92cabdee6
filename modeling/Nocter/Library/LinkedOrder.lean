import Mathlib.Data.List.Nodup
import Mathlib.Logic.Function.Basic

/-!
# Linked sequences

A sequence of cells where every cell names the one after it. The backward links of a doubly
linked sequence are the links of the reversed sequence.
-/

namespace Nocter

variable {ι : Type}

/-- Every cell of the sequence is linked to the next one, and the last one to nothing. -/
def Chained (next : ι → Option ι) : List ι → Prop
  | [] => True
  | cell :: rest => next cell = rest.head? ∧ Chained next rest

namespace Chained

variable {next next' : ι → Option ι} {order : List ι}

theorem congr (h : Chained next order) (hsame : ∀ cell ∈ order, next' cell = next cell) :
    Chained next' order := by
  induction order with
  | nil => trivial
  | cons cell rest ih =>
    refine ⟨(hsame cell List.mem_cons_self).trans h.1, ih h.2 fun other hother => ?_⟩
    exact hsame other (List.mem_cons_of_mem _ hother)

theorem next_eq (h : Chained next order) {before after : List ι} {cell : ι}
    (hsplit : order = before ++ cell :: after) : next cell = after.head? := by
  induction before generalizing order with
  | nil =>
    subst hsplit
    exact h.1
  | cons other before ih =>
    subst hsplit
    exact ih h.2 rfl

variable [DecidableEq ι]

/-- The link of a cell, if there is one, is changed. -/
def relink (next : ι → Option ι) (cell : Option ι) (target : Option ι) : ι → Option ι :=
  cell.elim next fun cell => Function.update next cell target

@[simp] theorem relink_some (next : ι → Option ι) (cell : ι) (target : Option ι) :
    relink next (some cell) target = Function.update next cell target := rfl

theorem relink_of_ne {cell : Option ι} {other : ι} (h : cell ≠ some other) (target : Option ι) :
    relink next cell target other = next other := by
  cases cell with
  | none => rfl
  | some cell =>
    rw [relink_some, Function.update_of_ne]
    rintro rfl
    exact h rfl

/-- What follows a cell is replaced. -/
theorem replaceTail {before after after' : List ι} (h : Chained next (before ++ after))
    (hnodup : before.Nodup) (hafter : Chained next after')
    (hfresh : ∀ cell ∈ before, cell ∉ after') :
    Chained (relink next before.getLast? after'.head?) (before ++ after') := by
  induction before with
  | nil => exact hafter
  | cons cell before ih =>
    rw [List.nodup_cons] at hnodup
    obtain ⟨hcell, hrest⟩ := h
    cases before with
    | nil =>
      refine ⟨?_, hafter.congr fun other hother => relink_of_ne ?_ _⟩
      · exact Function.update_self cell _ next
      · rintro heq
        obtain rfl := Option.some.inj heq
        exact hfresh cell List.mem_cons_self hother
    | cons second before =>
      have hlast : (cell :: second :: before).getLast? = (second :: before).getLast? :=
        List.getLast?_cons_cons
      rw [hlast]
      refine ⟨?_, ih hrest hnodup.2 fun other hother => hfresh other (List.mem_cons_of_mem _ hother)⟩
      rw [relink_of_ne]
      · exact hcell
      · intro heq
        exact hnodup.1 (List.mem_of_getLast? heq)

/-- A cell is linked behind the last one. -/
theorem concat (h : Chained next order) (hnodup : order.Nodup) {cell : ι} (hcell : cell ∉ order) :
    Chained (relink (Function.update next cell none) order.getLast? (some cell))
      (order ++ [cell]) := by
  have hkept : Chained (Function.update next cell none) (order ++ []) := by
    rw [List.append_nil]
    refine h.congr fun other hother => Function.update_of_ne ?_ _ _
    rintro rfl
    exact hcell hother
  have hlast : Chained (Function.update next cell none) [cell] :=
    ⟨Function.update_self cell none next, trivial⟩
  refine hkept.replaceTail hnodup hlast ?_
  intro other hother hmem
  obtain rfl := List.mem_singleton.mp hmem
  exact hcell hother

/-- A cell is taken out of the sequence. -/
theorem remove {before after : List ι} {cell : ι} (h : Chained next (before ++ cell :: after))
    (hnodup : (before ++ cell :: after).Nodup) :
    Chained (relink next before.getLast? after.head?) (before ++ after) := by
  rw [List.nodup_append, List.nodup_cons] at hnodup
  obtain ⟨hbefore, -, hapart⟩ := hnodup
  have hafter : Chained next after := by
    clear hbefore hapart
    induction before with
    | nil => exact h.2
    | cons other before ih => exact ih h.2
  refine replaceTail h hbefore hafter fun other hother hmem => ?_
  exact hapart other hother other (List.mem_cons_of_mem _ hmem) rfl

end Chained

end Nocter
