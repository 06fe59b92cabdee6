import Mathlib.Data.List.Basic
import Mathlib.Data.List.Nodup

/-!
# Choice by precedence

Among the eligible members of a list the one of the greatest rank is chosen. Where no two
eligible members share a rank there is at most one choice, and it does not depend on the
order of the list.
-/

namespace Nocter.Precedence

variable {α : Type*} {eligible : α → Prop} {rank : α → ℕ} {xs ys : List α} {x y : α}

/-- An eligible member whose rank is above that of every other eligible member. -/
structure Chosen (eligible : α → Prop) (rank : α → ℕ) (xs : List α) (x : α) : Prop where
  mem : x ∈ xs
  qualifies : eligible x
  above : ∀ y ∈ xs, eligible y → y ≠ x → rank y < rank x

theorem Chosen.unique (hx : Chosen eligible rank xs x) (hy : Chosen eligible rank xs y) :
    x = y := by
  by_contra hne
  have hxy := hx.above y hy.mem hy.qualifies (Ne.symm hne)
  have hyx := hy.above x hx.mem hx.qualifies hne
  omega

theorem Chosen.perm (hx : Chosen eligible rank xs x) (h : xs.Perm ys) :
    Chosen eligible rank ys x where
  mem := h.mem_iff.mp hx.mem
  qualifies := hx.qualifies
  above := fun y hy => hx.above y (h.mem_iff.mpr hy)

/-- A member that no eligible one exceeds is the choice where ranks tell eligible members
apart. -/
theorem Chosen.of_greatest (hmem : x ∈ xs) (heligible : eligible x)
    (hgreatest : ∀ y ∈ xs, eligible y → rank y ≤ rank x)
    (happart : ∀ y ∈ xs, eligible y → rank y = rank x → y = x) :
    Chosen eligible rank xs x where
  mem := hmem
  qualifies := heligible
  above := fun y hy hey hne =>
    Nat.lt_of_le_of_ne (hgreatest y hy hey) (fun heq => hne (happart y hy hey heq))

/-- A scan that answers with a choice, and with nothing where no member is eligible. -/
def Decides (eligible : α → Prop) (rank : α → ℕ) (xs : List α) : Option α → Prop
  | none => ∀ x ∈ xs, ¬ eligible x
  | some x => Chosen eligible rank xs x

theorem Decides.unique {a b : Option α} (ha : Decides eligible rank xs a)
    (hb : Decides eligible rank xs b) : a = b := by
  cases a with
  | none =>
    cases b with
    | none => rfl
    | some y => exact absurd hb.qualifies (ha y hb.mem)
  | some x =>
    cases b with
    | none => exact absurd ha.qualifies (hb x ha.mem)
    | some y => rw [Chosen.unique ha hb]

theorem Decides.perm {a : Option α} (ha : Decides eligible rank xs a) (h : xs.Perm ys) :
    Decides eligible rank ys a := by
  cases a with
  | none => exact fun x hx => ha x (h.mem_iff.mpr hx)
  | some x => exact Chosen.perm ha h

end Nocter.Precedence
