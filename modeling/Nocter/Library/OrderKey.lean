import Mathlib.Data.List.Basic
import Mathlib.Order.Compare

/-!
# Lexicographic order keys

A derived total order compares the variants of an enumeration first and then
the fields one after another; a slice is compared element by element, and a
proper prefix comes first. An `OrderKey` is a tree of words whose comparison
has exactly this shape, so a type whose key is injective inherits a lawful
derived order from it.
-/

namespace Nocter

inductive OrderKey where
  | word (value : ℕ)
  | fields (parts : List OrderKey)

namespace OrderKey

mutual

def cmp : OrderKey → OrderKey → Ordering
  | .word a, .word b => compare a b
  | .word _, .fields _ => .lt
  | .fields _, .word _ => .gt
  | .fields xs, .fields ys => cmpParts xs ys

def cmpParts : List OrderKey → List OrderKey → Ordering
  | [], [] => .eq
  | [], _ :: _ => .lt
  | _ :: _, [] => .gt
  | x :: xs, y :: ys => (cmp x y).then (cmpParts xs ys)

end

instance : Ord OrderKey := ⟨cmp⟩

mutual

theorem cmp_swap : ∀ a b : OrderKey, cmp a b = (cmp b a).swap
  | .word a, .word b => by
    simp only [cmp]
    exact Std.OrientedCmp.eq_swap
  | .word _, .fields _ => rfl
  | .fields _, .word _ => rfl
  | .fields xs, .fields ys => by
    simp only [cmp]
    exact cmpParts_swap xs ys

theorem cmpParts_swap : ∀ xs ys : List OrderKey, cmpParts xs ys = (cmpParts ys xs).swap
  | [], [] => rfl
  | [], _ :: _ => rfl
  | _ :: _, [] => rfl
  | x :: xs, y :: ys => by
    simp only [cmpParts]
    rw [cmp_swap x y, cmpParts_swap xs ys, Ordering.swap_then]

end

mutual

theorem eq_of_cmp : ∀ {a b : OrderKey}, cmp a b = .eq → a = b
  | .word a, .word b, h => by
    simp only [cmp, Std.LawfulEqCmp.compare_eq_iff_eq] at h
    rw [h]
  | .word _, .fields _, h => by simp [cmp] at h
  | .fields _, .word _, h => by simp [cmp] at h
  | .fields xs, .fields ys, h => by
    simp only [cmp] at h
    rw [eq_of_cmpParts h]

theorem eq_of_cmpParts : ∀ {xs ys : List OrderKey}, cmpParts xs ys = .eq → xs = ys
  | [], [], _ => rfl
  | [], _ :: _, h => by simp [cmpParts] at h
  | _ :: _, [], h => by simp [cmpParts] at h
  | x :: xs, y :: ys, h => by
    simp only [cmpParts, Ordering.then_eq_eq] at h
    rw [eq_of_cmp h.1, eq_of_cmpParts h.2]

end

theorem cmp_self (a : OrderKey) : cmp a a = .eq := by
  have h := cmp_swap a a
  cases hc : cmp a a with
  | eq => rfl
  | lt => simp [hc] at h
  | gt => simp [hc] at h

mutual

theorem cmp_lt_trans : ∀ {a b c : OrderKey}, cmp a b = .lt → cmp b c = .lt → cmp a c = .lt
  | .word a, .word b, .word c, hab, hbc => by
    simp only [cmp] at hab hbc ⊢
    exact Std.TransCmp.lt_trans hab hbc
  | .word _, .word _, .fields _, _, _ => rfl
  | .word _, .fields _, .fields _, _, _ => rfl
  | .word _, .fields _, .word _, _, h => by simp [cmp] at h
  | .fields _, .word _, _, h, _ => by simp [cmp] at h
  | .fields _, .fields _, .word _, _, h => by simp [cmp] at h
  | .fields xs, .fields ys, .fields zs, hab, hbc => by
    simp only [cmp] at hab hbc ⊢
    exact cmpParts_lt_trans hab hbc

theorem cmpParts_lt_trans : ∀ {xs ys zs : List OrderKey},
    cmpParts xs ys = .lt → cmpParts ys zs = .lt → cmpParts xs zs = .lt
  | [], [], _, h, _ => by simp [cmpParts] at h
  | [], _ :: _, [], _, h => by simp [cmpParts] at h
  | [], _ :: _, _ :: _, _, _ => rfl
  | _ :: _, [], _, h, _ => by simp [cmpParts] at h
  | _ :: _, _ :: _, [], _, h => by simp [cmpParts] at h
  | x :: xs, y :: ys, z :: zs, hab, hbc => by
    simp only [cmpParts, Ordering.then_eq_lt] at hab hbc ⊢
    rcases hab with hxy | ⟨hxy, hab⟩
    · rcases hbc with hyz | ⟨hyz, _⟩
      · exact .inl (cmp_lt_trans hxy hyz)
      · exact .inl (eq_of_cmp hyz ▸ hxy)
    · rw [eq_of_cmp hxy]
      rcases hbc with hyz | ⟨hyz, hbc⟩
      · exact .inl hyz
      · exact .inr ⟨hyz, cmpParts_lt_trans hab hbc⟩

end

instance : Std.OrientedOrd OrderKey := ⟨cmp_swap _ _⟩

instance : Std.TransOrd OrderKey where
  isLE_trans {a b c} hab hbc := by
    rw [Ordering.isLE_iff_eq_lt_or_eq_eq] at hab hbc ⊢
    rcases hab with hab | hab
    · rcases hbc with hbc | hbc
      · exact .inl (cmp_lt_trans hab hbc)
      · exact .inl (eq_of_cmp hbc ▸ hab)
    · rw [eq_of_cmp hab]
      exact hbc

def ofOption {α : Type} (key : α → OrderKey) : Option α → OrderKey
  | none => .fields [.word 0]
  | some a => .fields [.word 1, key a]

def ofList {α : Type} (key : α → OrderKey) (xs : List α) : OrderKey :=
  .fields (xs.map key)

variable {α : Type} {key : α → OrderKey}

theorem ofOption_injective (h : Function.Injective key) : Function.Injective (ofOption key) := by
  intro a b hab
  cases a <;> cases b <;> simp_all [ofOption, h.eq_iff]

theorem ofList_injective (h : Function.Injective key) : Function.Injective (ofList key) := by
  intro xs ys hab
  exact h.list_map (fields.inj hab)

end OrderKey

section Derived

variable {α : Type} (key : α → OrderKey)

/-- The order a type takes from its key. -/
abbrev derivedOrd : Ord α := ⟨fun a b => compare (key a) (key b)⟩

theorem derivedOrd_trans : @Std.TransOrd α (derivedOrd key) :=
  letI := derivedOrd key
  { eq_swap := OrderKey.cmp_swap _ _
    isLE_trans := fun hab hbc => @Std.TransCmp.isLE_trans OrderKey compare _ _ _ _ hab hbc }

theorem derivedOrd_lawfulEq (h : Function.Injective key) : @Std.LawfulEqOrd α (derivedOrd key) :=
  letI := derivedOrd key
  { compare_self := OrderKey.cmp_self _
    eq_of_compare := fun hab => h (OrderKey.eq_of_cmp hab) }

end Derived

end Nocter
