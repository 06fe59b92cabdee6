import Mathlib.Data.List.AList
import Mathlib.Data.Multiset.Filter
import Mathlib.Tactic

/-!
# Keyed tables as multisets of entries

A table with distinct keys is a Mathlib association list. Its contents are counted
through the multiset of its entries, which one insertion or removal changes by one
entry.
-/

namespace Nocter

universe u v

variable {κ : Type u} {ν : Type v}

/-- A finite map with values of one type. -/
abbrev KeyedTable (κ : Type u) (ν : Type v) := AList fun _ : κ => ν

theorem coe_append_singleton {α : Type u} (l : List α) (a : α) :
    ((l ++ [a] : List α) : Multiset α) = a ::ₘ (l : Multiset α) := by
  rw [Multiset.cons_coe, Multiset.coe_eq_coe]
  exact List.perm_append_singleton a l

/-- A list is one of its members together with the list without that position. -/
theorem coe_eq_cons_eraseIdx {α : Type u} {l : List α} {i : ℕ} {a : α} (h : l[i]? = some a) :
    (l : Multiset α) = a ::ₘ (l.eraseIdx i : Multiset α) := by
  obtain ⟨hi, rfl⟩ := List.getElem?_eq_some_iff.mp h
  rw [Multiset.cons_coe, Multiset.coe_eq_coe]
  exact (List.getElem_cons_eraseIdx_perm hi).symm

namespace KeyedTable

def entryBag (m : KeyedTable κ ν) : Multiset (κ × ν) :=
  ((m.entries.map fun e => (e.1, e.2) : List (κ × ν)) : Multiset (κ × ν))

/-- The number of entries whose value satisfies a test. -/
def countValues (m : KeyedTable κ ν) (p : ν → Bool) : ℕ := m.entries.countP fun e => p e.2

theorem countValues_eq (m : KeyedTable κ ν) (p : ν → Bool) :
    m.countValues p = m.entryBag.countP fun e => p e.2 = true := by
  simp [countValues, entryBag, List.countP_map, Function.comp_def]

theorem keys_eq_map (m : KeyedTable κ ν) : (m.keys : Multiset κ) = m.entryBag.map Prod.fst := by
  simp [entryBag, AList.keys, List.keys, Function.comp_def]

theorem card_entryBag (m : KeyedTable κ ν) : m.entryBag.card = m.entries.length := by
  simp [entryBag]

@[simp] theorem entryBag_empty : entryBag (∅ : KeyedTable κ ν) = 0 := rfl

variable [DecidableEq κ] {m : KeyedTable κ ν} {k : κ} {a b : ν}

theorem entryBag_insert (m : KeyedTable κ ν) (k : κ) (a : ν) :
    entryBag (m.insert k a) = (k, a) ::ₘ entryBag (m.erase k) := rfl

theorem mem_entryBag : (k, a) ∈ m.entryBag ↔ m.lookup k = some a := by
  rw [← Option.mem_def, AList.mem_lookup_iff]
  simp only [entryBag, Multiset.mem_coe, List.mem_map, Prod.mk.injEq]
  constructor
  · rintro ⟨⟨k', a'⟩, he, rfl, rfl⟩
    exact he
  · intro he
    exact ⟨⟨k, a⟩, he, rfl, rfl⟩

/-- A table is the entry of a present key together with the table without that key. -/
theorem entryBag_of_lookup (h : m.lookup k = some a) :
    m.entryBag = (k, a) ::ₘ entryBag (m.erase k) := by
  have hk : k ∈ m.entries.keys := by
    have hs : (m.lookup k).isSome := by rw [h]; rfl
    exact AList.lookup_isSome.mp hs
  obtain ⟨b, l₁, l₂, hnot, he, hr⟩ := List.exists_of_kerase hk
  have hb : b = a := by
    have hmem : (k, b) ∈ m.entryBag := by
      simp only [entryBag, he, Multiset.mem_coe]
      simp
    rw [mem_entryBag, h] at hmem
    exact (Option.some.inj hmem).symm
  have hs : (m.erase k).entries = l₁ ++ l₂ := hr
  simp only [entryBag, hs, he, hb, List.map_append, List.map_cons, ← Multiset.coe_add,
    ← Multiset.cons_coe, Multiset.add_cons]

theorem erase_of_lookup_none (h : m.lookup k = none) : m.erase k = m := by
  apply AList.ext
  exact List.kerase_of_notMem_keys (AList.lookup_eq_none.mp h)

end KeyedTable

end Nocter
