import Mathlib.Data.Finset.Sort

/-!
# Finite maps

A map with finitely many keys, whose entries are visited in the order of the keys.
-/

namespace Nocter

/-- Finitely many keys, and the value of each. -/
structure FiniteMap (K V : Type) where
  keys : Finset K
  get? : K → Option V
  mem_keys : ∀ {key}, key ∈ keys ↔ (get? key).isSome

namespace FiniteMap

variable {K V : Type} {map left right : FiniteMap K V} {key other : K} {value : V}

theorem notMem_keys : key ∉ map.keys ↔ map.get? key = none := by
  rw [mem_keys, Option.not_isSome_iff_eq_none]

theorem mem_keys_of_get (h : map.get? key = some value) : key ∈ map.keys := by
  rw [mem_keys, h]
  rfl

def empty : FiniteMap K V where
  keys := ∅
  get? _ := none
  mem_keys := by simp

@[simp] theorem get_empty : (empty : FiniteMap K V).get? key = none := rfl

/-- The entries whose keys are kept. -/
def retain (map : FiniteMap K V) (keep : K → Prop) [DecidablePred keep] : FiniteMap K V where
  keys := map.keys.filter keep
  get? key := if keep key then map.get? key else none
  mem_keys {key} := by
    rw [Finset.mem_filter, mem_keys]
    split <;> simp_all

@[simp] theorem get_retain {keep : K → Prop} [DecidablePred keep] :
    (map.retain keep).get? key = if keep key then map.get? key else none := rfl

/-- The keys that are kept, in order. -/
def keysWhere [LinearOrder K] (map : FiniteMap K V) (keep : K → Prop) [DecidablePred keep] :
    List K :=
  (map.keys.filter keep).sort (· ≤ ·)

@[simp] theorem mem_keysWhere [LinearOrder K] {keep : K → Prop} [DecidablePred keep] :
    key ∈ map.keysWhere keep ↔ (map.get? key).isSome ∧ keep key := by
  rw [keysWhere, Finset.mem_sort, Finset.mem_filter, mem_keys]

theorem keysWhere_congr [LinearOrder K] {keep : K → Prop} [DecidablePred keep]
    (h : ∀ key, keep key → left.get? key = right.get? key) :
    left.keysWhere keep = right.keysWhere keep := by
  have hkeys : left.keys.filter keep = right.keys.filter keep := by
    ext key
    simp only [Finset.mem_filter, mem_keys]
    constructor
    · exact fun hkey => ⟨h key hkey.2 ▸ hkey.1, hkey.2⟩
    · exact fun hkey => ⟨(h key hkey.2).symm ▸ hkey.1, hkey.2⟩
  rw [keysWhere, keysWhere, hkeys]

section Entries

variable [LinearOrder K]

/-- The entries in the order of their keys. -/
def entries (map : FiniteMap K V) : List (K × V) :=
  (map.keys.sort (· ≤ ·)).filterMap fun key => (map.get? key).map (key, ·)

theorem mem_entries : (key, value) ∈ map.entries ↔ map.get? key = some value := by
  rw [entries, List.mem_filterMap]
  constructor
  · rintro ⟨other, -, h⟩
    obtain ⟨found, hfound, h⟩ := Option.map_eq_some_iff.mp h
    cases h
    exact hfound
  · exact fun h => ⟨key, (Finset.mem_sort _).mpr (mem_keys_of_get h), by rw [h]; rfl⟩

theorem entries_sublist (map : FiniteMap K V) :
    (map.entries.map Prod.fst).Sublist (map.keys.sort (· ≤ ·)) := by
  rw [entries, List.map_filterMap]
  generalize map.keys.sort (· ≤ ·) = keys
  induction keys with
  | nil => exact List.Sublist.refl []
  | cons key keys ih =>
    rw [List.filterMap_cons]
    cases map.get? key with
    | none => exact ih.cons key
    | some found => exact ih.cons_cons key

theorem entries_nodup (map : FiniteMap K V) : (map.entries.map Prod.fst).Nodup :=
  (entries_sublist map).nodup (Finset.sort_nodup _ _)

end Entries

variable [DecidableEq K]

/-- The map of the values that a function has at some keys. -/
def ofKeys (keys : Finset K) (value : K → Option V) : FiniteMap K V where
  keys := keys.filter fun key => (value key).isSome
  get? key := if key ∈ keys then value key else none
  mem_keys {key} := by
    rw [Finset.mem_filter]
    split <;> simp_all

@[simp] theorem get_ofKeys {keys : Finset K} {value : K → Option V} :
    (ofKeys keys value).get? key = if key ∈ keys then value key else none := rfl

def insert (map : FiniteMap K V) (key : K) (value : V) : FiniteMap K V where
  keys := Insert.insert key map.keys
  get? other := if other = key then some value else map.get? other
  mem_keys {other} := by
    rw [Finset.mem_insert, mem_keys]
    split <;> simp_all

@[simp] theorem get_insert :
    (map.insert key value).get? other = if other = key then some value else map.get? other := rfl

def erase (map : FiniteMap K V) (key : K) : FiniteMap K V where
  keys := map.keys.erase key
  get? other := if other = key then none else map.get? other
  mem_keys {other} := by
    rw [Finset.mem_erase, mem_keys]
    split <;> simp_all

@[simp] theorem get_erase :
    (map.erase key).get? other = if other = key then none else map.get? other := rfl

section First

variable [LinearOrder K]

theorem entries_single : (empty.insert key value : FiniteMap K V).entries = [(key, value)] := by
  have hkeys : (empty.insert key value : FiniteMap K V).keys = {key} := by
    ext other
    rw [mem_keys, get_insert, Finset.mem_singleton]
    split
    next hsame => exact iff_of_true rfl hsame
    next hne => exact iff_of_false (fun h => by cases h) hne
  rw [entries, hkeys, Finset.sort_singleton, List.filterMap_cons, get_insert, if_pos rfl]
  rfl

/-- The entry of the least key, and the map without it. -/
def popFirst (map : FiniteMap K V) : Option ((K × V) × FiniteMap K V) :=
  match map.entries with
  | [] => none
  | entry :: _ => some (entry, map.erase entry.1)

theorem popFirst_eq_none : map.popFirst = none ↔ ∀ key, map.get? key = none := by
  unfold popFirst
  cases hentries : map.entries with
  | nil =>
    refine iff_of_true rfl fun key => ?_
    cases hvalue : map.get? key with
    | none => rfl
    | some value =>
      have hmem := mem_entries.mpr hvalue
      rw [hentries] at hmem
      exact absurd hmem List.not_mem_nil
  | cons entry rest =>
    obtain ⟨key, value⟩ := entry
    have hmem : (key, value) ∈ map.entries := by
      rw [hentries]
      exact List.mem_cons_self
    refine iff_of_false (fun h => (by cases h)) fun h => ?_
    rw [mem_entries, h key] at hmem
    cases hmem

theorem popFirst_eq_some (h : map.popFirst = some ((key, value), left)) :
    map.get? key = some value ∧ left = map.erase key := by
  unfold popFirst at h
  cases hentries : map.entries with
  | nil =>
    rw [hentries] at h
    cases h
  | cons entry rest =>
    rw [hentries] at h
    cases h
    refine ⟨mem_entries.mp ?_, rfl⟩
    rw [hentries]
    exact List.mem_cons_self

end First

section Collect

variable {E : Type} {value : K → Except E V}

/-- The map of the values at the keys, which are computed one after another. -/
def collect (value : K → Except E V) : List K → Except E (FiniteMap K V)
  | [] => .ok empty
  | key :: keys => do
    let found ← value key
    let rest ← collect value keys
    pure (rest.insert key found)

theorem collect_ok {keys : List K} (h : collect value keys = .ok map) :
    (∀ key ∈ keys, ∃ found, value key = .ok found ∧ map.get? key = some found) ∧
      ∀ key, key ∉ keys → map.get? key = none := by
  induction keys generalizing map with
  | nil =>
    cases h
    simp
  | cons key keys ih =>
    rw [collect] at h
    cases hfound : value key with
    | error error => simp [hfound, bind, Except.bind] at h
    | ok found =>
      cases hrest : collect value keys with
      | error error => simp [hfound, hrest, bind, Except.bind] at h
      | ok rest =>
        obtain ⟨hmem, hnot⟩ := ih hrest
        obtain rfl : rest.insert key found = map := by
          simpa [hfound, hrest, bind, Except.bind, pure, Except.pure] using h
        constructor
        · intro other hother
          rw [get_insert]
          split
          next heq => exact ⟨found, heq ▸ hfound, rfl⟩
          next hne => exact hmem other ((List.mem_cons.mp hother).resolve_left hne)
        · intro other hother
          rw [List.mem_cons, not_or] at hother
          rw [get_insert, if_neg hother.1]
          exact hnot other hother.2

end Collect

end FiniteMap

end Nocter
