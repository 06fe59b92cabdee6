import Mathlib.Data.List.Nodup
import Mathlib.Data.Fintype.Card
import Mathlib.Data.Nat.ModEq

/-!
# Open addressing

Entries in a dense order are found through buckets. The buckets of a hash are
visited one after the other, around the end, up to the first empty bucket. A
bucket whose entry went away is deleted and not empty, so that entries behind it
are still found.
-/

namespace Nocter

namespace OpenAddressing

inductive Bucket where
  | empty
  | deleted
  | occupied (entry : ℕ)
  deriving DecidableEq

/-- The buckets in the order in which a hash visits them. -/
def visit (count hash i : ℕ) : ℕ := (hash + i) % count

theorem visit_lt {count : ℕ} (h : 0 < count) (hash i : ℕ) : visit count hash i < count :=
  Nat.mod_lt _ h

/-- Every bucket is visited. -/
theorem exists_visit {count bucket : ℕ} (hash : ℕ) (h : bucket < count) :
    ∃ i < count, visit count hash i = bucket := by
  have hpositive : 0 < count := Nat.lt_of_le_of_lt (Nat.zero_le _) h
  have hhash : hash % count < count := Nat.mod_lt _ hpositive
  by_cases hle : hash % count ≤ bucket
  · refine ⟨bucket - hash % count, by omega, ?_⟩
    rw [visit, ← Nat.mod_add_mod, Nat.add_sub_cancel' hle, Nat.mod_eq_of_lt h]
  · refine ⟨bucket + count - hash % count, by omega, ?_⟩
    rw [visit, ← Nat.mod_add_mod, Nat.add_sub_cancel' (by omega), Nat.add_mod_right,
      Nat.mod_eq_of_lt h]

/-- A hash visits the bucket before it meets an empty one. -/
def OnPath (buckets : List Bucket) (hash bucket : ℕ) : Prop :=
  ∃ i < buckets.length, visit buckets.length hash i = bucket ∧
    ∀ j < i, buckets[visit buckets.length hash j]? ≠ some .empty

/-- Every entry, given by its hash, has one occupied bucket, and its hash finds it there. -/
structure Indexes (buckets : List Bucket) (hashes : List ℕ) : Prop where
  bound : ∀ {bucket entry : ℕ}, buckets[bucket]? = some (.occupied entry) → entry < hashes.length
  placed : ∀ {entry hash : ℕ}, hashes[entry]? = some hash →
    ∃ bucket, buckets[bucket]? = some (.occupied entry) ∧ OnPath buckets hash bucket
  unique : ∀ {bucket bucket' entry : ℕ}, buckets[bucket]? = some (.occupied entry) →
    buckets[bucket']? = some (.occupied entry) → bucket = bucket'

variable {buckets : List Bucket} {hashes : List ℕ}

/-- Writing a bucket that is not empty leaves the ways to all buckets open. -/
theorem OnPath.set {hash bucket target : ℕ} {value : Bucket} (h : OnPath buckets hash bucket)
    (hvalue : value ≠ .empty) : OnPath (buckets.set target value) hash bucket := by
  obtain ⟨i, hi, hvisit, hpath⟩ := h
  rw [OnPath, List.length_set]
  refine ⟨i, hi, hvisit, fun j hj => ?_⟩
  rw [List.getElem?_set]
  split
  · split
    · simpa using hvalue
    · simp
  · exact hpath j hj

theorem Indexes.empty (count : ℕ) : Indexes (List.replicate count .empty) [] := by
  have hnone : ∀ bucket entry : ℕ,
      (List.replicate count Bucket.empty)[bucket]? ≠ some (.occupied entry) := by
    intro bucket entry h
    rw [List.getElem?_replicate] at h
    split at h <;> cases h
  refine ⟨fun h => absurd h (hnone _ _), fun h => ?_, fun h => absurd h (hnone _ _)⟩
  rw [List.getElem?_nil] at h
  cases h

namespace Indexes

/-- With fewer entries than buckets some bucket is not occupied. -/
theorem exists_vacant (h : Indexes buckets hashes) (hlt : hashes.length < buckets.length) :
    ∃ bucket < buckets.length, ∀ entry, buckets[bucket]? ≠ some (.occupied entry) := by
  by_contra hnone
  push Not at hnone
  choose entry hentry using fun bucket : Fin buckets.length => hnone bucket bucket.isLt
  have hbound : ∀ bucket, entry bucket < hashes.length := fun bucket => h.bound (hentry bucket)
  have hinjective : Function.Injective fun bucket => (⟨entry bucket, hbound bucket⟩ : Fin hashes.length) := by
    intro bucket bucket' hsame
    have heq : entry bucket = entry bucket' := Fin.mk.inj_iff.mp hsame
    have hother := hentry bucket'
    rw [← heq] at hother
    exact Fin.ext (h.unique (hentry bucket) hother)
  have hcard := Fintype.card_le_of_injective _ hinjective
  rw [Fintype.card_fin, Fintype.card_fin] at hcard
  omega

/-- A new entry takes a bucket on the way of its hash that is not occupied. -/
theorem append (h : Indexes buckets hashes) {bucket hash : ℕ} (hlt : bucket < buckets.length)
    (hvacant : ∀ entry, buckets[bucket]? ≠ some (.occupied entry))
    (hpath : OnPath buckets hash bucket) :
    Indexes (buckets.set bucket (.occupied hashes.length)) (hashes ++ [hash]) := by
  have hother : ∀ {b e : ℕ}, (buckets.set bucket (.occupied hashes.length))[b]? = some (.occupied e) →
      b = bucket ∧ e = hashes.length ∨ b ≠ bucket ∧ buckets[b]? = some (.occupied e) := by
    intro b e hb
    by_cases hsame : b = bucket
    · rw [hsame, List.getElem?_set_self hlt] at hb
      cases hb
      exact Or.inl ⟨hsame, rfl⟩
    · rw [List.getElem?_set_ne (Ne.symm hsame)] at hb
      exact Or.inr ⟨hsame, hb⟩
  refine ⟨fun hb => ?_, @fun entry other hentry => ?_, fun hb hb' => ?_⟩
  · rw [List.length_append, List.length_singleton]
    obtain ⟨_, rfl⟩ | ⟨_, hold⟩ := hother hb
    · exact Nat.lt_succ_self _
    · exact Nat.lt_succ_of_lt (h.bound hold)
  · by_cases hlast : entry < hashes.length
    · rw [List.getElem?_append_left hlast] at hentry
      obtain ⟨b, hb, honPath⟩ := h.placed hentry
      have hne : bucket ≠ b := by
        rintro rfl
        exact hvacant _ hb
      exact ⟨b, by rw [List.getElem?_set_ne hne, hb], honPath.set (by simp)⟩
    · have hle := (List.getElem?_eq_some_iff.mp hentry).1
      rw [List.length_append, List.length_singleton] at hle
      obtain rfl : entry = hashes.length := by omega
      rw [List.getElem?_append_right (Nat.le_refl _), Nat.sub_self] at hentry
      cases hentry
      exact ⟨bucket, List.getElem?_set_self hlt, hpath.set (by simp)⟩
  · obtain ⟨rfl, rfl⟩ | ⟨hne, hold⟩ := hother hb
    · obtain ⟨rfl, _⟩ | ⟨_, hold'⟩ := hother hb'
      · rfl
      · exact absurd (h.bound hold') (Nat.lt_irrefl _)
    · obtain ⟨_, rfl⟩ | ⟨_, hold'⟩ := hother hb'
      · exact absurd (h.bound hold) (Nat.lt_irrefl _)
      · exact h.unique hold hold'

/-- The last entry goes away. -/
theorem removeLast {hash : ℕ} (h : Indexes buckets (hashes ++ [hash])) {bucket : ℕ}
    (hbucket : buckets[bucket]? = some (.occupied hashes.length)) :
    Indexes (buckets.set bucket .deleted) hashes := by
  have hlt := (List.getElem?_eq_some_iff.mp hbucket).1
  have hother : ∀ {b e : ℕ}, (buckets.set bucket .deleted)[b]? = some (.occupied e) →
      b ≠ bucket ∧ buckets[b]? = some (.occupied e) := by
    intro b e hb
    have hne : bucket ≠ b := by
      rintro rfl
      rw [List.getElem?_set_self hlt] at hb
      cases hb
    rw [List.getElem?_set_ne hne] at hb
    exact ⟨hne.symm, hb⟩
  refine ⟨@fun b e hb => ?_, @fun entry other hentry => ?_,
    fun hb hb' => h.unique (hother hb).2 (hother hb').2⟩
  · obtain ⟨hne, hold⟩ := hother hb
    have hle := h.bound hold
    rw [List.length_append, List.length_singleton] at hle
    by_contra hge
    obtain rfl : e = hashes.length := by omega
    exact hne (h.unique hold hbucket)
  · have hle := (List.getElem?_eq_some_iff.mp hentry).1
    obtain ⟨b, hb, honPath⟩ := h.placed (by rw [List.getElem?_append_left hle, hentry])
    refine ⟨b, ?_, honPath.set (by simp)⟩
    rw [List.getElem?_set_ne, hb]
    rintro rfl
    rw [hb] at hbucket
    cases hbucket
    omega

/-- An entry goes away and the last one takes its number. -/
theorem removeSwap {hash entry : ℕ} (h : Indexes buckets (hashes ++ [hash])) {bucket moved : ℕ}
    (hentry : entry < hashes.length) (hbucket : buckets[bucket]? = some (.occupied entry))
    (hmoved : buckets[moved]? = some (.occupied hashes.length)) :
    Indexes ((buckets.set bucket .deleted).set moved (.occupied entry)) (hashes.set entry hash) := by
  have hlt := (List.getElem?_eq_some_iff.mp hbucket).1
  have hmovedLt := (List.getElem?_eq_some_iff.mp hmoved).1
  have hne : bucket ≠ moved := by
    rintro rfl
    rw [hbucket] at hmoved
    cases hmoved
    exact Nat.lt_irrefl _ hentry
  have hnew : ((buckets.set bucket .deleted).set moved (.occupied entry))[moved]? =
      some (.occupied entry) := List.getElem?_set_self (by rw [List.length_set]; exact hmovedLt)
  have hkept : ∀ {b : ℕ}, b ≠ bucket → b ≠ moved →
      ((buckets.set bucket .deleted).set moved (.occupied entry))[b]? = buckets[b]? := by
    intro b hb hb'
    rw [List.getElem?_set_ne hb'.symm, List.getElem?_set_ne hb.symm]
  have hother : ∀ {b e : ℕ},
      ((buckets.set bucket .deleted).set moved (.occupied entry))[b]? = some (.occupied e) →
      b = moved ∧ e = entry ∨ b ≠ bucket ∧ b ≠ moved ∧ buckets[b]? = some (.occupied e) := by
    intro b e hb
    by_cases hsame : b = moved
    · rw [hsame, hnew] at hb
      cases hb
      exact Or.inl ⟨hsame, rfl⟩
    · by_cases hgone : b = bucket
      · rw [hgone, List.getElem?_set_ne hne.symm, List.getElem?_set_self hlt] at hb
        cases hb
      · rw [hkept hgone hsame] at hb
        exact Or.inr ⟨hgone, hsame, hb⟩
  refine ⟨@fun b e hb => ?_, @fun e other hsome => ?_, fun hb hb' => ?_⟩
  · rw [List.length_set]
    obtain ⟨_, rfl⟩ | ⟨_, hsame, hold⟩ := hother hb
    · exact hentry
    · have hle := h.bound hold
      rw [List.length_append, List.length_singleton] at hle
      by_contra hge
      obtain rfl : e = hashes.length := by omega
      exact hsame (h.unique hold hmoved)
  · by_cases hmine : e = entry
    · rw [hmine, List.getElem?_set_self hentry] at hsome
      cases hsome
      obtain ⟨b, hb, honPath⟩ := h.placed
        (show (hashes ++ [hash])[hashes.length]? = some hash by
          rw [List.getElem?_append_right (Nat.le_refl _), Nat.sub_self]; rfl)
      obtain rfl := h.unique hb hmoved
      exact ⟨b, by rw [hmine]; exact hnew, (honPath.set (by simp)).set (by simp)⟩
    · rw [List.getElem?_set_ne (Ne.symm hmine)] at hsome
      have hle := (List.getElem?_eq_some_iff.mp hsome).1
      obtain ⟨b, hb, honPath⟩ := h.placed (by rw [List.getElem?_append_left hle, hsome])
      refine ⟨b, ?_, (honPath.set (by simp)).set (by simp)⟩
      rw [hkept, hb]
      · rintro rfl
        rw [hb] at hbucket
        cases hbucket
        exact hmine rfl
      · rintro rfl
        rw [hb] at hmoved
        cases hmoved
        omega
  · obtain ⟨rfl, rfl⟩ | ⟨hgone, hsame, hold⟩ := hother hb
    · obtain ⟨rfl, _⟩ | ⟨hgone', _, hold'⟩ := hother hb'
      · rfl
      · exact absurd (h.unique hold' hbucket) hgone'
    · obtain ⟨_, rfl⟩ | ⟨_, _, hold'⟩ := hother hb'
      · exact absurd (h.unique hold hbucket) hgone
      · exact h.unique hold hold'

end Indexes

end OpenAddressing

end Nocter
