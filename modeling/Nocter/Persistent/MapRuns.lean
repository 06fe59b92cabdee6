import Mathlib.Data.List.Dedup
import Mathlib.Data.List.Perm.Basic
import Nocter.Library.Clones
import Nocter.Persistent.Map

/-!
# Programs over persistent maps

A program creates maps, clones them, and inserts into and reads them in any order. The model
of a map is the list of all insertions that were made into it, where the first insertion of a
key counts.
-/

namespace Nocter.Persistent

variable {κ υ : Type}

inductive MapOperation (κ υ : Type) where
  | insertAbsent (key : κ) (value : υ)
  | get (key : κ)
  | containsKey (key : κ)
  | len

inductive MapAnswer (υ : Type) where
  | inserted (absent : Bool)
  | value (held : Option υ)
  | contains (present : Bool)
  | count (len : ℕ)

namespace PersistentMap

/-- `none` stands for a panic of the operation. -/
def perform [Ord κ] (map : PersistentMap κ υ) :
    MapOperation κ υ → Option (MapAnswer υ × PersistentMap κ υ)
  | .insertAbsent key value => do
    let (map, inserted) ← map.insertAbsent key value
    some (.inserted inserted, map)
  | .get key => some (.value (map.get key), map)
  | .containsKey key => some (.contains (map.get key).isSome, map)
  | .len => some (.count map.len, map)

theorem insertAbsent_balanced [Ord κ] {map map' : PersistentMap κ υ} {key : κ} {value : υ} {inserted : Bool}
    (h : map.root.Balanced) (hinsert : map.insertAbsent key value = some (map', inserted)) :
    map'.root.Balanced := by
  obtain ⟨⟨root, grew⟩, hroot, hrest⟩ := Option.bind_eq_some_iff.mp hinsert
  dsimp only at hrest
  split at hrest
  · obtain ⟨rfl, -⟩ := Prod.mk.inj (Option.some.inj hrest)
    exact (MapNode.insert_balanced h hroot).1
  · obtain ⟨rfl, -⟩ := Prod.mk.inj (Option.some.inj hrest)
    exact h

variable [DecidableEq κ]

/-- The value that was inserted first. -/
def firstValue (insertions : List (κ × υ)) (key : κ) : Option υ :=
  (insertions.find? fun e => e.1 = key).map Prod.snd

/-- The operations on the list of insertions. -/
def performInsertions (insertions : List (κ × υ)) :
    MapOperation κ υ → Option (MapAnswer υ × List (κ × υ))
  | .insertAbsent key value =>
    some (.inserted (firstValue insertions key).isNone, insertions ++ [(key, value)])
  | .get key => some (.value (firstValue insertions key), insertions)
  | .containsKey key => some (.contains (key ∈ insertions.map Prod.fst), insertions)
  | .len => some (.count (insertions.map Prod.fst).dedup.length, insertions)

theorem firstValue_concat (insertions : List (κ × υ)) (key other : κ) (value : υ) :
    firstValue (insertions ++ [(key, value)]) other =
      (firstValue insertions other).or (if key = other then some value else none) := by
  rw [firstValue, firstValue, List.find?_append, List.find?_singleton]
  cases insertions.find? fun e => e.1 = other with
  | some e => rfl
  | none =>
    simp only [Option.none_or, decide_eq_true_eq, Option.map_none]
    split_ifs <;> rfl

theorem firstValue_isSome (insertions : List (κ × υ)) (key : κ) :
    (firstValue insertions key).isSome = true ↔ key ∈ insertions.map Prod.fst := by
  rw [firstValue, Option.isSome_map, List.find?_isSome]
  simp only [decide_eq_true_eq, List.mem_map]

variable [Ord κ]

/-- The map stands for the insertions: a balanced search tree of their first values. -/
structure Stands (map : PersistentMap κ υ) (insertions : List (κ × υ)) : Prop where
  wellFormed : map.WellFormed
  balanced : map.root.Balanced
  get_eq : ∀ key, map.get key = firstValue insertions key
  shallow : 2 ^ (map.root.nodeHeight / 2) ≤ map.len + 1

theorem empty_stands : (empty : PersistentMap κ υ).Stands [] :=
  ⟨empty_wellFormed, trivial, fun _ => rfl, by simp [empty]⟩

variable {map : PersistentMap κ υ} {insertions : List (κ × υ)}

theorem Stands.of_balanced (hw : map.WellFormed) (hb : map.root.Balanced)
    (hget : ∀ key, map.get key = firstValue insertions key) : map.Stands insertions := by
  refine ⟨hw, hb, hget, ?_⟩
  rw [hb.nodeHeight_eq, hw.len_eq]
  exact hb.pow_depth_le

variable [Std.TransOrd κ] [Std.LawfulEqOrd κ]

theorem Stands.insertAbsent (h : map.Stands insertions) (key : κ) (value : υ) :
    ∃ map', map.insertAbsent key value = some (map', (firstValue insertions key).isNone) ∧
      map'.Stands (insertions ++ [(key, value)]) := by
  have hgetKey := h.get_eq key
  cases hfirst : firstValue insertions key with
  | some held =>
    rw [hfirst] at hgetKey
    refine ⟨map, insertAbsent_of_get_some value hgetKey, .of_balanced h.wellFormed h.balanced ?_⟩
    intro other
    rw [firstValue_concat, h.get_eq]
    split_ifs with heq
    · subst heq
      rw [hfirst]
      rfl
    · rw [Option.or_none]
  | none =>
    rw [hfirst] at hgetKey
    obtain ⟨map', hinsert, hwellFormed, -, hget⟩ := h.wellFormed.insertAbsent value hgetKey
    refine ⟨map', hinsert, .of_balanced hwellFormed (insertAbsent_balanced h.balanced hinsert) ?_⟩
    intro other
    refine Option.ext fun v => ?_
    rw [hget other v, h.get_eq, firstValue_concat]
    by_cases heq : key = other
    · subst heq
      rw [hfirst, if_pos rfl, Option.none_or, Option.some.injEq]
      exact ⟨fun hv => hv.elim nofun fun hv => hv.2.symm, fun hv => Or.inr ⟨rfl, hv.symm⟩⟩
    · rw [if_neg heq, Option.or_none]
      exact ⟨fun hv => hv.elim id fun hv => absurd hv.1.symm heq, Or.inl⟩

theorem mem_entries_iff (h : map.Stands insertions) (key : κ) :
    key ∈ map.root.entries.map Prod.fst ↔ key ∈ insertions.map Prod.fst := by
  rw [← firstValue_isSome insertions, ← h.get_eq, List.mem_map, Option.isSome_iff_exists]
  constructor
  · rintro ⟨⟨_, value⟩, hmem, rfl⟩
    exact ⟨value, (MapNode.get_eq_some_iff h.wellFormed.ordered).mpr hmem⟩
  · rintro ⟨value, hget⟩
    exact ⟨(key, value), (MapNode.get_eq_some_iff h.wellFormed.ordered).mp hget, rfl⟩

theorem Stands.len_eq (h : map.Stands insertions) :
    map.len = (insertions.map Prod.fst).dedup.length := by
  have hnodup : (map.root.entries.map Prod.fst).Nodup := by
    rw [List.Nodup, List.pairwise_map]
    refine h.wellFormed.ordered.imp fun {a b} hlt heq => ?_
    have hequal : compare a.1 b.1 = .eq := Std.LawfulEqCmp.compare_eq_iff_eq.mpr heq
    rw [hequal] at hlt
    cases hlt
  have hperm : (map.root.entries.map Prod.fst).Perm (insertions.map Prod.fst).dedup := by
    rw [List.perm_ext_iff_of_nodup hnodup (List.nodup_dedup _)]
    intro key
    rw [mem_entries_iff h, List.mem_dedup]
  rw [h.wellFormed.len_eq, ← hperm.length_eq, List.length_map]

theorem perform_simulates :
    Clones.Simulates (α := MapAnswer υ) (Stands (κ := κ)) perform performInsertions := by
  intro map insertions operation h
  cases operation with
  | insertAbsent key value =>
    obtain ⟨map', hinsert, hstands⟩ := h.insertAbsent key value
    exact ⟨_, map', _, by rw [perform, hinsert]; rfl, rfl, hstands⟩
  | get key => exact ⟨_, map, insertions, by rw [perform, h.get_eq], rfl, h⟩
  | containsKey key =>
    refine ⟨_, map, insertions, rfl, ?_, h⟩
    rw [performInsertions, h.get_eq]
    congr 3
    rw [Bool.eq_iff_iff, firstValue_isSome, decide_eq_true_eq]
  | len => exact ⟨_, map, insertions, by rw [perform, h.len_eq], rfl, h⟩

/-- A program over maps never panics. It gets the answers of the same program over lists of
insertions, its maps are balanced search trees of the first values, and a map that later
commands do not name stays as it is. -/
theorem programs_run_as_insertions (commands : List (Clones.Command (MapOperation κ υ))) :
    ∃ answers maps lists, Clones.run empty perform commands [] = some (answers, maps) ∧
      Clones.run [] performInsertions commands [] = some (answers, lists) ∧
      List.Forall₂ Stands maps lists ∧
      ∀ later answers' maps', Clones.run empty perform later maps = some (answers', maps') →
        ∀ index map, maps[index]? = some map →
          (∀ command ∈ later, command.target ≠ some index) → maps'[index]? = some map := by
  obtain ⟨answers, maps, lists, hrun, hlists, hstands⟩ :=
    Clones.run_simulates empty_stands perform_simulates commands List.Forall₂.nil
  exact ⟨answers, maps, lists, hrun, hlists, hstands,
    fun later answers' maps' hlater index map hmap htargets =>
      Clones.run_untouched hlater hmap htargets⟩

theorem programs_run_as_insertions_clone :
    ∃ answers maps lists,
      Clones.run (empty : PersistentMap ℕ ℕ) perform
          [.create, .apply 0 (.insertAbsent 3 7), .clone 0, .apply 1 (.insertAbsent 3 8),
            .apply 1 (.insertAbsent 4 9), .apply 0 .len] [] = some (answers, maps) ∧
        Clones.run [] performInsertions
          [.create, .apply 0 (.insertAbsent 3 7), .clone 0, .apply 1 (.insertAbsent 3 8),
            .apply 1 (.insertAbsent 4 9), .apply 0 .len] [] = some (answers, lists) ∧
        List.Forall₂ Stands maps lists := by
  obtain ⟨answers, maps, lists, hrun, hlists, hstands, -⟩ :=
    programs_run_as_insertions (κ := ℕ) (υ := ℕ)
      [.create, .apply 0 (.insertAbsent 3 7), .clone 0, .apply 1 (.insertAbsent 3 8),
        .apply 1 (.insertAbsent 4 9), .apply 0 .len]
  exact ⟨answers, maps, lists, hrun, hlists, hstands⟩

end PersistentMap

end Nocter.Persistent
