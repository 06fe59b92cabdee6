import Mathlib.Data.List.Nodup
import Mathlib.Data.List.Induction

/-!
# Interning tables

An interning table lists nodes whose references point to earlier entries. The
meaning of an entry is the finite term obtained by unfolding its references. A
table without repeated nodes gives different entries different meanings, so
comparing positions decides structural equality.
-/

namespace Nocter

/-- A finite tree with a label at every node. -/
inductive Term (ℓ : Type) where
  | node (label : ℓ) (children : List (Term ℓ))

namespace Term

variable {ℓ α : Type} (combine : ℓ → List α → α)

mutual

/-- Evaluate a tree from the leaves upwards. -/
def fold : Term ℓ → α
  | .node label children => combine label (foldChildren children)

def foldChildren : List (Term ℓ) → List α
  | [] => []
  | child :: children => fold child :: foldChildren children

end

theorem foldChildren_eq_map (children : List (Term ℓ)) :
    foldChildren combine children = children.map (fold combine) := by
  induction children with
  | nil => rfl
  | cons child children ih => rw [foldChildren, ih, List.map_cons]

@[simp] theorem fold_node (label : ℓ) (children : List (Term ℓ)) :
    fold combine (.node label children) = combine label (children.map (fold combine)) := by
  rw [fold, foldChildren_eq_map]

end Term

namespace Interning

variable {ν ℓ : Type} (label : ν → ℓ) (references : ν → List ℕ)

/-- Unfold one node over the meanings of the earlier entries. -/
def decode (earlier : List (Term ℓ)) (node : ν) : Term ℓ :=
  .node (label node) ((references node).filterMap (earlier[·]?))

/-- The term of every entry, in table order. -/
def meanings (table : List ν) : List (Term ℓ) :=
  table.foldl (fun earlier node => earlier ++ [decode label references earlier node]) []

/-- Every reference points to an earlier entry and no node occurs twice. -/
structure WellFormed (table : List ν) : Prop where
  earlier : ∀ i node, table[i]? = some node → ∀ r ∈ references node, r < i
  nodup : table.Nodup

/-- A node's label and references determine it. -/
def Faithful : Prop :=
  ∀ a b : ν, label a = label b → references a = references b → a = b

theorem meanings_concat (table : List ν) (node : ν) :
    meanings label references (table ++ [node]) = meanings label references table ++
      [decode label references (meanings label references table) node] := by
  rw [meanings, List.foldl_append]
  rfl

@[simp] theorem meanings_length (table : List ν) :
    (meanings label references table).length = table.length := by
  induction table using List.reverseRecOn with
  | nil => rfl
  | append_singleton table node ih =>
    rw [meanings_concat, List.length_append, List.length_append, ih]
    rfl

theorem meanings_prefix (table more : List ν) :
    meanings label references table <+: meanings label references (table ++ more) := by
  induction more using List.reverseRecOn with
  | nil => simp only [List.append_nil, List.prefix_rfl]
  | append_singleton more node ih =>
    rw [← List.append_assoc, meanings_concat]
    exact ih.trans (List.prefix_append _ _)

variable {label references}

theorem wellFormed_nil : WellFormed references ([] : List ν) :=
  ⟨fun i node h => by simp at h, List.nodup_nil⟩

theorem WellFormed.concat {table : List ν} {node : ν} (h : WellFormed references table)
    (hrefs : ∀ r ∈ references node, r < table.length) (hnew : node ∉ table) :
    WellFormed references (table ++ [node]) := by
  refine ⟨fun i other hi r hr => ?_, List.nodup_append.mpr ⟨h.nodup, List.nodup_singleton _, ?_⟩⟩
  · by_cases hlt : i < table.length
    · rw [List.getElem?_append_left hlt] at hi
      exact h.earlier i other hi r hr
    · rw [List.getElem?_append_right (Nat.le_of_not_lt hlt)] at hi
      obtain ⟨hpos, rfl⟩ := List.getElem?_eq_some_iff.mp hi
      rw [List.length_singleton] at hpos
      have := hrefs r (by simpa using hr)
      omega
  · intro a ha b hb hab
    rw [List.mem_singleton] at hb
    exact hnew (hb ▸ hab ▸ ha)

theorem WellFormed.of_concat {table : List ν} {node : ν}
    (h : WellFormed references (table ++ [node])) :
    WellFormed references table ∧ (∀ r ∈ references node, r < table.length) ∧ node ∉ table := by
  refine ⟨⟨fun i other hi => ?_, h.nodup.of_append_left⟩, ?_, ?_⟩
  · have hlt := (List.getElem?_eq_some_iff.mp hi).1
    exact h.earlier i other (by rw [List.getElem?_append_left hlt, hi])
  · exact h.earlier table.length node List.getElem?_concat_length
  · exact fun hmem => List.disjoint_of_nodup_append h.nodup hmem (List.mem_singleton_self _)

/-- References that resolve keep their number and order in the unfolding. -/
theorem filterMap_getElem?_eq {α : Type} (earlier : List α) (refs : List ℕ)
    (h : ∀ r ∈ refs, r < earlier.length) :
    (refs.filterMap (earlier[·]?)).map some = refs.map (earlier[·]?) := by
  induction refs with
  | nil => rfl
  | cons r refs ih =>
    have hr := h r List.mem_cons_self
    rw [List.filterMap_cons_some (List.getElem?_eq_getElem hr), List.map_cons, List.map_cons,
      List.getElem?_eq_getElem hr, ih fun s hs => h s (List.mem_cons_of_mem _ hs)]

theorem eq_of_map_eq {α β : Type} {f : α → β} {xs ys : List α}
    (hinj : ∀ x ∈ xs, ∀ y ∈ ys, f x = f y → x = y) (h : xs.map f = ys.map f) : xs = ys := by
  induction xs generalizing ys with
  | nil => exact (List.map_eq_nil_iff.mp h.symm).symm
  | cons x xs ih =>
    cases ys with
    | nil => simp at h
    | cons y ys =>
      rw [List.map_cons, List.map_cons, List.cons.injEq] at h
      rw [hinj x List.mem_cons_self y List.mem_cons_self h.1,
        ih (fun a ha b hb => hinj a (List.mem_cons_of_mem x ha) b (List.mem_cons_of_mem y hb)) h.2]

theorem WellFormed.meaning_eq (label : ν → ℓ) {table : List ν} (h : WellFormed references table)
    {i : ℕ} {node : ν} (hi : table[i]? = some node) : (meanings label references table)[i]? =
      some (decode label references (meanings label references table) node) := by
  induction table using List.reverseRecOn with
  | nil => simp at hi
  | append_singleton table last ih =>
    obtain ⟨htable, hlast, _⟩ := h.of_concat
    have hlength := meanings_length label references table
    -- later meanings leave the unfolding of an entry of the table alone
    have hdecode : ∀ other : ν, (∀ r ∈ references other, r < table.length) →
        decode label references (meanings label references (table ++ [last])) other =
          decode label references (meanings label references table) other := by
      intro other hrefs
      rw [decode, decode, meanings_concat]
      congr 1
      refine List.filterMap_congr fun r hr => ?_
      rw [List.getElem?_append_left (by rw [hlength]; exact hrefs r hr)]
    by_cases hlt : i < table.length
    · rw [List.getElem?_append_left hlt] at hi
      rw [hdecode node fun r hr => Nat.lt_trans (htable.earlier i node hi r hr) hlt, ← ih htable hi,
        meanings_concat, List.getElem?_append_left (by rw [hlength]; exact hlt)]
    · rw [List.getElem?_append_right (Nat.le_of_not_lt hlt)] at hi
      obtain ⟨hpos, hnode⟩ := List.getElem?_eq_some_iff.mp hi
      rw [List.length_singleton] at hpos
      obtain rfl : i = table.length := by omega
      obtain rfl : last = node := by simpa using hnode
      rw [hdecode last hlast, meanings_concat, ← hlength, List.getElem?_concat_length]

/-- Different entries unfold to different terms. -/
theorem WellFormed.meanings_nodup {table : List ν} (hfaithful : Faithful label references)
    (h : WellFormed references table) : (meanings label references table).Nodup := by
  induction table using List.reverseRecOn with
  | nil => exact List.nodup_nil
  | append_singleton table node ih =>
    obtain ⟨htable, hrefs, hnew⟩ := h.of_concat
    have hnodup := ih htable
    have hlength := meanings_length label references table
    rw [meanings_concat, List.nodup_append]
    refine ⟨hnodup, List.nodup_singleton _, fun a ha b hb hab => hnew ?_⟩
    rw [List.mem_singleton] at hb
    obtain ⟨i, hi, hia⟩ := List.getElem_of_mem ha
    have hlt : i < table.length := hlength ▸ hi
    have hentry := htable.meaning_eq label (List.getElem?_eq_getElem hlt)
    rw [List.getElem?_eq_getElem hi, hia, hab, hb, Option.some.injEq, decode, decode,
      Term.node.injEq] at hentry
    have hother : ∀ r ∈ references table[i], r < (meanings label references table).length := by
      intro r hr
      rw [hlength]
      exact Nat.lt_trans (htable.earlier i _ (List.getElem?_eq_getElem hlt) r hr) hlt
    have hmap : (references node).map ((meanings label references table)[·]?) =
        (references table[i]).map ((meanings label references table)[·]?) := by
      rw [← filterMap_getElem?_eq _ _ (by rw [hlength]; exact hrefs),
        ← filterMap_getElem?_eq _ _ hother,
        hentry.2]
    have hsame : references node = references table[i] := by
      refine eq_of_map_eq (fun r hr s _ hrs => ?_) hmap
      exact (List.getElem?_inj (by rw [hlength]; exact hrefs r hr) hnodup).mp hrs
    rw [hfaithful node table[i] hentry.1 hsame]
    exact List.getElem_mem hlt

theorem WellFormed.eq_iff_meaning_eq {table : List ν} (hfaithful : Faithful label references)
    (h : WellFormed references table) {i j : ℕ} (hi : i < table.length) :
    i = j ↔ (meanings label references table)[i]? = (meanings label references table)[j]? := by
  constructor
  · rintro rfl
    rfl
  · exact fun hij => (List.getElem?_inj (by simpa using hi) (h.meanings_nodup hfaithful)).mp hij

end Interning

end Nocter
