import Mathlib.Data.Int.CardIntervalMod
import Mathlib.Tactic.Tauto
import Nocter.Library.Outcome
import Nocter.Slice.Ordering

/-!
# Random numbers and permutations

A bounded number is the remainder of a word that is not among the first ones, so that the words
left over are a multiple of the bound. A slice is shuffled from its end on, each entry with one
that is not behind it.
-/

namespace Nocter.Random

open Outcome Slice

section Sampling

/-- What the entropy source hands out. -/
inductive Draw where
  | word (candidate : ℕ)
  | unavailable
deriving DecidableEq

inductive RandomError where
  | unavailable
  | emptyRange
deriving DecidableEq

/-- A sampling run over some draws; it waits where they are used up. -/
inductive Sampled where
  | value (result : ℕ) (rest : List Draw)
  | failed (error : RandomError) (rest : List Draw)
  | waiting
deriving DecidableEq

def wrappingSub (left right : ℕ) : ℕ := (left + 2 ^ 64 - right) % 2 ^ 64

def acceptedRemainder (candidate upperExclusive : ℕ) : Option ℕ :=
  if upperExclusive = 0 then none
  else
    let threshold := wrappingSub 0 upperExclusive % upperExclusive
    if candidate < threshold then none else some (candidate % upperExclusive)

/-- The loop of `below_u64`. -/
def acceptedFrom (upperExclusive : ℕ) : List Draw → Sampled
  | [] => .waiting
  | .unavailable :: rest => .failed .unavailable rest
  | .word candidate :: rest =>
    match acceptedRemainder candidate upperExclusive with
    | some accepted => .value accepted rest
    | none => acceptedFrom upperExclusive rest

def belowU64 (upperExclusive : ℕ) (draws : List Draw) : Sampled :=
  if upperExclusive = 0 then .failed .emptyRange draws else acceptedFrom upperExclusive draws

def belowUsize (upperExclusive : ℕ) (draws : List Draw) : Sampled := belowU64 upperExclusive draws

end Sampling

section Shuffling

variable {α : Type}

/-- An entry goes to the end of the remaining ones; a refused swap aborts. -/
def shuffleStep (values : List α) (remaining selected : ℕ) : Outcome (List α × ℕ) :=
  if remaining ≤ 1 ∨ values.length < remaining ∨ remaining ≤ selected then absent
  else
    let next := remaining - 1
    match swapSliceValues values selected next with
    | none => trapped
    | some values => value (values, next)

theorem shuffleStep_lt {values result : List α} {remaining selected next : ℕ}
    (h : shuffleStep values remaining selected = value (result, next)) : next < remaining := by
  unfold shuffleStep at h
  split_ifs at h with hstop
  rcases hswap : swapSliceValues values selected (remaining - 1) with _ | swapped
  · simp only [hswap, reduceCtorEq] at h
  · simp only [hswap, value.injEq, Prod.mk.injEq] at h
    omega

inductive Status where
  | finished (rest : List Draw)
  | failed (error : RandomError) (rest : List Draw)
  | waiting
  | aborted
deriving DecidableEq

/-- The loop of `shuffle`: the slice as it is left, and how the loop ends. -/
def shuffleFrom (values : List α) (remaining : ℕ) (draws : List Draw) : List α × Status :=
  if 1 < remaining then
    match belowUsize remaining draws with
    | .waiting => (values, .waiting)
    | .failed error rest => (values, .failed error rest)
    | .value selected rest =>
      match hstep : shuffleStep values remaining selected with
      | value (values, next) =>
        have := shuffleStep_lt hstep
        shuffleFrom values next rest
      | absent => (values, .aborted)
      | trapped => (values, .aborted)
  else (values, .finished draws)
termination_by remaining

def shuffle (values : List α) (draws : List Draw) : List α × Status :=
  shuffleFrom values values.length draws

end Shuffling

section Uniformity

/-- Behind the first words the residues are equally frequent. -/
theorem card_residues (words : ℕ) {bound residue : ℕ} (hresidue : residue < bound) :
    ((Finset.range words).filter fun word => words % bound ≤ word ∧ word % bound = residue).card =
      words / bound := by
  have hpos : 0 < bound := Nat.zero_lt_of_lt hresidue
  have hall := Nat.count_modEq_card words hpos residue
  rw [Nat.count_eq_card_filter_range, Nat.mod_eq_of_lt hresidue] at hall
  have hlow : ((Finset.range words).filter fun word => word < words % bound ∧ word % bound = residue).card =
      if residue < words % bound then 1 else 0 := by
    by_cases hless : residue < words % bound
    · rw [if_pos hless, Finset.card_eq_one]
      refine ⟨residue, Finset.ext fun word => ?_⟩
      rw [Finset.mem_filter, Finset.mem_range, Finset.mem_singleton]
      constructor
      · rintro ⟨-, hword, hmod⟩
        rwa [Nat.mod_eq_of_lt (hword.trans (Nat.mod_lt _ hpos))] at hmod
      · rintro rfl
        exact ⟨hless.trans_le (Nat.mod_le _ _), hless, Nat.mod_eq_of_lt hresidue⟩
    · rw [if_neg hless, Finset.card_eq_zero]
      refine Finset.filter_eq_empty_iff.mpr fun word _ => ?_
      rintro ⟨hword, hmod⟩
      rw [Nat.mod_eq_of_lt (hword.trans (Nat.mod_lt _ hpos))] at hmod
      exact hless (hmod ▸ hword)
  have hsplit : ((Finset.range words).filter fun word => word ≡ residue [MOD bound]).card =
      ((Finset.range words).filter fun word => word < words % bound ∧ word % bound = residue).card +
      ((Finset.range words).filter fun word => words % bound ≤ word ∧ word % bound = residue).card := by
    rw [← Finset.card_union_of_disjoint]
    · refine congrArg Finset.card (Finset.ext fun word => ?_)
      rw [Finset.mem_union, Finset.mem_filter, Finset.mem_filter, Finset.mem_filter, Nat.ModEq,
        Nat.mod_eq_of_lt hresidue]
      have hcases := Nat.lt_or_ge word (words % bound)
      tauto
    · refine Finset.disjoint_left.mpr fun word hleft hright => ?_
      exact absurd (Finset.mem_filter.mp hleft).2.1 (Nat.not_lt.mpr (Finset.mem_filter.mp hright).2.1)
  omega

/-- The threshold is what the words leave over when they are divided by the bound. -/
theorem threshold_eq {bound : ℕ} (hpos : 0 < bound) (hbound : bound < 2 ^ 64) :
    wrappingSub 0 bound % bound = 2 ^ 64 % bound := by
  rw [wrappingSub, Nat.zero_add, Nat.mod_eq_of_lt (by omega : 2 ^ 64 - bound < 2 ^ 64),
    Nat.mod_eq_sub_mod hbound.le]

theorem acceptedRemainder_eq_some {candidate bound result : ℕ} (hpos : 0 < bound) (hbound : bound < 2 ^ 64) :
    acceptedRemainder candidate bound = some result ↔
      2 ^ 64 % bound ≤ candidate ∧ candidate % bound = result := by
  rw [acceptedRemainder, if_neg (by omega)]
  dsimp only
  rw [threshold_eq hpos hbound]
  by_cases hless : candidate < 2 ^ 64 % bound
  · rw [if_pos hless]
    exact ⟨fun h => (by cases h), fun h => absurd hless (Nat.not_lt.mpr h.1)⟩
  · rw [if_neg hless, Option.some.injEq]
    exact ⟨fun h => ⟨Nat.not_lt.mp hless, h⟩, fun h => h.2⟩

theorem acceptedRemainder_lt {candidate bound result : ℕ}
    (h : acceptedRemainder candidate bound = some result) : result < bound := by
  unfold acceptedRemainder at h
  split_ifs at h with hzero
  dsimp only at h
  split_ifs at h with hless
  rw [← Option.some.inj h]
  exact Nat.mod_lt _ (Nat.pos_of_ne_zero hzero)

theorem card_accepted {bound result : ℕ} (hbound : bound < 2 ^ 64) (hresult : result < bound) :
    ((Finset.range (2 ^ 64)).filter fun candidate =>
      acceptedRemainder candidate bound = some result).card = 2 ^ 64 / bound := by
  rw [← card_residues (2 ^ 64) hresult]
  refine congrArg Finset.card (Finset.filter_congr fun candidate _ => ?_)
  exact acceptedRemainder_eq_some (Nat.zero_lt_of_lt hresult) hbound

/-- The draws that the sampling of a result takes: words that are refused and an accepted one. -/
def Yields (bound : ℕ) (draws : List Draw) (result : ℕ) (rest : List Draw) : Prop :=
  ∃ (refused : List ℕ) (candidate : ℕ), draws = refused.map Draw.word ++ Draw.word candidate :: rest ∧
    (∀ word ∈ refused, acceptedRemainder word bound = none) ∧
    acceptedRemainder candidate bound = some result

theorem acceptedFrom_eq_value {bound result : ℕ} {draws rest : List Draw} :
    acceptedFrom bound draws = .value result rest ↔ Yields bound draws result rest := by
  induction draws with
  | nil =>
    refine ⟨fun h => (by cases h), ?_⟩
    rintro ⟨refused, candidate, hdraws, -⟩
    exact absurd hdraws (by simp)
  | cons draw draws ih =>
    cases draw with
    | unavailable =>
      refine ⟨fun h => (by cases h), ?_⟩
      rintro ⟨_ | ⟨word, refused⟩, candidate, hdraws, -⟩ <;> cases hdraws
    | word first =>
      rcases haccepted : acceptedRemainder first bound with _ | accepted
      · have hstep : acceptedFrom bound (.word first :: draws) = acceptedFrom bound draws := by
          rw [acceptedFrom, haccepted]
        rw [hstep, ih]
        constructor
        · rintro ⟨refused, candidate, rfl, hrefused, hcandidate⟩
          exact ⟨first :: refused, candidate, rfl, List.forall_mem_cons.mpr ⟨haccepted, hrefused⟩, hcandidate⟩
        · rintro ⟨_ | ⟨word, refused⟩, candidate, hdraws, hrefused, hcandidate⟩
          · cases hdraws
            rw [haccepted] at hcandidate
            cases hcandidate
          · cases hdraws
            exact ⟨refused, candidate, rfl, (List.forall_mem_cons.mp hrefused).2, hcandidate⟩
      · have hstep : acceptedFrom bound (.word first :: draws) = .value accepted draws := by
          rw [acceptedFrom, haccepted]
        rw [hstep, Sampled.value.injEq]
        constructor
        · rintro ⟨rfl, rfl⟩
          exact ⟨[], first, rfl, fun _ h => absurd h List.not_mem_nil, haccepted⟩
        · rintro ⟨_ | ⟨word, refused⟩, candidate, hdraws, hrefused, hcandidate⟩
          · cases hdraws
            exact ⟨Option.some.inj (haccepted.symm.trans hcandidate), rfl⟩
          · cases hdraws
            rw [(List.forall_mem_cons.mp hrefused).1] at haccepted
            cases haccepted

theorem belowU64_eq_value {bound result : ℕ} {draws rest : List Draw} :
    belowU64 bound draws = .value result rest ↔ Yields bound draws result rest := by
  by_cases hzero : bound = 0
  · rw [belowU64, if_pos hzero]
    refine ⟨fun h => (by cases h), ?_⟩
    rintro ⟨-, _, -, -, hcandidate⟩
    exact absurd (acceptedRemainder_lt hcandidate) (by omega)
  · rw [belowU64, if_neg hzero, acceptedFrom_eq_value]

theorem Yields.lt {bound result : ℕ} {draws rest : List Draw} (h : Yields bound draws result rest) :
    result < bound := by
  obtain ⟨-, _, -, -, hcandidate⟩ := h
  exact acceptedRemainder_lt hcandidate

end Uniformity

section Permutations

variable {α : Type} {values result target : List α} {remaining : ℕ} {draws rest : List Draw}

/-- A step exchanges two of the remaining entries. -/
theorem shuffleStep_eq {selected : ℕ} (hremaining : 1 < remaining) (hlength : remaining ≤ values.length)
    (hselected : selected < remaining) :
    ∃ result, shuffleStep values remaining selected = .value (result, remaining - 1) ∧
      result.Perm values ∧ result[remaining - 1]? = values[selected]? ∧
      ∀ k, remaining ≤ k → result[k]? = values[k]? := by
  have hleft : selected < values.length := by omega
  have hright : remaining - 1 < values.length := by omega
  refine ⟨(values.set selected values[remaining - 1]).set (remaining - 1) values[selected], ?_,
    List.set_set_perm hleft hright, ?_, fun k hk => ?_⟩
  · rw [shuffleStep, if_neg (by omega)]
    simp only [swapSliceValues, List.getElem?_eq_getElem hleft, List.getElem?_eq_getElem hright,
      Option.bind_eq_bind, Option.bind_some, Option.pure_def]
  · rw [List.getElem?_set_self (by rwa [List.length_set]), List.getElem?_eq_getElem hleft]
  · rw [List.getElem?_set_ne (by omega), List.getElem?_set_ne (by omega)]

theorem shuffleStep_eq_value {selected next : ℕ} (h : shuffleStep values remaining selected = .value (result, next)) :
    1 < remaining ∧ remaining ≤ values.length ∧ selected < remaining := by
  unfold shuffleStep at h
  split_ifs at h with hstop
  omega

/-- A selected index for every step from so many remaining entries on. -/
def Selections : ℕ → List ℕ → Prop
  | remaining, [] => remaining ≤ 1
  | remaining, selected :: more => 1 < remaining ∧ selected < remaining ∧ Selections (remaining - 1) more

/-- What the steps with these selected indices leave. -/
def arrange (values : List α) (remaining : ℕ) : List ℕ → Option (List α)
  | [] => if 1 < remaining then none else some values
  | selected :: more =>
    match shuffleStep values remaining selected with
    | value (values, next) => arrange values next more
    | absent => none
    | trapped => none

theorem arrange_cons {selected next : ℕ} (h : shuffleStep values remaining selected = .value (result, next))
    (more : List ℕ) : arrange values remaining (selected :: more) = arrange result next more := by
  rw [arrange, h]

theorem arrange_cons_eq_some {selected : ℕ} {more : List ℕ}
    (h : arrange values remaining (selected :: more) = some target) :
    ∃ result, shuffleStep values remaining selected = .value (result, remaining - 1) ∧
      arrange result (remaining - 1) more = some target := by
  rcases hstep : shuffleStep values remaining selected with ⟨result, next⟩ | _ | _
  · obtain ⟨hremaining, hlength, hselected⟩ := shuffleStep_eq_value hstep
    obtain ⟨result', hstep', -⟩ := shuffleStep_eq hremaining hlength hselected
    cases hstep.symm.trans hstep'
    exact ⟨result, rfl, (arrange_cons hstep more).symm.trans h⟩
  · rw [arrange, hstep] at h
    cases h
  · rw [arrange, hstep] at h
    cases h

/-- A complete sequence of selected indices rearranges the remaining entries. -/
theorem arrange_selections {selections : List ℕ} (hlength : remaining ≤ values.length)
    (hselections : Selections remaining selections) :
    ∃ result, arrange values remaining selections = some result ∧ result.Perm values ∧
      ∀ k, remaining ≤ k → result[k]? = values[k]? := by
  induction selections generalizing values remaining with
  | nil => exact ⟨values, if_neg (Nat.not_lt.mpr hselections), List.Perm.refl _, fun _ _ => rfl⟩
  | cons selected more ih =>
    obtain ⟨hremaining, hselected, hmore⟩ := hselections
    obtain ⟨next, hstep, hperm, -, hfixed⟩ := shuffleStep_eq hremaining hlength hselected
    obtain ⟨result, hresult, hresultPerm, hresultFixed⟩ := ih (by rw [hperm.length_eq]; omega) hmore
    refine ⟨result, (arrange_cons hstep more).trans hresult, hresultPerm.trans hperm, fun k hk => ?_⟩
    rw [hresultFixed k (by omega), hfixed k hk]

theorem selections_of_arrange {selections : List ℕ} (h : arrange values remaining selections = some target) :
    Selections remaining selections := by
  induction selections generalizing values remaining with
  | nil =>
    rw [arrange] at h
    split_ifs at h with hremaining
    exact Nat.not_lt.mp hremaining
  | cons selected more ih =>
    obtain ⟨result, hstep, hmore⟩ := arrange_cons_eq_some h
    obtain ⟨hremaining, -, hselected⟩ := shuffleStep_eq_value hstep
    exact ⟨hremaining, hselected, ih hmore⟩

/-- The entry that a step puts to the end of the remaining ones stays there. -/
theorem arrange_last {selected : ℕ} {more : List ℕ}
    (h : arrange values remaining (selected :: more) = some target) :
    selected < values.length ∧ target[remaining - 1]? = values[selected]? := by
  obtain ⟨result, hstep, hmore⟩ := arrange_cons_eq_some h
  obtain ⟨hremaining, hlength, hselected⟩ := shuffleStep_eq_value hstep
  obtain ⟨result', hstep', hperm, hlast, -⟩ := shuffleStep_eq hremaining hlength hselected
  cases hstep.symm.trans hstep'
  obtain ⟨target', htarget, -, hfixed⟩ :=
    arrange_selections (by rw [hperm.length_eq]; omega) (selections_of_arrange hmore)
  cases hmore.symm.trans htarget
  exact ⟨by omega, by rw [hfixed _ le_rfl, hlast]⟩

/-- Different sequences of selected indices leave different arrangements of distinct values. -/
theorem arrange_injective {selections selections' : List ℕ} (hnodup : values.Nodup)
    (h : arrange values remaining selections = some target)
    (h' : arrange values remaining selections' = some target) : selections = selections' := by
  induction selections generalizing values remaining selections' with
  | nil =>
    have hstop := selections_of_arrange h
    cases selections' with
    | nil => rfl
    | cons selected more => exact absurd (selections_of_arrange h').1 (Nat.not_lt.mpr hstop)
  | cons selected more ih =>
    cases selections' with
    | nil => exact absurd (selections_of_arrange h).1 (Nat.not_lt.mpr (selections_of_arrange h'))
    | cons selected' more' =>
      obtain ⟨hbound, hlast⟩ := arrange_last h
      obtain ⟨-, hlast'⟩ := arrange_last h'
      have hselected : selected = selected' :=
        (List.getElem?_inj hbound hnodup).mp (hlast.symm.trans hlast')
      subst hselected
      obtain ⟨result, hstep, hmore⟩ := arrange_cons_eq_some h
      obtain ⟨result', hstep', hmore'⟩ := arrange_cons_eq_some h'
      cases hstep.symm.trans hstep'
      obtain ⟨hremaining, hlength, hselected⟩ := shuffleStep_eq_value hstep
      obtain ⟨next, hnext, hperm, -⟩ := shuffleStep_eq hremaining hlength hselected
      cases hstep.symm.trans hnext
      rw [ih (hperm.nodup_iff.mpr hnodup) hmore hmore']

/-- Distinct values in which only the first one is open are arranged as they are. -/
theorem eq_of_perm_of_tail (hnodup : values.Nodup) (hperm : target.Perm values)
    (htail : ∀ k, 1 ≤ k → target[k]? = values[k]?) : target = values := by
  cases target with
  | nil => exact hperm.nil_eq
  | cons first target =>
    cases values with
    | nil => exact hperm.eq_nil
    | cons first' values =>
      have hrest : target = values := List.ext_getElem? fun k => htail (k + 1) (Nat.le_add_left 1 k)
      subst hrest
      have hmem := hperm.subset List.mem_cons_self
      have hnot := (List.nodup_cons.mp (hperm.nodup_iff.mpr hnodup)).1
      rw [(List.mem_cons.mp hmem).resolve_right hnot]

/-- Every arrangement of distinct values is reached. -/
theorem arrange_surjective (hnodup : values.Nodup) (hperm : target.Perm values)
    (hlength : remaining ≤ values.length) (hfixed : ∀ k, remaining ≤ k → target[k]? = values[k]?) :
    ∃ selections, arrange values remaining selections = some target := by
  induction remaining generalizing values with
  | zero =>
    refine ⟨[], ?_⟩
    rw [arrange, if_neg (by omega), eq_of_perm_of_tail hnodup hperm fun k _ => hfixed k (Nat.zero_le k)]
  | succ remaining ih =>
    by_cases hstop : remaining = 0
    · refine ⟨[], ?_⟩
      rw [arrange, if_neg (by omega), eq_of_perm_of_tail hnodup hperm fun k hk => hfixed k (by omega)]
    · have hplace : remaining < target.length := by
        rw [hperm.length_eq]
        omega
      obtain ⟨selected, hbound, hselected⟩ := List.mem_iff_getElem.mp (hperm.subset (List.getElem_mem hplace))
      have hvalue : values[selected]? = target[remaining]? := by
        rw [List.getElem?_eq_getElem hbound, List.getElem?_eq_getElem hplace, hselected]
      have htarget := hperm.nodup_iff.mpr hnodup
      have hless : selected < remaining + 1 := by
        by_contra hlarge
        have heq := (List.getElem?_inj hplace htarget).mp
          (hvalue.symm.trans (hfixed selected (Nat.not_lt.mp hlarge)).symm)
        omega
      obtain ⟨next, hstep, hnext, hlast, hother⟩ := shuffleStep_eq (by omega) hlength hless
      rw [Nat.add_sub_cancel] at hstep hlast
      have hfixed' (k : ℕ) (hk : remaining ≤ k) : target[k]? = next[k]? := by
        by_cases hk' : k = remaining
        · rw [hk', hlast, hvalue]
        · rw [hother k (by omega), hfixed k (by omega)]
      obtain ⟨selections, hselections⟩ := ih (hnext.nodup_iff.mpr hnodup) (hperm.trans hnext.symm)
        (by rw [hnext.length_eq]; omega) hfixed'
      exact ⟨selected :: selections, (arrange_cons hstep selections).trans hselections⟩

end Permutations

section Runs

variable {α : Type} {values result : List α} {remaining : ℕ} {draws rest : List Draw}

/-- The draws that the selection of a sequence of indices takes. -/
def Spells : ℕ → List Draw → List ℕ → List Draw → Prop
  | remaining, draws, [], rest => remaining ≤ 1 ∧ draws = rest
  | remaining, draws, selected :: more, rest =>
    1 < remaining ∧ ∃ middle, Yields remaining draws selected middle ∧ Spells (remaining - 1) middle more rest

theorem shuffleFrom_done (h : ¬1 < remaining) (values : List α) (draws : List Draw) :
    shuffleFrom values remaining draws = (values, .finished draws) := by
  rw [shuffleFrom, if_neg h]

theorem shuffleFrom_step {selected next : ℕ} {values' : List α} (h : 1 < remaining)
    (hdraws : belowUsize remaining draws = .value selected rest)
    (hstep : shuffleStep values remaining selected = .value (values', next)) :
    shuffleFrom values remaining draws = shuffleFrom values' next rest := by
  rw [shuffleFrom, if_pos h]
  simp only [hdraws]
  split
  · next heq =>
    cases hstep.symm.trans heq
    rfl
  · next heq => cases hstep.symm.trans heq
  · next heq => cases hstep.symm.trans heq

/-- Whatever the entropy source does, a permutation is left. -/
theorem shuffleFrom_perm (hlength : remaining ≤ values.length) (draws : List Draw) :
    (shuffleFrom values remaining draws).1.Perm values ∧
      (shuffleFrom values remaining draws).2 ≠ .aborted := by
  induction remaining using Nat.strongRecOn generalizing values draws with
  | ind remaining ih =>
    by_cases hremaining : 1 < remaining
    · rcases hdraws : belowUsize remaining draws with ⟨selected, rest⟩ | ⟨error, rest⟩ | _
      · have hselected := (belowU64_eq_value.mp hdraws).lt
        obtain ⟨next, hstep, hperm, -⟩ := shuffleStep_eq hremaining hlength hselected
        rw [shuffleFrom_step hremaining hdraws hstep]
        obtain ⟨hmore, hstatus⟩ := ih (remaining - 1) (by omega)
          (by rw [hperm.length_eq]; omega : remaining - 1 ≤ next.length) rest
        exact ⟨hmore.trans hperm, hstatus⟩
      · rw [shuffleFrom, if_pos hremaining]
        simp only [hdraws]
        exact ⟨List.Perm.refl _, fun h => (by cases h)⟩
      · rw [shuffleFrom, if_pos hremaining]
        simp only [hdraws]
        exact ⟨List.Perm.refl _, fun h => (by cases h)⟩
    · rw [shuffleFrom_done hremaining]
      exact ⟨List.Perm.refl _, fun h => (by cases h)⟩

/-- Without an index the loop does not end as long as entries remain. -/
theorem not_spells_of_stuck {selections : List ℕ} (hremaining : 1 < remaining)
    (hdraws : ∀ selected middle, belowUsize remaining draws ≠ .value selected middle) :
    ¬Spells remaining draws selections rest := by
  intro hspells
  cases selections with
  | nil => exact absurd hremaining (Nat.not_lt.mpr hspells.1)
  | cons selected more =>
    obtain ⟨-, middle, hyields, -⟩ := hspells
    exact hdraws selected middle (belowU64_eq_value.mpr hyields)

/-- A shuffle that ends has arranged the slice by the indices that its draws spell. -/
theorem shuffleFrom_finished (hlength : remaining ≤ values.length) :
    shuffleFrom values remaining draws = (result, .finished rest) ↔
      ∃ selections, Spells remaining draws selections rest ∧
        arrange values remaining selections = some result := by
  induction remaining using Nat.strongRecOn generalizing values draws with
  | ind remaining ih =>
    by_cases hremaining : 1 < remaining
    · rcases hdraws : belowUsize remaining draws with ⟨selected, middle⟩ | ⟨error, middle⟩ | _
      · have hyields := belowU64_eq_value.mp hdraws
        obtain ⟨next, hstep, hperm, -⟩ := shuffleStep_eq hremaining hlength hyields.lt
        rw [shuffleFrom_step hremaining hdraws hstep,
          ih (remaining - 1) (by omega) (by rw [hperm.length_eq]; omega)]
        constructor
        · rintro ⟨more, hmore, harrange⟩
          exact ⟨selected :: more, ⟨hremaining, middle, hyields, hmore⟩, (arrange_cons hstep more).trans harrange⟩
        · rintro ⟨_ | ⟨selected', more⟩, hspells, harrange⟩
          · exact absurd hremaining (Nat.not_lt.mpr hspells.1)
          · obtain ⟨-, middle', hyields', hmore⟩ := hspells
            cases hdraws.symm.trans (belowU64_eq_value.mpr hyields')
            exact ⟨more, hmore, (arrange_cons hstep more).symm.trans harrange⟩
      · have hstuck (selected : ℕ) (rest : List Draw) : belowUsize remaining draws ≠ .value selected rest := by
          rw [hdraws]
          exact fun h => (by cases h)
        rw [shuffleFrom, if_pos hremaining]
        simp only [hdraws]
        exact ⟨fun h => (by cases h), fun ⟨_, h, _⟩ => absurd h (not_spells_of_stuck hremaining hstuck)⟩
      · have hstuck (selected : ℕ) (rest : List Draw) : belowUsize remaining draws ≠ .value selected rest := by
          rw [hdraws]
          exact fun h => (by cases h)
        rw [shuffleFrom, if_pos hremaining]
        simp only [hdraws]
        exact ⟨fun h => (by cases h), fun ⟨_, h, _⟩ => absurd h (not_spells_of_stuck hremaining hstuck)⟩
    · rw [shuffleFrom_done hremaining]
      constructor
      · intro h
        cases h
        exact ⟨[], ⟨Nat.not_lt.mp hremaining, rfl⟩, if_neg hremaining⟩
      · rintro ⟨_ | ⟨selected, more⟩, hspells, harrange⟩
        · rw [arrange, if_neg hremaining] at harrange
          cases harrange
          rw [hspells.2]
        · exact absurd hspells.1 hremaining

/-- Bounded numbers are equally frequent among the accepted words, a shuffle leaves a permutation
whatever the entropy source does, and the sequences of selected indices and the permutations of
distinct values correspond. -/
theorem shuffle_uniform :
    (∀ bound, 0 < bound → bound < 2 ^ 64 →
      (∀ draws result rest, belowU64 bound draws = .value result rest ↔ Yields bound draws result rest) ∧
      (∀ candidate result, acceptedRemainder candidate bound = some result → result < bound) ∧
      ∀ result < bound, ((Finset.range (2 ^ 64)).filter fun candidate =>
        acceptedRemainder candidate bound = some result).card = 2 ^ 64 / bound) ∧
    ∀ (α : Type) (values : List α),
      (∀ draws, (shuffle values draws).1.Perm values ∧ (shuffle values draws).2 ≠ .aborted) ∧
      (∀ draws result rest, shuffle values draws = (result, .finished rest) ↔
        ∃ selections, Spells values.length draws selections rest ∧
          arrange values values.length selections = some result) ∧
      (∀ selections, Selections values.length selections ↔
        ∃ target, target.Perm values ∧ arrange values values.length selections = some target) ∧
      (values.Nodup → ∀ target, target.Perm values →
        ∃! selections, arrange values values.length selections = some target) := by
  refine ⟨fun bound hpos hbound => ⟨fun draws result rest => belowU64_eq_value,
    fun candidate result => acceptedRemainder_lt, fun result => card_accepted hbound⟩, fun α values =>
    ⟨fun draws => shuffleFrom_perm le_rfl draws, fun draws result rest => shuffleFrom_finished le_rfl,
      fun selections => ⟨fun h => ?_, fun ⟨target, _, h⟩ => selections_of_arrange h⟩,
      fun hnodup target hperm => ?_⟩⟩
  · obtain ⟨target, htarget, hperm, -⟩ := arrange_selections le_rfl h
    exact ⟨target, hperm, htarget⟩
  · have hfixed (k : ℕ) (hk : values.length ≤ k) : target[k]? = values[k]? := by
      rw [List.getElem?_eq_none hk, List.getElem?_eq_none (hperm.length_eq ▸ hk)]
    obtain ⟨selections, hselections⟩ := arrange_surjective hnodup hperm le_rfl hfixed
    exact ⟨selections, hselections, fun other hother => arrange_injective hnodup hother hselections⟩

theorem shuffle_uniform_three :
    (0 < 3 ∧ 3 < 2 ^ 64 ∧ ((Finset.range (2 ^ 64)).filter fun candidate =>
      acceptedRemainder candidate 3 = some 1).card = 2 ^ 64 / 3) ∧
    ([1, 2, 3].Nodup ∧ [2, 3, 1].Perm [1, 2, 3] ∧
      ∃! selections, arrange [1, 2, 3] 3 selections = some [2, 3, 1]) := by
  have hperm : [2, 3, 1].Perm [1, 2, 3] := by decide
  exact ⟨⟨by decide, by decide, (shuffle_uniform.1 3 (by decide) (by decide)).2.2 1 (by decide)⟩,
    by decide, hperm, (shuffle_uniform.2 ℕ [1, 2, 3]).2.2.2 (by decide) [2, 3, 1] hperm⟩

end Runs

end Nocter.Random
