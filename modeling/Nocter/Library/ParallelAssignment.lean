import Mathlib.Data.List.Nodup
import Mathlib.Data.List.Dedup
import Mathlib.Logic.Function.Basic
import Mathlib.Tactic
import Nocter.Library.Loop

/-!
# Simultaneous assignments

Assignments that happen at once are performed one after the other. An assignment
is free when no other still reads its destination. If none is free, one source is
saved in a temporary place first. Then every destination is read by an assignment,
so none of them reads the temporary.
-/

namespace Nocter

universe u v w

/-- Fewer values satisfy a stronger condition that one of them does not. -/
theorem countP_lt_countP {α : Type u} {weak strong : α → Bool} {values : List α}
    (h : ∀ value ∈ values, strong value = true → weak value = true) {value : α}
    (hmem : value ∈ values) (hweak : weak value = true) (hstrong : strong value = false) :
    values.countP strong < values.countP weak := by
  obtain ⟨before, after, rfl⟩ := List.append_of_mem hmem
  have hbefore := List.countP_mono_left (l := before) fun other hother =>
    h other (List.mem_append_left _ hother)
  have hafter := List.countP_mono_left (l := after) fun other hother =>
    h other (List.mem_append_right _ (List.mem_cons_of_mem _ hother))
  rw [List.countP_append, List.countP_append, List.countP_cons_of_neg (by simp [hstrong]),
    List.countP_cons_of_pos hweak]
  omega

namespace Parallel

/-- The source of a copy is a location or the temporary. -/
structure Copy (L : Type u) where
  destination : L
  source : Option L
  extent : ℕ

inductive Action (L : Type u) where
  | save (source : L) (extent : ℕ)
  | copy (copy : Copy L)

variable {L : Type u}

/-- No pending copy reads this location. -/
def Unread (pending : List (Copy L)) (location : L) : Prop :=
  ∀ copy ∈ pending, copy.source ≠ some location

def Distinct (pending : List (Copy L)) : Prop := (pending.map Copy.destination).Nodup

/-- Copies with a common source have a common extent. -/
def Uniform (pending : List (Copy L)) : Prop :=
  ∀ copy ∈ pending, ∀ other ∈ pending, copy.source = other.source → copy.extent = other.extent

theorem Distinct.middle {before after : List (Copy L)} {copy : Copy L}
    (h : Distinct (before ++ copy :: after)) :
    (∀ other ∈ before ++ after, other ∈ before ++ copy :: after) ∧
      copy ∈ before ++ copy :: after ∧ Distinct (before ++ after) ∧
      ∀ other ∈ before ++ after, other.destination ≠ copy.destination := by
  rw [Distinct, List.map_append, List.map_cons, List.nodup_middle, List.nodup_cons,
    ← List.map_append] at h
  refine ⟨fun other hmem => ?_, List.mem_append_right _ List.mem_cons_self, h.2,
    fun other hmem heq => h.1 ?_⟩
  · rw [List.mem_append] at hmem ⊢
    exact hmem.imp_right (List.mem_cons_of_mem _)
  · rw [← heq]
    exact List.mem_map_of_mem hmem

/-- While every destination is read, every source is a destination: distinct destinations are
as many as the copies that read them. -/
theorem no_temporary {pending : List (Copy L)} (h : Distinct pending)
    (hblocked : ∀ copy ∈ pending, ¬ Unread pending copy.destination) :
    ∀ copy ∈ pending, copy.source ≠ none := by
  have hsub : pending.map (fun copy => some copy.destination) ⊆ pending.map Copy.source := by
    intro place hplace
    rw [List.mem_map] at hplace
    obtain ⟨copy, hmem, rfl⟩ := hplace
    have hread := hblocked copy hmem
    unfold Unread at hread
    push Not at hread
    obtain ⟨reader, hreader, hsource⟩ := hread
    rw [List.mem_map]
    exact ⟨reader, hreader, hsource⟩
  have hnodup : (pending.map fun copy => some copy.destination).Nodup := by
    have hmap := h.map (Option.some_injective L)
    rwa [List.map_map] at hmap
  have hperm : (pending.map fun copy => some copy.destination).Perm (pending.map Copy.source) :=
    (hnodup.subperm hsub).perm_of_length_le (by rw [List.length_map, List.length_map])
  intro copy hmem hnone
  have htemporary : none ∈ pending.map Copy.source := by
    rw [← hnone]
    exact List.mem_map_of_mem hmem
  have hdestination := hperm.symm.subset htemporary
  rw [List.mem_map] at hdestination
  obtain ⟨other, _, hother⟩ := hdestination
  cases hother

section Steps

variable [DecidableEq L]

/-- A copy of the saved location reads the temporary from now on. -/
def Copy.redirect (saved : L) (copy : Copy L) : Copy L :=
  if copy.source = some saved then { copy with source := none } else copy

inductive Step : List (Copy L) → Action L → List (Copy L) → Prop
  | free (before after : List (Copy L)) (copy : Copy L)
      (hfree : Unread (before ++ copy :: after) copy.destination) :
      Step (before ++ copy :: after) (.copy copy) (before ++ after)
  | save {pending : List (Copy L)} (copy : Copy L) {saved : L}
      (hblocked : ∀ copy ∈ pending, ¬ Unread pending copy.destination) (hmem : copy ∈ pending)
      (hsource : copy.source = some saved) :
      Step pending (.save saved copy.extent) (pending.map (Copy.redirect saved))

/-- A list of actions that performs all pending copies. -/
inductive Schedules : List (Copy L) → List (Action L) → Prop
  | nil : Schedules [] []
  | step {pending next : List (Copy L)} {action : Action L} {actions : List (Action L)}
      (hstep : Step pending action next) (hrest : Schedules next actions) :
      Schedules pending (action :: actions)

@[simp] theorem redirect_destination (saved : L) (copy : Copy L) :
    (copy.redirect saved).destination = copy.destination := by
  unfold Copy.redirect
  split <;> rfl

@[simp] theorem redirect_extent (saved : L) (copy : Copy L) :
    (copy.redirect saved).extent = copy.extent := by
  unfold Copy.redirect
  split <;> rfl

theorem redirect_of_eq {saved : L} {copy : Copy L} (h : copy.source = some saved) :
    (copy.redirect saved).source = none := by
  rw [Copy.redirect, if_pos h]

theorem redirect_of_ne {saved : L} {copy : Copy L} (h : copy.source ≠ some saved) :
    copy.redirect saved = copy := if_neg h

theorem Distinct.redirect {pending : List (Copy L)} (h : Distinct pending) (saved : L) :
    Distinct (pending.map (Copy.redirect saved)) := by
  have hsame : (pending.map (Copy.redirect saved)).map Copy.destination =
      pending.map Copy.destination := by
    rw [List.map_map]
    exact List.map_congr_left fun copy _ => redirect_destination saved copy
  rw [Distinct, hsame]
  exact h

end Steps

section Loops

variable [DecidableEq L]

theorem Uniform.redirect {pending : List (Copy L)} (h : Uniform pending) (saved : L)
    (hnone : ∀ copy ∈ pending, copy.source ≠ none) :
    Uniform (pending.map (Copy.redirect saved)) := by
  intro copy hmem other hother hsource
  rw [List.mem_map] at hmem hother
  obtain ⟨original, horiginal, rfl⟩ := hmem
  obtain ⟨original', horiginal', rfl⟩ := hother
  rw [redirect_extent, redirect_extent]
  refine h original horiginal original' horiginal' ?_
  by_cases hsaved : original.source = some saved
  · by_cases hsaved' : original'.source = some saved
    · rw [hsaved, hsaved']
    · rw [redirect_of_eq hsaved, redirect_of_ne hsaved'] at hsource
      exact absurd hsource.symm (hnone original' horiginal')
  · by_cases hsaved' : original'.source = some saved
    · rw [redirect_of_ne hsaved, redirect_of_eq hsaved'] at hsource
      exact absurd hsource (hnone original horiginal)
    · rw [redirect_of_ne hsaved, redirect_of_ne hsaved'] at hsource
      exact hsource

theorem Step.keeps {pending next : List (Copy L)} {action : Action L}
    (h : Step pending action next) (hdistinct : Distinct pending) (huniform : Uniform pending) :
    Distinct next ∧ Uniform next := by
  cases h with
  | free before after copy hfree =>
    obtain ⟨hpart, _, hdistinct', _⟩ := hdistinct.middle
    exact ⟨hdistinct', fun copy hmem other hother =>
      huniform copy (hpart copy hmem) other (hpart other hother)⟩
  | save copy hblocked hmem hsource =>
    exact ⟨hdistinct.redirect _, huniform.redirect _ (no_temporary hdistinct hblocked)⟩

/-- A loop whose passes are steps and that stops when nothing is pending has performed a
schedule. -/
theorem Schedules.of_loop {σ ρ : Type} {body : σ → σ ⊕ ρ} (pending : σ → List (Copy L))
    (actions : σ → List (Action L)) (result : ρ → List (Action L) → Prop)
    (hnext : ∀ s t, Distinct (pending s) → Uniform (pending s) → body s = .inl t →
      ∃ action, Step (pending s) action (pending t) ∧ actions t = actions s ++ [action])
    (hdone : ∀ s r, Distinct (pending s) → Uniform (pending s) → body s = .inr r →
      pending s = [] ∧ result r (actions s))
    {s : σ} {r : ρ} (h : Loop.Returns body s r) (hdistinct : Distinct (pending s))
    (huniform : Uniform (pending s)) :
    ∃ more, Schedules (pending s) more ∧ result r (actions s ++ more) := by
  induction h with
  | done hbody =>
    obtain ⟨hempty, hresult⟩ := hdone _ _ hdistinct huniform hbody
    rw [hempty]
    exact ⟨[], .nil, by rwa [List.append_nil]⟩
  | again hbody _ ih =>
    obtain ⟨action, hstep, hactions⟩ := hnext _ _ hdistinct huniform hbody
    obtain ⟨hdistinct', huniform'⟩ := hstep.keeps hdistinct huniform
    obtain ⟨more, hmore, hresult⟩ := ih hdistinct' huniform'
    refine ⟨action :: more, .step hstep hmore, ?_⟩
    rw [hactions, List.append_assoc] at hresult
    exact hresult

end Loops

section Execution

variable {C : Type v} {V : Type w} [DecidableEq C] (cell : Option L → ℕ → C)

/-- The first `extent` cells of a place are copied one after the other. -/
def copyCells (destination source : Option L) : ℕ → (C → V) → C → V
  | 0, memory => memory
  | extent + 1, memory =>
    Function.update (copyCells destination source extent memory) (cell destination extent)
      (copyCells destination source extent memory (cell source extent))

def Action.execute : Action L → (C → V) → C → V
  | .save source extent => copyCells cell none (some source) extent
  | .copy pending => copyCells cell (some pending.destination) pending.source pending.extent

def execute (actions : List (Action L)) (memory : C → V) : C → V :=
  actions.foldl (fun memory action => action.execute cell memory) memory

/-- The cells that the copies use: those of their sources and destinations and as many of
the temporary. -/
def InUse (pending : List (Copy L)) (place : Option L) (index : ℕ) : Prop :=
  ∃ copy ∈ pending, index < copy.extent ∧
    (place = some copy.destination ∨ place = copy.source ∨ place = none)

/-- Different places have no cell in common. -/
def Separate (pending : List (Copy L)) : Prop :=
  ∀ place index other otherIndex, InUse pending place index → InUse pending other otherIndex →
    cell place index = cell other otherIndex → place = other ∧ index = otherIndex

variable {cell}

theorem copyCells_other {destination source : Option L} {extent : ℕ} {memory : C → V} {x : C}
    (h : ∀ index < extent, x ≠ cell destination index) :
    copyCells cell destination source extent memory x = memory x := by
  induction extent with
  | zero => rfl
  | succ extent ih =>
    rw [copyCells, Function.update_of_ne (h extent (Nat.lt_succ_self _))]
    exact ih fun index hindex => h index (Nat.lt_succ_of_lt hindex)

theorem copyCells_copied {destination source : Option L} {extent index : ℕ} {memory : C → V}
    (hsource : ∀ index < extent, ∀ other < extent, cell source index ≠ cell destination other)
    (hinjective : ∀ index < extent, ∀ other < extent,
      cell destination index = cell destination other → index = other) (hindex : index < extent) :
    copyCells cell destination source extent memory (cell destination index) =
      memory (cell source index) := by
  induction extent with
  | zero => exact absurd hindex (Nat.not_lt_zero _)
  | succ extent ih =>
    rw [copyCells]
    by_cases hlast : index = extent
    · subst hlast
      rw [Function.update_self, copyCells_other]
      exact fun other hother => hsource index (Nat.lt_succ_self _) other (Nat.lt_succ_of_lt hother)
    · have hlt : index < extent := by omega
      rw [Function.update_of_ne fun heq =>
        hlast (hinjective index hindex extent (Nat.lt_succ_self _) heq)]
      exact ih (fun index hindex other hother =>
          hsource index (Nat.lt_succ_of_lt hindex) other (Nat.lt_succ_of_lt hother))
        (fun index hindex other hother =>
          hinjective index (Nat.lt_succ_of_lt hindex) other (Nat.lt_succ_of_lt hother)) hlt

theorem InUse.mono {pending more : List (Copy L)} (h : ∀ copy ∈ pending, copy ∈ more)
    {place : Option L} {index : ℕ} (huse : InUse pending place index) : InUse more place index := by
  obtain ⟨copy, hmem, hlt, hplace⟩ := huse
  exact ⟨copy, h copy hmem, hlt, hplace⟩

theorem InUse.redirect [DecidableEq L] {pending : List (Copy L)} {saved : L} {place : Option L} {index : ℕ}
    (huse : InUse (pending.map (Copy.redirect saved)) place index) : InUse pending place index := by
  obtain ⟨copy, hmem, hlt, hplace⟩ := huse
  rw [List.mem_map] at hmem
  obtain ⟨original, horiginal, rfl⟩ := hmem
  rw [redirect_extent] at hlt
  rw [redirect_destination] at hplace
  refine ⟨original, horiginal, hlt, ?_⟩
  rcases hplace with hplace | hplace | hplace
  · exact Or.inl hplace
  · by_cases hsaved : original.source = some saved
    · rw [redirect_of_eq hsaved] at hplace
      exact Or.inr (Or.inr hplace)
    · rw [redirect_of_ne hsaved] at hplace
      exact Or.inr (Or.inl hplace)
  · exact Or.inr (Or.inr hplace)

/-- Copying between separate places copies their cells and nothing else. -/
theorem Separate.copied {pending : List (Copy L)} (h : Separate cell pending)
    {destination source : Option L} (hne : destination ≠ source) {extent : ℕ}
    (hdestination : ∀ index < extent, InUse pending destination index)
    (hsource : ∀ index < extent, InUse pending source index) (memory : C → V) :
    (∀ index < extent, copyCells cell destination source extent memory (cell destination index) =
      memory (cell source index)) ∧
    ∀ place index, InUse pending place index → place ≠ destination →
      copyCells cell destination source extent memory (cell place index) =
        memory (cell place index) := by
  constructor
  · intro index hindex
    refine copyCells_copied (fun index hindex other hother heq => ?_)
      (fun index hindex other hother heq => ?_) hindex
    · exact hne (h _ _ _ _ (hsource index hindex) (hdestination other hother) heq).1.symm
    · exact (h _ _ _ _ (hdestination index hindex) (hdestination other hother) heq).2
  · intro place index huse hplace
    refine copyCells_other fun other hother heq => ?_
    exact hplace (h _ _ _ _ huse (hdestination other hother) heq).1

variable [DecidableEq L]

omit [DecidableEq C] in
theorem Separate.redirect {pending : List (Copy L)} (h : Separate cell pending) (saved : L) :
    Separate cell (pending.map (Copy.redirect saved)) :=
  fun place index other otherIndex huse hother heq =>
    h place index other otherIndex huse.redirect hother.redirect heq

/-- Every pending copy finds what the source of its original held at the beginning. -/
def Intact (cell : Option L → ℕ → C) (original : List (Copy L)) (initial memory : C → V)
    (pending : List (Copy L)) : Prop :=
  ∀ copy ∈ pending, ∃ root ∈ original, root.destination = copy.destination ∧
    root.extent = copy.extent ∧
    ∀ index < copy.extent, memory (cell copy.source index) = initial (cell root.source index)

theorem Step.intact {original pending next : List (Copy L)} {action : Action L}
    {initial memory : C → V} (h : Step pending action next) (hdistinct : Distinct pending)
    (huniform : Uniform pending) (hseparate : Separate cell pending)
    (hintact : Intact cell original initial memory pending) :
    Intact cell original initial (action.execute cell memory) next := by
  cases h with
  | free before after done hfree =>
    obtain ⟨hpart, hdone, _, _⟩ := hdistinct.middle
    obtain ⟨_, hkept⟩ := hseparate.copied (fun heq => hfree done hdone heq.symm)
      (fun index hindex => ⟨done, hdone, hindex, Or.inl rfl⟩)
      (fun index hindex => ⟨done, hdone, hindex, Or.inr (Or.inl rfl)⟩) memory
    intro copy hmem
    obtain ⟨root, hroot, hdestination, hextent, hread⟩ := hintact copy (hpart copy hmem)
    refine ⟨root, hroot, hdestination, hextent, fun index hindex => ?_⟩
    rw [← hread index hindex]
    exact hkept _ _ ⟨copy, hpart copy hmem, hindex, Or.inr (Or.inl rfl)⟩
      (hfree copy (hpart copy hmem))
  | save first hblocked hmem hsource =>
    rename_i saved
    have hnone := no_temporary hdistinct hblocked
    have hne : none ≠ some saved := fun heq => by cases heq
    obtain ⟨hwritten, hkept⟩ := hseparate.copied hne
      (fun index hindex => ⟨first, hmem, hindex, Or.inr (Or.inr rfl)⟩)
      (fun index hindex => ⟨first, hmem, hindex, Or.inr (Or.inl hsource.symm)⟩) memory
    intro copy hcopy
    rw [List.mem_map] at hcopy
    obtain ⟨other, hother, rfl⟩ := hcopy
    obtain ⟨root, hroot, hdestination, hextent, hread⟩ := hintact other hother
    rw [redirect_destination, redirect_extent]
    refine ⟨root, hroot, hdestination, hextent, fun index hindex => ?_⟩
    rw [← hread index hindex]
    by_cases hsame : other.source = some saved
    · have hequal := huniform other hother first hmem (hsame.trans hsource.symm)
      rw [redirect_of_eq hsame, hsame]
      exact hwritten index (by omega)
    · rw [redirect_of_ne hsame]
      exact hkept _ _ ⟨other, hother, hindex, Or.inr (Or.inl rfl)⟩ (hnone other hother)

omit [DecidableEq C] in
theorem Step.separate {pending next : List (Copy L)} {action : Action L}
    (h : Step pending action next) (hdistinct : Distinct pending)
    (hseparate : Separate cell pending) : Separate cell next := by
  cases h with
  | free before after done hfree =>
    obtain ⟨hpart, _, _, _⟩ := hdistinct.middle
    exact fun place index other otherIndex huse hother =>
      hseparate place index other otherIndex (huse.mono hpart) (hother.mono hpart)
  | save first hblocked hmem hsource => exact hseparate.redirect _

/-- Whatever a scheduled copy reads, the temporary included, still holds what the source of the
copy held at the beginning. -/
theorem Schedules.reads_intact {original pending : List (Copy L)} {actions : List (Action L)}
    (h : Schedules pending actions) (hdistinct : Distinct pending) (huniform : Uniform pending)
    (hseparate : Separate cell pending) {initial memory : C → V}
    (hintact : Intact cell original initial memory pending) {before after : List (Action L)}
    {copy : Copy L} (hsplit : actions = before ++ .copy copy :: after) :
    Intact cell original initial (execute cell before memory) [copy] := by
  induction h generalizing memory before with
  | nil => cases before <;> cases hsplit
  | step hstep hrest ih =>
    cases before with
    | nil =>
      rw [List.nil_append, List.cons.injEq] at hsplit
      obtain ⟨rfl, _⟩ := hsplit
      cases hstep with
      | free front back done hfree =>
        intro read hread
        rw [List.mem_singleton] at hread
        subst hread
        exact hintact read hdistinct.middle.2.1
    | cons action before =>
      rw [List.cons_append, List.cons.injEq] at hsplit
      obtain ⟨rfl, hsplit⟩ := hsplit
      obtain ⟨hdistinct', huniform'⟩ := hstep.keeps hdistinct huniform
      rw [execute, List.foldl_cons, ← execute]
      exact ih hdistinct' huniform' (hstep.separate hdistinct hseparate)
        (hstep.intact hdistinct huniform hseparate hintact) hsplit

/-- Every destination holds what its source held, and every other cell outside the temporary
is as it was. -/
theorem Schedules.correct {pending : List (Copy L)} {actions : List (Action L)}
    (h : Schedules pending actions) (hdistinct : Distinct pending) (huniform : Uniform pending)
    (hseparate : Separate cell pending) (memory : C → V) :
    (∀ copy ∈ pending, ∀ index < copy.extent,
      execute cell actions memory (cell (some copy.destination) index) =
        memory (cell copy.source index)) ∧
    ∀ x, (∀ copy ∈ pending, ∀ index < copy.extent,
        x ≠ cell (some copy.destination) index ∧ x ≠ cell none index) →
      execute cell actions memory x = memory x := by
  induction h generalizing memory with
  | nil => exact ⟨fun copy hmem => absurd hmem (List.not_mem_nil), fun x _ => rfl⟩
  | step hstep hrest ih =>
    rw [execute, List.foldl_cons, ← execute]
    cases hstep with
    | free before after done hfree =>
      obtain ⟨hpart, hdone, hdistinct', hothers⟩ := hdistinct.middle
      obtain ⟨hdecided, hframe⟩ := ih hdistinct'
        (fun copy hmem other hother => huniform copy (hpart copy hmem) other (hpart other hother))
        (fun place index other otherIndex huse hother => hseparate place index other otherIndex
          (huse.mono hpart) (hother.mono hpart))
        ((Action.copy done).execute cell memory)
      obtain ⟨hwritten, hkept⟩ := hseparate.copied (fun heq => hfree done hdone heq.symm)
        (fun index hindex => ⟨done, hdone, hindex, Or.inl rfl⟩)
        (fun index hindex => ⟨done, hdone, hindex, Or.inr (Or.inl rfl)⟩) memory
      constructor
      · intro copy hmem index hindex
        rw [List.mem_append, List.mem_cons, or_left_comm, ← List.mem_append] at hmem
        rcases hmem with rfl | hmem
        · rw [hframe, Action.execute, hwritten index hindex]
          intro other hother otherIndex hotherIndex
          have hmine : InUse (before ++ copy :: after) (some copy.destination) index :=
            ⟨copy, hdone, hindex, Or.inl rfl⟩
          constructor
          · intro heq
            have hsame := (hseparate _ _ _ _ hmine
              ⟨other, hpart other hother, hotherIndex, Or.inl rfl⟩ heq).1
            exact hothers other hother (Option.some.inj hsame).symm
          · intro heq
            have hsame := (hseparate _ _ _ _ hmine
              ⟨other, hpart other hother, hotherIndex, Or.inr (Or.inr rfl)⟩ heq).1
            cases hsame
        · rw [hdecided copy hmem index hindex, Action.execute]
          exact hkept _ _ ⟨copy, hpart copy hmem, hindex, Or.inr (Or.inl rfl)⟩
            (hfree copy (hpart copy hmem))
      · intro x hx
        rw [hframe x fun copy hmem => hx copy (hpart copy hmem), Action.execute, copyCells_other]
        exact fun index hindex => (hx done hdone index hindex).1
    | save copy hblocked hmem hsource =>
      rename_i pending actions saved
      have hnone := no_temporary hdistinct hblocked
      obtain ⟨hdecided, hframe⟩ := ih (hdistinct.redirect saved) (huniform.redirect saved hnone)
        (hseparate.redirect saved) ((Action.save saved copy.extent).execute cell memory)
      have hsaved : ∀ index < copy.extent, InUse pending (some saved) index :=
        fun index hindex => ⟨copy, hmem, hindex, Or.inr (Or.inl hsource.symm)⟩
      have hne : none ≠ some saved := fun heq => by cases heq
      obtain ⟨hwritten, hkept⟩ := hseparate.copied hne
        (fun index hindex => ⟨copy, hmem, hindex, Or.inr (Or.inr rfl)⟩) hsaved memory
      constructor
      · intro other hother index hindex
        have hredirect := hdecided _ (List.mem_map_of_mem hother) index
          (by rw [redirect_extent]; exact hindex)
        rw [redirect_destination] at hredirect
        rw [hredirect, Action.execute]
        by_cases hsame : other.source = some saved
        · have hextent := huniform other hother copy hmem (hsame.trans hsource.symm)
          rw [redirect_of_eq hsame, hsame]
          exact hwritten index (by omega)
        · rw [redirect_of_ne hsame]
          exact hkept _ _ ⟨other, hother, hindex, Or.inr (Or.inl rfl)⟩ (hnone other hother)
      · intro x hx
        rw [hframe, Action.execute, copyCells_other]
        · exact fun index hindex => (hx copy hmem index hindex).2
        · intro other hother index hindex
          rw [List.mem_map] at hother
          obtain ⟨original, horiginal, rfl⟩ := hother
          rw [redirect_extent] at hindex
          rw [redirect_destination]
          exact hx original horiginal index hindex

/-- An identity needs no copy. -/
def changes (copies : List (Copy L)) : List (Copy L) :=
  copies.filter fun copy => copy.source ≠ some copy.destination

omit [DecidableEq C] in
theorem mem_changes {copies : List (Copy L)} {copy : Copy L} :
    copy ∈ changes copies ↔ copy ∈ copies ∧ copy.source ≠ some copy.destination := by
  simp [changes]

/-- A schedule of the copies that change something performs all of them at once. -/
theorem Schedules.assigns {copies : List (Copy L)} {actions : List (Action L)}
    (h : Schedules (changes copies) actions) (hdistinct : Distinct copies)
    (huniform : Uniform copies) (hseparate : Separate cell copies) (memory : C → V) :
    (∀ copy ∈ copies, ∀ index < copy.extent,
      execute cell actions memory (cell (some copy.destination) index) =
        memory (cell copy.source index)) ∧
    ∀ x, (∀ copy ∈ copies, ∀ index < copy.extent,
        x ≠ cell (some copy.destination) index ∧ x ≠ cell none index) →
      execute cell actions memory x = memory x := by
  have hsub : ∀ copy ∈ changes copies, copy ∈ copies := fun copy hmem => (mem_changes.mp hmem).1
  obtain ⟨hassigned, hframe⟩ := h.correct ((List.filter_sublist.map _).nodup hdistinct)
    (fun copy hmem other hother => huniform copy (hsub copy hmem) other (hsub other hother))
    (fun place index other otherIndex huse hother => hseparate place index other otherIndex
      (huse.mono hsub) (hother.mono hsub)) memory
  refine ⟨fun copy hmem index hindex => ?_, fun x hx =>
    hframe x fun copy hmem => hx copy (hsub copy hmem)⟩
  by_cases hidentity : copy.source = some copy.destination
  · rw [hidentity]
    have hmine : InUse copies (some copy.destination) index := ⟨copy, hmem, hindex, Or.inl rfl⟩
    refine hframe _ fun other hother otherIndex hotherIndex => ⟨fun heq => ?_, fun heq => ?_⟩
    · have hsame := (hseparate _ _ _ _ hmine
        ⟨other, hsub other hother, hotherIndex, Or.inl rfl⟩ heq).1
      have hcopy := List.inj_on_of_nodup_map hdistinct hmem (hsub other hother)
        (Option.some.inj hsame)
      rw [← hcopy, mem_changes] at hother
      exact hother.2 hidentity
    · have hsame := (hseparate _ _ _ _ hmine
        ⟨other, hsub other hother, hotherIndex, Or.inr (Or.inr rfl)⟩ heq).1
      cases hsame
  · exact hassigned copy (mem_changes.mpr ⟨hmem, hidentity⟩) index hindex

/-- A scheduled copy reads the initial contents of the source that its destination is
assigned. -/
theorem Schedules.reads {copies : List (Copy L)} {actions : List (Action L)}
    (h : Schedules (changes copies) actions) (hdistinct : Distinct copies)
    (huniform : Uniform copies) (hseparate : Separate cell copies) (memory : C → V)
    {before after : List (Action L)} {copy : Copy L}
    (hsplit : actions = before ++ .copy copy :: after) :
    ∃ root ∈ copies, root.destination = copy.destination ∧ root.extent = copy.extent ∧
      ∀ index < copy.extent,
        execute cell before memory (cell copy.source index) = memory (cell root.source index) := by
  have hsub : ∀ copy ∈ changes copies, copy ∈ copies := fun copy hmem => (mem_changes.mp hmem).1
  have hintact : Intact cell copies memory memory (changes copies) := fun copy hmem =>
    ⟨copy, hsub copy hmem, rfl, rfl, fun _ _ => rfl⟩
  exact h.reads_intact ((List.filter_sublist.map _).nodup hdistinct)
    (fun copy hmem other hother => huniform copy (hsub copy hmem) other (hsub other hother))
    (fun place index other otherIndex huse hother => hseparate place index other otherIndex
      (huse.mono hsub) (hother.mono hsub)) hintact hsplit copy List.mem_cons_self

end Execution

end Parallel

end Nocter
