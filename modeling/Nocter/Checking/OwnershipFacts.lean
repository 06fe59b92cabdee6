import Nocter.Checking.OwnershipState

/-!
# Implicit ownership states

What each operation does to the state of every path, explicit or not.
-/

namespace Nocter.Ownership

namespace MovePath

variable {path another other third : MovePath} {projection : MoveProjection} {base : PlaceRoot}

theorem isPrefixOf_iff : path.isPrefixOf another ↔
    path.rootIdentity = another.rootIdentity ∧ path.projections <+: another.projections :=
  ⟨fun h => ⟨h.1, h.2.2⟩, fun h => ⟨h.1, h.2.length_le, h.2⟩⟩

theorem isPrefixOf_refl (path : MovePath) : path.isPrefixOf path :=
  isPrefixOf_iff.mpr ⟨rfl, List.prefix_refl _⟩

theorem isPrefixOf.trans (h : path.isPrefixOf another) (hnext : another.isPrefixOf other) :
    path.isPrefixOf other := by
  rw [isPrefixOf_iff] at *
  exact ⟨h.1.trans hnext.1, h.2.trans hnext.2⟩

/-- Two prefixes of one path are comparable. -/
theorem isPrefixOf.comparable (h : path.isPrefixOf other) (hanother : another.isPrefixOf other) :
    path.isPrefixOf another ∨ another.isPrefixOf path := by
  simp only [isPrefixOf_iff] at *
  rcases List.prefix_or_prefix_of_prefix h.2 hanother.2 with hle | hle
  · exact .inl ⟨h.1.trans hanother.1.symm, hle⟩
  · exact .inr ⟨hanother.1.trans h.1.symm, hle⟩

theorem isPrefixOf_antisymm (h : path.isPrefixOf another) (hother : another.isPrefixOf path) :
    path = another := by
  obtain ⟨base, projections⟩ := path
  obtain ⟨_, others⟩ := another
  rw [isPrefixOf_iff] at h hother
  rw [MovePath.mk.injEq]
  exact ⟨h.1, h.2.sublist.antisymm hother.2.sublist⟩

@[simp] theorem isPrefixOf_root : path.isPrefixOf (root base) ↔ path = root base := by
  obtain ⟨start, projections⟩ := path
  simp [isPrefixOf_iff, root]

theorem root_isPrefixOf : (root base).isPrefixOf path ↔ path.rootIdentity = base := by
  simp [isPrefixOf_iff, root, eq_comm]

theorem isPrefixOf_project : path.isPrefixOf (another.project projection) ↔
    path = another.project projection ∨ path.isPrefixOf another := by
  obtain ⟨start, projections⟩ := path
  simp only [isPrefixOf_iff, project, List.prefix_concat_iff, MovePath.mk.injEq]
  tauto

theorem ne_project : path ≠ path.project projection := by
  intro h
  have hlength := congrArg (fun path => path.projections.length) h
  simp [project] at hlength

/-- Paths are built from their roots by projections. -/
@[elab_as_elim] theorem induction {motive : MovePath → Prop} (root : ∀ base, motive (root base))
    (project : ∀ path projection, motive path → motive (path.project projection))
    (path : MovePath) : motive path := by
  obtain ⟨base, projections⟩ := path
  induction projections using List.reverseRecOn with
  | nil => exact root base
  | append_singleton projections projection ih => exact project ⟨base, projections⟩ projection ih

/-- A path below another is it or goes through one of its projections. -/
theorem isPrefixOf_extension {projections : List MoveProjection} (h : path.isPrefixOf other)
    (hother : other.isPrefixOf ⟨path.rootIdentity, path.projections ++ projection :: projections⟩) :
    other = path ∨ (path.project projection).isPrefixOf other := by
  obtain ⟨start, before⟩ := path
  obtain ⟨base, after⟩ := other
  simp only [isPrefixOf_iff, project, MovePath.mk.injEq] at *
  obtain ⟨rfl, rest, rfl⟩ := h
  obtain ⟨_, hrest⟩ := hother
  rw [List.prefix_append_right_inj] at hrest
  cases rest with
  | nil => simp
  | cons first rest =>
    obtain ⟨rfl, _⟩ := List.cons_prefix_cons.mp hrest
    right
    exact ⟨rfl, rest, by simp⟩

end MovePath

namespace InitializationState

variable {state first : InitializationState} {states others : List InitializationState}

theorem join_eq_iff {another : InitializationState} (hstate : state ≠ .maybeInitialized) :
    first.join another = state ↔ first = state ∧ another = state := by
  unfold join
  split
  next heq => simp [heq]
  next hne =>
    constructor
    · exact fun h => absurd h.symm hstate
    · exact fun h => absurd (h.1.trans h.2.symm) hne

/-- A join is definite just when all joined states are the same definite state. -/
theorem foldl_join_eq_iff (hstate : state ≠ .maybeInitialized) :
    states.foldl join first = state ↔ ∀ joined ∈ first :: states, joined = state := by
  induction states generalizing first with
  | nil => simp
  | cons next states ih =>
    rw [List.foldl_cons, ih]
    simp only [List.forall_mem_cons, join_eq_iff hstate, and_assoc]

theorem eq_of_definite {another : InitializationState}
    (h : ∀ definite, definite ≠ .maybeInitialized → (state = definite ↔ another = definite)) :
    state = another := by
  cases state with
  | initialized => exact ((h _ (by decide)).mp rfl).symm
  | uninitialized => exact ((h _ (by decide)).mp rfl).symm
  | maybeInitialized =>
    cases another with
    | initialized => exact (h _ (by decide)).mpr rfl
    | uninitialized => exact (h _ (by decide)).mpr rfl
    | maybeInitialized => rfl

theorem foldl_join_perm {second : InitializationState}
    (h : (first :: states).Perm (second :: others)) :
    states.foldl join first = others.foldl join second := by
  apply eq_of_definite
  intro definite hdefinite
  rw [foldl_join_eq_iff hdefinite, foldl_join_eq_iff hdefinite]
  exact forall_congr' fun joined => by rw [h.mem_iff]

end InitializationState

namespace OwnershipState

variable {σ σ' : OwnershipState} {path query : MovePath} {base : PlaceRoot}
  {projection : MoveProjection} {state : InitializationState}

@[simp] theorem nearest_root : σ.nearest (.root base) = σ.paths.get? (.root base) := by
  rw [nearest]
  cases σ.paths.get? (.root base) with
  | some state => rfl
  | none => simp [MovePath.root]

@[simp] theorem nearest_project : σ.nearest (path.project projection) =
    (σ.paths.get? (path.project projection)).or (σ.nearest path) := by
  rw [nearest]
  cases σ.paths.get? (path.project projection) with
  | some state => rfl
  | none => simp [MovePath.project]

theorem stateAt_eq_ok : σ.stateAt path = .ok state ↔ σ.nearest path = some state := by
  unfold stateAt
  cases σ.nearest path <;> simp

theorem nearest_of_get (h : σ.paths.get? path = some state) : σ.nearest path = some state := by
  induction path using MovePath.induction with
  | root base => rw [nearest_root, h]
  | project path projection _ => rw [nearest_project, h, Option.some_or]

/-- A path has a state when some prefix of it is explicit. -/
theorem exists_explicit (h : (σ.nearest path).isSome) :
    ∃ key, key.isPrefixOf path ∧ (σ.paths.get? key).isSome := by
  induction path using MovePath.induction with
  | root base => exact ⟨_, MovePath.isPrefixOf_refl _, by rwa [nearest_root] at h⟩
  | project path projection ih =>
    by_cases hkey : (σ.paths.get? (path.project projection)).isSome
    · exact ⟨_, MovePath.isPrefixOf_refl _, hkey⟩
    · rw [nearest_project, Option.not_isSome_iff_eq_none.mp hkey, Option.none_or] at h
      obtain ⟨key, hle, hkey⟩ := ih h
      exact ⟨key, MovePath.isPrefixOf_project.mpr (.inr hle), hkey⟩

theorem partialDescendant_eq_none : σ.partialDescendant path = none ↔
    ∀ candidate state, path ≠ candidate → path.isPrefixOf candidate →
      σ.paths.get? candidate = some state → state = .initialized := by
  rw [partialDescendant, List.find?_eq_none]
  constructor
  · intro h candidate state hne hle hstate
    have hmem : state ∈ (σ.paths.keysWhere fun candidate =>
        path ≠ candidate ∧ path.isPrefixOf candidate).filterMap σ.paths.get? := by
      rw [List.mem_filterMap]
      exact ⟨candidate, by simp [hstate, hne, hle], hstate⟩
    simpa using h state hmem
  · intro h state hmem
    rw [List.mem_filterMap] at hmem
    obtain ⟨candidate, hcandidate, hstate⟩ := hmem
    rw [FiniteMap.mem_keysWhere] at hcandidate
    simpa using h candidate state hcandidate.2.1 hcandidate.2.2 hstate

theorem requireInitialized_ok : σ.requireInitialized path = .ok () ↔
    σ.nearest path = some .initialized ∧
      ∀ candidate state, path ≠ candidate → path.isPrefixOf candidate →
        σ.paths.get? candidate = some state → state = .initialized := by
  rw [← partialDescendant_eq_none]
  unfold requireInitialized stateAt
  cases hstate : σ.nearest path with
  | none => simp [bind, Except.bind]
  | some state =>
    by_cases hinit : state = .initialized
    · cases σ.partialDescendant path <;>
      simp [hinit, bind, Except.bind, pure, Except.pure, throw, throwThe, MonadExceptOf.throw]
    · simp [hinit, bind, Except.bind, throw, throwThe, MonadExceptOf.throw]

/-- A path may be used just when every path below it is initialized. -/
theorem requireInitialized_ok_iff : σ.requireInitialized path = .ok () ↔
    ∀ query, path.isPrefixOf query → σ.nearest query = some .initialized := by
  rw [requireInitialized_ok]
  constructor
  · rintro ⟨hpath, hbelow⟩ query hle
    induction query using MovePath.induction with
    | root base =>
      rw [MovePath.isPrefixOf_root] at hle
      rwa [← hle]
    | project query projection ih =>
      rcases MovePath.isPrefixOf_project.mp hle with heq | hquery
      · rwa [← heq]
      · rw [nearest_project, ih hquery]
        cases hget : σ.paths.get? (query.project projection) with
        | none => rfl
        | some state =>
          by_cases heq : path = query.project projection
          · rw [heq, nearest_of_get hget] at hpath
            rw [hpath, Option.some_or]
          · rw [hbelow _ state heq hle hget]
            rfl
  · intro h
    refine ⟨h path (MovePath.isPrefixOf_refl path), ?_⟩
    intro candidate state _ hle hstate
    have hnearest := h candidate hle
    rw [nearest_of_get hstate] at hnearest
    exact Option.some.inj hnearest

/-- The states after all states below a path were replaced by one. -/
theorem nearest_replaced {replaced : Option InitializationState}
    (hpath : σ'.nearest path = replaced)
    (hbelow : ∀ query, path.isPrefixOf query → query ≠ path → σ'.paths.get? query = none)
    (houtside : ∀ query, ¬ path.isPrefixOf query → σ'.paths.get? query = σ.paths.get? query) :
    σ'.nearest query = if path.isPrefixOf query then replaced else σ.nearest query := by
  induction query using MovePath.induction with
  | root base =>
    split
    next hle =>
      rw [MovePath.isPrefixOf_root] at hle
      rw [← hle, hpath]
    next hle => rw [nearest_root, nearest_root, houtside _ hle]
  | project query projection ih =>
    by_cases heq : query.project projection = path
    · rw [heq, if_pos (MovePath.isPrefixOf_refl path), hpath]
    · have hiff : path.isPrefixOf (query.project projection) ↔ path.isPrefixOf query := by
        rw [MovePath.isPrefixOf_project, or_iff_right (Ne.symm heq)]
      rw [nearest_project, nearest_project, ih]
      split
      next hle => rw [if_pos (hiff.mpr hle), hbelow _ (hiff.mpr hle) heq, Option.none_or]
      next hle =>
        have hnot := fun h => hle (hiff.mp h)
        rw [if_neg hnot, houtside _ hnot]

theorem moveOut_ok (h : σ.moveOut path = .ok σ') : σ.requireInitialized path = .ok () ∧
      σ' = ⟨(σ.retainOutside path).insert path .uninitialized, σ.temporaries⟩ := by
  unfold moveOut at h
  cases hrequire : σ.requireInitialized path with
  | error error => simp [hrequire, bind, Except.bind] at h
  | ok _ =>
    rw [hrequire] at h
    exact ⟨rfl, (Except.ok.inj h).symm⟩

theorem moveOut_of_required (h : σ.requireInitialized path = .ok ()) : σ.moveOut path =
    .ok ⟨(σ.retainOutside path).insert path .uninitialized, σ.temporaries⟩ := by
  rw [moveOut, h]
  rfl

theorem get_moveOut_outside (h : σ.moveOut path = .ok σ') (hle : ¬ path.isPrefixOf query) :
    σ'.paths.get? query = σ.paths.get? query := by
  obtain ⟨_, rfl⟩ := moveOut_ok h
  have hne : query ≠ path := fun heq => hle (heq ▸ MovePath.isPrefixOf_refl path)
  simp [retainOutside, hle, hne]

theorem nearest_moveOut (h : σ.moveOut path = .ok σ') : σ'.nearest query =
    if path.isPrefixOf query then some .uninitialized else σ.nearest query := by
  have hstate := (moveOut_ok h).2
  apply nearest_replaced
  · exact nearest_of_get (by simp [hstate])
  · intro query hle hne
    simp [hstate, retainOutside, hle, hne]
  · exact fun query => get_moveOut_outside h

theorem requireParents_ok {before : MovePath} {projections : List MoveProjection}
    (h : σ.requireParents before projections = .ok ()) (hle : before.isPrefixOf query)
    (hbelow : query.isPrefixOf ⟨before.rootIdentity, before.projections ++ projections⟩)
    (hne : query ≠ ⟨before.rootIdentity, before.projections ++ projections⟩) :
    σ.nearest query = some .initialized := by
  induction projections generalizing before with
  | nil =>
    rw [List.append_nil] at hbelow hne
    exact absurd (MovePath.isPrefixOf_antisymm hbelow hle) hne
  | cons projection projections ih =>
    rw [requireParents] at h
    cases hstate : σ.stateAt before with
    | error error => simp [hstate, bind, Except.bind] at h
    | ok state =>
      by_cases hinit : state = .initialized
      · rcases MovePath.isPrefixOf_extension hle hbelow with rfl | hnext
        · rw [← stateAt_eq_ok, hstate, hinit]
        · have hrest : σ.requireParents (before.project projection) projections = .ok () := by
            simpa [hstate, hinit, bind, Except.bind, pure, Except.pure] using h
          apply ih hrest hnext
          · simpa [MovePath.project] using hbelow
          · simpa [MovePath.project] using hne
      · simp [hstate, hinit, bind, Except.bind, throw, throwThe, MonadExceptOf.throw] at h

theorem assign_ok (h : σ.assign path = .ok σ') :
    (∀ query, query.isPrefixOf path → query ≠ path → σ.nearest query = some .initialized) ∧
      σ' = ⟨if (σ.paths.get? path).isSome then (σ.retainOutside path).insert path .initialized
        else σ.retainOutside path, σ.temporaries⟩ := by
  unfold assign at h
  cases hparents : σ.requireParents (.root path.rootIdentity) path.projections with
  | error error => simp [hparents, bind, Except.bind] at h
  | ok _ =>
    rw [hparents] at h
    refine ⟨?_, (Except.ok.inj h).symm⟩
    intro query hle hne
    exact requireParents_ok hparents (MovePath.root_isPrefixOf.mpr hle.1) hle hne

theorem get_assign_below (h : σ.assign path = .ok σ') (hle : path.isPrefixOf query)
    (hne : query ≠ path) : σ'.paths.get? query = none := by
  obtain ⟨_, rfl⟩ := assign_ok h
  split <;> simp [retainOutside, hle, hne]

theorem get_assign_outside (h : σ.assign path = .ok σ') (hle : ¬ path.isPrefixOf query) :
    σ'.paths.get? query = σ.paths.get? query := by
  obtain ⟨_, rfl⟩ := assign_ok h
  have hne : query ≠ path := fun heq => hle (heq ▸ MovePath.isPrefixOf_refl path)
  split <;> simp [retainOutside, hle, hne]

theorem get_assign_self (h : σ.assign path = .ok σ') :
    σ'.paths.get? path = (σ.paths.get? path).map fun _ => .initialized := by
  obtain ⟨_, rfl⟩ := assign_ok h
  cases hget : σ.paths.get? path <;> simp [retainOutside, hget]

/-- A replaced path is initialized, also when its state is left to its ancestors. -/
theorem nearest_assign_self (h : σ.assign path = .ok σ') :
    σ'.nearest path = (σ.nearest path).map fun _ => .initialized := by
  cases path using MovePath.induction with
  | root base => rw [nearest_root, nearest_root, get_assign_self h]
  | project path projection _ =>
    have hparent : σ.nearest path = some .initialized :=
      (assign_ok h).1 path (MovePath.isPrefixOf_project.mpr (.inr (MovePath.isPrefixOf_refl path)))
        MovePath.ne_project
    have hold : σ'.nearest path = σ.nearest path := by
      rw [nearest_replaced rfl (fun _ => get_assign_below h) fun _ => get_assign_outside h, if_neg]
      intro hle
      exact MovePath.ne_project (MovePath.isPrefixOf_antisymm
        (MovePath.isPrefixOf_project.mpr (.inr (MovePath.isPrefixOf_refl path))) hle)
    rw [nearest_project, nearest_project, get_assign_self h, hold, hparent]
    cases σ.paths.get? (path.project projection) <;> rfl

theorem nearest_assign (h : σ.assign path = .ok σ') : σ'.nearest query =
    if path.isPrefixOf query then (σ.nearest path).map fun _ => .initialized else σ.nearest query :=
  nearest_replaced (nearest_assign_self h) (fun _ => get_assign_below h)
    fun _ => get_assign_outside h

theorem requireInitialized_congr (hnearest : σ'.nearest query = σ.nearest query)
    (hget : ∀ candidate, query.isPrefixOf candidate →
      σ'.paths.get? candidate = σ.paths.get? candidate) :
    σ'.requireInitialized query = σ.requireInitialized query := by
  have hpartial : σ'.partialDescendant query = σ.partialDescendant query := by
    simp only [partialDescendant]
    rw [FiniteMap.keysWhere_congr fun candidate hcandidate => hget candidate hcandidate.2]
    congr 1
    apply List.filterMap_congr
    intro candidate hcandidate
    rw [FiniteMap.mem_keysWhere] at hcandidate
    exact hget candidate hcandidate.2.2
  unfold requireInitialized stateAt
  rw [hnearest, hpartial]

section Join

variable {self first joined second : OwnershipState} {rest incoming others : List OwnershipState}
  {definite : InitializationState}

theorem root_mem_roots (h : (σ.nearest path).isSome) : path.rootIdentity ∈ σ.roots := by
  obtain ⟨key, hle, hkey⟩ := exists_explicit h
  rw [roots, Finset.mem_image]
  exact ⟨key, σ.paths.mem_keys.mpr hkey, hle.1⟩

theorem mem_joinedPaths : path ∈ self.joinedPaths incoming ↔
    (self.paths.get? path).isSome ∨ path.rootIdentity ∈ self.roots ∧
      ∃ state ∈ incoming, (state.paths.get? path).isSome := by
  unfold joinedPaths
  induction incoming with
  | nil => simp [FiniteMap.mem_keys]
  | cons state incoming ih =>
    rw [List.foldr_cons, Finset.mem_union, ih, Finset.mem_filter, FiniteMap.mem_keys]
    simp only [List.mem_cons, exists_eq_or_imp]
    tauto

theorem root_mem_of_mem_joinedPaths (h : path ∈ self.joinedPaths incoming) :
    path.rootIdentity ∈ self.roots := by
  rcases mem_joinedPaths.mp h with hself | hincoming
  · obtain ⟨state, hstate⟩ := Option.isSome_iff_exists.mp hself
    exact root_mem_roots (Option.isSome_of_eq_some (nearest_of_get hstate))
  · exact hincoming.1

/-- A path with a joined state is below a root of the entry. -/
theorem root_mem_of_joined (hnot : ∀ key ∉ self.joinedPaths incoming, joined.paths.get? key = none)
    (h : (joined.nearest path).isSome) : path.rootIdentity ∈ self.roots := by
  obtain ⟨key, hle, hkey⟩ := exists_explicit h
  have hin : key ∈ self.joinedPaths incoming := by
    by_contra hout
    rw [hnot key hout] at hkey
    cases hkey
  rw [← hle.1]
  exact root_mem_of_mem_joinedPaths hin

theorem mem_temporaryIds {temporary : TemporaryIdentity} : temporary ∈ temporaryIds incoming ↔
    ∃ state ∈ incoming, (state.temporaries.get? temporary).isSome := by
  unfold temporaryIds
  induction incoming with
  | nil => simp
  | cons state incoming ih =>
    rw [List.foldr_cons, Finset.mem_union, ih, FiniteMap.mem_keys]
    simp only [List.mem_cons, exists_eq_or_imp]

/-- The state of a path that has one. -/
def knownAt (path : MovePath) (σ : OwnershipState) : InitializationState :=
  (σ.nearest path).getD .maybeInitialized

theorem joinStateAt_known (h : (σ.nearest path).isSome) :
    joinStateAt path state σ = .ok (state.join (knownAt path σ)) := by
  obtain ⟨known, hknown⟩ := Option.isSome_iff_exists.mp h
  simp [joinStateAt, stateAt, knownAt, hknown, bind, Except.bind, pure, Except.pure]

theorem foldlM_joinStateAt (h : ∀ state ∈ rest, (state.nearest path).isSome) :
    rest.foldlM (joinStateAt path) state =
      .ok ((rest.map (knownAt path)).foldl InitializationState.join state) := by
  induction rest generalizing state with
  | nil => rfl
  | cons next rest ih =>
    rw [List.forall_mem_cons] at h
    rw [List.foldlM_cons, joinStateAt_known h.1]
    exact ih h.2

theorem foldlM_joinStateAt_unknown (h : ∃ state ∈ rest, state.nearest path = none) :
    rest.foldlM (joinStateAt path) state = .error (.unknownPath path) := by
  induction rest generalizing state with
  | nil => simp at h
  | cons next rest ih =>
    rw [List.foldlM_cons]
    cases hnext : next.nearest path with
    | none => simp [joinStateAt, stateAt, hnext, bind, Except.bind]
    | some known =>
      rw [joinStateAt_known (by simp [hnext])]
      rw [List.exists_mem_cons_iff, hnext] at h
      exact ih (h.resolve_left (Option.some_ne_none known))

theorem joinedAt_known (h : ∀ state ∈ first :: rest, (state.nearest path).isSome) :
    joinedAt path first rest =
      .ok ((rest.map (knownAt path)).foldl InitializationState.join (knownAt path first)) := by
  rw [List.forall_mem_cons] at h
  obtain ⟨known, hknown⟩ := Option.isSome_iff_exists.mp h.1
  have hstate : first.stateAt path = .ok known := stateAt_eq_ok.mpr hknown
  rw [joinedAt, hstate, knownAt, hknown]
  exact foldlM_joinStateAt h.2

theorem joinedAt_unknown (h : ∃ state ∈ first :: rest, state.nearest path = none) :
    joinedAt path first rest = .error (.unknownPath path) := by
  rw [joinedAt]
  cases hfirst : first.nearest path with
  | none => simp [stateAt, hfirst, bind, Except.bind]
  | some known =>
    rw [stateAt_eq_ok.mpr hfirst]
    rw [List.exists_mem_cons_iff, hfirst] at h
    exact foldlM_joinStateAt_unknown (h.resolve_left (Option.some_ne_none known))

theorem joinedAt_ok (h : joinedAt path first rest = .ok state) :
    (∀ incoming ∈ first :: rest, (incoming.nearest path).isSome) ∧
      state = (rest.map (knownAt path)).foldl InitializationState.join (knownAt path first) := by
  by_cases hknown : ∀ incoming ∈ first :: rest, (incoming.nearest path).isSome
  · rw [joinedAt_known hknown] at h
    exact ⟨hknown, (Except.ok.inj h).symm⟩
  · have hunknown : ∃ incoming ∈ first :: rest, incoming.nearest path = none := by
      simpa only [not_forall, exists_prop, Option.not_isSome_iff_eq_none] using hknown
    rw [joinedAt_unknown hunknown] at h
    cases h

/-- A path whose joined state is definite has it in every incoming state. -/
theorem nearest_of_joinedAt (h : joinedAt path first rest = .ok definite)
    (hdefinite : definite ≠ .maybeInitialized) (hmem : σ ∈ first :: rest) :
    σ.nearest path = some definite := by
  obtain ⟨hknown, hstate⟩ := joinedAt_ok h
  have hall := (InitializationState.foldl_join_eq_iff hdefinite).mp hstate.symm
  rw [← List.map_cons] at hall
  have hself : knownAt path σ = definite := hall _ (List.mem_map_of_mem hmem)
  obtain ⟨known, hget⟩ := Option.isSome_iff_exists.mp (hknown σ hmem)
  rw [knownAt, hget] at hself
  rw [hget]
  exact congrArg some hself

theorem joinedAt_perm (h : (first :: rest).Perm (second :: others)) :
    joinedAt path first rest = joinedAt path second others := by
  by_cases hknown : ∀ incoming ∈ first :: rest, (incoming.nearest path).isSome
  · have hothers : ∀ incoming ∈ second :: others, (incoming.nearest path).isSome :=
      fun incoming hmem => hknown incoming (h.mem_iff.mpr hmem)
    rw [joinedAt_known hknown, joinedAt_known hothers]
    exact congrArg _ (InitializationState.foldl_join_perm (h.map (knownAt path)))
  · have hunknown : ∃ incoming ∈ first :: rest, incoming.nearest path = none := by
      simpa only [not_forall, exists_prop, Option.not_isSome_iff_eq_none] using hknown
    obtain ⟨incoming, hmem, hnone⟩ := hunknown
    rw [joinedAt_unknown ⟨incoming, hmem, hnone⟩,
      joinedAt_unknown ⟨incoming, h.mem_iff.mp hmem, hnone⟩]

theorem joinedTemporary_eq_iff {temporary : TemporaryIdentity}
    (hdefinite : definite ≠ .maybeInitialized) : joinedTemporary first rest temporary = definite ↔
      ∀ state ∈ first :: rest, state.temporaryInitialization temporary = definite := by
  rw [joinedTemporary, InitializationState.foldl_join_eq_iff hdefinite, List.forall_mem_cons,
    List.forall_mem_map, List.forall_mem_cons]

theorem joinedTemporaries_perm (h : (first :: rest).Perm (second :: others)) :
    joinedTemporaries first rest = joinedTemporaries second others := by
  have hids : temporaryIds (first :: rest) = temporaryIds (second :: others) := by
    ext temporary
    simp only [mem_temporaryIds, h.mem_iff]
  have hjoined : joinedTemporary first rest = joinedTemporary second others :=
    funext fun temporary =>
      InitializationState.foldl_join_perm
        (h.map fun state : OwnershipState => state.temporaryInitialization temporary)
  rw [joinedTemporaries, joinedTemporaries, hids, hjoined]

/-- A join does not depend on the order of the incoming states. -/
theorem joinReachable_perm (h : incoming.Perm others) :
    self.joinReachable incoming = self.joinReachable others := by
  cases incoming with
  | nil => rw [List.nil_perm.mp h]
  | cons first rest =>
    cases others with
    | nil => exact absurd h.length_eq (by simp)
    | cons second others =>
      have hpaths : self.joinedPaths (first :: rest) = self.joinedPaths (second :: others) := by
        ext path
        simp only [mem_joinedPaths, h.mem_iff]
      have hjoined : (fun path => joinedAt path first rest) =
          fun path => joinedAt path second others := funext fun path => joinedAt_perm h
      rw [joinReachable, joinReachable, hpaths, hjoined, joinedTemporaries_perm h]

theorem joinReachable_ok (h : self.joinReachable (first :: rest) = .ok joined) :
    (∀ path ∈ self.joinedPaths (first :: rest), ∃ state,
        joinedAt path first rest = .ok state ∧ joined.paths.get? path = some state) ∧
      (∀ path ∉ self.joinedPaths (first :: rest), joined.paths.get? path = none) ∧
      joined.temporaries = joinedTemporaries first rest := by
  rw [joinReachable] at h
  cases hcollect : FiniteMap.collect (fun path => joinedAt path first rest)
      ((self.joinedPaths (first :: rest)).sort (· ≤ ·)) with
  | error error => simp [hcollect, bind, Except.bind] at h
  | ok paths =>
    rw [hcollect] at h
    obtain rfl : OwnershipState.mk paths (joinedTemporaries first rest) = joined := Except.ok.inj h
    obtain ⟨hmem, hnot⟩ := FiniteMap.collect_ok hcollect
    simp only [Finset.mem_sort] at hmem hnot
    exact ⟨hmem, hnot, rfl⟩

/-- A definite joined state, explicit or not, is that of every incoming state. -/
theorem nearest_of_joinReachable (h : self.joinReachable incoming = .ok joined)
    (hdefinite : definite ≠ .maybeInitialized) (hmem : σ ∈ incoming)
    (hnearest : joined.nearest path = some definite) : σ.nearest path = some definite := by
  cases incoming with
  | nil => cases hmem
  | cons first rest =>
    obtain ⟨hjoined, hnot, _⟩ := joinReachable_ok h
    -- An explicit joined path has the joined state of the incoming states.
    have hexplicit {key} (hkey : joined.paths.get? key = some definite) :
        σ.nearest key = some definite := by
      by_cases hin : key ∈ self.joinedPaths (first :: rest)
      · obtain ⟨state, hstate, hget⟩ := hjoined key hin
        obtain rfl : state = definite := Option.some.inj (hget.symm.trans hkey)
        exact nearest_of_joinedAt hstate hdefinite hmem
      · rw [hnot key hin] at hkey
        cases hkey
    induction path using MovePath.induction with
    | root base =>
      rw [nearest_root] at hnearest
      exact hexplicit hnearest
    | project path projection ih =>
      rw [nearest_project] at hnearest
      cases hget : joined.paths.get? (path.project projection) with
      | some state =>
        rw [hget, Option.some_or] at hnearest
        exact hexplicit (hget.trans hnearest)
      | none =>
        rw [hget, Option.none_or] at hnearest
        -- The path is explicit in no incoming state either.
        have hnone : σ.paths.get? (path.project projection) = none := by
          by_contra hsome
          have hroot : path.rootIdentity ∈ self.roots :=
            root_mem_of_joined hnot (Option.isSome_of_eq_some hnearest)
          have hin : path.project projection ∈ self.joinedPaths (first :: rest) :=
            mem_joinedPaths.mpr (.inr ⟨hroot, σ, hmem, Option.isSome_iff_ne_none.mpr hsome⟩)
          obtain ⟨_, _, hsome⟩ := hjoined _ hin
          rw [hget] at hsome
          cases hsome
        rw [nearest_project, hnone, Option.none_or]
        exact ih hnearest

/-- Where the incoming states know the roots of their paths, so does the joined one. -/
theorem nearest_root_of_joinReachable (h : self.joinReachable incoming = .ok joined)
    (hmem : σ ∈ incoming)
    (hroot : ∀ path, (σ.nearest path).isSome → (σ.nearest (.root path.rootIdentity)).isSome)
    (hpath : (joined.nearest path).isSome) : (joined.nearest (.root path.rootIdentity)).isSome := by
  cases incoming with
  | nil => cases hmem
  | cons first rest =>
    obtain ⟨hjoined, hnot, _⟩ := joinReachable_ok h
    have hbase := root_mem_of_joined hnot hpath
    obtain ⟨key, hle, hkey⟩ := exists_explicit hpath
    have hin : key ∈ self.joinedPaths (first :: rest) := by
      by_contra hout
      rw [hnot key hout] at hkey
      cases hkey
    obtain ⟨_, hstate, _⟩ := hjoined key hin
    have hknown := hroot key ((joinedAt_ok hstate).1 σ hmem)
    rw [hle.1, nearest_root] at hknown
    obtain ⟨_, _, hget⟩ := hjoined (.root path.rootIdentity)
      (mem_joinedPaths.mpr (.inr ⟨hbase, σ, hmem, hknown⟩))
    rw [nearest_of_get hget]
    rfl

theorem temporary_of_joinReachable {temporary : TemporaryIdentity}
    (h : self.joinReachable incoming = .ok joined) (hdefinite : definite ≠ .maybeInitialized)
    (hmem : σ ∈ incoming) (hjoined : joined.temporaryInitialization temporary = definite) :
    σ.temporaryInitialization temporary = definite := by
  cases incoming with
  | nil => cases hmem
  | cons first rest =>
    obtain ⟨_, _, htemporaries⟩ := joinReachable_ok h
    refine (joinedTemporary_eq_iff hdefinite).mp ?_ σ hmem
    rw [← hjoined, temporaryInitialization, htemporaries, joinedTemporaries, FiniteMap.get_ofKeys]
    by_cases hin : temporary ∈ temporaryIds (first :: rest)
    · rw [if_pos hin]
      by_cases hjoint : joinedTemporary first rest temporary = .uninitialized
      · simp [hjoint]
      · simp [hjoint]
    · rw [if_neg hin]
      -- No incoming state names the temporary.
      refine (joinedTemporary_eq_iff (by decide)).mpr ?_
      intro state hstate
      have hnone : state.temporaries.get? temporary = none := by
        by_contra hsome
        exact hin (mem_temporaryIds.mpr ⟨state, hstate, Option.isSome_iff_ne_none.mpr hsome⟩)
      rw [temporaryInitialization, hnone, Option.getD_none]

end Join

section Temporaries

variable {temporary other : TemporaryIdentity}

theorem nearest_congr (h : σ'.paths = σ.paths) : σ'.nearest path = σ.nearest path := by
  induction path using MovePath.induction with
  | root base => rw [nearest_root, nearest_root, h]
  | project path projection ih => rw [nearest_project, nearest_project, h, ih]

theorem temporaryInitialization_congr (h : σ'.temporaries = σ.temporaries) :
    σ'.temporaryInitialization = σ.temporaryInitialization := by
  funext temporary
  rw [temporaryInitialization, temporaryInitialization, h]

theorem declareTemporary_ok (h : σ.declareTemporary temporary = .ok σ') :
    σ.temporaries.get? temporary = none ∧
      σ' = ⟨σ.paths, σ.temporaries.insert temporary .initialized⟩ := by
  unfold declareTemporary at h
  split at h
  case isTrue => cases h
  case isFalse hnew => exact ⟨Option.not_isSome_iff_eq_none.mp hnew, (Except.ok.inj h).symm⟩

theorem consumeTemporary_ok (h : σ.consumeTemporary temporary = .ok σ') :
    σ.temporaries.get? temporary = some .initialized ∧
      σ' = ⟨σ.paths, σ.temporaries.erase temporary⟩ := by
  unfold consumeTemporary at h
  split at h
  next hget => exact ⟨hget, (Except.ok.inj h).symm⟩
  all_goals cases h

theorem temporaryInitialization_insert :
    (OwnershipState.mk σ.paths
        (σ.temporaries.insert temporary .initialized)).temporaryInitialization other =
      if other = temporary then .initialized else σ.temporaryInitialization other := by
  rw [temporaryInitialization, FiniteMap.get_insert]
  split <;> rfl

theorem temporaryInitialization_erase :
    (OwnershipState.mk σ.paths (σ.temporaries.erase temporary)).temporaryInitialization other =
      if other = temporary then .uninitialized else σ.temporaryInitialization other := by
  rw [temporaryInitialization, FiniteMap.get_erase]
  split <;> rfl

theorem temporaryInitialization_retain {retained : List TemporaryIdentity} :
    (σ.forgetTemporariesExcept retained).temporaryInitialization other =
      if other ∈ retained then σ.temporaryInitialization other else .uninitialized := by
  rw [temporaryInitialization, forgetTemporariesExcept, FiniteMap.get_retain]
  split <;> rfl

end Temporaries

end OwnershipState

end Nocter.Ownership
