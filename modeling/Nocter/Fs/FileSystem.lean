import Mathlib.Data.Nat.Notation
import Mathlib.Data.List.Nodup
import Mathlib.Data.List.Infix
import Mathlib.Data.List.Perm.Basic

/-!
# File systems

A file system is a list of places with what stands there. A path is looked up from the top; links
are followed everywhere but at its end. A link stands with the absolute path it denotes.
-/

namespace Nocter.Fs

abbrev Path := List String

inductive EntryKind where
  | regular
  | directory
  | symlink (destination : Path)
  | other
  deriving DecidableEq, Repr

inductive FileType where
  | regular
  | directory
  | symlink
  | other
  deriving DecidableEq, Repr

def EntryKind.fileType : EntryKind → FileType
  | .regular => .regular
  | .directory => .directory
  | .symlink _ => .symlink
  | .other => .other

theorem EntryKind.fileType_eq_directory_iff {kind : EntryKind} :
    kind.fileType = .directory ↔ kind = .directory := by
  cases kind <;> simp [EntryKind.fileType]

/-- The places of a file system without its top, in the order in which directories list them. -/
structure FileSystem where
  entries : List (Path × EntryKind)
  distinct : (entries.map Prod.fst).Nodup
  rooted : ∀ entry ∈ entries, entry.1 ≠ [] ∧
    (entry.1.dropLast = [] ∨ (entry.1.dropLast, .directory) ∈ entries)

/-- The end of a lookup that follows no link. -/
inductive Descent where
  | found (place : Path)
  | link (destination rest : Path)
  | missing
  deriving DecidableEq, Repr

namespace FileSystem

variable (fs : FileSystem)

def kind (place : Path) : Option EntryKind :=
  if place = [] then some .directory else (fs.entries.find? (·.1 = place)).map Prod.snd

def names (place : Path) : List String :=
  fs.entries.filterMap fun entry =>
    if entry.1.dropLast = place then entry.1.getLast? else none

/-- What lies below a place, from there. -/
def below (place : Path) : List Path :=
  fs.entries.filterMap fun entry =>
    if place <+: entry.1 ∧ entry.1 ≠ place then some (entry.1.drop place.length) else none

def descend : Path → Path → Descent
  | place, [] => .found place
  | place, name :: rest =>
    match fs.kind (place ++ [name]) with
    | none => .missing
    | some .directory => descend (place ++ [name]) rest
    | some (.symlink destination) =>
      if rest = [] then .found (place ++ [name]) else .link destination rest
    | some _ => if rest = [] then .found (place ++ [name]) else .missing

/-- The place of a path; `links` is the number of links that a lookup follows at most. -/
def resolve : ℕ → Path → Option Path
  | 0, path =>
    match fs.descend [] path with
    | .found place => some place
    | _ => none
  | links + 1, path =>
    match fs.descend [] path with
    | .found place => some place
    | .link destination rest => resolve links (destination ++ rest)
    | .missing => none

def Childless (place : Path) : Prop := ∀ entry ∈ fs.entries, entry.1.dropLast ≠ place

instance (place : Path) : Decidable (fs.Childless place) :=
  inferInstanceAs (Decidable (∀ entry ∈ fs.entries, entry.1.dropLast ≠ place))

/-- The file system without the places that are not kept. -/
def keep (kept : Path → Bool)
    (h : ∀ entry ∈ fs.entries, kept entry.1 = true → entry.1.dropLast ≠ [] →
      kept entry.1.dropLast = true) : FileSystem where
  entries := fs.entries.filter (kept ·.1)
  distinct := fs.distinct.sublist (List.filter_sublist.map Prod.fst)
  rooted := by
    intro entry hentry
    obtain ⟨hentry, hkept⟩ := List.mem_filter.mp hentry
    refine ⟨(fs.rooted entry hentry).1, ?_⟩
    by_cases htop : entry.1.dropLast = []
    · exact .inl htop
    · have hparent := (fs.rooted entry hentry).2.resolve_left htop
      exact .inr (List.mem_filter.mpr ⟨hparent, h entry hentry hkept htop⟩)

def without (place : Path) (h : fs.Childless place) : FileSystem :=
  fs.keep (· ≠ place) fun entry hentry _ _ => decide_eq_true (h entry hentry)

/-- Nothing is taken out from above something else. -/
def erase (place : Path) : FileSystem :=
  if h : fs.Childless place then fs.without place h else fs

theorem entries_erase {place : Path} (h : fs.Childless place) :
    (fs.erase place).entries = fs.entries.filter (·.1 ≠ place) := by
  rw [erase, dif_pos h]
  rfl

variable {fs}

theorem kind_eq_some_iff {place : Path} (hplace : place ≠ []) {kind : EntryKind} :
    fs.kind place = some kind ↔ (place, kind) ∈ fs.entries := by
  rw [FileSystem.kind, if_neg hplace, Option.map_eq_some_iff]
  constructor
  · rintro ⟨entry, hentry, rfl⟩
    obtain rfl : entry.1 = place := by simpa using List.find?_some hentry
    exact List.mem_of_find?_eq_some hentry
  · intro hmem
    cases hfind : fs.entries.find? (·.1 = place) with
    | none =>
      have hnone := List.find?_eq_none.mp hfind (place, kind) hmem
      exact absurd (decide_eq_true rfl) hnone
    | some entry =>
      have hplace' : entry.1 = place := by simpa using List.find?_some hfind
      have hentry := List.mem_of_find?_eq_some hfind
      have hsame : entry = (place, kind) :=
        List.inj_on_of_nodup_map fs.distinct hentry hmem hplace'
      exact ⟨entry, rfl, congrArg Prod.snd hsame⟩

theorem mem_entries_iff {entry : Path × EntryKind} :
    entry ∈ fs.entries ↔ entry.1 ≠ [] ∧ fs.kind entry.1 = some entry.2 := by
  constructor
  · intro hmem
    have hplace := (fs.rooted entry hmem).1
    exact ⟨hplace, (kind_eq_some_iff hplace).mpr hmem⟩
  · exact fun h => (kind_eq_some_iff h.1).mp h.2

/-- What something stands in is a directory. -/
theorem kind_parent {place : Path} {name : String} (h : fs.kind (place ++ [name]) ≠ none) :
    fs.kind place = some .directory := by
  obtain ⟨kind, hkind⟩ := Option.ne_none_iff_exists'.mp h
  have hmem := (kind_eq_some_iff (by simp)).mp hkind
  have hparent := (fs.rooted _ hmem).2
  rw [List.dropLast_concat] at hparent
  by_cases htop : place = []
  · rw [htop]
    rfl
  · exact (kind_eq_some_iff htop).mpr (hparent.resolve_left htop)

theorem kind_ancestor {place rest : Path} (hrest : rest ≠ []) (h : fs.kind (place ++ rest) ≠ none) :
    fs.kind place = some .directory := by
  induction rest using List.reverseRecOn with
  | nil => exact absurd rfl hrest
  | append_singleton rest name ih =>
    rw [← List.append_assoc] at h
    have hparent := kind_parent h
    cases rest with
    | nil => rwa [List.append_nil] at hparent
    | cons first rest => exact ih (by simp) (by rw [hparent]; simp)

theorem mem_names_iff {place : Path} {name : String} :
    name ∈ fs.names place ↔ fs.kind (place ++ [name]) ≠ none := by
  rw [names, List.mem_filterMap, Option.ne_none_iff_exists']
  constructor
  · rintro ⟨entry, hentry, hname⟩
    split at hname
    · next hparent =>
      have hplace : entry.1 = place ++ [name] := by
        rw [← hparent]
        exact (List.dropLast_append_getLast? name hname).symm
      refine ⟨entry.2, (kind_eq_some_iff (by simp)).mpr ?_⟩
      rwa [← hplace]
    · cases hname
  · rintro ⟨kind, hkind⟩
    refine ⟨(place ++ [name], kind), (kind_eq_some_iff (by simp)).mp hkind, ?_⟩
    rw [List.dropLast_concat, if_pos rfl, List.getLast?_concat]

theorem nodup_names (place : Path) : (fs.names place).Nodup := by
  have hpaths : fs.names place = (fs.entries.map Prod.fst).filterMap fun path =>
      if path.dropLast = place then path.getLast? else none := by
    rw [List.filterMap_map]
    rfl
  rw [hpaths]
  apply fs.distinct.filterMap
  intro path path' name hname hname'
  rw [Option.mem_def, Option.ite_none_right_eq_some] at hname hname'
  rw [← List.dropLast_append_getLast? name hname.2, ← List.dropLast_append_getLast? name hname'.2,
    hname.1, hname'.1]

theorem mem_below_iff {place rest : Path} :
    rest ∈ fs.below place ↔ rest ≠ [] ∧ fs.kind (place ++ rest) ≠ none := by
  rw [below, List.mem_filterMap, Option.ne_none_iff_exists']
  constructor
  · rintro ⟨entry, hentry, hrest⟩
    obtain ⟨⟨⟨rest', hplace⟩, hne⟩, hdrop⟩ := Option.ite_none_right_eq_some.mp hrest
    rw [← hplace, List.drop_left] at hdrop
    obtain rfl : rest' = rest := Option.some.inj hdrop
    refine ⟨?_, entry.2, ?_⟩
    · rintro rfl
      exact hne (hplace.symm.trans (List.append_nil place))
    · rw [hplace]
      exact (mem_entries_iff.mp hentry).2
  · rintro ⟨hrest, kind, hkind⟩
    refine ⟨(place ++ rest, kind), (kind_eq_some_iff (by simp [hrest])).mp hkind, ?_⟩
    rw [if_pos ⟨List.prefix_append _ _, by simp [hrest]⟩, List.drop_left]

theorem nodup_below (place : Path) : (fs.below place).Nodup := by
  have hpaths : fs.below place = (fs.entries.map Prod.fst).filterMap fun path =>
      if place <+: path ∧ path ≠ place then some (path.drop place.length) else none := by
    rw [List.filterMap_map]
    rfl
  rw [hpaths]
  apply fs.distinct.filterMap
  intro path path' rest hrest hrest'
  obtain ⟨⟨⟨tail, rfl⟩, _⟩, hdrop⟩ := Option.ite_none_right_eq_some.mp hrest
  obtain ⟨⟨⟨tail', rfl⟩, _⟩, hdrop'⟩ := Option.ite_none_right_eq_some.mp hrest'
  rw [List.drop_left] at hdrop hdrop'
  rw [Option.some.inj (hdrop.trans hdrop'.symm)]

/-- A place and everything below it. -/
def subtree (fs : FileSystem) (place rest : Path) : List Path :=
  rest :: (fs.below (place ++ rest)).map (rest ++ ·)

theorem mem_subtree_iff {place rest other : Path} : other ∈ fs.subtree place rest ↔
      ∃ more, other = rest ++ more ∧ (more = [] ∨ fs.kind (place ++ rest ++ more) ≠ none) := by
  rw [subtree, List.mem_cons, List.mem_map]
  constructor
  · rintro (rfl | ⟨more, hmore, rfl⟩)
    · exact ⟨[], (List.append_nil _).symm, .inl rfl⟩
    · exact ⟨more, rfl, .inr (mem_below_iff.mp hmore).2⟩
  · rintro ⟨more, rfl, hmore⟩
    by_cases hempty : more = []
    · exact .inl (by rw [hempty, List.append_nil])
    · exact .inr ⟨more, mem_below_iff.mpr ⟨hempty, hmore.resolve_left hempty⟩, rfl⟩

theorem nodup_subtree (place rest : Path) : (fs.subtree place rest).Nodup := by
  rw [subtree, List.nodup_cons]
  constructor
  · intro hmem
    obtain ⟨more, hmore, hsame⟩ := List.mem_map.mp hmem
    exact (mem_below_iff.mp hmore).1 (List.append_right_eq_self.mp hsame)
  · exact (nodup_below _).map fun more more' hsame => List.append_cancel_left hsame

/-- What lies below a directory stands under the names that the directory lists. -/
theorem below_perm (place : Path) :
    (fs.below place).Perm ((fs.names place).flatMap fun name => fs.subtree place [name]) := by
  rw [List.perm_ext_iff_of_nodup (nodup_below place)]
  · intro rest
    rw [mem_below_iff, List.mem_flatMap]
    constructor
    · rintro ⟨hrest, hkind⟩
      cases rest with
      | nil => exact absurd rfl hrest
      | cons name rest =>
        have hsplit : place ++ name :: rest = place ++ [name] ++ rest := by simp
        rw [hsplit] at hkind
        refine ⟨name, mem_names_iff.mpr ?_, mem_subtree_iff.mpr ⟨rest, rfl, .inr hkind⟩⟩
        by_cases hempty : rest = []
        · rwa [hempty, List.append_nil] at hkind
        · rw [kind_ancestor hempty hkind]
          simp
    · rintro ⟨name, hname, hrest⟩
      obtain ⟨more, rfl, hmore⟩ := mem_subtree_iff.mp hrest
      refine ⟨by simp, ?_⟩
      rw [← List.append_assoc]
      rcases hmore with rfl | hmore
      · rw [List.append_nil]
        exact mem_names_iff.mp hname
      · exact hmore
  · rw [List.nodup_flatMap]
    refine ⟨fun name _ => nodup_subtree place [name], (nodup_names place).imp ?_⟩
    intro name name' hne rest hrest hrest'
    obtain ⟨more, hmore, _⟩ := mem_subtree_iff.mp hrest
    obtain ⟨more', hmore', _⟩ := mem_subtree_iff.mp hrest'
    rw [hmore] at hmore'
    exact hne (List.cons.inj hmore').1

theorem subtree_perm (place rest : Path) : (fs.subtree place rest).Perm
      (rest :: (fs.names (place ++ rest)).flatMap fun name => fs.subtree place (rest ++ [name])) := by
  refine List.Perm.cons rest ((below_perm (place ++ rest)).map (rest ++ ·) |>.trans ?_)
  rw [List.map_flatMap]
  refine List.Perm.of_eq (congrArg (fun f => (fs.names (place ++ rest)).flatMap f) (funext ?_))
  intro name
  rw [subtree, subtree, List.map_cons, List.map_map]
  have hplace : place ++ rest ++ [name] = place ++ (rest ++ [name]) := List.append_assoc _ _ _
  rw [hplace]
  congr 2
  funext more
  simp

/-- Nothing stands below anything but a directory. -/
theorem subtree_leaf {place rest : Path} {kind : EntryKind}
    (hkind : fs.kind (place ++ rest) = some kind) (hleaf : kind ≠ .directory) :
    fs.subtree place rest = [rest] := by
  have hempty : fs.below (place ++ rest) = [] := by
    rw [List.eq_nil_iff_forall_not_mem]
    intro more hmore
    obtain ⟨hne, hmore⟩ := mem_below_iff.mp hmore
    rw [kind_ancestor hne hmore] at hkind
    exact hleaf (Option.some.inj hkind).symm
  rw [subtree, hempty]
  rfl

theorem childless_iff {place : Path} : fs.Childless place ↔ fs.names place = [] := by
  rw [List.eq_nil_iff_forall_not_mem]
  constructor
  · intro h name hname
    obtain ⟨kind, hkind⟩ := Option.ne_none_iff_exists'.mp (mem_names_iff.mp hname)
    have hmem := (kind_eq_some_iff (by simp)).mp hkind
    exact h _ hmem List.dropLast_concat
  · intro h entry hentry hparent
    obtain ⟨hne, hkind⟩ := mem_entries_iff.mp hentry
    apply h (entry.1.getLast hne)
    rw [mem_names_iff, ← hparent, List.dropLast_append_getLast hne, hkind]
    simp

/-! ### Lookups -/

section Lookup

variable {place path more : Path}

theorem descend_cons {name : String} {rest : Path} : fs.descend place (name :: rest) =
      match fs.kind (place ++ [name]) with
      | none => .missing
      | some .directory => fs.descend (place ++ [name]) rest
      | some (.symlink destination) =>
        if rest = [] then .found (place ++ [name]) else .link destination rest
      | some _ => if rest = [] then .found (place ++ [name]) else .missing := rfl

theorem descend_directory {name : String} {rest : Path}
    (h : fs.kind (place ++ [name]) = some .directory) :
    fs.descend place (name :: rest) = fs.descend (place ++ [name]) rest := by
  rw [descend_cons, h]

/-- Below directories a path leads to where it says. -/
theorem descend_below (h : fs.kind (place ++ path) ≠ none) :
    fs.descend place path = .found (place ++ path) := by
  induction path generalizing place with
  | nil =>
    rw [List.append_nil]
    rfl
  | cons name rest ih =>
    have hsplit : place ++ name :: rest = place ++ [name] ++ rest := by simp
    rw [hsplit] at h ⊢
    by_cases hrest : rest = []
    · subst hrest
      rw [List.append_nil] at h ⊢
      obtain ⟨kind, hkind⟩ := Option.ne_none_iff_exists'.mp h
      rw [descend_cons, hkind]
      cases kind <;> rfl
    · rw [descend_directory (kind_ancestor hrest h)]
      exact ih h

/-- A lookup that does not go on in a directory ends at something else or at nothing. -/
theorem kind_of_found {name : String} {rest place' : Path}
    (h : fs.descend place (name :: rest) = .found place')
    (hdirectory : fs.kind place' = some .directory) :
    fs.kind (place ++ [name]) = some .directory := by
  rw [descend_cons] at h
  have hend : ∀ {other : Descent} (kind : EntryKind), fs.kind (place ++ [name]) = some kind →
      (if rest = [] then Descent.found (place ++ [name]) else other) = .found place' →
      other ≠ .found place' → kind = .directory := by
    intro other kind hkind hfound hother
    split at hfound
    · rw [Descent.found.inj hfound, hdirectory] at hkind
      exact (Option.some.inj hkind).symm
    · exact absurd hfound hother
  cases hkind : fs.kind (place ++ [name]) with
  | none =>
    rw [hkind] at h
    cases h
  | some kind =>
    rw [hkind] at h
    cases kind with
    | directory => rfl
    | regular => rw [hend _ hkind h (by simp)]
    | symlink destination => rw [hend _ hkind h (by simp)]
    | other => rw [hend _ hkind h (by simp)]

theorem descend_append_found {place' : Path} (h : fs.descend place path = .found place')
    (hdirectory : fs.kind place' = some .directory) :
    fs.descend place (path ++ more) = fs.descend place' more := by
  induction path generalizing place with
  | nil =>
    obtain rfl : place = place' := Descent.found.inj h
    rfl
  | cons name rest ih =>
    have hkind := kind_of_found h hdirectory
    rw [descend_directory hkind] at h
    rw [List.cons_append, descend_directory hkind]
    exact ih h

theorem descend_append_link {destination rest : Path}
    (h : fs.descend place path = .link destination rest) :
    fs.descend place (path ++ more) = .link destination (rest ++ more) := by
  induction path generalizing place with
  | nil => cases h
  | cons name path ih =>
    rw [descend_cons] at h
    rw [List.cons_append]
    cases hkind : fs.kind (place ++ [name]) with
    | none =>
      rw [hkind] at h
      cases h
    | some kind =>
      rw [hkind] at h
      cases kind with
      | directory =>
        rw [descend_directory hkind]
        exact ih h
      | regular =>
        dsimp only at h
        split at h <;> cases h
      | other =>
        dsimp only at h
        split at h <;> cases h
      | symlink _ =>
        dsimp only at h
        split at h
        · cases h
        · next hpath =>
          obtain ⟨rfl, rfl⟩ := Descent.link.inj h
          rw [descend_cons, hkind]
          exact if_neg (by simp [hpath])

/-- Below a directory a path leads to where it says from there. -/
theorem resolve_below {links : ℕ} (h : fs.resolve links path = some place)
    (hdirectory : fs.kind place = some .directory) (hmore : fs.kind (place ++ more) ≠ none) :
    fs.resolve links (path ++ more) = some (place ++ more) := by
  have hfound : fs.descend [] path = .found place →
      fs.descend [] (path ++ more) = .found (place ++ more) := fun hdescent => by
    rw [descend_append_found hdescent hdirectory, descend_below hmore]
  induction links generalizing path with
  | zero =>
    rw [resolve] at h ⊢
    cases hdescent : fs.descend [] path with
    | missing =>
      rw [hdescent] at h
      cases h
    | link destination rest =>
      rw [hdescent] at h
      cases h
    | found place' =>
      rw [hdescent] at h
      rw [hfound (hdescent.trans (congrArg Descent.found (Option.some.inj h)))]
  | succ links ih =>
    rw [resolve] at h ⊢
    cases hdescent : fs.descend [] path with
    | missing =>
      rw [hdescent] at h
      cases h
    | link destination rest =>
      rw [hdescent] at h
      rw [descend_append_link hdescent]
      dsimp only at h ⊢
      rw [← List.append_assoc]
      apply ih h
      intro hdescent'
      rw [descend_append_found hdescent' hdirectory, descend_below hmore]
    | found place' =>
      rw [hdescent] at h
      rw [hfound (hdescent.trans (congrArg Descent.found (Option.some.inj h)))]

variable {fs' : FileSystem}

theorem kind_mono (hsub : fs.entries ⊆ fs'.entries) {kind : EntryKind}
    (h : fs.kind place = some kind) : fs'.kind place = some kind := by
  by_cases htop : place = []
  · subst htop
    exact h
  · rw [kind_eq_some_iff htop] at h ⊢
    exact hsub h

theorem descend_mono (hsub : fs.entries ⊆ fs'.entries) (h : fs.descend place path ≠ .missing) :
    fs'.descend place path = fs.descend place path := by
  induction path generalizing place with
  | nil => rfl
  | cons name rest ih =>
    rw [descend_cons] at h ⊢
    rw [descend_cons]
    cases hkind : fs.kind (place ++ [name]) with
    | none =>
      rw [hkind] at h
      exact absurd rfl h
    | some kind =>
      rw [kind_mono hsub hkind]
      rw [hkind] at h
      cases kind with
      | directory => exact ih h
      | regular => rfl
      | symlink destination => rfl
      | other => rfl

/-- A path that leads somewhere leads there also when there are more entries. -/
theorem resolve_mono (hsub : fs.entries ⊆ fs'.entries) {links : ℕ}
    (h : fs.resolve links path = some place) : fs'.resolve links path = some place := by
  induction links generalizing path with
  | zero =>
    rw [resolve] at h ⊢
    have hdescent : fs.descend [] path ≠ .missing := by
      intro hmissing
      rw [hmissing] at h
      cases h
    rwa [descend_mono hsub hdescent]
  | succ links ih =>
    rw [resolve] at h ⊢
    have hdescent : fs.descend [] path ≠ .missing := by
      intro hmissing
      rw [hmissing] at h
      cases h
    rw [descend_mono hsub hdescent]
    generalize fs.descend [] path = descent at h
    cases descent with
    | missing => exact h
    | found _ => exact h
    | link destination rest => exact ih h

end Lookup

end FileSystem

end Nocter.Fs
