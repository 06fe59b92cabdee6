import Nocter.Fs.RecursiveTraversal

/-!
# Recursive removal

A removal takes out every entry of a directory before the directory. What a failed or dropped
removal has taken out stays out.
-/

namespace Nocter.Fs

def World.remove (world : World) (place : Path) : World :=
  { world with fs := world.fs.erase place, removed := world.removed ++ [place] }

section Requests

variable (target : Target)

def removeFile (path : Path) : Job Unit :=
  Job.answered fun world =>
    match world.fs.resolve target.links path with
    | none => (.failed .notFound, world)
    | some place =>
      match world.fs.kind place with
      | none => (.failed .notFound, world)
      | some .directory => (.failed .isDirectory, world)
      | some _ => (.returned (), world.remove place)

/-- The top of the file system is never removed. -/
def removeDir (path : Path) : Job Unit :=
  Job.answered fun world =>
    match world.fs.resolve target.links path with
    | none => (.failed .notFound, world)
    | some place =>
      match world.fs.kind place with
      | none => (.failed .notFound, world)
      | some .directory =>
        if place = [] then (.failed .busy, world)
        else if world.fs.Childless place then (.returned (), world.remove place)
        else (.failed .directoryNotEmpty, world)
      | some _ => (.failed .notDirectory, world)

end Requests

/-- `AsyncRemovalFrame` and `BlockingRemovalFrame`. -/
structure RemovalFrame where
  path : Path
  stream : ReadDir
  deriving DecidableEq, Repr

abbrev RemovalState := List RemovalFrame × World

abbrev Removal := Ending Unit × World

def awaitRemoval {α : Type} (job : Job α) (next : α → World → RemovalState ⊕ Removal)
    (world : World) : RemovalState ⊕ Removal :=
  match job world with
  | (.returned value, world) => next value world
  | (.failed failure, world) => .inr (.failed failure, world)
  | (.suspended, world) => .inr (.suspended, world)

section Functions

variable (target : Target)

/-- A pass of the loop; the frame on top stands first. -/
def removalBody : RemovalState → RemovalState ⊕ Removal
  | ([], world) => .inr (.returned (), world)
  | (active :: frames, world) =>
    awaitRemoval (active.stream.next target) (fun
      | none => awaitRemoval (removeDir target active.path) fun _ world => .inl (frames, world)
      | some (entry, stream) =>
        let frames := { active with stream } :: frames
        awaitRemoval (symlinkMetadata target entry.path) fun metadata =>
          if metadata.isDirectory then
            awaitRemoval (requireRecursiveDirectoryDepth frames.length) fun _ =>
              awaitRemoval (readDir target entry.path) fun child world =>
                .inl (⟨entry.path, child⟩ :: frames, world)
          else
            awaitRemoval (removeFile target entry.path) fun _ world => .inl (frames, world)) world

/-- A removal within so many passes of its loop. -/
def removeTree (passes : ℕ) (path : Path) (world : World) : Option Removal :=
  match symlinkMetadata target path world with
  | (.failed failure, world) => some (.failed failure, world)
  | (.suspended, world) => some (.suspended, world)
  | (.returned metadata, world) =>
    if !metadata.isDirectory then some (.failed .notDirectory, world)
    else
      match readDir target path world with
      | (.failed failure, world) => some (.failed failure, world)
      | (.suspended, world) => some (.suspended, world)
      | (.returned stream, world) =>
        Loop.within (removalBody target) passes ([⟨path, stream⟩], world)

def removeDirAll : ℕ → Path → World → Option Removal := removeTree target

/-- The blocking form makes the same requests. -/
def removeDirAllBlocking : ℕ → Path → World → Option Removal := removeTree target

end Functions

/-! ### What is left of a file system -/

namespace FileSystem

/-- Only these places are gone. -/
def Lacks (now fs : FileSystem) (gone : List Path) : Prop :=
  now.entries = fs.entries.filter (·.1 ∉ gone)

section Lacks

variable {now fs : FileSystem} {gone : List Path} {place : Path}

theorem Lacks.subset (h : now.Lacks fs gone) : now.entries ⊆ fs.entries := by
  rw [h]
  exact List.filter_subset_self _

theorem Lacks.mem_iff (h : now.Lacks fs gone) {entry : Path × EntryKind} :
    entry ∈ now.entries ↔ entry ∈ fs.entries ∧ entry.1 ∉ gone := by
  rw [h, List.mem_filter, decide_eq_true_eq]

theorem Lacks.kind_eq (h : now.Lacks fs gone) (hplace : place ∉ gone) :
    now.kind place = fs.kind place := by
  by_cases htop : place = []
  · rw [htop]
    rfl
  · ext kind
    rw [kind_eq_some_iff htop, kind_eq_some_iff htop, h.mem_iff]
    exact and_iff_left hplace

theorem Lacks.kind_gone (h : now.Lacks fs gone) (htop : place ≠ []) (hplace : place ∈ gone) :
    now.kind place = none := by
  rw [Option.eq_none_iff_forall_ne_some]
  intro kind hkind
  exact (h.mem_iff.mp ((kind_eq_some_iff htop).mp hkind)).2 hplace

theorem Lacks.names_eq (h : now.Lacks fs gone)
    (hnames : ∀ name, fs.kind (place ++ [name]) ≠ none → place ++ [name] ∉ gone) :
    now.names place = fs.names place := by
  rw [names, names, h, List.filterMap_filter]
  apply List.filterMap_congr
  intro entry hentry
  by_cases hgone : entry.1 ∈ gone
  · obtain ⟨hne, hkind⟩ := mem_entries_iff.mp hentry
    have hother : entry.1.dropLast ≠ place := by
      rintro rfl
      apply hnames (entry.1.getLast hne)
      · rw [List.dropLast_append_getLast, hkind]
        simp
      · rwa [List.dropLast_append_getLast]
    simp [hgone, hother]
  · simp [hgone]

theorem Lacks.erase (h : now.Lacks fs gone) (hplace : now.Childless place) :
    (now.erase place).Lacks fs (gone ++ [place]) := by
  rw [Lacks, now.entries_erase hplace, h, List.filter_filter]
  apply List.filter_congr
  intro entry _
  simp [and_comm]

end Lacks

/-- The file system once nothing is left below a place. -/
def outside (fs : FileSystem) (place : Path) : FileSystem :=
  fs.keep (fun other => ¬ (place <+: other ∧ other ≠ place)) <| by
    intro entry _ hkept htop
    have hnot := of_decide_eq_true hkept
    apply decide_eq_true
    rintro ⟨hstart, _⟩
    refine hnot ⟨hstart.trans (List.dropLast_prefix _), ?_⟩
    rintro rfl
    have hlength := hstart.length_le
    rw [List.length_dropLast] at hlength
    have hempty : entry.1 = [] := List.eq_nil_of_length_eq_zero (by omega)
    exact htop (by rw [hempty]; rfl)

/-- What is left of open directories, each after its entries. -/
def leaving (fs : FileSystem) (place : Path) (frames : List Frame) : List Path :=
  frames.flatMap fun frame =>
    (frame.names.flatMap fun name => fs.subtree place (frame.rest ++ [name])) ++ [frame.rest]

section Leaving

variable {fs : FileSystem} {place rest : Path} {name : String} {names : List String}
  {frames : List Frame}

theorem leaving_ended (fs : FileSystem) (place rest : Path) (frames : List Frame) :
    fs.leaving place (⟨rest, []⟩ :: frames) = rest :: fs.leaving place frames := rfl

theorem leaving_cons (rest : Path) (name : String) (names : List String) (frames : List Frame) :
    fs.leaving place (⟨rest, name :: names⟩ :: frames) =
      fs.subtree place (rest ++ [name]) ++ fs.leaving place (⟨rest, names⟩ :: frames) := by
  rw [leaving, leaving, List.flatMap_cons, List.flatMap_cons, List.flatMap_cons,
    List.append_assoc, List.append_assoc, List.append_assoc]

theorem leaving_directory (rest : Path) (name : String) (names : List String)
    (frames : List Frame) : (fs.leaving place (⟨rest, name :: names⟩ :: frames)).Perm
      (fs.leaving place (⟨rest ++ [name], fs.names (place ++ (rest ++ [name]))⟩ ::
        ⟨rest, names⟩ :: frames)) := by
  rw [leaving_cons, leaving, List.flatMap_cons]
  exact ((subtree_perm place (rest ++ [name])).trans
    (List.perm_append_singleton _ _).symm).append_right _

theorem leaving_leaf {kind : EntryKind} (hkind : fs.kind (place ++ (rest ++ [name])) = some kind)
    (hleaf : kind ≠ .directory) : fs.leaving place (⟨rest, name :: names⟩ :: frames) =
      (rest ++ [name]) :: fs.leaving place (⟨rest, names⟩ :: frames) := by
  rw [leaving_cons, subtree_leaf hkind hleaf]
  rfl

theorem mem_leaving_of_mem {frame : Frame} (h : frame ∈ frames) :
    frame.rest ∈ fs.leaving place frames :=
  List.mem_flatMap.mpr ⟨frame, h, List.mem_append_right _ (List.mem_singleton_self _)⟩

theorem mem_leaving_subtree {other : Path} (h : other ∈ fs.subtree place (rest ++ [name])) :
    other ∈ fs.leaving place (⟨rest, name :: names⟩ :: frames) := by
  rw [leaving_cons]
  exact List.mem_append_left _ h

theorem length_le_leaving (fs : FileSystem) (place : Path) (frames : List Frame) :
    frames.length ≤ (fs.leaving place frames).length := by
  induction frames with
  | nil => exact Nat.le_refl _
  | cons frame frames ih =>
    rw [leaving, List.flatMap_cons, List.length_append, List.length_append, List.length_cons,
      List.length_singleton]
    rw [leaving] at ih
    omega

end Leaving

end FileSystem

/-- Nothing under a directory that is left belongs to the one on top. -/
theorem Stacked.apart {fs : FileSystem} {place rest : Path} {names : List String}
    {frames : List Frame} (h : Stacked (⟨rest, names⟩ :: frames)) {other : Path}
    (hother : other ∈ fs.leaving place frames) : ¬ rest <+: other := by
  generalize hstack : Frame.mk rest names :: frames = stack at h
  induction h generalizing rest names frames with
  | empty => cases hstack
  | root _ =>
    cases hstack
    cases hother
  | @inside below name siblings inner frames h hname _ ih =>
    cases hstack
    intro hstart
    rw [FileSystem.leaving, List.flatMap_cons, List.append_assoc] at hother
    rcases List.mem_append.mp hother with hother | hother
    · obtain ⟨sibling, hsibling, hother⟩ := List.mem_flatMap.mp hother
      obtain ⟨more, rfl, _⟩ := FileSystem.mem_subtree_iff.mp hother
      have hsame : below ++ [name] = below ++ [sibling] :=
        List.IsPrefix.eq_of_length
          (List.prefix_of_prefix_length_le hstart (List.prefix_append _ _) (by simp)) (by simp)
      rw [List.append_cancel_left_eq, List.singleton_inj] at hsame
      exact hname (hsame ▸ hsibling)
    · rcases List.mem_cons.mp hother with rfl | hother
      · have hlength := hstart.length_le
        rw [List.length_append, List.length_singleton] at hlength
        omega
      · exact ih hother rfl ((List.prefix_append _ _).trans hstart)

/-! ### Requests -/

/-- What comes of a request that is done wherever `ready` holds. -/
inductive Attempted {α : Type} (ready : Prop) (value : α) (world after : World) :
    Ending α × World → Prop
  | returned (replies : List Reply) (h : replies ⊆ world.replies) :
      Attempted ready value world after (.returned value, { after with replies })
  | failed (failure : Failure) (replies : List Reply) (h : ¬ ready) :
      Attempted ready value world after (.failed failure, { world with replies })
  | suspended (replies : List Reply) (h : ¬ ready) :
      Attempted ready value world after (.suspended, { world with replies })

theorem Served.attempted {α : Type} {ready : Prop} {value : α} {world after : World}
    {result : Ending α × World} (hready : ready → world.Smooth)
    (h : Served value world after result) : Attempted ready value world after result := by
  cases h with
  | returned replies h => exact .returned replies h
  | failed replies h => exact .failed .target replies fun hnow => h (hready hnow)
  | suspended replies h => exact .suspended replies fun hnow => h (hready hnow)

/-- A request that the file system refuses. -/
theorem Job.answered_refused {α : Type} {request : Job α} {ready : Prop} {value : α}
    {world after : World} {failure : Failure} (hready : ¬ ready)
    (h : ∀ replies, request { world with replies } = (.failed failure, { world with replies })) :
    Attempted ready value world after (Job.answered request world) := by
  obtain ⟨fs, replies, removed⟩ := world
  cases replies with
  | nil =>
    have hnow : Job.answered request ⟨fs, [], removed⟩ =
        (.failed failure, ⟨fs, [], removed⟩) := h []
    rw [hnow]
    exact .failed failure [] hready
  | cons reply replies =>
    cases reply with
    | proceeds =>
      have hnow : Job.answered request ⟨fs, .proceeds :: replies, removed⟩ =
          (.failed failure, ⟨fs, replies, removed⟩) := h replies
      rw [hnow]
      exact .failed failure replies hready
    | fails => exact .failed .target replies hready
    | suspends => exact .suspended replies hready

/-- A world in which some places are gone, but not the root, and whose paths lead on where
`ready` holds. -/
structure Acting (target : Target) (fs : FileSystem) (path place : Path) (ready : Prop)
    (gone : List Path) (world : World) : Prop where
  opens : Opens target fs path place
  lacks : world.fs.Lacks fs gone
  standing : place ∉ gone
  smooth : ready → world.Smooth
  leads : ready → world.fs.resolve target.links path = some place

namespace Acting

variable {target : Target} {fs : FileSystem} {path place : Path} {ready : Prop}
  {gone : List Path} {world : World} (h : Acting target fs path place ready gone world)
  {rest : Path} {kind : EntryKind} (hkind : fs.kind (place ++ rest) = some kind)
  (hstands : place ++ rest ∉ gone)

include h hkind

theorem resolve_cases : world.fs.resolve target.links (path ++ rest) = some (place ++ rest) ∨
      world.fs.resolve target.links (path ++ rest) = none := by
  cases hnow : world.fs.resolve target.links (path ++ rest) with
  | none => exact .inr rfl
  | some other =>
    have hfirst := FileSystem.resolve_mono h.lacks.subset hnow
    have hstands : fs.kind (place ++ rest) ≠ none := by
      rw [hkind]
      simp
    have hbelow := FileSystem.resolve_below h.opens.leads h.opens.directory hstands
    rw [hfirst] at hbelow
    exact .inl hbelow

include hstands

theorem not_ready (hlost : world.fs.resolve target.links (path ++ rest) = none) : ¬ ready := by
  intro hready
  have hdirectory : world.fs.kind place = some .directory := by
    rw [h.lacks.kind_eq h.standing]
    exact h.opens.directory
  have hnow : world.fs.kind (place ++ rest) ≠ none := by
    rw [h.lacks.kind_eq hstands, hkind]
    simp
  rw [FileSystem.resolve_below (h.leads hready) hdirectory hnow] at hlost
  cases hlost

theorem symlinkMetadata_attempted :
    Attempted ready ⟨kind.fileType⟩ world world (symlinkMetadata target (path ++ rest) world) := by
  rcases h.resolve_cases hkind with hplace | hlost
  · apply Served.attempted h.smooth
    apply Job.answered_served
    intro replies
    have hfound :
        (world.fs.resolve target.links (path ++ rest)).bind world.fs.kind = some kind := by
      rw [hplace, ← hkind]
      exact h.lacks.kind_eq hstands
    dsimp only
    rw [hfound]
  · apply Job.answered_refused (h.not_ready hkind hstands hlost)
    intro replies
    dsimp only
    rw [hlost]
    rfl

theorem readDir_attempted (hdirectory : kind = .directory)
    (hnames : world.fs.names (place ++ rest) = fs.names (place ++ rest)) :
    Attempted ready ⟨path ++ rest, fs.names (place ++ rest)⟩ world world
      (readDir target (path ++ rest) world) := by
  subst hdirectory
  rcases h.resolve_cases hkind with hplace | hlost
  · apply Served.attempted h.smooth
    apply Job.answered_served
    intro replies
    dsimp only
    rw [hplace]
    dsimp only
    rw [h.lacks.kind_eq hstands, hkind, hnames]
  · apply Job.answered_refused (h.not_ready hkind hstands hlost)
    intro replies
    dsimp only
    rw [hlost]

theorem removeFile_attempted (hleaf : kind ≠ .directory) :
    Attempted ready () world (world.remove (place ++ rest))
      (removeFile target (path ++ rest) world) := by
  rcases h.resolve_cases hkind with hplace | hlost
  · apply Served.attempted h.smooth
    apply Job.answered_served
    intro replies
    dsimp only
    rw [hplace]
    dsimp only
    rw [h.lacks.kind_eq hstands, hkind]
    cases kind with
    | directory => exact absurd rfl hleaf
    | regular => rfl
    | symlink destination => rfl
    | other => rfl
  · apply Job.answered_refused (h.not_ready hkind hstands hlost)
    intro replies
    dsimp only
    rw [hlost]

theorem removeDir_attempted (hdirectory : kind = .directory)
    (hempty : world.fs.Childless (place ++ rest)) (htop : ready → place ≠ []) :
    Attempted ready () world (world.remove (place ++ rest))
      (removeDir target (path ++ rest) world) := by
  subst hdirectory
  rcases h.resolve_cases hkind with hplace | hlost
  · have hnow : world.fs.kind (place ++ rest) = some .directory := by
      rw [h.lacks.kind_eq hstands, hkind]
    by_cases hnothing : place ++ rest = []
    · apply Job.answered_refused fun hready => htop hready (List.append_eq_nil_iff.mp hnothing).1
      intro replies
      dsimp only
      rw [hplace]
      dsimp only
      rw [hnow]
      exact if_pos hnothing
    · apply Served.attempted h.smooth
      apply Job.answered_served
      intro replies
      dsimp only
      rw [hplace]
      dsimp only
      rw [hnow]
      dsimp only
      rw [if_neg hnothing, if_pos hempty]
      rfl
  · apply Job.answered_refused (h.not_ready hkind hstands hlost)
    intro replies
    dsimp only
    rw [hlost]

end Acting

/-! ### Removals -/

/-- Everything in a directory goes before it. -/
def ContentsFirst (fs : FileSystem) (place : Path) : List Path → Prop :=
  Preceded fun before rest => ∀ other ∈ fs.subtree place rest, other ≠ rest → other ∈ before

def Frame.removal (path : Path) (frame : Frame) : RemovalFrame :=
  ⟨path ++ frame.rest, frame.stream path⟩

/-- What has been removed of a tree and what is left of it. -/
structure Leaving (fs : FileSystem) (place : Path) (frames : List Frame) (removed : List Path) :
    Prop where
  stacked : Stacked frames
  perm : (removed ++ fs.leaving place frames).Perm (fs.subtree place [])
  directories : ∀ frame ∈ frames, fs.kind (place ++ frame.rest) = some .directory
  last : ContentsFirst fs place removed

namespace Leaving

variable {fs : FileSystem} {place : Path} {frames : List Frame} {removed : List Path}
  {rest : Path} {name : String} {names : List String}

theorem start (hdirectory : fs.kind place = some .directory) :
    Leaving fs place [⟨[], fs.names place⟩] [] where
  stacked := .root (FileSystem.nodup_names place)
  perm := by
    have hall := @FileSystem.subtree_perm fs place []
    rw [List.append_nil] at hall
    rw [List.nil_append, FileSystem.leaving, List.flatMap_singleton]
    exact (List.perm_append_singleton _ _).trans hall.symm
  directories frame hframe := by
    rw [List.mem_singleton.mp hframe, List.append_nil]
    exact hdirectory
  last := Preceded.nil _

section

variable (h : Leaving fs place frames removed)

include h

theorem nodup : (removed ++ fs.leaving place frames).Nodup :=
  h.perm.nodup_iff.mpr (FileSystem.nodup_subtree place [])

theorem not_removed {other : Path} (hother : other ∈ fs.leaving place frames) : other ∉ removed :=
  fun hgone => List.disjoint_of_nodup_append h.nodup hgone hother

theorem root_not_removed (hframes : frames ≠ []) : [] ∉ removed := by
  obtain ⟨⟨rest, names⟩, frames, rfl⟩ := List.exists_cons_of_ne_nil hframes
  obtain ⟨frame, hframe, hroot⟩ := h.stacked.exists_of_prefix List.nil_prefix
  rw [← hroot]
  exact h.not_removed (FileSystem.mem_leaving_of_mem hframe)

/-- All that the file system has below the root is removed or left. -/
theorem removed_or_left {other : Path} (hother : fs.kind (place ++ other) ≠ none) :
    other ∈ removed ∨ other ∈ fs.leaving place frames := by
  apply List.mem_append.mp
  rw [h.perm.mem_iff, FileSystem.mem_subtree_iff]
  exact ⟨other, rfl, .inr (by rwa [List.append_nil])⟩

end

/-- Everything in a directory without further entries is gone. -/
theorem removed_of_prefix (h : Leaving fs place (⟨rest, []⟩ :: frames) removed) {other : Path}
    (hstart : rest <+: other) (hne : other ≠ rest) (hkind : fs.kind (place ++ other) ≠ none) :
    other ∈ removed := by
  rcases h.removed_or_left hkind with hgone | hleft
  · exact hgone
  · rw [FileSystem.leaving_ended] at hleft
    rcases List.mem_cons.mp hleft with hsame | hleft
    · exact absurd hsame hne
    · exact absurd hstart (h.stacked.apart hleft)

theorem close (h : Leaving fs place (⟨rest, []⟩ :: frames) removed) :
    Leaving fs place frames (removed ++ [rest]) where
  stacked := h.stacked.tail
  perm := by
    rw [List.append_assoc]
    exact h.perm
  directories frame hframe := h.directories frame (List.mem_cons_of_mem _ hframe)
  last := by
    apply h.last.concat
    intro other hother hne
    obtain ⟨more, rfl, hmore⟩ := FileSystem.mem_subtree_iff.mp hother
    rcases hmore with rfl | hmore
    · exact absurd (List.append_nil rest) hne
    · rw [List.append_assoc] at hmore
      exact h.removed_of_prefix (List.prefix_append _ _) hne hmore

section Entry

variable (h : Leaving fs place (⟨rest, name :: names⟩ :: frames) removed)

include h

theorem kind_ne_none : fs.kind (place ++ (rest ++ [name])) ≠ none := by
  have hmem := h.perm.mem_iff.mp (List.mem_append_right removed
    (FileSystem.mem_leaving_subtree List.mem_cons_self))
  obtain ⟨more, hsame, hmore⟩ := FileSystem.mem_subtree_iff.mp hmem
  rw [List.nil_append] at hsame
  rw [List.append_nil, ← hsame] at hmore
  exact hmore.resolve_left (by simp)

theorem leaf {kind : EntryKind} (hkind : fs.kind (place ++ (rest ++ [name])) = some kind)
    (hleaf : kind ≠ .directory) :
    Leaving fs place (⟨rest, names⟩ :: frames) (removed ++ [rest ++ [name]]) where
  stacked := h.stacked.pop
  perm := by
    have hperm := h.perm
    rw [FileSystem.leaving_leaf hkind hleaf] at hperm
    rwa [List.append_assoc, List.singleton_append]
  directories := by
    intro frame hframe
    rcases List.mem_cons.mp hframe with rfl | hframe
    · exact h.directories ⟨rest, name :: names⟩ List.mem_cons_self
    · exact h.directories frame (List.mem_cons_of_mem _ hframe)
  last := by
    apply h.last.concat
    intro other hother hne
    rw [FileSystem.subtree_leaf hkind hleaf, List.mem_singleton] at hother
    exact absurd hother hne

theorem directory (hkind : fs.kind (place ++ (rest ++ [name])) = some .directory) : Leaving fs place
      (⟨rest ++ [name], fs.names (place ++ (rest ++ [name]))⟩ :: ⟨rest, names⟩ :: frames)
      removed where
  stacked := h.stacked.push (FileSystem.nodup_names _)
  perm := ((FileSystem.leaving_directory rest name names frames).symm.append_left _).trans h.perm
  directories := by
    intro frame hframe
    rcases List.mem_cons.mp hframe with rfl | hframe
    · exact hkind
    · rcases List.mem_cons.mp hframe with rfl | hframe
      · exact h.directories ⟨rest, name :: names⟩ List.mem_cons_self
      · exact h.directories frame (List.mem_cons_of_mem _ hframe)
  last := h.last

theorem deep (hkind : fs.kind (place ++ (rest ++ [name])) = some .directory)
    (hdeep : RECURSIVE_DIRECTORY_DEPTH_LIMIT ≤ (rest ++ [name]).length) : fs.Deep place :=
  ⟨rest ++ [name], FileSystem.mem_below_iff.mpr ⟨by simp, h.kind_ne_none⟩, hkind, hdeep⟩

end Entry

end Leaving

/-- When a removal goes through: every request proceeds, the path leads to the root also when
nothing is left below it, the root is not the top, and no directory lies too deep. -/
structure Ready (target : Target) (fs : FileSystem) (path place : Path) (origin : World) :
    Prop where
  smooth : origin.Smooth
  stays : (fs.outside place).resolve target.links path = some place
  top : place ≠ []
  shallow : ¬ fs.Deep place

/-- What is left of a removal after some passes. -/
structure Removing (target : Target) (fs : FileSystem) (path place : Path) (origin : World)
    (frames : List Frame) (removed : List Path) (state : RemovalState) : Prop where
  leaving : Leaving fs place frames removed
  streams : state.1 = frames.map (Frame.removal path)
  lacks : state.2.fs.Lacks fs (removed.map (place ++ ·))
  log : state.2.removed = origin.removed ++ removed.map (place ++ ·)
  requests : state.2.replies ⊆ origin.replies

/-- What a removal has made of a tree. -/
structure Removes (fs : FileSystem) (place : Path) (ready : Prop) (origin : World)
    (removed : List Path) (result : Removal) : Prop where
  lacks : result.2.fs.Lacks fs (removed.map (place ++ ·))
  log : result.2.removed = origin.removed ++ removed.map (place ++ ·)
  once : removed.Nodup
  inside : removed ⊆ fs.subtree place []
  last : ContentsFirst fs place removed
  complete : result.1 = .returned () → removed.Perm (fs.subtree place [])
  succeeds : ready → result.1 = .returned ()

section Removing

variable {target : Target} {fs : FileSystem} {path place : Path} {origin : World}
  {frames : List Frame} {removed : List Path} {state : RemovalState}

theorem Removing.stops (h : Removing target fs path place origin frames removed state)
    {ready : Prop} {ending : Ending Unit} {replies : List Reply}
    (hcomplete : ending = .returned () → frames = []) (hready : ready → ending = .returned ()) :
    Removes fs place ready origin removed (ending, { state.2 with replies }) where
  lacks := h.lacks
  log := h.log
  once := h.leaving.nodup.of_append_left
  inside other hother := h.leaving.perm.mem_iff.mp (List.mem_append_left _ hother)
  last := h.leaving.last
  complete hending := by
    have hperm := h.leaving.perm
    rwa [hcomplete hending, FileSystem.leaving, List.flatMap_nil, List.append_nil] at hperm
  succeeds := hready

theorem not_mem_removed (place : Path) {other : Path} (h : other ∉ removed) :
    place ++ other ∉ removed.map (place ++ ·) := by
  intro hmem
  obtain ⟨same, hsame, heq⟩ := List.mem_map.mp hmem
  exact h (List.append_cancel_left heq ▸ hsame)

theorem Removing.acting (hopens : Opens target fs path place)
    (h : Removing target fs path place origin frames removed state) (hframes : frames ≠ []) :
    Acting target fs path place (Ready target fs path place origin) (removed.map (place ++ ·))
      state.2 where
  opens := hopens
  lacks := h.lacks
  standing := by
    have hroot := not_mem_removed place (h.leaving.root_not_removed hframes)
    rwa [List.append_nil] at hroot
  smooth hready reply hreply := hready.smooth reply (h.requests hreply)
  leads hready := by
    refine FileSystem.resolve_mono ?_ hready.stays
    intro entry hentry
    obtain ⟨hentry, hkept⟩ := List.mem_filter.mp hentry
    refine h.lacks.mem_iff.mpr ⟨hentry, fun hgone => ?_⟩
    obtain ⟨other, hother, hsame⟩ := List.mem_map.mp hgone
    refine of_decide_eq_true hkept ⟨⟨other, hsame⟩, fun hroot => ?_⟩
    rw [hroot] at hsame
    rw [List.append_right_eq_self.mp hsame] at hother
    exact h.leaving.root_not_removed hframes hother

theorem awaitRemoval_attempted {α : Type} {ready : Prop} {value : α} {world after : World}
    {job : Job α} {next : α → World → RemovalState ⊕ Removal}
    {P : RemovalState ⊕ Removal → Prop} (hjob : Attempted ready value world after (job world))
    (hreturned : ∀ replies, replies ⊆ world.replies → P (next value { after with replies }))
    (hstopped : ∀ ending replies, ¬ ready → ending ≠ .returned () →
      P (.inr (ending, { world with replies }))) : P (awaitRemoval job next world) := by
  unfold awaitRemoval
  generalize job world = result at hjob
  cases hjob with
  | returned replies h => exact hreturned replies h
  | failed failure replies h => exact hstopped (.failed failure) replies h (by simp)
  | suspended replies h => exact hstopped .suspended replies h (by simp)

/-- What a pass leaves: a removal that has come further, or its end. -/
def Passed (target : Target) (fs : FileSystem) (path place : Path) (origin : World)
    (frames : List Frame) (removed : List Path) : RemovalState ⊕ Removal → Prop
  | .inl later => ∃ frames' removed',
      Removing target fs path place origin frames' removed' later ∧
        2 * (fs.leaving place frames').length - frames'.length <
          2 * (fs.leaving place frames).length - frames.length
  | .inr result => Removes fs place (Ready target fs path place origin) origin removed result

/-- The world of a removal after requests that change nothing. -/
theorem Removing.with_replies (h : Removing target fs path place origin frames removed state)
    {replies : List Reply} (hreplies : replies ⊆ state.2.replies) :
    Removing target fs path place origin frames removed (state.1, { state.2 with replies }) where
  leaving := h.leaving
  streams := h.streams
  lacks := h.lacks
  log := h.log
  requests := List.Subset.trans hreplies h.requests

/-- A place is taken out after everything below it. -/
theorem Removing.remove (h : Removing target fs path place origin frames removed state)
    {rest : Path} (hempty : state.2.fs.Childless (place ++ rest)) {later : List Frame}
    (hleaving : Leaving fs place later (removed ++ [rest])) {replies : List Reply}
    (hreplies : replies ⊆ state.2.replies) :
    Removing target fs path place origin later (removed ++ [rest])
      (later.map (Frame.removal path), { state.2.remove (place ++ rest) with replies }) where
  leaving := hleaving
  streams := rfl
  lacks := by
    rw [List.map_append, List.map_singleton]
    exact h.lacks.erase hempty
  log := by
    rw [List.map_append, List.map_singleton, ← List.append_assoc, ← h.log]
    rfl
  requests := List.Subset.trans hreplies h.requests

/-- A directory all of whose entries have been taken out is empty. -/
theorem Removing.childless {rest : Path}
    (h : Removing target fs path place origin (⟨rest, []⟩ :: frames) removed state) :
    state.2.fs.Childless (place ++ rest) := by
  rw [FileSystem.childless_iff, List.eq_nil_iff_forall_not_mem]
  intro name hname
  obtain ⟨kind, hkind⟩ := Option.ne_none_iff_exists'.mp (FileSystem.mem_names_iff.mp hname)
  have hfirst := FileSystem.kind_mono h.lacks.subset hkind
  rw [List.append_assoc] at hkind hfirst
  have hgone : rest ++ [name] ∈ removed := by
    apply h.leaving.removed_of_prefix (List.prefix_append _ _) (by simp)
    rw [hfirst]
    simp
  rw [h.lacks.kind_gone (by simp) (List.mem_map_of_mem hgone)] at hkind
  cases hkind

theorem Removing.childless_leaf {rest : Path} {kind : EntryKind}
    (h : Removing target fs path place origin frames removed state)
    (hkind : fs.kind (place ++ rest) = some kind) (hleaf : kind ≠ .directory) :
    state.2.fs.Childless (place ++ rest) := by
  rw [FileSystem.childless_iff, List.eq_nil_iff_forall_not_mem]
  intro name hname
  have hparent := FileSystem.kind_mono h.lacks.subset
    (FileSystem.kind_parent (FileSystem.mem_names_iff.mp hname))
  rw [hkind] at hparent
  exact hleaf (Option.some.inj hparent)

/-- What lies in a directory that has not been opened is all there. -/
theorem Removing.names_eq {rest : Path} {name : String} {names : List String}
    (h : Removing target fs path place origin (⟨rest, name :: names⟩ :: frames) removed state) :
    state.2.fs.names (place ++ (rest ++ [name])) = fs.names (place ++ (rest ++ [name])) := by
  apply h.lacks.names_eq
  intro child hchild
  rw [List.append_assoc]
  apply not_mem_removed
  apply h.leaving.not_removed
  apply FileSystem.mem_leaving_subtree
  exact FileSystem.mem_subtree_iff.mpr ⟨[child], rfl, .inr hchild⟩

theorem awaitRemoval_depth {ready : Prop} {depth : ℕ}
    {next : Unit → World → RemovalState ⊕ Removal} {world : World}
    {P : RemovalState ⊕ Removal → Prop} (hready : ready → depth < RECURSIVE_DIRECTORY_DEPTH_LIMIT)
    (hnext : P (next () world)) (hstopped : ¬ ready → P (.inr (.failed .recursionLimit, world))) :
    P (awaitRemoval (requireRecursiveDirectoryDepth depth) next world) := by
  unfold awaitRemoval requireRecursiveDirectoryDepth
  by_cases hdepth : depth ≥ RECURSIVE_DIRECTORY_DEPTH_LIMIT
  · rw [if_pos hdepth]
    exact hstopped fun hnow => absurd hdepth (Nat.not_le_of_lt (hready hnow))
  · rw [if_neg hdepth]
    exact hnext

theorem removalBody_passed (hopens : Opens target fs path place)
    (h : Removing target fs path place origin frames removed state) :
    Passed target fs path place origin frames removed (removalBody target state) := by
  obtain ⟨stack, world⟩ := state
  obtain rfl : stack = frames.map (Frame.removal path) := h.streams
  have hstopped : ∀ ending replies, ¬ Ready target fs path place origin →
      ending ≠ .returned () →
        Passed target fs path place origin frames removed (.inr (ending, { world with replies })) :=
    fun ending replies hready hending =>
      h.stops (fun hreturned => absurd hreturned hending) (fun hnow => absurd hnow hready)
  cases frames with
  | nil => exact h.stops (fun _ => rfl) (fun _ => rfl)
  | cons frame frames =>
    obtain ⟨rest, names⟩ := frame
    have hacting : ∀ replies, replies ⊆ world.replies → Acting target fs path place
        (Ready target fs path place origin) (removed.map (place ++ ·)) { world with replies } :=
      fun replies hreplies => (h.with_replies hreplies).acting hopens (by simp)
    have hsmooth := (hacting world.replies (List.Subset.refl _)).smooth
    have hcount := FileSystem.length_le_leaving fs place frames
    rw [List.map_cons, removalBody]
    cases names with
    | nil =>
      have hkind := h.leaving.directories ⟨rest, []⟩ List.mem_cons_self
      have hstands : place ++ rest ∉ removed.map (place ++ ·) :=
        not_mem_removed place (h.leaving.not_removed List.mem_cons_self)
      apply awaitRemoval_attempted ((next_served_end target _ world).attempted hsmooth) ?_ hstopped
      intro replies hreplies
      apply awaitRemoval_attempted ((hacting replies hreplies).removeDir_attempted hkind hstands rfl
        h.childless Ready.top) ?_ hstopped
      intro later hlater
      refine ⟨frames, removed ++ [rest],
        h.remove h.childless h.leaving.close (List.Subset.trans hlater hreplies), ?_⟩
      rw [FileSystem.leaving_ended, List.length_cons, List.length_cons]
      omega
    | cons name names =>
      obtain ⟨kind, hkind⟩ := Option.ne_none_iff_exists'.mp h.leaving.kind_ne_none
      have hpath : path ++ rest ++ [name] = path ++ (rest ++ [name]) := List.append_assoc _ _ _
      have hstands : place ++ (rest ++ [name]) ∉ removed.map (place ++ ·) :=
        not_mem_removed place (h.leaving.not_removed
          (FileSystem.mem_leaving_subtree List.mem_cons_self))
      apply awaitRemoval_attempted ((next_served target _ name names world).attempted hsmooth) ?_
        hstopped
      intro replies hreplies
      dsimp only
      rw [hpath]
      apply awaitRemoval_attempted
        ((hacting replies hreplies).symlinkMetadata_attempted hkind hstands) ?_ hstopped
      intro replies hreplies'
      have hreplies := List.Subset.trans hreplies' hreplies
      dsimp only
      by_cases hdirectory : kind = .directory
      · subst hdirectory
        rw [if_pos (by rfl)]
        have hdepth : (RemovalFrame.mk (path ++ rest) ⟨path ++ rest, names⟩ ::
            frames.map (Frame.removal path)).length = (rest ++ [name]).length := by
          rw [List.length_append, h.leaving.stacked.length_rest, List.length_cons, List.length_map]
          rfl
        apply @awaitRemoval_depth (Ready target fs path place origin)
        · intro hready
          apply Nat.lt_of_not_le
          intro hdeep
          exact hready.shallow (h.leaving.deep hkind (hdepth ▸ hdeep))
        · apply awaitRemoval_attempted
            ((hacting replies hreplies).readDir_attempted hkind hstands rfl h.names_eq) ?_ hstopped
          intro later hlater
          refine ⟨_, removed, ⟨h.leaving.directory hkind, rfl, h.lacks, h.log,
            List.Subset.trans (List.Subset.trans hlater hreplies) h.requests⟩, ?_⟩
          have hsame := (@FileSystem.leaving_directory fs place rest name names frames).length_eq
          have hopen := FileSystem.length_le_leaving fs place
            (⟨rest ++ [name], fs.names (place ++ (rest ++ [name]))⟩ :: ⟨rest, names⟩ :: frames)
          rw [hsame]
          rw [List.length_cons] at hopen ⊢
          rw [List.length_cons] at hopen ⊢
          rw [List.length_cons]
          omega
        · exact fun hready => hstopped _ replies hready (by simp)
      · have hother : ¬ (Metadata.mk kind.fileType).isDirectory = true := by
          rw [Metadata.isDirectory, decide_eq_true_eq, EntryKind.fileType_eq_directory_iff]
          exact hdirectory
        rw [if_neg hother]
        apply awaitRemoval_attempted
          ((hacting replies hreplies).removeFile_attempted hkind hstands hdirectory) ?_ hstopped
        intro later hlater
        refine ⟨⟨rest, names⟩ :: frames, removed ++ [rest ++ [name]],
          h.remove (h.childless_leaf hkind hdirectory) (h.leaving.leaf hkind hdirectory)
            (List.Subset.trans hlater hreplies), ?_⟩
        have hopen := FileSystem.length_le_leaving fs place (⟨rest, names⟩ :: frames)
        rw [FileSystem.leaving_leaf hkind hdirectory, List.length_cons]
        rw [List.length_cons] at hopen ⊢
        rw [List.length_cons]
        omega

theorem Removing.counts (h : Removing target fs path place origin frames removed state) :
    state.1.length = frames.length ∧
      (fs.subtree place []).length + origin.removed.length - state.2.removed.length =
        (fs.leaving place frames).length := by
  have hall := h.leaving.perm.length_eq
  rw [List.length_append] at hall
  rw [h.streams, h.log, List.length_map, List.length_append, List.length_map]
  refine ⟨rfl, ?_⟩
  omega

theorem within_removes (hopens : Opens target fs path place)
    (h : Removing target fs path place origin frames removed state) :
    ∃ passes result, Loop.within (removalBody target) passes state = some result ∧
      ∃ removed, Removes fs place (Ready target fs path place origin) origin removed result := by
  refine ⟨_, Loop.within_spec
    (P := fun state => ∃ frames removed, Removing target fs path place origin frames removed state)
    (fun state => 2 * ((fs.subtree place []).length + origin.removed.length -
      state.2.removed.length) - state.1.length) ?_ ?_ ⟨frames, removed, h⟩ (Nat.lt_succ_self _)⟩
  · rintro state later ⟨frames, removed, hremoving⟩ hlater
    have hpassed := removalBody_passed hopens hremoving
    rw [hlater] at hpassed
    obtain ⟨frames', removed', hafter, hless⟩ := hpassed
    obtain ⟨hframes, hleft⟩ := hremoving.counts
    obtain ⟨hframes', hleft'⟩ := hafter.counts
    refine ⟨⟨frames', removed', hafter⟩, ?_⟩
    rwa [hframes, hleft, hframes', hleft']
  · rintro state result ⟨frames, removed, hremoving⟩ hresult
    have hpassed := removalBody_passed hopens hremoving
    rw [hresult] at hpassed
    exact ⟨removed, hpassed⟩

/-- A removal comes to an end, whatever becomes of its requests. -/
theorem removeTree_removes (hopens : Opens target fs path place) (hworld : origin.fs = fs) :
    ∃ passes result removed,
      (∀ more, passes ≤ more → removeTree target more path origin = some result) ∧
      Removes fs place (Ready target fs path place origin) origin removed result := by
  have hlacks : origin.fs.Lacks fs [] := by
    rw [FileSystem.Lacks, hworld]
    exact (List.filter_eq_self.mpr fun _ _ => by simp).symm
  have hnothing : ∀ ending replies, ¬ Ready target fs path place origin → ending ≠ .returned () →
      Removes fs place (Ready target fs path place origin) origin []
        (ending, { origin with replies }) := by
    intro ending replies hready hending
    exact ⟨hlacks, (List.append_nil _).symm, List.nodup_nil, List.nil_subset _, Preceded.nil _,
      fun h => absurd h hending, fun h => absurd h hready⟩
  have hrough : ∀ {replies}, replies ⊆ origin.replies → ¬ World.Smooth { origin with replies } →
      ¬ Ready target fs path place origin :=
    fun hreplies h hready => h (hready.smooth.of_subset hreplies)
  have hmetadata := @symlinkMetadata_served target fs path place hopens origin hworld [] .directory
  have hroot := fun replies => @readDir_served target fs path place hopens
    { origin with replies } hworld []
  rw [List.append_nil, List.append_nil] at hmetadata
  simp only [List.append_nil] at hroot
  specialize hmetadata hopens.directory
  unfold removeTree
  generalize symlinkMetadata target path origin = metadata at hmetadata
  cases hmetadata with
  | failed replies h =>
    exact ⟨0, _, [], fun _ _ => rfl, hnothing _ _ (fun hready => h hready.smooth) (by simp)⟩
  | suspended replies h =>
    exact ⟨0, _, [], fun _ _ => rfl, hnothing _ _ (fun hready => h hready.smooth) (by simp)⟩
  | returned replies hreplies =>
    have hopened := hroot replies hopens.directory
    have hdirectory : (!(Metadata.mk EntryKind.directory.fileType).isDirectory) = false := rfl
    simp only [hdirectory, Bool.false_eq_true, if_false]
    generalize readDir target path { origin with replies } = opened at hopened
    cases hopened with
    | failed later h =>
      exact ⟨0, _, [], fun _ _ => rfl, hnothing _ _ (hrough hreplies h) (by simp)⟩
    | suspended later h =>
      exact ⟨0, _, [], fun _ _ => rfl, hnothing _ _ (hrough hreplies h) (by simp)⟩
    | returned later hlater =>
      have hstart : Removing target fs path place origin [⟨[], fs.names place⟩] []
          ([⟨path, ⟨path, fs.names place⟩⟩], { origin with replies := later }) := by
        refine ⟨Leaving.start hopens.directory, ?_, hlacks, (List.append_nil _).symm,
          List.Subset.trans hlater hreplies⟩
        rw [List.map_singleton, Frame.removal, Frame.stream, List.append_nil]
      obtain ⟨passes, result, hresult, removed, hremoves⟩ := within_removes hopens hstart
      exact ⟨passes, result, removed, fun more hmore => Loop.within_mono hresult hmore, hremoves⟩

end Removing

/-! ### Walks and removals of a tree -/

instance (fs : FileSystem) (place : Path) : Decidable (fs.Deep place) :=
  inferInstanceAs (Decidable (∃ rest ∈ fs.below place,
    fs.kind (place ++ rest) = some .directory ∧ RECURSIVE_DIRECTORY_DEPTH_LIMIT ≤ rest.length))

theorem Walks.fails_iff {fs : FileSystem} {place path : Path} {world : World} {rests : List Path}
    {walked : Walked} (h : Walks fs place path world rests walked) (hsmooth : world.Smooth) :
    (∃ failure, walked.ending = .failed failure) ↔ fs.Deep place := by
  rcases h.smooth hsmooth with hreturned | hlimited
  · rw [hreturned]
    constructor
    · rintro ⟨failure, hfailed⟩
      cases hfailed
    · exact fun hdeep => absurd hdeep (h.complete hreturned).2
  · exact ⟨fun _ => h.limited hlimited, fun _ => ⟨_, hlimited⟩⟩

theorem Removes.entries {fs : FileSystem} {place : Path} {ready : Prop} {origin : World}
    {removed : List Path} {result : Removal} (h : Removes fs place ready origin removed result)
    (hreturned : result.1 = .returned ()) :
    result.2.fs.entries = fs.entries.filter fun entry => ¬ place <+: entry.1 := by
  rw [h.lacks]
  apply List.filter_congr
  intro entry hentry
  rw [decide_eq_decide, not_iff_not, List.mem_map]
  constructor
  · rintro ⟨rest, _, hsame⟩
    exact ⟨rest, hsame⟩
  · rintro ⟨rest, hsame⟩
    refine ⟨rest, (h.complete hreturned).mem_iff.mpr ?_, hsame⟩
    refine FileSystem.mem_subtree_iff.mpr ⟨rest, rfl, .inr ?_⟩
    rw [List.append_nil, hsame, (FileSystem.mem_entries_iff.mp hentry).2]
    simp

/-- Both forms of a walk come to the same end, which is a failure exactly where a directory lies
too deep, if all requests proceed. -/
def WalksExactly (target : Target) (path place : Path) (world : World) : Prop :=
  ∃ calls walked rests,
    (∀ more, calls ≤ more →
      walkAll (walkDir target path) (nextWalkEntry target) more world = some walked ∧
        walkAll (walkDirBlocking target path) (nextBlockingWalkEntry target) more world =
          some walked) ∧
      Walks world.fs place path world rests walked ∧
        (world.Smooth → ((∃ failure, walked.ending = .failed failure) ↔ world.fs.Deep place))

/-- Both forms of a removal come to the same end, after which nothing but the tree is gone, and the
whole tree if the removal succeeds. -/
def RemovesExactly (target : Target) (path place : Path) (world : World) : Prop :=
  ∃ passes result removed,
    (∀ more, passes ≤ more → removeDirAll target more path world = some result ∧
      removeDirAllBlocking target more path world = some result) ∧
      Removes world.fs place (Ready target world.fs path place world) world removed result ∧
        (result.1 = .returned () →
          result.2.fs.entries = world.fs.entries.filter fun entry => ¬ place <+: entry.1)

/-- Of every file system, with every failure of a request and every dropped call: a walk yields
what lies below its root, each entry once and every directory before what lies in it, and fails
exactly where some directory lies too deep; a removal takes out the places of the tree and no
others, every directory after what lies in it, and all of them where it is `Ready`. -/
theorem directory_trees_exact (target : Target) (path place : Path) (world : World)
    (hopens : Opens target world.fs path place) :
    WalksExactly target path place world ∧ RemovesExactly target path place world := by
  constructor
  · obtain ⟨calls, walked, rests, hwalked, hwalks⟩ := @walkAll_walks _ WalkDirState.states target
      world.fs path place world (walkDir target path) (nextWalkEntry target) rfl (fun _ _ => rfl)
      hopens rfl
    refine ⟨calls, walked, rests, fun more hmore => ⟨hwalked more hmore, ?_⟩, hwalks,
      hwalks.fails_iff⟩
    rw [walkAll_eq]
    exact hwalked more hmore
  · obtain ⟨passes, result, removed, hresult, hremoves⟩ := removeTree_removes hopens rfl
    exact ⟨passes, result, removed, fun more hmore => ⟨hresult more hmore, hresult more hmore⟩,
      hremoves, hremoves.entries⟩

/-- A target with a common number of links, whose records give no types. -/
def plainTarget : Target := ⟨32, fun _ => .other⟩

/-- A directory `t` with a file, a directory and a link to the directory `o` beside it. -/
def linkedTree : FileSystem where
  entries := [(["t"], .directory), (["t", "d"], .directory), (["t", "d", "x"], .regular),
    (["t", "l"], .symlink ["o"]), (["o"], .directory), (["o", "y"], .regular)]
  distinct := by decide
  rooted := by decide

theorem linked_tree_exact :
    Ready plainTarget linkedTree ["t"] ["t"] ⟨linkedTree, [], []⟩ ∧
      WalksExactly plainTarget ["t"] ["t"] ⟨linkedTree, [], []⟩ ∧
        RemovesExactly plainTarget ["t"] ["t"] ⟨linkedTree, [], []⟩ :=
  ⟨⟨fun _ hreply => absurd hreply List.not_mem_nil, by decide, by decide, by decide⟩,
    directory_trees_exact plainTarget ["t"] ["t"] ⟨linkedTree, [], []⟩ ⟨by decide, by decide⟩⟩

theorem removeTree_mono {target : Target} {passes more : ℕ} {path : Path} {world : World}
    {result : Removal} (h : removeTree target passes path world = some result)
    (hmore : passes ≤ more) : removeTree target more path world = some result := by
  unfold removeTree at h ⊢
  generalize symlinkMetadata target path world = asked at h ⊢
  obtain ⟨ending, after⟩ := asked
  cases ending with
  | failed failure => exact h
  | suspended => exact h
  | returned metadata =>
    dsimp only at h ⊢
    split
    · next hother => rwa [if_pos hother] at h
    · next hdirectory =>
      rw [if_neg hdirectory] at h
      generalize readDir target path after = asked at h ⊢
      obtain ⟨ending, opened⟩ := asked
      cases ending with
      | failed failure => exact h
      | suspended => exact h
      | returned stream => exact Loop.within_mono h hmore

/-- A directory `t` with a link to the top of the file system and a file. -/
def loopedTree : FileSystem where
  entries := [(["t"], .directory), (["t", "l"], .symlink []), (["t", "x"], .regular)]
  distinct := by decide
  rooted := by decide

/-- The path `t/l/t` leads to `t` through the link in it, and no longer when the link is gone; and
the top of a file system is not removed. -/
theorem looped_tree_left :
    (Opens plainTarget loopedTree ["t", "l", "t"] ["t"] ∧ ¬ loopedTree.Deep ["t"] ∧
      ∃ world, (["t", "x"], EntryKind.regular) ∈ world.fs.entries ∧ ∀ more, 10 ≤ more →
        removeDirAll plainTarget more ["t", "l", "t"] ⟨loopedTree, [], []⟩ =
          some (.failed .notFound, world)) ∧
    (Opens plainTarget loopedTree [] [] ∧ ¬ loopedTree.Deep [] ∧
      ∃ world, ∀ more, 10 ≤ more →
        removeDirAll plainTarget more [] ⟨loopedTree, [], []⟩ = some (.failed .busy, world)) := by
  have hlooped : ∃ world, (["t", "x"], EntryKind.regular) ∈ world.fs.entries ∧
      removeTree plainTarget 10 ["t", "l", "t"] ⟨loopedTree, [], []⟩ =
        some (.failed .notFound, world) := ⟨_, by decide, rfl⟩
  have htop : ∃ world, removeTree plainTarget 10 [] ⟨loopedTree, [], []⟩ =
      some (.failed .busy, world) := ⟨_, rfl⟩
  obtain ⟨world, hleft, hlooped⟩ := hlooped
  obtain ⟨world', htop⟩ := htop
  exact ⟨⟨⟨by decide, by decide⟩, by decide, world, hleft,
      fun more hmore => removeTree_mono hlooped hmore⟩,
    ⟨by decide, by decide⟩, by decide, world', fun more hmore => removeTree_mono htop hmore⟩

end Nocter.Fs
