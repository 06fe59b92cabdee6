import Nocter.Library.Loop
import Nocter.Fs.FileSystem

/-!
# Recursive traversal

The functions that walk and remove directory trees ask the target for one thing after another;
each request is done, fails, or leaves its call waiting until it is dropped. Both forms of a
function make the same requests and differ in what a walk is left with.
-/

namespace Nocter.Fs

inductive Reply where
  | proceeds
  | fails
  | suspends
  deriving DecidableEq, Repr

/-- The file system with the replies to the next requests, after which all of them proceed, and
the places that have been removed. -/
structure World where
  fs : FileSystem
  replies : List Reply
  removed : List Path

/-- What the target decides: how many links a lookup follows, and the types in the records of its
directories. -/
structure Target where
  links : ℕ
  recordType : Path → FileType

inductive Failure where
  | recursionLimit
  | closed
  | notDirectory
  | notFound
  | isDirectory
  | directoryNotEmpty
  | busy
  | target
  deriving DecidableEq, Repr

/-- Code and message of the failures that the functions construct themselves. -/
def Failure.report : Failure → Option (String × String)
  | .recursionLimit =>
    some ("std.fs.recursion_limit", "recursive directory depth exceeds the supported limit")
  | .closed => some ("std.io.closed", "I/O stream is closed")
  | .notDirectory => some ("std.io.not_directory", "path is not a directory")
  | _ => none

/-- How a call ends; a call that is suspended is dropped where it waits. -/
inductive Ending (α : Type) where
  | returned (value : α)
  | failed (failure : Failure)
  | suspended
  deriving DecidableEq, Repr

abbrev Job (α : Type) := World → Ending α × World

namespace Job

variable {α β : Type}

/-- A request, if the target does it. -/
def answered (request : Job α) : Job α := fun world =>
  match world.replies with
  | [] => request world
  | .proceeds :: replies => request { world with replies }
  | .fails :: replies => (.failed .target, { world with replies })
  | .suspends :: replies => (.suspended, { world with replies })

def bind (job : Job α) (next : α → Job β) : Job β := fun world =>
  match job world with
  | (.returned value, world) => next value world
  | (.failed failure, world) => (.failed failure, world)
  | (.suspended, world) => (.suspended, world)

end Job

structure Metadata where
  fileType : FileType
  deriving DecidableEq, Repr

def Metadata.isDirectory (metadata : Metadata) : Bool := metadata.fileType = .directory

structure DirEntry where
  fileName : String
  path : Path
  fileType : FileType
  deriving DecidableEq, Repr

def DirEntry.withFileType (entry : DirEntry) (fileType : FileType) : DirEntry :=
  { entry with fileType }

/-- An open directory stream has the entries that the directory had when it was opened. -/
structure ReadDir where
  base : Path
  remaining : List String
  deriving DecidableEq, Repr

def RECURSIVE_DIRECTORY_DEPTH_LIMIT : ℕ := 256

def requireRecursiveDirectoryDepth (depth : ℕ) : Job Unit := fun world =>
  if depth ≥ RECURSIVE_DIRECTORY_DEPTH_LIMIT then (.failed .recursionLimit, world)
  else (.returned (), world)

section Requests

variable (target : Target)

def symlinkMetadata (path : Path) : Job Metadata :=
  Job.answered fun world =>
    match (world.fs.resolve target.links path).bind world.fs.kind with
    | none => (.failed .notFound, world)
    | some kind => (.returned ⟨kind.fileType⟩, world)

def readDir (path : Path) : Job ReadDir :=
  Job.answered fun world =>
    match world.fs.resolve target.links path with
    | none => (.failed .notFound, world)
    | some place =>
      match world.fs.kind place with
      | none => (.failed .notFound, world)
      | some .directory => (.returned ⟨path, world.fs.names place⟩, world)
      | some _ => (.failed .notDirectory, world)

def ReadDir.next (stream : ReadDir) : Job (Option (DirEntry × ReadDir)) :=
  Job.answered fun world =>
    match stream.remaining with
    | [] => (.returned none, world)
    | name :: remaining =>
      let path := stream.base ++ [name]
      (.returned (some (⟨name, path, target.recordType path⟩, { stream with remaining })), world)

end Requests

/-- What a call of a walk leaves. -/
structure WalkStep (σ : Type) where
  state : σ
  ending : Ending (Option DirEntry)
  world : World

/-- The states of a walk: with its streams, the last one first, at its end, and after a dropped
call. -/
structure WalkStates (σ : Type) where
  active : List ReadDir → σ
  finished : σ
  dropped : σ

section Walk

variable {σ : Type} (target : Target) (states : WalkStates σ)

def WalkStates.await {α : Type} (job : Job α) (next : α → World → WalkStep σ) (world : World) :
    WalkStep σ :=
  match job world with
  | (.returned value, world) => next value world
  | (.failed failure, world) => ⟨states.finished, .failed failure, world⟩
  | (.suspended, world) => ⟨states.dropped, .suspended, world⟩

/-- The loop of a step: streams that have ended are dropped. -/
def walkLoop : List ReadDir → World → WalkStep σ
  | [], world => ⟨states.finished, .returned none, world⟩
  | stream :: streams, world =>
    states.await (stream.next target) (fun
      | none => walkLoop streams
      | some (entry, stream) =>
        states.await (symlinkMetadata target entry.path) fun details =>
          let result := entry.withFileType details.fileType
          if details.isDirectory then
            states.await (requireRecursiveDirectoryDepth (stream :: streams).length) fun _ =>
              states.await (readDir target result.path) fun child world =>
                ⟨states.active (child :: stream :: streams), .returned (some result), world⟩
          else fun world =>
            ⟨states.active (stream :: streams), .returned (some result), world⟩) world

end Walk

inductive WalkDirState where
  | active (streams : List ReadDir)
  | finished
  | terminal
  deriving DecidableEq, Repr

inductive BlockingWalkDirState where
  | active (streams : List ReadDir)
  | finished
  deriving DecidableEq, Repr

/-- A dropped step has taken the streams with it. -/
def WalkDirState.states : WalkStates WalkDirState := ⟨.active, .finished, .terminal⟩

def BlockingWalkDirState.states : WalkStates BlockingWalkDirState := ⟨.active, .finished, .finished⟩

section Functions

variable (target : Target)

def walkDir (path : Path) : Job WalkDirState :=
  (readDir target path).bind fun root world => (.returned (.active [root]), world)

def walkDirBlocking (path : Path) : Job BlockingWalkDirState :=
  (readDir target path).bind fun root world => (.returned (.active [root]), world)

def nextWalkEntry : WalkDirState → World → WalkStep WalkDirState
  | .active streams, world => walkLoop target WalkDirState.states streams world
  | .finished, world => ⟨.finished, .returned none, world⟩
  | .terminal, world => ⟨.terminal, .failed .closed, world⟩

def nextBlockingWalkEntry : BlockingWalkDirState → World → WalkStep BlockingWalkDirState
  | .active streams, world => walkLoop target BlockingWalkDirState.states streams world
  | .finished, world => ⟨.finished, .returned none, world⟩

end Functions

/-- What a walk has yielded when a call of it does not yield another entry. -/
structure Walked where
  entries : List DirEntry
  ending : Ending Unit
  world : World

/-- One more call of a walk. -/
def walkBody {σ : Type} (next : σ → World → WalkStep σ) :
    σ × List DirEntry × World → (σ × List DirEntry × World) ⊕ Walked
  | (state, entries, world) =>
    match next state world with
    | ⟨state, .returned (some entry), world⟩ => .inl (state, entries ++ [entry], world)
    | ⟨_, .returned none, world⟩ => .inr ⟨entries, .returned (), world⟩
    | ⟨_, .failed failure, world⟩ => .inr ⟨entries, .failed failure, world⟩
    | ⟨_, .suspended, world⟩ => .inr ⟨entries, .suspended, world⟩

/-- A walk from its opening to its end, within so many calls. -/
def walkAll {σ : Type} (opening : Job σ) (next : σ → World → WalkStep σ) (calls : ℕ)
    (world : World) : Option Walked :=
  match opening world with
  | (.returned state, world) => Loop.within (walkBody next) calls (state, [], world)
  | (.failed failure, world) => some ⟨[], .failed failure, world⟩
  | (.suspended, world) => some ⟨[], .suspended, world⟩

/-! ### Requests -/

/-- All requests proceed. -/
def World.Smooth (world : World) : Prop := ∀ reply ∈ world.replies, reply = .proceeds

/-- What comes of a request that gives a value and leaves a world behind, if the target does it. -/
inductive Served {α : Type} (value : α) (world after : World) : Ending α × World → Prop
  | returned (replies : List Reply) (h : replies ⊆ world.replies) :
      Served value world after (.returned value, { after with replies })
  | failed (replies : List Reply) (h : ¬ world.Smooth) :
      Served value world after (.failed .target, { world with replies })
  | suspended (replies : List Reply) (h : ¬ world.Smooth) :
      Served value world after (.suspended, { world with replies })

theorem Job.answered_served {α : Type} {request : Job α} {value : α} {world after : World}
    (h : ∀ replies, request { world with replies } = (.returned value, { after with replies })) :
    Served value world after (Job.answered request world) := by
  obtain ⟨fs, replies, removed⟩ := world
  cases replies with
  | nil =>
    have hnow : Job.answered request ⟨fs, [], removed⟩ =
        (.returned value, { after with replies := [] }) := h []
    rw [hnow]
    exact .returned [] (fun _ => id)
  | cons reply replies =>
    cases reply with
    | proceeds =>
      have hnow : Job.answered request ⟨fs, .proceeds :: replies, removed⟩ =
          (.returned value, { after with replies }) := h replies
      rw [hnow]
      exact .returned replies (List.subset_cons_self _ _)
    | fails => exact .failed replies fun h => by cases h .fails List.mem_cons_self
    | suspends => exact .suspended replies fun h => by cases h .suspends List.mem_cons_self

theorem World.Smooth.of_subset {world : World} (h : world.Smooth) {replies : List Reply}
    (hsub : replies ⊆ world.replies) : World.Smooth { world with replies } :=
  fun reply hreply => h reply (hsub hreply)

/-! ### Stacks of directories -/

/-- An open directory below the root, with the entries it has still to give. -/
structure Frame where
  rest : Path
  names : List String

/-- Each directory stands in the one under it, which gives its name no more. -/
inductive Stacked : List Frame → Prop
  | empty : Stacked []
  | root {names : List String} (h : names.Nodup) : Stacked [⟨[], names⟩]
  | inside {rest : Path} {name : String} {names inner : List String} {frames : List Frame}
      (h : Stacked (⟨rest, names⟩ :: frames)) (hname : name ∉ names) (hinner : inner.Nodup) :
      Stacked (⟨rest ++ [name], inner⟩ :: ⟨rest, names⟩ :: frames)

namespace Stacked

variable {frame : Frame} {frames : List Frame} {rest : Path} {name : String} {names : List String}

theorem tail (h : Stacked (frame :: frames)) : Stacked frames := by
  cases h with
  | root _ => exact .empty
  | inside h _ _ => exact h

theorem nodup (h : Stacked (⟨rest, names⟩ :: frames)) : names.Nodup := by
  cases h with
  | root h => exact h
  | inside _ _ h => exact h

theorem pop (h : Stacked (⟨rest, name :: names⟩ :: frames)) :
    Stacked (⟨rest, names⟩ :: frames) := by
  cases h with
  | root h => exact .root (List.nodup_cons.mp h).2
  | inside h hname hinner => exact .inside h hname (List.nodup_cons.mp hinner).2

theorem push (h : Stacked (⟨rest, name :: names⟩ :: frames)) {inner : List String}
    (hinner : inner.Nodup) : Stacked (⟨rest ++ [name], inner⟩ :: ⟨rest, names⟩ :: frames) :=
  .inside h.pop (List.nodup_cons.mp h.nodup).1 hinner

/-- There are as many directories under one as it lies deep. -/
theorem length_rest (h : Stacked (⟨rest, names⟩ :: frames)) : rest.length = frames.length := by
  generalize hstack : Frame.mk rest names :: frames = stack at h
  induction h generalizing rest names frames with
  | empty => cases hstack
  | root _ =>
    cases hstack
    rfl
  | inside _ _ _ ih =>
    cases hstack
    rw [List.length_append, ih rfl]
    rfl

/-- The directories above one are those it stands on. -/
theorem exists_of_prefix (h : Stacked (⟨rest, names⟩ :: frames)) {directory : Path}
    (hstart : directory <+: rest) :
    ∃ frame ∈ Frame.mk rest names :: frames, frame.rest = directory := by
  generalize hstack : Frame.mk rest names :: frames = stack at h
  induction h generalizing rest names frames with
  | empty => cases hstack
  | root _ =>
    cases hstack
    exact ⟨_, List.mem_cons_self, (List.prefix_nil.mp hstart).symm⟩
  | inside _ _ _ ih =>
    cases hstack
    rcases List.prefix_concat_iff.mp hstart with hsame | hstart
    · exact ⟨_, List.mem_cons_self, hsame.symm⟩
    · obtain ⟨frame, hframe, hdirectory⟩ := ih hstart rfl
      exact ⟨frame, List.mem_cons_of_mem _ hframe, hdirectory⟩

end Stacked

/-- Every path of a list with those before it. -/
def Preceded (P : List Path → Path → Prop) (rests : List Path) : Prop :=
  ∀ before rest, before ++ [rest] <+: rests → P before rest

theorem Preceded.nil (P : List Path → Path → Prop) : Preceded P [] := by
  intro before rest h
  exact absurd (List.prefix_nil.mp h) (by simp)

theorem Preceded.concat {P : List Path → Path → Prop} {rests : List Path} (h : Preceded P rests)
    {rest : Path} (hrest : P rests rest) : Preceded P (rests ++ [rest]) := by
  intro before last hlast
  rcases List.prefix_concat_iff.mp hlast with hsame | hstart
  · obtain ⟨rfl, hend⟩ := List.append_inj' hsame rfl
    rwa [List.singleton_inj.mp hend]
  · exact h before last hstart

namespace FileSystem

variable (fs : FileSystem) (place : Path)

/-- What is still to come of the entries of open directories. -/
def pending (frames : List Frame) : List Path :=
  frames.flatMap fun frame =>
    frame.names.flatMap fun name => fs.subtree place (frame.rest ++ [name])

/-- Some directory lies too deep. -/
def Deep : Prop :=
  ∃ rest ∈ fs.below place,
    fs.kind (place ++ rest) = some .directory ∧ RECURSIVE_DIRECTORY_DEPTH_LIMIT ≤ rest.length

variable {fs place}

theorem pending_cons (rest : Path) (name : String) (names : List String) (frames : List Frame) :
    fs.pending place (⟨rest, name :: names⟩ :: frames) =
      fs.subtree place (rest ++ [name]) ++ fs.pending place (⟨rest, names⟩ :: frames) := by
  rw [pending, pending, List.flatMap_cons, List.flatMap_cons, List.flatMap_cons, List.append_assoc]

/-- The next entry is one thing and what lies in it another. -/
theorem pending_directory (rest : Path) (name : String) (names : List String)
    (frames : List Frame) :
    (fs.pending place (⟨rest, name :: names⟩ :: frames)).Perm ((rest ++ [name]) ::
      fs.pending place (⟨rest ++ [name], fs.names (place ++ (rest ++ [name]))⟩ ::
        ⟨rest, names⟩ :: frames)) := by
  rw [pending_cons]
  exact (subtree_perm place (rest ++ [name])).append_right _

theorem pending_leaf {rest : Path} {name : String} {names : List String} {frames : List Frame}
    {kind : EntryKind} (hkind : fs.kind (place ++ (rest ++ [name])) = some kind)
    (hleaf : kind ≠ .directory) : fs.pending place (⟨rest, name :: names⟩ :: frames) =
      (rest ++ [name]) :: fs.pending place (⟨rest, names⟩ :: frames) := by
  rw [pending_cons, subtree_leaf hkind hleaf]
  rfl

theorem mem_pending (rest : Path) (name : String) (names : List String) (frames : List Frame) :
    rest ++ [name] ∈ fs.pending place (⟨rest, name :: names⟩ :: frames) := by
  rw [pending_cons]
  exact List.mem_append_left _ List.mem_cons_self

/-- The entry that a walk yields for a place below its root. -/
def entryAt (fs : FileSystem) (place path rest : Path) : DirEntry where
  fileName := rest.getLast?.getD ""
  path := path ++ rest
  fileType := ((fs.kind (place ++ rest)).map EntryKind.fileType).getD .other

end FileSystem

/-! ### Walks -/

/-- A path leads to a directory. -/
structure Opens (target : Target) (fs : FileSystem) (path place : Path) : Prop where
  leads : fs.resolve target.links path = some place
  directory : fs.kind place = some .directory

section Served

variable {target : Target} {fs : FileSystem} {path place : Path} (h : Opens target fs path place)
  (world : World) (hworld : world.fs = fs)

include h hworld

theorem symlinkMetadata_served {rest : Path} {kind : EntryKind}
    (hkind : fs.kind (place ++ rest) = some kind) :
    Served ⟨kind.fileType⟩ world world (symlinkMetadata target (path ++ rest) world) := by
  apply Job.answered_served
  intro replies
  have hplace : world.fs.resolve target.links (path ++ rest) = some (place ++ rest) := by
    rw [hworld]
    exact FileSystem.resolve_below h.leads h.directory (by rw [hkind]; simp)
  have hfound : (world.fs.resolve target.links (path ++ rest)).bind world.fs.kind = some kind := by
    rw [hplace, hworld]
    exact hkind
  dsimp only
  rw [hfound]

theorem readDir_served {rest : Path} (hkind : fs.kind (place ++ rest) = some .directory) :
    Served ⟨path ++ rest, fs.names (place ++ rest)⟩ world world
      (readDir target (path ++ rest) world) := by
  apply Job.answered_served
  intro replies
  have hplace : world.fs.resolve target.links (path ++ rest) = some (place ++ rest) := by
    rw [hworld]
    exact FileSystem.resolve_below h.leads h.directory (by rw [hkind]; simp)
  dsimp only
  rw [hplace]
  dsimp only
  rw [hworld, hkind]

end Served

theorem next_served_end (target : Target) (base : Path) (world : World) :
    Served none world world (ReadDir.next target ⟨base, []⟩ world) :=
  Job.answered_served fun _ => rfl

theorem next_served (target : Target) (base : Path) (name : String) (names : List String)
    (world : World) :
    Served (some (⟨name, base ++ [name], target.recordType (base ++ [name])⟩, ⟨base, names⟩))
      world world (ReadDir.next target ⟨base, name :: names⟩ world) :=
  Job.answered_served fun _ => rfl

/-- The stream of an open directory. -/
def Frame.stream (path : Path) (frame : Frame) : ReadDir := ⟨path ++ frame.rest, frame.names⟩

/-- Every directory above an entry stands before it. -/
def DirectoriesFirst : List Path → Prop :=
  Preceded fun before rest =>
    ∀ directory, directory ≠ [] → directory <+: rest → directory ≠ rest → directory ∈ before

/-- The streams of a walk have still to give what has not been yielded. -/
structure Walking (fs : FileSystem) (place : Path) (frames : List Frame) (yielded : List Path) :
    Prop where
  stacked : Stacked frames
  perm : (yielded ++ fs.pending place frames).Perm (fs.below place)
  opened : ∀ frame ∈ frames, frame.rest = [] ∨ frame.rest ∈ yielded
  first : DirectoriesFirst yielded
  shallow : ∀ rest ∈ yielded, fs.kind (place ++ rest) = some .directory →
    rest.length < RECURSIVE_DIRECTORY_DEPTH_LIMIT

namespace Walking

variable {fs : FileSystem} {place : Path} {frames : List Frame} {yielded : List Path}
  {rest : Path} {name : String} {names : List String}

theorem start (fs : FileSystem) (place : Path) : Walking fs place [⟨[], fs.names place⟩] [] where
  stacked := .root (FileSystem.nodup_names place)
  perm := by
    have hall : fs.pending place [⟨[], fs.names place⟩] =
        (fs.names place).flatMap fun name => fs.subtree place [name] := by
      rw [FileSystem.pending, List.flatMap_singleton]
      rfl
    rw [List.nil_append, hall]
    exact (FileSystem.below_perm place).symm
  opened frame hframe := .inl (by rw [List.mem_singleton.mp hframe])
  first := Preceded.nil _
  shallow rest hrest := absurd hrest List.not_mem_nil

theorem tail (h : Walking fs place (⟨rest, []⟩ :: frames) yielded) :
    Walking fs place frames yielded where
  stacked := h.stacked.tail
  perm := h.perm
  opened frame hframe := h.opened frame (List.mem_cons_of_mem _ hframe)
  first := h.first
  shallow := h.shallow

section Step

variable (h : Walking fs place (⟨rest, name :: names⟩ :: frames) yielded)

include h

theorem kind_ne_none : fs.kind (place ++ (rest ++ [name])) ≠ none := by
  have hmem := h.perm.mem_iff.mp (List.mem_append_right yielded
    (FileSystem.mem_pending rest name names frames))
  exact (FileSystem.mem_below_iff.mp hmem).2

/-- The directories above the next entry have been yielded. -/
theorem first_concat : DirectoriesFirst (yielded ++ [rest ++ [name]]) := by
  apply h.first.concat
  intro directory hne hstart hproper
  rcases List.prefix_concat_iff.mp hstart with hsame | hstart
  · exact absurd hsame hproper
  · obtain ⟨frame, hframe, rfl⟩ := h.stacked.exists_of_prefix hstart
    exact (h.opened frame hframe).resolve_left hne

theorem leaf {kind : EntryKind} (hkind : fs.kind (place ++ (rest ++ [name])) = some kind)
    (hleaf : kind ≠ .directory) :
    Walking fs place (⟨rest, names⟩ :: frames) (yielded ++ [rest ++ [name]]) where
  stacked := h.stacked.pop
  perm := by
    have hperm := h.perm
    rw [FileSystem.pending_leaf hkind hleaf] at hperm
    rwa [List.append_assoc, List.singleton_append]
  opened := by
    intro frame hframe
    rcases List.mem_cons.mp hframe with rfl | hframe
    · exact (h.opened _ List.mem_cons_self).imp_right (List.mem_append_left _)
    · exact (h.opened frame (List.mem_cons_of_mem _ hframe)).imp_right (List.mem_append_left _)
  first := h.first_concat
  shallow := by
    intro other hother hdirectory
    rcases List.mem_append.mp hother with hother | hother
    · exact h.shallow other hother hdirectory
    · rw [List.mem_singleton.mp hother, hkind] at hdirectory
      exact absurd (Option.some.inj hdirectory) hleaf

theorem directory (hshallow : (rest ++ [name]).length < RECURSIVE_DIRECTORY_DEPTH_LIMIT) :
    Walking fs place
      (⟨rest ++ [name], fs.names (place ++ (rest ++ [name]))⟩ :: ⟨rest, names⟩ :: frames)
      (yielded ++ [rest ++ [name]]) where
  stacked := h.stacked.push (FileSystem.nodup_names _)
  perm := by
    rw [List.append_assoc, List.singleton_append]
    exact ((FileSystem.pending_directory rest name names frames).symm.append_left _).trans h.perm
  opened := by
    intro frame hframe
    rcases List.mem_cons.mp hframe with rfl | hframe
    · exact .inr (List.mem_append_right _ (List.mem_singleton_self _))
    · rcases List.mem_cons.mp hframe with rfl | hframe
      · exact (h.opened _ List.mem_cons_self).imp_right (List.mem_append_left _)
      · exact (h.opened frame (List.mem_cons_of_mem _ hframe)).imp_right (List.mem_append_left _)
  first := h.first_concat
  shallow := by
    intro other hother hdirectory
    rcases List.mem_append.mp hother with hother | hother
    · exact h.shallow other hother hdirectory
    · rwa [List.mem_singleton.mp hother]

theorem deep (hkind : fs.kind (place ++ (rest ++ [name])) = some .directory)
    (hdeep : RECURSIVE_DIRECTORY_DEPTH_LIMIT ≤ (rest ++ [name]).length) : fs.Deep place := by
  refine ⟨rest ++ [name], FileSystem.mem_below_iff.mpr ⟨by simp, h.kind_ne_none⟩, hkind, hdeep⟩

end Step

end Walking

/-- What a step of a walk leaves. -/
inductive Stepped {σ : Type} (states : WalkStates σ) (fs : FileSystem) (place path : Path)
    (frames : List Frame) (yielded : List Path) (world : World) : WalkStep σ → Prop
  | ended (replies : List Reply) (hall : fs.pending place frames = []) :
      Stepped states fs place path frames yielded world
        ⟨states.finished, .returned none, { world with replies }⟩
  | yielded {later : List Frame} {rest : Path} (replies : List Reply)
      (h : Walking fs place later (yielded ++ [rest])) (hreplies : replies ⊆ world.replies) :
      Stepped states fs place path frames yielded world
        ⟨states.active (later.map (Frame.stream path)),
          .returned (some (fs.entryAt place path rest)), { world with replies }⟩
  | limited (replies : List Reply) (h : fs.Deep place) :
      Stepped states fs place path frames yielded world
        ⟨states.finished, .failed .recursionLimit, { world with replies }⟩
  | failed (replies : List Reply) (h : ¬ world.Smooth) :
      Stepped states fs place path frames yielded world
        ⟨states.finished, .failed .target, { world with replies }⟩
  | suspended (replies : List Reply) (h : ¬ world.Smooth) :
      Stepped states fs place path frames yielded world
        ⟨states.dropped, .suspended, { world with replies }⟩

section Step

variable {σ : Type} {states : WalkStates σ} {target : Target} {fs : FileSystem}
  {path place : Path} {frames : List Frame} {yielded : List Path} {world : World}

/-- A world in which not all requests proceed had such requests before. -/
theorem not_smooth_of_subset {replies : List Reply} (hreplies : replies ⊆ world.replies)
    (h : ¬ World.Smooth { world with replies }) : ¬ world.Smooth :=
  fun hsmooth => h (hsmooth.of_subset hreplies)

theorem Stepped.of_replies {frame : Frame} (hframe : frame.names = []) {replies : List Reply}
    (hreplies : replies ⊆ world.replies) {step : WalkStep σ}
    (h : Stepped states fs place path frames yielded { world with replies } step) :
    Stepped states fs place path (frame :: frames) yielded world step := by
  obtain ⟨rest, names⟩ := frame
  obtain rfl : names = [] := hframe
  cases h with
  | ended later hall => exact .ended later hall
  | yielded later h hlater => exact .yielded later h (List.Subset.trans hlater hreplies)
  | limited later h => exact .limited later h
  | failed later h => exact .failed later (not_smooth_of_subset hreplies h)
  | suspended later h => exact .suspended later (not_smooth_of_subset hreplies h)

theorem Stepped.await {α : Type} {value : α} {job : Job α} {next : α → World → WalkStep σ}
    {replies : List Reply} (hreplies : replies ⊆ world.replies)
    (hjob : Served value { world with replies } { world with replies }
      (job { world with replies }))
    (hnext : ∀ later, later ⊆ world.replies →
      Stepped states fs place path frames yielded world
        (next value { world with replies := later })) :
    Stepped states fs place path frames yielded world
      (states.await job next { world with replies }) := by
  unfold WalkStates.await
  generalize job { world with replies } = result at hjob
  cases hjob with
  | returned later h => exact hnext later (List.Subset.trans h hreplies)
  | failed later h => exact .failed later (not_smooth_of_subset hreplies h)
  | suspended later h => exact .suspended later (not_smooth_of_subset hreplies h)

theorem Stepped.await_depth {depth : ℕ} {next : Unit → World → WalkStep σ} {replies : List Reply}
    (hlimited : RECURSIVE_DIRECTORY_DEPTH_LIMIT ≤ depth → fs.Deep place)
    (hnext : depth < RECURSIVE_DIRECTORY_DEPTH_LIMIT →
      Stepped states fs place path frames yielded world (next () { world with replies })) :
    Stepped states fs place path frames yielded world
      (states.await (requireRecursiveDirectoryDepth depth) next { world with replies }) := by
  unfold WalkStates.await requireRecursiveDirectoryDepth
  by_cases hdepth : depth ≥ RECURSIVE_DIRECTORY_DEPTH_LIMIT
  · rw [if_pos hdepth]
    exact .limited replies (hlimited hdepth)
  · rw [if_neg hdepth]
    exact hnext (Nat.lt_of_not_le hdepth)

/-- A step yields the next entry that is still to come. -/
theorem walkLoop_stepped (hopens : Opens target fs path place)
    (h : Walking fs place frames yielded) (hworld : world.fs = fs) :
    Stepped states fs place path frames yielded world
      (walkLoop target states (frames.map (Frame.stream path)) world) := by
  induction frames generalizing world with
  | nil => exact .ended world.replies rfl
  | cons frame frames ih =>
    obtain ⟨rest, names⟩ := frame
    rw [List.map_cons, walkLoop]
    cases names with
    | nil =>
      apply Stepped.await (List.Subset.refl _) (next_served_end target _ world)
      intro replies hreplies
      exact .of_replies rfl hreplies (ih h.tail hworld)
    | cons name names =>
      obtain ⟨kind, hkind⟩ := Option.ne_none_iff_exists'.mp h.kind_ne_none
      have hpath : path ++ rest ++ [name] = path ++ (rest ++ [name]) := List.append_assoc _ _ _
      have hentry : ∀ fileType : FileType,
          DirEntry.withFileType ⟨name, path ++ (rest ++ [name]), fileType⟩ kind.fileType =
            fs.entryAt place path (rest ++ [name]) := by
        intro fileType
        rw [FileSystem.entryAt, hkind, List.getLast?_concat]
        rfl
      apply Stepped.await (List.Subset.refl _) (next_served target _ name names world)
      intro replies hreplies
      dsimp only
      rw [hpath]
      apply Stepped.await hreplies
        (symlinkMetadata_served hopens { world with replies } hworld hkind)
      intro replies hreplies
      dsimp only
      rw [hentry]
      by_cases hdirectory : kind = .directory
      · subst hdirectory
        rw [if_pos (by rfl)]
        have hdepth : (Frame.stream path ⟨rest, names⟩ :: frames.map (Frame.stream path)).length =
            (rest ++ [name]).length := by
          rw [List.length_append, h.stacked.length_rest, List.length_cons, List.length_map]
          rfl
        apply Stepped.await_depth
        · exact fun hlimit => h.deep hkind (hdepth ▸ hlimit)
        · intro hlimit
          apply Stepped.await hreplies (readDir_served hopens { world with replies } hworld hkind)
          intro replies hreplies
          exact .yielded replies (h.directory (hdepth ▸ hlimit)) hreplies
      · have hother : ¬ (Metadata.mk kind.fileType).isDirectory = true := by
          rw [Metadata.isDirectory, decide_eq_true_eq, EntryKind.fileType_eq_directory_iff]
          exact hdirectory
        rw [if_neg hother]
        exact .yielded replies (h.leaf hkind hdirectory) hreplies

end Step

/-- What a whole walk has made of the tree below its root. -/
structure Walks (fs : FileSystem) (place path : Path) (world : World) (rests : List Path)
    (walked : Walked) : Prop where
  entries : walked.entries = rests.map (fs.entryAt place path)
  once : rests.Nodup
  inside : rests ⊆ fs.below place
  first : DirectoriesFirst rests
  complete : walked.ending = .returned () → rests.Perm (fs.below place) ∧ ¬ fs.Deep place
  limited : walked.ending = .failed .recursionLimit → fs.Deep place
  smooth : world.Smooth → walked.ending = .returned () ∨ walked.ending = .failed .recursionLimit
  kept : walked.world.fs = fs ∧ walked.world.removed = world.removed

section Run

variable {σ : Type} {states : WalkStates σ} {target : Target} {fs : FileSystem}
  {path place : Path} {world : World}

/-- What is left of a walk after some of its steps. -/
structure Running (states : WalkStates σ) (fs : FileSystem) (place path : Path) (world : World)
    (frames : List Frame) (yielded : List Path) (state : σ × List DirEntry × World) : Prop where
  walking : Walking fs place frames yielded
  streams : state.1 = states.active (frames.map (Frame.stream path))
  entries : state.2.1 = yielded.map (fs.entryAt place path)
  requests : ∃ replies, replies ⊆ world.replies ∧ state.2.2 = { world with replies }

theorem Running.stops {frames : List Frame} {yielded : List Path}
    {state : σ × List DirEntry × World}
    (h : Running states fs place path world frames yielded state)
    (hworld : world.fs = fs) {ending : Ending Unit} {replies : List Reply}
    (hcomplete : ending = .returned () → fs.pending place frames = [])
    (hlimited : ending = .failed .recursionLimit → fs.Deep place)
    (hsmooth : world.Smooth → ending = .returned () ∨ ending = .failed .recursionLimit) :
    Walks fs place path world yielded ⟨state.2.1, ending, { world with replies }⟩ where
  entries := h.entries
  once := (h.walking.perm.nodup_iff.mpr (FileSystem.nodup_below place)).of_append_left
  inside rest hrest := h.walking.perm.mem_iff.mp (List.mem_append_left _ hrest)
  first := h.walking.first
  complete hending := by
    have hperm := h.walking.perm
    rw [hcomplete hending, List.append_nil] at hperm
    refine ⟨hperm, ?_⟩
    rintro ⟨rest, hrest, hkind, hdeep⟩
    have hshallow := h.walking.shallow rest (hperm.mem_iff.mpr hrest) hkind
    exact absurd hdeep (Nat.not_le_of_lt hshallow)
  limited := hlimited
  smooth := hsmooth
  kept := ⟨hworld, rfl⟩

/-- One more call of a walk keeps what is known of it. -/
theorem walkBody_running {next : σ → World → WalkStep σ}
    (hnext : ∀ streams world, next (states.active streams) world =
      walkLoop target states streams world)
    (hopens : Opens target fs path place) (hworld : world.fs = fs) {frames : List Frame}
    {yielded : List Path} {state : σ × List DirEntry × World}
    (h : Running states fs place path world frames yielded state) :
    (∃ later frames' yielded', walkBody next state = .inl later ∧
      Running states fs place path world frames' yielded' later ∧
        yielded'.length = yielded.length + 1) ∨
    ∃ walked, walkBody next state = .inr walked ∧ Walks fs place path world yielded walked := by
  obtain ⟨current, entries, now⟩ := state
  obtain ⟨replies, hreplies, hnow⟩ := h.requests
  have hstate : current = states.active (frames.map (Frame.stream path)) := h.streams
  have hentries : entries = yielded.map (fs.entryAt place path) := h.entries
  obtain rfl : now = { world with replies } := hnow
  subst hstate
  have hstep : Stepped states fs place path frames yielded { world with replies }
      (walkLoop target states (frames.map (Frame.stream path)) { world with replies }) :=
    walkLoop_stepped hopens h.walking hworld
  rw [walkBody, hnext]
  generalize walkLoop target states (frames.map (Frame.stream path)) { world with replies } = step
    at hstep
  have hrough : ¬ World.Smooth { world with replies } → ¬ world.Smooth :=
    not_smooth_of_subset hreplies
  cases hstep with
  | ended later hall =>
    refine .inr ⟨_, rfl, h.stops hworld (fun _ => hall) ?_ (fun _ => .inl rfl)⟩
    exact (by cases ·)
  | @yielded frames' rest later hwalking hlater =>
    refine .inl ⟨_, frames', yielded ++ [rest], rfl, ⟨hwalking, rfl, ?_, ?_⟩, ?_⟩
    · rw [List.map_append, ← hentries]
      rfl
    · exact ⟨later, List.Subset.trans hlater hreplies, rfl⟩
    · exact List.length_append
  | limited later hdeep =>
    refine .inr ⟨_, rfl, h.stops hworld ?_ (fun _ => hdeep) (fun _ => .inr rfl)⟩
    exact (by cases ·)
  | failed later hfailed =>
    refine .inr ⟨_, rfl, h.stops hworld ?_ ?_ fun hsmooth => absurd hsmooth (hrough hfailed)⟩
    · exact (by cases ·)
    · exact (by cases ·)
  | suspended later hsuspended =>
    refine .inr ⟨_, rfl, h.stops hworld ?_ ?_ fun hsmooth => absurd hsmooth (hrough hsuspended)⟩
    · exact (by cases ·)
    · exact (by cases ·)

theorem Running.length_le {frames : List Frame} {yielded : List Path}
    {state : σ × List DirEntry × World}
    (h : Running states fs place path world frames yielded state) :
    state.2.1.length ≤ (fs.below place).length := by
  rw [h.entries, List.length_map, ← h.walking.perm.length_eq, List.length_append]
  exact Nat.le_add_right _ _

theorem within_walks {next : σ → World → WalkStep σ}
    (hnext : ∀ streams world, next (states.active streams) world =
      walkLoop target states streams world)
    (hopens : Opens target fs path place) (hworld : world.fs = fs) {frames : List Frame}
    {yielded : List Path} {state : σ × List DirEntry × World}
    (h : Running states fs place path world frames yielded state) :
    ∃ calls walked, Loop.within (walkBody next) calls state = some walked ∧
      ∃ rests, Walks fs place path world rests walked := by
  refine ⟨_, Loop.within_spec
    (P := fun state => ∃ frames yielded, Running states fs place path world frames yielded state)
    (fun state => (fs.below place).length - state.2.1.length) ?_ ?_ ⟨frames, yielded, h⟩
    (Nat.lt_succ_self _)⟩
  · rintro state later ⟨frames, yielded, hrunning⟩ hlater
    obtain ⟨later', frames', yielded', hbody, hafter, hlength⟩ | ⟨walked, hbody, _⟩ :=
      walkBody_running hnext hopens hworld hrunning
    · obtain rfl := Sum.inl.inj (hlater.symm.trans hbody)
      refine ⟨⟨frames', yielded', hafter⟩, ?_⟩
      have hle := hafter.length_le
      have hnow : state.2.1.length = yielded.length := by rw [hrunning.entries, List.length_map]
      have hthen : later.2.1.length = yielded'.length := by rw [hafter.entries, List.length_map]
      omega
    · cases hlater.symm.trans hbody
  · rintro state walked ⟨frames, yielded, hrunning⟩ hwalked
    obtain ⟨later', _, _, hbody, _⟩ | ⟨walked', hbody, hwalks⟩ :=
      walkBody_running hnext hopens hworld hrunning
    · cases hwalked.symm.trans hbody
    · obtain rfl := Sum.inr.inj (hwalked.symm.trans hbody)
      exact ⟨yielded, hwalks⟩

/-- A walk comes to an end, whatever becomes of its requests. -/
theorem walkAll_walks {opening : Job σ} {next : σ → World → WalkStep σ}
    (hopening : opening =
      (readDir target path).bind fun root world => (.returned (states.active [root]), world))
    (hnext : ∀ streams world, next (states.active streams) world =
      walkLoop target states streams world)
    (hopens : Opens target fs path place) (hworld : world.fs = fs) :
    ∃ calls walked rests, (∀ more, calls ≤ more → walkAll opening next more world = some walked) ∧
      Walks fs place path world rests walked := by
  have hroot := @readDir_served target fs path place hopens world hworld []
  rw [List.append_nil, List.append_nil] at hroot
  have hserved := hroot hopens.directory
  have hnothing : ∀ {ending : Ending Unit} {replies : List Reply}, ¬ world.Smooth →
      ending ≠ .returned () → ending ≠ .failed .recursionLimit →
        Walks fs place path world [] ⟨[], ending, { world with replies }⟩ := by
    intro ending replies hrough hreturned hlimited
    exact ⟨rfl, List.nodup_nil, List.nil_subset _, Preceded.nil _, fun h => absurd h hreturned,
      fun h => absurd h hlimited, fun h => absurd h hrough, hworld, rfl⟩
  unfold walkAll Job.bind at *
  rw [hopening]
  dsimp only
  generalize readDir target path world = opened at hserved
  cases hserved with
  | failed replies hrough =>
    exact ⟨0, _, [], fun more _ => rfl, hnothing hrough (by simp) (by simp)⟩
  | suspended replies hrough =>
    exact ⟨0, _, [], fun more _ => rfl, hnothing hrough (by simp) (by simp)⟩
  | returned replies hreplies =>
    have hstart : Running states fs place path world [⟨[], fs.names place⟩] []
        (states.active [⟨path, fs.names place⟩], [], { world with replies }) := by
      refine ⟨Walking.start fs place, ?_, rfl, replies, hreplies, rfl⟩
      rw [List.map_singleton, Frame.stream, List.append_nil]
    obtain ⟨calls, walked, hwalked, rests, hrests⟩ := within_walks hnext hopens hworld hstart
    exact ⟨calls, walked, rests, fun more hmore => Loop.within_mono hwalked hmore, hrests⟩

end Run

/-! ### Both forms -/

/-- What a step of a walk leaves, in whichever form. -/
inductive WalkOutcome where
  | ended (world : World)
  | yielded (streams : List ReadDir) (entry : DirEntry) (world : World)
  | failed (failure : Failure) (world : World)
  | suspended (world : World)

def WalkOutcome.step {σ : Type} (states : WalkStates σ) : WalkOutcome → WalkStep σ
  | .ended world => ⟨states.finished, .returned none, world⟩
  | .yielded streams entry world => ⟨states.active streams, .returned (some entry), world⟩
  | .failed failure world => ⟨states.finished, .failed failure, world⟩
  | .suspended world => ⟨states.dropped, .suspended, world⟩

/-- In all forms a step comes to the same. -/
def Uniform (step : ∀ σ, WalkStates σ → WalkStep σ) : Prop :=
  ∃ outcome : WalkOutcome, ∀ σ (states : WalkStates σ), step σ states = outcome.step states

theorem Uniform.await {α : Type} {job : Job α}
    {next : ∀ σ, WalkStates σ → α → World → WalkStep σ} {world : World}
    (hnext : ∀ value world, Uniform fun σ states => next σ states value world) :
    Uniform fun σ states => states.await job (next σ states) world := by
  unfold WalkStates.await
  rcases job world with ⟨ending, after⟩
  cases ending with
  | returned value => exact hnext value after
  | failed failure => exact ⟨.failed failure after, fun _ _ => rfl⟩
  | suspended => exact ⟨.suspended after, fun _ _ => rfl⟩

theorem walkLoop_uniform (target : Target) (streams : List ReadDir) (world : World) :
    Uniform fun _ states => walkLoop target states streams world := by
  induction streams generalizing world with
  | nil => exact ⟨.ended world, fun _ _ => rfl⟩
  | cons stream streams ih =>
    unfold walkLoop
    apply Uniform.await
    intro next world
    rcases next with _ | ⟨entry, stream⟩
    · exact ih world
    · apply Uniform.await
      intro details world
      by_cases hdirectory : details.isDirectory = true
      · simp only [if_pos hdirectory]
        apply Uniform.await
        intro _ world
        apply Uniform.await
        exact fun child world => ⟨.yielded _ _ world, fun _ _ => rfl⟩
      · simp only [if_neg hdirectory]
        exact ⟨.yielded _ _ world, fun _ _ => rfl⟩

theorem within_walkBody_eq (target : Target) (calls : ℕ) (streams : List ReadDir)
    (entries : List DirEntry) (world : World) :
    Loop.within (walkBody (nextBlockingWalkEntry target)) calls (.active streams, entries, world) =
      Loop.within (walkBody (nextWalkEntry target)) calls (.active streams, entries, world) := by
  induction calls generalizing streams entries world with
  | zero => rfl
  | succ calls ih =>
    obtain ⟨outcome, houtcome⟩ := walkLoop_uniform target streams world
    have hblocking : walkLoop target BlockingWalkDirState.states streams world = outcome.step _ :=
      houtcome _ _
    have hasync : walkLoop target WalkDirState.states streams world = outcome.step _ :=
      houtcome _ _
    rw [Loop.within, Loop.within, walkBody, walkBody, nextBlockingWalkEntry, nextWalkEntry,
      hblocking, hasync]
    cases outcome with
    | ended _ => rfl
    | yielded streams entry world => exact ih streams (entries ++ [entry]) world
    | failed _ _ => rfl
    | suspended _ => rfl

/-- Both forms of a walk yield the same entries and end alike. -/
theorem walkAll_eq (target : Target) (path : Path) (calls : ℕ) (world : World) :
    walkAll (walkDirBlocking target path) (nextBlockingWalkEntry target) calls world =
      walkAll (walkDir target path) (nextWalkEntry target) calls world := by
  unfold walkAll walkDirBlocking walkDir Job.bind
  rcases readDir target path world with ⟨ending, after⟩
  cases ending with
  | returned root => exact within_walkBody_eq target calls [root] [] after
  | failed _ => rfl
  | suspended => rfl

end Nocter.Fs
