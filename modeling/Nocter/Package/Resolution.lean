import Mathlib.Data.String.Basic
import Nocter.Library.FiniteMap
import Nocter.Library.Loop
import Nocter.Library.Traversal

/-!
# Package resolution

A worklist loads the root package, the standard package and every package that a dependency of a
loaded one resolves to. An identity is loaded at one canonical root and a canonical root under one
identity. The finished graph is checked against the declarations once more.
-/

namespace Nocter.Package

/-! ## Declarations -/

inductive ExactDependencyLockKind where
  | git
  | sha256
deriving DecidableEq

structure ExactDependencyLock where
  kind : ExactDependencyLockKind
  value : String
deriving DecidableEq

inductive DependencySource where
  | git (url revision : String)
  | archive (url : String)
  | path (path : String)
deriving DecidableEq

def DependencySource.exactLockKind : DependencySource → Option ExactDependencyLockKind
  | git _ _ => some .git
  | archive _ => some .sha256
  | path _ => none

structure DependencyDeclaration where
  source : DependencySource
  selection : Option ExactDependencyLock
deriving DecidableEq

structure PackageDeclaration where
  name : String
  version : String
  dependencies : FiniteMap String DependencyDeclaration

inductive PackageIdError where
  | invalidGitCommit
  | invalidArchiveDigest
  | pathNotAbsolute
  | nonUnicodePath
deriving DecidableEq

inductive PackageGraphError (Path : Type) where
  | duplicatePackage (package : String)
  | unknownPackage (package : String)
  | packageNameMismatch (package expected actual : String)
  | packageVersionMismatch (package expected actual : String)
  | invalidPackageRoot (package : String) (path : Path)
  | duplicateCanonicalRoot (first second : String) (path : Path)
  | dependencyEdgeMismatch (package aliasName : String)
  | missingLock (package aliasName : String)
  | unexpectedResolvedLock (package aliasName : String)
  | lockSelectionMismatch (package aliasName : String)
  | lockKindMismatch (package aliasName : String)
  | invalidImplicitDependency (package aliasName : String)
  | invalidPathDependency (package aliasName : String) (path : Path)
  | filesystem (operation : String) (path : Path) (error : String)
  | rootSource (message : String)
  | unmetExpectation (message : String)

inductive PackageResolutionError (Path : Type) where
  | lockRequired (package : String) (packageRoot : Path) (aliasName : String) (source : DependencySource)
  | fetchRequired (package aliasName packageId : String) (lock : ExactDependencyLock) (source : DependencySource)
  | missingLockLocked (package aliasName : String)
  | missingLockOffline (package aliasName : String)
  | packageUnavailableOffline (package aliasName packageId : String)
  | identityRootConflict (package : String) (first second : Path)
  | lockOverrideConflict (package aliasName : String)
  | unexpectedPathLock (package aliasName : String)
  | lockKindMismatch (package aliasName : String) (expected actual : ExactDependencyLockKind)
  | packageId (error : PackageIdError)
  | exactPackageCache (message : String)
  | graph (error : PackageGraphError Path)
  | filesystem (operation : String) (path : Path) (error : String)

/-- The file system, the path syntax and the loader of package sources. -/
structure Universe (Path : Type) where
  canonicalize : Path → Except String Path
  join : Path → String → Path
  isAbsolute : Path → Bool
  toStr : Path → Option String
  isDir : Path → Bool
  /-- Whether there is an entry, or the error of asking. -/
  symlinkMetadata : Path → Except String Bool
  verifyExactPackage : Path → String → Except String Path
  sha256Hex : String → String
  /-- The display name and the declaration, if its source has no syntax errors, of the package at a
  canonical root. -/
  rootSource : Path → Except String (String × Option PackageDeclaration)

/-! ## Package identities -/

namespace PackageId

def isAsciiHexdigit (character : Char) : Bool :=
  ('0' ≤ character && character ≤ '9') || ('a' ≤ character && character ≤ 'f') ||
    ('A' ≤ character && character ≤ 'F')

def fromHex (start hex : String) (length : ℕ) (error : PackageIdError) : Except PackageIdError String :=
  if hex.utf8ByteSize ≠ length || !hex.toList.all isAsciiHexdigit then .error error
  else .ok (start ++ hex.map Char.toLower)

def fromExactLock (lock : ExactDependencyLock) : Except PackageIdError String :=
  match lock.kind with
  | .git => fromHex "git-" lock.value 40 .invalidGitCommit
  | .sha256 => fromHex "sha256-" lock.value 64 .invalidArchiveDigest

def fromCanonicalPath {Path : Type} (files : Universe Path) (path : Path) : Except PackageIdError String :=
  if !files.isAbsolute path then .error .pathNotAbsolute
  else match files.toStr path with
    | none => .error .nonUnicodePath
    | some text => .ok ("path-" ++ files.sha256Hex text)

end PackageId

/-! ## The graph builder -/

structure LoadedPackageSnapshot (Path : Type) where
  displayName : String
  canonicalRoot : Path
  declaration : Option PackageDeclaration

structure ResolvedPackageEdges where
  authored : FiniteMap String String
  locks : FiniteMap String ExactDependencyLock
  implicit : FiniteMap String String

structure ResolvedPackageSnapshot (Path : Type) where
  identity : String
  displayName : String
  canonicalRoot : Path
  dependencies : FiniteMap String String
  locks : FiniteMap String ExactDependencyLock
  declaration : Option PackageDeclaration

structure PackageGraphBuilder (Path : Type) where
  packages : FiniteMap String (LoadedPackageSnapshot Path)
  roots : FiniteMap Path String

/-- The name and the dependency alias of the standard package. -/
def standardAlias : String := "std"

section Graph

variable {Path : Type} [DecidableEq Path] (files : Universe Path)

def canonicalize (operation : String) (path : Path) : Except (PackageGraphError Path) Path :=
  match files.canonicalize path with
  | .ok root => .ok root
  | .error error => .error (.filesystem operation path error)

def canonicalPackageRoot (path : Path) : Except (PackageGraphError Path) Path :=
  canonicalize files "canonicalize package root" path

namespace PackageGraphBuilder

variable (builder : PackageGraphBuilder Path)

def loadPackage (identity : String) (canonicalRoot : Path) :
    Except (PackageGraphError Path) (LoadedPackageSnapshot Path × FiniteMap Path String) :=
  if !files.isDir canonicalRoot then .error (.invalidPackageRoot identity canonicalRoot)
  else match builder.roots.get? canonicalRoot with
    | some first => .error (.duplicateCanonicalRoot first identity canonicalRoot)
    | none => match files.rootSource canonicalRoot with
      | .error error => .error (.rootSource error)
      | .ok (displayName, declaration) =>
        .ok (⟨displayName, canonicalRoot, declaration⟩, builder.roots.insert canonicalRoot identity)

def loadCanonical (identity : String) (canonicalRoot : Path) :
    Except (PackageGraphError Path) (PackageGraphBuilder Path) :=
  if (builder.packages.get? identity).isSome then .error (.duplicatePackage identity)
  else do
    let (package, roots) ← builder.loadPackage files identity canonicalRoot
    .ok ⟨builder.packages.insert identity package, roots⟩

def declaration (identity : String) : Option PackageDeclaration :=
  (builder.packages.get? identity).bind LoadedPackageSnapshot.declaration

def validateDeclarationIdentity (identity expectedName expectedVersion : String) :
    Except (PackageGraphError Path) Unit :=
  match builder.declaration identity with
  | none => .ok ()
  | some declaration =>
    if declaration.name ≠ expectedName
    then .error (.packageNameMismatch identity expectedName declaration.name)
    else if declaration.version ≠ expectedVersion
    then .error (.packageVersionMismatch identity expectedVersion declaration.version)
    else .ok ()

end PackageGraphBuilder

/-- The first edge to a package that is not loaded. -/
def checkTargets (identities : Finset String) : List (String × String) → Except (PackageGraphError Path) Unit
  | [] => .ok ()
  | (_, target) :: rest =>
    if target ∉ identities then .error (.unknownPackage target) else checkTargets identities rest

/-- The lock of one declared dependency. -/
def validateLock (package aliasName : String) (dependency : DependencyDeclaration)
    (locks : FiniteMap String ExactDependencyLock) :
    Except (PackageGraphError Path) (FiniteMap String ExactDependencyLock) :=
  match dependency.source.exactLockKind with
  | none =>
    if (locks.get? aliasName).isSome then .error (.unexpectedResolvedLock package aliasName) else .ok locks
  | some expected =>
    match (locks.get? aliasName).or dependency.selection with
    | none => .error (.missingLock package aliasName)
    | some selected =>
      if dependency.selection.any (· ≠ selected) then .error (.lockSelectionMismatch package aliasName)
      else if selected.kind ≠ expected then .error (.lockKindMismatch package aliasName)
      else .ok (locks.insert aliasName selected)

def validateLocks (package : String) : List (String × DependencyDeclaration) →
    FiniteMap String ExactDependencyLock → Except (PackageGraphError Path) (FiniteMap String ExactDependencyLock)
  | [], locks => .ok locks
  | (aliasName, dependency) :: rest, locks => do
    let locks ← validateLock package aliasName dependency locks
    validateLocks package rest locks

/-- The locks of a package that are left to no declared dependency. -/
def checkLeftLocks (package : String) (declared : Finset String) :
    List (String × ExactDependencyLock) → Except (PackageGraphError Path) Unit
  | [] => .ok ()
  | (aliasName, _) :: rest =>
    if aliasName ∉ declared then .error (.unexpectedResolvedLock package aliasName)
    else checkLeftLocks package declared rest

def addImplicit (package : String) : List (String × String) → FiniteMap String String →
    Except (PackageGraphError Path) (FiniteMap String String)
  | [], dependencies => .ok dependencies
  | (aliasName, target) :: rest, dependencies =>
    if aliasName ≠ standardAlias || (dependencies.get? aliasName).isSome
    then .error (.invalidImplicitDependency package aliasName)
    else addImplicit package rest (dependencies.insert aliasName target)

/-- The locks of a package checked against its declaration. -/
def validateDeclared (package : String) (declaration : Option PackageDeclaration)
    (edges : ResolvedPackageEdges) : Except (PackageGraphError Path) (FiniteMap String ExactDependencyLock) :=
  match declaration with
  | none => do
    checkLeftLocks package ∅ edges.locks.entries
    .ok edges.locks
  | some declaration =>
    let declared := declaration.dependencies.keys
    let resolved := edges.authored.keys
    match ((declared \ resolved) ∪ (resolved \ declared)).sort (· ≤ ·) with
    | aliasName :: _ => .error (.dependencyEdgeMismatch package aliasName)
    | [] => do
      let locks ← validateLocks package declaration.dependencies.entries edges.locks
      checkLeftLocks package declared locks.entries
      .ok locks

def validateEdges (package : String) (declaration : Option PackageDeclaration) (edges : ResolvedPackageEdges)
    (identities : Finset String) :
    Except (PackageGraphError Path) (FiniteMap String String × FiniteMap String ExactDependencyLock) := do
  checkTargets identities (edges.authored.entries ++ edges.implicit.entries)
  let locks ← validateDeclared package declaration edges
  let dependencies ← addImplicit package edges.implicit.entries edges.authored
  .ok (dependencies, locks)

def finishPackages (identities : Finset String) : List (String × LoadedPackageSnapshot Path) →
    FiniteMap String ResolvedPackageEdges →
    Except (PackageGraphError Path) (List (ResolvedPackageSnapshot Path) × FiniteMap String ResolvedPackageEdges)
  | [], edges => .ok ([], edges)
  | (identity, package) :: rest, edges =>
    match edges.get? identity with
    | none => .error (.unknownPackage identity)
    | some resolved => do
      let (dependencies, locks) ← validateEdges identity package.declaration resolved identities
      let (packages, edges) ← finishPackages identities rest (edges.erase identity)
      .ok (⟨identity, package.displayName, package.canonicalRoot, dependencies, locks,
        package.declaration⟩ :: packages, edges)

/-- The canonical root of the package with an identity. -/
def rootOf (packages : List (ResolvedPackageSnapshot Path)) (identity : String) : Option Path :=
  (packages.find? fun package => package.identity = identity).map ResolvedPackageSnapshot.canonicalRoot

/-- The check of one declared dependency. -/
def validatePathRoot (packages : List (ResolvedPackageSnapshot Path)) (package : ResolvedPackageSnapshot Path)
    (aliasName : String) (source : DependencySource) : Except (PackageGraphError Path) Unit :=
  match source with
  | .git _ _ => .ok ()
  | .archive _ => .ok ()
  | .path path => do
    let expected ← canonicalize files "canonicalize path dependency" (files.join package.canonicalRoot path)
    match package.dependencies.get? aliasName with
    | none => .error (.unmetExpectation "validated authored alias has a resolved edge")
    | some target =>
      match rootOf packages target with
      | none => .error (.unmetExpectation "validated dependency identity has a loaded root")
      | some actual =>
        if expected ≠ actual then .error (.invalidPathDependency package.identity aliasName expected) else .ok ()

def validatePathRoots (packages : List (ResolvedPackageSnapshot Path)) : Except (PackageGraphError Path) Unit :=
  packages.forM fun package =>
    match package.declaration with
    | none => .ok ()
    | some declaration => declaration.dependencies.entries.forM fun (aliasName, dependency) =>
      validatePathRoot files packages package aliasName dependency.source

def PackageGraphBuilder.finish (builder : PackageGraphBuilder Path)
    (edges : FiniteMap String ResolvedPackageEdges) :
    Except (PackageGraphError Path) (List (ResolvedPackageSnapshot Path)) := do
  let (packages, edges) ← finishPackages builder.packages.keys builder.packages.entries edges
  match edges.entries with
  | (identity, _) :: _ => .error (.unknownPackage identity)
  | [] =>
    validatePathRoots files packages
    .ok packages

end Graph

/-! ## Resolution -/

structure PackageResolutionPolicy where
  locked : Bool
  offline : Bool

structure StandardPackage (Path : Type) where
  identity : String
  root : Path
  release : String

structure PackageResolutionRequest (Path : Type) where
  root : Path
  nocterHome : Path
  standard : StandardPackage Path
  policy : PackageResolutionPolicy
  lockOverlay : String → String → Option ExactDependencyLock
  storeOverlay : String → Option Path

structure ResolvedPackageSelection (Path : Type) where
  graph : List (ResolvedPackageSnapshot Path)
  root : String
  standard : String

structure DependencyResolver (Path : Type) where
  localStore : Path
  homeStore : Path
  policy : PackageResolutionPolicy
  storeOverlay : String → Option Path

structure ResolvedDependency (Path : Type) where
  target : String
  root : Path
  lock : Option ExactDependencyLock

section Resolver

variable {Path : Type} [DecidableEq Path] (files : Universe Path)

/-- An error of the graph in resolution. -/
def inGraph {α : Type} : Except (PackageGraphError Path) α → Except (PackageResolutionError Path) α
  | .ok result => .ok result
  | .error error => .error (.graph error)

def inPackageId {α : Type} : Except PackageIdError α → Except (PackageResolutionError Path) α
  | .ok result => .ok result
  | .error error => .error (.packageId error)

namespace DependencyResolver

variable (resolver : DependencyResolver Path)

def selectFrom (package : String) : List Path → Except (PackageResolutionError Path) (Option Path)
  | [] => .ok none
  | store :: stores =>
    let candidate := files.join store package
    match files.symlinkMetadata candidate with
    | .error error => .error (.filesystem "inspect exact package" candidate error)
    | .ok false => selectFrom package stores
    | .ok true =>
      match files.verifyExactPackage candidate package with
      | .error error => .error (.exactPackageCache error)
      | .ok root => .ok (some root)

def selectInstalled (package : String) : Except (PackageResolutionError Path) (Option Path) :=
  match resolver.storeOverlay package with
  | some root => .ok (some root)
  | none => selectFrom files package [resolver.localStore, resolver.homeStore]

def resolvePath (packageRoot : Path) (path : String) :
    Except (PackageResolutionError Path) (ResolvedDependency Path) := do
  let root ← inGraph (canonicalPackageRoot files (files.join packageRoot path))
  let target ← inPackageId (PackageId.fromCanonicalPath files root)
  .ok ⟨target, root, none⟩

/-- The failure of a remote dependency without a lock. -/
def missingLock (package : String) (packageRoot : Path) (aliasName : String) (source : DependencySource) :
    PackageResolutionError Path :=
  if resolver.policy.locked then .missingLockLocked package aliasName
  else if resolver.policy.offline then .missingLockOffline package aliasName
  else .lockRequired package packageRoot aliasName source

def resolveLocked (package aliasName : String) (source : DependencySource) (lock : ExactDependencyLock) :
    Except (PackageResolutionError Path) (ResolvedDependency Path) := do
  let packageId ← inPackageId (PackageId.fromExactLock lock)
  match ← resolver.selectInstalled files packageId with
  | some root =>
    let root ← inGraph (canonicalPackageRoot files root)
    .ok ⟨packageId, root, some lock⟩
  | none =>
    if resolver.policy.offline then .error (.packageUnavailableOffline package aliasName packageId)
    else .error (.fetchRequired package aliasName packageId lock source)

def resolve (package : String) (packageRoot : Path) (aliasName : String) (source : DependencySource)
    (lock : Option ExactDependencyLock) : Except (PackageResolutionError Path) (ResolvedDependency Path) :=
  match source with
  | .path path => resolvePath files packageRoot path
  | source =>
    match lock with
    | none => .error (resolver.missingLock package packageRoot aliasName source)
    | some lock => resolver.resolveLocked files package aliasName source lock

end DependencyResolver

variable (resolver : DependencyResolver Path) (overlay : String → String → Option ExactDependencyLock)

/-- The check of the lock in force against the source of its dependency. -/
def checkLockKind (package aliasName : String) (source : DependencySource) :
    Option ExactDependencyLock → Except (PackageResolutionError Path) Unit
  | none => .ok ()
  | some lock =>
    match source.exactLockKind with
    | none => .error (.unexpectedPathLock package aliasName)
    | some expected =>
      if lock.kind ≠ expected then .error (.lockKindMismatch package aliasName expected lock.kind) else .ok ()

/-- One declared dependency of a package. -/
def resolveDependency (identity : String) (packageRoot : Path) (aliasName : String)
    (dependency : DependencyDeclaration) : Except (PackageResolutionError Path) (ResolvedDependency Path) :=
  let overlayLock := overlay identity aliasName
  if dependency.selection.any fun authored => overlayLock.any (authored ≠ ·)
  then .error (.lockOverrideConflict identity aliasName)
  else do
    let effectiveLock := overlayLock.or dependency.selection
    checkLockKind identity aliasName dependency.source effectiveLock
    resolver.resolve files identity packageRoot aliasName dependency.source effectiveLock

structure ResolvedPackageWork (Path : Type) where
  authored : FiniteMap String String
  locks : FiniteMap String ExactDependencyLock
  pending : List (ResolvedDependency Path)

/-- The target and the lock of one more dependency. -/
def ResolvedPackageWork.record (work : ResolvedPackageWork Path) (aliasName : String)
    (selection : ResolvedDependency Path) : ResolvedPackageWork Path where
  authored := work.authored.insert aliasName selection.target
  locks := match selection.lock with
    | some lock => work.locks.insert aliasName lock
    | none => work.locks
  pending := work.pending ++ [selection]

def resolveDependencies (identity : String) (packageRoot : Path) : List (String × DependencyDeclaration) →
    ResolvedPackageWork Path → Except (PackageResolutionError Path) (ResolvedPackageWork Path)
  | [], work => .ok work
  | (aliasName, dependency) :: rest, work => do
    let selection ← resolveDependency files resolver overlay identity packageRoot aliasName dependency
    resolveDependencies identity packageRoot rest (work.record aliasName selection)

def resolvePackageEdges (standard identity : String) (packageRoot : Path)
    (declaration : Option PackageDeclaration) :
    Except (PackageResolutionError Path) (ResolvedPackageEdges × List (ResolvedDependency Path)) := do
  let dependencies := match declaration with
    | some declaration => declaration.dependencies.entries
    | none => []
  let work ← resolveDependencies files resolver overlay identity packageRoot dependencies
    ⟨FiniteMap.empty, FiniteMap.empty, []⟩
  .ok (⟨work.authored, work.locks, FiniteMap.empty.insert standardAlias standard⟩, work.pending)

structure ResolutionState (Path : Type) where
  builder : PackageGraphBuilder Path
  roots : FiniteMap String Path
  pending : FiniteMap String Path
  edges : FiniteMap String ResolvedPackageEdges

def insertPackage (state : ResolutionState Path) (identity : String) (root : Path) :
    Except (PackageResolutionError Path) (ResolutionState Path) :=
  match state.roots.get? identity with
  | some first => .error (.identityRootConflict identity first root)
  | none => do
    let builder ← inGraph (state.builder.loadCanonical files identity root)
    .ok ⟨builder, state.roots.insert identity root, state.pending.insert identity root, state.edges⟩

def insertDependencies : List (ResolvedDependency Path) → ResolutionState Path →
    Except (PackageResolutionError Path) (ResolutionState Path)
  | [], state => .ok state
  | dependency :: rest, state =>
    match state.roots.get? dependency.target with
    | some existing =>
      if existing ≠ dependency.root
      then .error (.identityRootConflict dependency.target existing dependency.root)
      else insertDependencies rest state
    | none => do
      let state ← insertPackage files state dependency.target dependency.root
      insertDependencies rest state

/-- One pass of the worklist with a package taken from it. -/
def resolveNext (standard identity : String) (packageRoot : Path) (state : ResolutionState Path) :
    Except (PackageResolutionError Path) (ResolutionState Path) := do
  let declaration := state.builder.declaration identity
  let (edges, pending) ← resolvePackageEdges files resolver overlay standard identity packageRoot declaration
  let state ← insertDependencies files pending state
  .ok { state with edges := state.edges.insert identity edges }

def worklistStep (standard : String) (state : ResolutionState Path) :
    ResolutionState Path ⊕ Except (PackageResolutionError Path) (ResolutionState Path) :=
  match state.pending.popFirst with
  | none => .inr (.ok state)
  | some ((identity, packageRoot), pending) =>
    match resolveNext files resolver overlay standard identity packageRoot ⟨state.builder, state.roots, pending, state.edges⟩ with
    | .error error => .inr (.error error)
    | .ok state => .inl state

/-- The state with the standard package and the root package. -/
def initialState (standard : StandardPackage Path) (standardRoot : Path) (rootId : String) (root : Path) :
    Except (PackageResolutionError Path) (ResolutionState Path) := do
  let empty := ⟨⟨FiniteMap.empty, FiniteMap.empty⟩, FiniteMap.empty, FiniteMap.empty, FiniteMap.empty⟩
  let state ← insertPackage files empty standard.identity standardRoot
  inGraph (state.builder.validateDeclarationIdentity standard.identity standardAlias standard.release)
  insertPackage files state rootId root

/-- What is known before the worklist starts. -/
structure ResolutionStart (Path : Type) where
  root : Path
  rootId : String
  standardRoot : Path
  resolver : DependencyResolver Path
  state : ResolutionState Path

/-- The resolver of a request with this canonical root. -/
def dependencyResolver (request : PackageResolutionRequest Path) (root : Path) : DependencyResolver Path where
  localStore := files.join (files.join root ".nocter") "packages"
  homeStore := files.join request.nocterHome "packages"
  policy := request.policy
  storeOverlay := request.storeOverlay

def startResolution (request : PackageResolutionRequest Path) :
    Except (PackageResolutionError Path) (ResolutionStart Path) := do
  let root ← inGraph (canonicalPackageRoot files request.root)
  let rootId ← inPackageId (PackageId.fromCanonicalPath files root)
  let standardRoot ← inGraph (canonicalPackageRoot files request.standard.root)
  let state ← initialState files request.standard standardRoot rootId root
  .ok ⟨root, rootId, standardRoot, dependencyResolver files request root, state⟩

def finishResolution (root standard : String) (state : ResolutionState Path) :
    Except (PackageResolutionError Path) (ResolvedPackageSelection Path) := do
  let graph ← inGraph (state.builder.finish files state.edges)
  .ok ⟨graph, root, standard⟩

/-- The worklist within so many passes, and the finished graph. -/
def resolvePackageSelection (request : PackageResolutionRequest Path) (passes : ℕ) :
    Option (Except (PackageResolutionError Path) (ResolvedPackageSelection Path)) :=
  match startResolution files request with
  | .error error => some (.error error)
  | .ok start =>
    (Loop.within (worklistStep files start.resolver request.lockOverlay request.standard.identity)
      passes start.state).map (· >>= finishResolution files start.rootId request.standard.identity)

end Resolver

/-! ## Edges of one package -/

section Lifting

variable {Path α : Type} {result : α}

theorem inGraph_eq_ok {outcome : Except (PackageGraphError Path) α} :
    inGraph outcome = .ok result ↔ outcome = .ok result := by
  cases outcome with
  | error error => exact ⟨fun h => (by cases h), fun h => (by cases h)⟩
  | ok found => rw [inGraph, Except.ok.injEq, Except.ok.injEq]

theorem inPackageId_eq_ok {outcome : Except PackageIdError α} :
    (inPackageId outcome : Except (PackageResolutionError Path) α) = .ok result ↔ outcome = .ok result := by
  cases outcome with
  | error error => exact ⟨fun h => (by cases h), fun h => (by cases h)⟩
  | ok found => rw [inPackageId, Except.ok.injEq, Except.ok.injEq]

end Lifting

section Edges

variable {Path : Type} {files : Universe Path} {resolver : DependencyResolver Path}
  {overlay : String → String → Option ExactDependencyLock} {identity : String} {packageRoot : Path}

/-- A package declares a dependency under an alias. -/
def Declares (declaration : Option PackageDeclaration) (aliasName : String)
    (dependency : DependencyDeclaration) : Prop :=
  ∃ declared, declaration = some declared ∧ declared.dependencies.get? aliasName = some dependency

/-- The resolved dependencies are those that the declaration asks for. -/
structure ResolvesEdges (files : Universe Path) (resolver : DependencyResolver Path)
    (overlay : String → String → Option ExactDependencyLock) (identity : String) (packageRoot : Path)
    (declares : String → DependencyDeclaration → Prop) (work : ResolvedPackageWork Path) : Prop where
  declared : ∀ aliasName dependency, declares aliasName dependency →
    ∃ selection ∈ work.pending,
      resolveDependency files resolver overlay identity packageRoot aliasName dependency = .ok selection ∧
      work.authored.get? aliasName = some selection.target ∧ work.locks.get? aliasName = selection.lock
  only : ∀ aliasName, (∀ dependency, ¬declares aliasName dependency) →
    work.authored.get? aliasName = none ∧ work.locks.get? aliasName = none
  pending : ∀ selection ∈ work.pending, ∃ aliasName dependency, declares aliasName dependency ∧
    resolveDependency files resolver overlay identity packageRoot aliasName dependency = .ok selection

theorem ResolvesEdges.congr {declares others : String → DependencyDeclaration → Prop}
    {work : ResolvedPackageWork Path}
    (h : ResolvesEdges files resolver overlay identity packageRoot declares work)
    (hsame : ∀ aliasName dependency, declares aliasName dependency ↔ others aliasName dependency) :
    ResolvesEdges files resolver overlay identity packageRoot others work := by
  have heq : declares = others := by
    funext aliasName dependency
    exact propext (hsame aliasName dependency)
  rwa [← heq]

theorem ResolvesEdges.record {declares : String → DependencyDeclaration → Prop}
    {work : ResolvedPackageWork Path} {aliasName : String} {dependency : DependencyDeclaration}
    {selection : ResolvedDependency Path}
    (h : ResolvesEdges files resolver overlay identity packageRoot declares work)
    (hnew : ∀ other, ¬declares aliasName other)
    (hselection : resolveDependency files resolver overlay identity packageRoot aliasName dependency =
      .ok selection) : ResolvesEdges files resolver overlay identity packageRoot
      (fun other declared => declares other declared ∨ (other, declared) = (aliasName, dependency))
      (work.record aliasName selection) := by
  have hlocks : ∀ other, (work.record aliasName selection).locks.get? other =
      if other = aliasName then selection.lock else work.locks.get? other := by
    intro other
    rw [ResolvedPackageWork.record]
    cases selection.lock with
    | some lock => rfl
    | none =>
      simp only
      split
      next hother =>
        rw [hother]
        exact (h.only aliasName hnew).2
      next => rfl
  constructor
  · rintro other declared (hdone | hlast)
    · have hne : other ≠ aliasName := fun hsame => hnew declared (hsame ▸ hdone)
      obtain ⟨found, hmem, hfound, htarget, hlock⟩ := h.declared other declared hdone
      refine ⟨found, List.mem_append_left _ hmem, hfound, ?_, ?_⟩
      · exact (if_neg hne).trans htarget
      · rw [hlocks, if_neg hne]
        exact hlock
    · cases hlast
      refine ⟨selection, List.mem_append_right _ (List.mem_singleton_self _), hselection, if_pos rfl, ?_⟩
      rw [hlocks, if_pos rfl]
  · intro other hother
    have hne : other ≠ aliasName := fun hsame => hother dependency (Or.inr (by rw [hsame]))
    obtain ⟨htarget, hlock⟩ := h.only other fun declared hdone => hother declared (Or.inl hdone)
    refine ⟨(if_neg hne).trans htarget, ?_⟩
    rw [hlocks, if_neg hne]
    exact hlock
  · intro found hfound
    rcases List.mem_append.mp hfound with hdone | hlast
    · obtain ⟨other, declared, hdeclared, hresolve⟩ := h.pending found hdone
      exact ⟨other, declared, Or.inl hdeclared, hresolve⟩
    · cases List.mem_singleton.mp hlast
      exact ⟨aliasName, dependency, Or.inr rfl, hselection⟩

theorem resolveDependencies_ok {entries : List (String × DependencyDeclaration)}
    {work found : ResolvedPackageWork Path} {done : String → DependencyDeclaration → Prop}
    (hwork : ResolvesEdges files resolver overlay identity packageRoot done work)
    (hnodup : (entries.map Prod.fst).Nodup)
    (hnew : ∀ aliasName dependency, done aliasName dependency → aliasName ∉ entries.map Prod.fst)
    (h : resolveDependencies files resolver overlay identity packageRoot entries work = .ok found) :
    ResolvesEdges files resolver overlay identity packageRoot
      (fun aliasName dependency => done aliasName dependency ∨ (aliasName, dependency) ∈ entries) found := by
  induction entries generalizing work done with
  | nil =>
    cases h
    simpa using hwork
  | cons entry entries ih =>
    obtain ⟨aliasName, dependency⟩ := entry
    rw [List.map_cons, List.nodup_cons] at hnodup
    obtain ⟨selection, hselection, h⟩ := except_bind_ok.mp h
    have hfresh : ∀ other, ¬done aliasName other :=
      fun other hdone => hnew aliasName other hdone List.mem_cons_self
    refine (ih (hwork.record hfresh hselection) hnodup.2 ?_ h).congr ?_
    · rintro other declared (hdone | hlast)
      · exact fun hmem => hnew other declared hdone (List.mem_cons_of_mem _ hmem)
      · cases hlast
        exact hnodup.1
    · intro other declared
      rw [List.mem_cons, or_assoc]

/-- The edges of a package are those of its declaration, and the implicit one. -/
theorem resolvePackageEdges_ok {standard : String} {declaration : Option PackageDeclaration}
    {edges : ResolvedPackageEdges} {pending : List (ResolvedDependency Path)}
    (h : resolvePackageEdges files resolver overlay standard identity packageRoot declaration =
      .ok (edges, pending)) :
    ResolvesEdges files resolver overlay identity packageRoot (Declares declaration)
      ⟨edges.authored, edges.locks, pending⟩ ∧
      edges.implicit = FiniteMap.empty.insert standardAlias standard := by
  obtain ⟨work, hwork, h⟩ := except_bind_ok.mp h
  cases h
  refine ⟨?_, rfl⟩
  have hempty : ResolvesEdges files resolver overlay identity packageRoot (fun _ _ => False)
      ⟨FiniteMap.empty, FiniteMap.empty, []⟩ :=
    ⟨fun _ _ h => h.elim, fun _ _ => ⟨rfl, rfl⟩, fun _ h => absurd h List.not_mem_nil⟩
  cases declaration with
  | none =>
    refine (resolveDependencies_ok hempty (by simp) (fun _ _ h => h.elim) hwork).congr ?_
    intro aliasName dependency
    simp [Declares]
  | some declaration =>
    refine (resolveDependencies_ok hempty (FiniteMap.entries_nodup _) (fun _ _ h => h.elim) hwork).congr ?_
    intro aliasName dependency
    rw [false_or, FiniteMap.mem_entries]
    simp [Declares]

end Edges

/-! ## The worklist -/

section Worklist

variable {Path : Type} {files : Universe Path} {state next : ResolutionState Path}
  {identity : String} {root : Path} {active : Option String}

/-- Identities and canonical roots are loaded one to one, and a loaded package has its edges, waits, or
is the active one. -/
structure Consistent (files : Universe Path) (active : Option String) (state : ResolutionState Path) :
    Prop where
  loaded : ∀ identity package, state.builder.packages.get? identity = some package →
    state.roots.get? identity = some package.canonicalRoot ∧
      files.rootSource package.canonicalRoot = .ok (package.displayName, package.declaration)
  known : ∀ identity root, state.roots.get? identity = some root →
    ∃ package, state.builder.packages.get? identity = some package ∧ package.canonicalRoot = root
  unique : ∀ root identity, state.builder.roots.get? root = some identity ↔
    state.roots.get? identity = some root
  pending : ∀ identity root, state.pending.get? identity = some root → state.roots.get? identity = some root
  edges : ∀ identity, (state.edges.get? identity).isSome ↔ (state.roots.get? identity).isSome ∧
    state.pending.get? identity = none ∧ active ≠ some identity

/-- What is loaded stays loaded. -/
structure Extends (state next : ResolutionState Path) : Prop where
  roots : ∀ identity root, state.roots.get? identity = some root → next.roots.get? identity = some root
  packages : ∀ identity package, state.builder.packages.get? identity = some package →
    next.builder.packages.get? identity = some package
  pending : ∀ identity root, state.roots.get? identity = some root →
    next.pending.get? identity = state.pending.get? identity
  edges : next.edges = state.edges

theorem Extends.refl (state : ResolutionState Path) : Extends state state :=
  ⟨fun _ _ h => h, fun _ _ h => h, fun _ _ _ => rfl, rfl⟩

theorem Extends.trans {last : ResolutionState Path} (h : Extends state next) (h' : Extends next last) :
    Extends state last :=
  ⟨fun identity root hroot => h'.roots identity root (h.roots identity root hroot),
    fun identity package hpackage => h'.packages identity package (h.packages identity package hpackage),
    fun identity root hroot => (h'.pending identity root (h.roots identity root hroot)).trans
      (h.pending identity root hroot),
    h'.edges.trans h.edges⟩

variable {resolver : DependencyResolver Path} {overlay : String → String → Option ExactDependencyLock}
  {standard rootId : String} {standardRoot commandRoot : Path}

/-- The packages reachable from the standard package and the root package through declared
dependencies. -/
inductive Reaches (files : Universe Path) (resolver : DependencyResolver Path)
    (overlay : String → String → Option ExactDependencyLock) (standard : String) (standardRoot : Path)
    (rootId : String) (commandRoot : Path) : String → Path → Prop
  | standard : Reaches files resolver overlay standard standardRoot rootId commandRoot standard standardRoot
  | root : Reaches files resolver overlay standard standardRoot rootId commandRoot rootId commandRoot
  | dependency {identity : String} {root : Path} {displayName : String}
      {declaration : Option PackageDeclaration} {aliasName : String} {declared : DependencyDeclaration}
      {found : ResolvedDependency Path}
      (hfrom : Reaches files resolver overlay standard standardRoot rootId commandRoot identity root)
      (hsource : files.rootSource root = .ok (displayName, declaration))
      (hdeclares : Declares declaration aliasName declared)
      (hresolve : resolveDependency files resolver overlay identity root aliasName declared = .ok found) :
      Reaches files resolver overlay standard standardRoot rootId commandRoot found.target found.root

/-- The edges of a package are resolved, and their targets are loaded. -/
def Settled (files : Universe Path) (resolver : DependencyResolver Path)
    (overlay : String → String → Option ExactDependencyLock) (standard : String)
    (state : ResolutionState Path) (identity : String) (edges : ResolvedPackageEdges) : Prop :=
  ∃ package pending, state.builder.packages.get? identity = some package ∧
    ResolvesEdges files resolver overlay identity package.canonicalRoot (Declares package.declaration)
      ⟨edges.authored, edges.locks, pending⟩ ∧
    edges.implicit = FiniteMap.empty.insert standardAlias standard ∧
    ∀ dependency ∈ pending, state.roots.get? dependency.target = some dependency.root

/-- What the worklist keeps. -/
structure WorklistInvariant (files : Universe Path) (resolver : DependencyResolver Path)
    (overlay : String → String → Option ExactDependencyLock) (standard : String) (standardRoot : Path)
    (rootId : String) (commandRoot : Path) (active : Option String) (state : ResolutionState Path) :
    Prop where
  consistent : Consistent files active state
  standardLoaded : state.roots.get? standard = some standardRoot
  rootLoaded : state.roots.get? rootId = some commandRoot
  reached : ∀ identity root, state.roots.get? identity = some root →
    Reaches files resolver overlay standard standardRoot rootId commandRoot identity root
  settled : ∀ identity edges, state.edges.get? identity = some edges →
    Settled files resolver overlay standard state identity edges

theorem Settled.extends {edges : ResolvedPackageEdges} (h : Settled files resolver overlay standard state identity edges)
    (hextends : Extends state next) : Settled files resolver overlay standard next identity edges := by
  obtain ⟨package, pending, hpackage, hresolves, himplicit, htargets⟩ := h
  exact ⟨package, pending, hextends.packages identity package hpackage, hresolves, himplicit,
    fun dependency hdependency => hextends.roots _ _ (htargets dependency hdependency)⟩

/-- A package taken from the worklist is the active one. -/
theorem Consistent.pop {left : FiniteMap String Path} (h : Consistent files none state)
    (hpending : state.pending.get? identity = some root) (hleft : left = state.pending.erase identity) :
    Consistent files (some identity) { state with pending := left } := by
  subst hleft
  refine ⟨h.loaded, h.known, h.unique, ?_, ?_⟩
  · intro other otherRoot hother
    simp only [FiniteMap.get_erase] at hother
    split at hother
    · cases hother
    · exact h.pending other otherRoot hother
  · intro other
    simp only [FiniteMap.get_erase]
    rw [h.edges]
    by_cases hother : other = identity
    · rw [if_pos hother, hother, hpending]
      simp
    · have hne : identity ≠ other := fun h => hother h.symm
      rw [if_neg hother]
      simp [hne]

theorem Consistent.finish {edges : ResolvedPackageEdges} (h : Consistent files (some identity) state)
    (hroot : (state.roots.get? identity).isSome) (hpending : state.pending.get? identity = none) :
    Consistent files none { state with edges := state.edges.insert identity edges } := by
  refine ⟨h.loaded, h.known, h.unique, h.pending, fun other => ?_⟩
  simp only [FiniteMap.get_insert]
  by_cases hother : other = identity
  · rw [if_pos hother, hother]
    simp [hroot, hpending]
  · have hne : identity ≠ other := fun h => hother h.symm
    rw [if_neg hother, h.edges]
    simp [hne]

/-- A waiting package is one more than those with edges. -/
theorem Consistent.edges_lt (h : Consistent files none state) (hpending : state.pending.get? identity = some root) :
    state.edges.keys.card < state.roots.keys.card := by
  have hroot := h.pending identity root hpending
  have hnew : identity ∉ state.edges.keys := by
    rw [FiniteMap.mem_keys, h.edges, hpending]
    simp
  have hsubset : insert identity state.edges.keys ⊆ state.roots.keys := by
    refine Finset.insert_subset (FiniteMap.mem_keys_of_get hroot) fun other hother => ?_
    rw [FiniteMap.mem_keys] at hother ⊢
    exact ((h.edges other).mp hother).1
  have hcard := Finset.card_le_card hsubset
  rw [Finset.card_insert_of_notMem hnew] at hcard
  omega

/-- At the end every reachable package is loaded. -/
theorem WorklistInvariant.complete (h : WorklistInvariant files resolver overlay standard standardRoot rootId
    commandRoot none state) (hpending : ∀ identity, state.pending.get? identity = none)
    (hreach : Reaches files resolver overlay standard standardRoot rootId commandRoot identity root) :
    state.roots.get? identity = some root := by
  induction hreach with
  | standard => exact h.standardLoaded
  | root => exact h.rootLoaded
  | @dependency identity root displayName declaration aliasName declared found hfrom hsource hdeclares
      hresolve ih =>
    obtain ⟨edges, hedges⟩ := Option.isSome_iff_exists.mp ((h.consistent.edges identity).mpr
      ⟨by rw [ih]; rfl, hpending identity, fun h => by cases h⟩)
    obtain ⟨package, pending, hpackage, hresolves, -, htargets⟩ := h.settled identity edges hedges
    obtain ⟨hpackageRoot, hpackageSource⟩ := h.consistent.loaded identity package hpackage
    cases ih.symm.trans hpackageRoot
    cases hsource.symm.trans hpackageSource
    obtain ⟨selection, hmem, hselection, -⟩ := hresolves.declared aliasName declared hdeclares
    cases hresolve.symm.trans hselection
    exact htargets _ hmem

variable [DecidableEq Path]

theorem loadCanonical_ok {builder loaded : PackageGraphBuilder Path}
    (h : builder.loadCanonical files identity root = .ok loaded) :
    builder.packages.get? identity = none ∧ builder.roots.get? root = none ∧
      ∃ displayName declaration, files.rootSource root = .ok (displayName, declaration) ∧
        loaded = ⟨builder.packages.insert identity ⟨displayName, root, declaration⟩,
          builder.roots.insert root identity⟩ := by
  rw [PackageGraphBuilder.loadCanonical] at h
  split at h
  · cases h
  next hnew =>
    obtain ⟨⟨package, roots⟩, hload, h⟩ := except_bind_ok.mp h
    cases h
    rw [PackageGraphBuilder.loadPackage] at hload
    split at hload
    · cases hload
    · split at hload
      · cases hload
      next hroot =>
        split at hload
        · cases hload
        next displayName declaration hsource =>
          cases hload
          exact ⟨Option.not_isSome_iff_eq_none.mp hnew, hroot, displayName, declaration, hsource, rfl⟩

/-- A package is inserted under a new identity and at a new root. -/
theorem insertPackage_ok (hstate : Consistent files active state) (hactive : active ≠ some identity)
    (h : insertPackage files state identity root = .ok next) :
    Consistent files active next ∧ Extends state next ∧ next.roots = state.roots.insert identity root := by
  rw [insertPackage] at h
  split at h
  · cases h
  next hidentity =>
    obtain ⟨builder, hbuilder, h⟩ := except_bind_ok.mp h
    cases h
    obtain ⟨hpackage, hroot, displayName, declaration, hsource, rfl⟩ := loadCanonical_ok (inGraph_eq_ok.mp hbuilder)
    refine ⟨⟨?_, ?_, ?_, ?_, ?_⟩, ⟨?_, ?_, ?_, rfl⟩, rfl⟩
    · intro other package hother
      rw [FiniteMap.get_insert] at hother ⊢
      split at hother
      next hsame =>
        cases hother
        rw [if_pos hsame]
        exact ⟨rfl, hsource⟩
      next hne =>
        rw [if_neg hne]
        exact hstate.loaded other package hother
    · intro other otherRoot hother
      rw [FiniteMap.get_insert] at hother ⊢
      split at hother
      next hsame =>
        cases hother
        exact ⟨_, if_pos hsame, rfl⟩
      next hne =>
        rw [if_neg hne]
        exact hstate.known other otherRoot hother
    · intro otherRoot other
      rw [FiniteMap.get_insert, FiniteMap.get_insert]
      by_cases hotherRoot : otherRoot = root
      · rw [if_pos hotherRoot, hotherRoot]
        by_cases hother : other = identity
        · rw [if_pos hother, hother]
          exact iff_of_true rfl rfl
        · rw [if_neg hother]
          refine iff_of_false (fun hsame => hother (Option.some.inj hsame).symm) fun hsame => ?_
          rw [← hstate.unique, hroot] at hsame
          cases hsame
      · rw [if_neg hotherRoot, hstate.unique]
        by_cases hother : other = identity
        · rw [if_pos hother, hother, hidentity]
          exact iff_of_false (fun h => by cases h) fun h => hotherRoot (Option.some.inj h).symm
        · rw [if_neg hother]
    · intro other otherRoot hother
      rw [FiniteMap.get_insert] at hother ⊢
      split at hother
      next hsame =>
        rw [if_pos hsame]
        exact hother
      next hne =>
        rw [if_neg hne]
        exact hstate.pending other otherRoot hother
    · intro other
      rw [hstate.edges, FiniteMap.get_insert, FiniteMap.get_insert]
      by_cases hother : other = identity
      · rw [if_pos hother, if_pos hother, hother, hidentity]
        simp
      · rw [if_neg hother, if_neg hother]
    · intro other otherRoot hother
      rw [FiniteMap.get_insert, if_neg]
      · exact hother
      · rintro rfl
        rw [hidentity] at hother
        cases hother
    · intro other package hother
      rw [FiniteMap.get_insert, if_neg]
      · exact hother
      · rintro rfl
        rw [hpackage] at hother
        cases hother
    · intro other otherRoot hother
      rw [FiniteMap.get_insert, if_neg]
      rintro rfl
      rw [hidentity] at hother
      cases hother

/-- Every dependency is loaded at its root afterwards, and nothing else is new. -/
theorem insertDependencies_ok {dependencies : List (ResolvedDependency Path)}
    (hstate : Consistent files active state) (hactive : ∀ identity, active = some identity →
      (state.roots.get? identity).isSome)
    (h : insertDependencies files dependencies state = .ok next) :
    Consistent files active next ∧ Extends state next ∧
      (∀ dependency ∈ dependencies, next.roots.get? dependency.target = some dependency.root) ∧
      ∀ identity root, next.roots.get? identity = some root → state.roots.get? identity = some root ∨
        ∃ dependency ∈ dependencies, dependency.target = identity ∧ dependency.root = root := by
  induction dependencies generalizing state with
  | nil =>
    cases h
    exact ⟨hstate, .refl _, by simp, fun identity root hroot => Or.inl hroot⟩
  | cons dependency rest ih =>
    rw [insertDependencies] at h
    split at h
    next existing hexisting =>
      split at h
      · cases h
      next hsame =>
        rw [not_not] at hsame
        obtain ⟨hnext, hextends, hall, honly⟩ := ih hstate hactive h
        refine ⟨hnext, hextends, ?_, ?_⟩
        · refine List.forall_mem_cons.mpr ⟨?_, hall⟩
          rw [← hsame]
          exact hextends.roots _ _ hexisting
        · intro identity root hroot
          exact (honly identity root hroot).imp_right fun ⟨other, hmem, hother⟩ =>
            ⟨other, List.mem_cons_of_mem _ hmem, hother⟩
    next hnew =>
      obtain ⟨middle, hmiddle, h⟩ := except_bind_ok.mp h
      have hne : active ≠ some dependency.target := by
        intro hsame
        have hsome := hactive _ hsame
        rw [hnew] at hsome
        cases hsome
      obtain ⟨hconsistent, hextends, hroots⟩ := insertPackage_ok hstate hne hmiddle
      obtain ⟨hnext, hextends', hall, honly⟩ := ih hconsistent (fun identity hidentity => by
        obtain ⟨root, hroot⟩ := Option.isSome_iff_exists.mp (hactive identity hidentity)
        rw [hextends.roots identity root hroot]
        rfl) h
      refine ⟨hnext, hextends.trans hextends', ?_, ?_⟩
      · refine List.forall_mem_cons.mpr ⟨hextends'.roots _ _ ?_, hall⟩
        rw [hroots, FiniteMap.get_insert, if_pos rfl]
      · intro identity root hroot
        rcases honly identity root hroot with hmiddleRoot | ⟨other, hmem, hother⟩
        · rw [hroots, FiniteMap.get_insert] at hmiddleRoot
          split at hmiddleRoot
          next hsame =>
            cases hmiddleRoot
            exact Or.inr ⟨dependency, List.mem_cons_self, hsame.symm, rfl⟩
          next => exact Or.inl hmiddleRoot
        · exact Or.inr ⟨other, List.mem_cons_of_mem _ hmem, hother⟩

/-- One pass settles the package that it takes. -/
theorem resolveNext_ok
    (hstate : WorklistInvariant files resolver overlay standard standardRoot rootId commandRoot
      (some identity) state)
    (hroot : state.roots.get? identity = some root) (hpending : state.pending.get? identity = none)
    (h : resolveNext files resolver overlay standard identity root state = .ok next) :
    WorklistInvariant files resolver overlay standard standardRoot rootId commandRoot none next ∧
      ∃ edges, next.edges = state.edges.insert identity edges := by
  obtain ⟨⟨edges, pending⟩, hedges, h⟩ := except_bind_ok.mp h
  obtain ⟨middle, hmiddle, h⟩ := except_bind_ok.mp h
  cases h
  obtain ⟨package, hpackage, rfl⟩ := hstate.consistent.known identity root hroot
  have hdeclaration : state.builder.declaration identity = package.declaration := by
    rw [PackageGraphBuilder.declaration, hpackage]
    rfl
  rw [hdeclaration] at hedges
  obtain ⟨hresolves, himplicit⟩ := resolvePackageEdges_ok hedges
  obtain ⟨hconsistent, hextends, htargets, honly⟩ := insertDependencies_ok hstate.consistent
    (fun other hother => by
      cases hother
      rw [hroot]
      rfl) hmiddle
  have hmiddleRoot := hextends.roots identity _ hroot
  have hmiddlePending := (hextends.pending identity _ hroot).trans hpending
  refine ⟨⟨hconsistent.finish (by rw [hmiddleRoot]; rfl) hmiddlePending, ?_, ?_, ?_, ?_⟩, edges, ?_⟩
  · exact hextends.roots _ _ hstate.standardLoaded
  · exact hextends.roots _ _ hstate.rootLoaded
  · intro other otherRoot hother
    rcases honly other otherRoot hother with hbefore | ⟨dependency, hmem, rfl, rfl⟩
    · exact hstate.reached other otherRoot hbefore
    · obtain ⟨aliasName, declared, hdeclares, hresolve⟩ := hresolves.pending dependency hmem
      exact .dependency (hstate.reached identity _ hroot) (hstate.consistent.loaded identity package hpackage).2
        hdeclares hresolve
  · intro other otherEdges hother
    simp only [FiniteMap.get_insert] at hother
    split at hother
    next hsame =>
      cases hother
      rw [hsame]
      exact ⟨package, pending, hextends.packages identity package hpackage, hresolves, himplicit, htargets⟩
    next hne =>
      rw [hextends.edges] at hother
      obtain ⟨otherPackage, otherPending, hother⟩ := (hstate.settled other otherEdges hother).extends hextends
      exact ⟨otherPackage, otherPending, hother⟩
  · exact congrArg (FiniteMap.insert · identity edges) hextends.edges

/-- There are at most as many packages as roots that the loader accepts. -/
theorem Consistent.card_le (h : Consistent files active state) {accepted : Finset Path}
    (haccepted : ∀ root found, files.rootSource root = .ok found → root ∈ accepted) :
    state.roots.keys.card ≤ accepted.card := by
  refine (Finset.card_le_card_of_injOn (t := accepted.image some) state.roots.get? ?_ ?_).trans
    Finset.card_image_le
  · intro identity hidentity
    obtain ⟨root, hroot⟩ := Option.isSome_iff_exists.mp (state.roots.mem_keys.mp (Finset.mem_coe.mp hidentity))
    obtain ⟨package, hpackage, rfl⟩ := h.known identity root hroot
    rw [hroot]
    exact Finset.mem_coe.mpr (Finset.mem_image_of_mem some (haccepted _ _ (h.loaded identity package hpackage).2))
  · intro identity hidentity other hother hsame
    obtain ⟨root, hroot⟩ := Option.isSome_iff_exists.mp (state.roots.mem_keys.mp (Finset.mem_coe.mp hidentity))
    have hother : state.roots.get? identity = state.roots.get? other := hsame
    have hfirst := (h.unique root identity).mpr hroot
    have hsecond := (h.unique root other).mpr (hother.symm.trans hroot)
    exact Option.some.inj (hfirst.symm.trans hsecond)

/-- The worklist ends within as many passes as the loader accepts roots, and keeps its invariant. -/
theorem worklist_spec {accepted : Finset Path}
    (haccepted : ∀ root found, files.rootSource root = .ok found → root ∈ accepted)
    (hstate : WorklistInvariant files resolver overlay standard standardRoot rootId commandRoot none state) :
    ∃ result, (∀ passes, accepted.card < passes →
        Loop.within (worklistStep files resolver overlay standard) passes state = some result) ∧
      ∀ last, result = .ok last → (∀ identity, last.pending.get? identity = none) ∧
        WorklistInvariant files resolver overlay standard standardRoot rootId commandRoot none last := by
  have hrun : ∃ result, Loop.within (worklistStep files resolver overlay standard) (accepted.card + 1) state =
      some result ∧ ∀ last, result = .ok last → (∀ identity, last.pending.get? identity = none) ∧
        WorklistInvariant files resolver overlay standard standardRoot rootId commandRoot none last := by
    refine Loop.within_spec (P := WorklistInvariant files resolver overlay standard standardRoot rootId
      commandRoot none) (fun state => accepted.card - state.edges.keys.card) ?_ ?_ hstate (by omega)
    · intro state next hstate hstep
      rw [worklistStep] at hstep
      split at hstep
      · cases hstep
      next identity packageRoot left hpop =>
        obtain ⟨hpending, hleft⟩ := FiniteMap.popFirst_eq_some hpop
        split at hstep
        · cases hstep
        next reached hreached =>
          cases hstep
          have hactive : WorklistInvariant files resolver overlay standard standardRoot rootId commandRoot
              (some identity) ⟨state.builder, state.roots, left, state.edges⟩ :=
            ⟨hstate.consistent.pop hpending hleft, hstate.standardLoaded, hstate.rootLoaded,
              hstate.reached, hstate.settled⟩
          have hgone : left.get? identity = none := by
            rw [hleft, FiniteMap.get_erase, if_pos rfl]
          obtain ⟨hnext, edges, hedges⟩ := resolveNext_ok hactive
            (hstate.consistent.pending identity packageRoot hpending) hgone hreached
          refine ⟨hnext, ?_⟩
          have hnew : identity ∉ state.edges.keys := by
            rw [FiniteMap.mem_keys, hstate.consistent.edges, hpending]
            simp
          have hcard : next.edges.keys.card = state.edges.keys.card + 1 := by
            rw [hedges]
            exact Finset.card_insert_of_notMem hnew
          have hless := hstate.consistent.edges_lt hpending
          have hlimit := hstate.consistent.card_le haccepted
          omega
    · intro state result hstate hstep last hlast
      rw [worklistStep] at hstep
      split at hstep
      next hempty =>
        cases hstep
        cases hlast
        exact ⟨FiniteMap.popFirst_eq_none.mp hempty, hstate⟩
      next =>
        split at hstep
        · cases hstep
          cases hlast
        · cases hstep
  obtain ⟨result, hresult, hspec⟩ := hrun
  exact ⟨result, fun passes hpasses => Loop.within_mono hresult hpasses, hspec⟩

end Worklist

/-! ## The finished graph -/

section Finish

variable {Path : Type} {package : String} {edges : ResolvedPackageEdges} {declaration : Option PackageDeclaration}
  {locks next : FiniteMap String ExactDependencyLock}

/-- A remote dependency has a lock of its kind, which is the authored one if there is one; a path
dependency has none. -/
def Locked (dependency : DependencyDeclaration) (found : Option ExactDependencyLock) : Prop :=
  match dependency.source.exactLockKind with
  | none => found = none
  | some expected => ∃ lock, found = some lock ∧ lock.kind = expected ∧
      ∀ authored, dependency.selection = some authored → authored = lock

theorem validateLock_ok {aliasName : String} {dependency : DependencyDeclaration}
    (h : (validateLock package aliasName dependency locks : Except (PackageGraphError Path) _) = .ok next) :
    Locked dependency (next.get? aliasName) ∧
      ∀ other, other ≠ aliasName → next.get? other = locks.get? other := by
  rw [validateLock] at h
  rw [Locked]
  split at h
  next hkind =>
    split at h
    · cases h
    next hnone =>
      cases h
      exact ⟨Option.not_isSome_iff_eq_none.mp hnone, fun _ _ => rfl⟩
  next expected hkind =>
    split at h
    · cases h
    next selected hselected =>
      split at h
      · cases h
      next hauthored =>
        split at h
        · cases h
        next hsame =>
          cases h
          refine ⟨⟨selected, if_pos rfl, not_not.mp hsame, fun authored hselection => ?_⟩, fun other hother => if_neg hother⟩
          rw [hselection, Option.any_some, decide_eq_true_iff, ne_eq, not_not] at hauthored
          exact hauthored

theorem validateLocks_ok {entries : List (String × DependencyDeclaration)}
    (hnodup : (entries.map Prod.fst).Nodup)
    (h : (validateLocks package entries locks : Except (PackageGraphError Path) _) = .ok next) :
    (∀ aliasName dependency, (aliasName, dependency) ∈ entries → Locked dependency (next.get? aliasName)) ∧
      ∀ other, other ∉ entries.map Prod.fst → next.get? other = locks.get? other := by
  induction entries generalizing locks with
  | nil =>
    cases h
    exact ⟨fun _ _ h => absurd h List.not_mem_nil, fun _ _ => rfl⟩
  | cons entry entries ih =>
    obtain ⟨aliasName, dependency⟩ := entry
    rw [List.map_cons, List.nodup_cons] at hnodup
    obtain ⟨middle, hmiddle, h⟩ := except_bind_ok.mp h
    obtain ⟨hlocked, hothers⟩ := validateLock_ok hmiddle
    obtain ⟨hrest, hleft⟩ := ih hnodup.2 h
    constructor
    · intro other declared hmem
      rcases List.mem_cons.mp hmem with hsame | hmem
      · cases hsame
        rwa [hleft aliasName hnodup.1]
      · exact hrest other declared hmem
    · intro other hother
      rw [List.map_cons, List.mem_cons, not_or] at hother
      rw [hleft other hother.2, hothers other hother.1]

theorem checkLeftLocks_ok {declared : Finset String} {entries : List (String × ExactDependencyLock)}
    (h : (checkLeftLocks package declared entries : Except (PackageGraphError Path) _) = .ok ()) :
    ∀ entry ∈ entries, entry.1 ∈ declared := by
  induction entries with
  | nil => simp
  | cons entry entries ih =>
    rw [checkLeftLocks] at h
    split at h
    · cases h
    next hmem => exact List.forall_mem_cons.mpr ⟨not_not.mp hmem, ih h⟩

theorem checkTargets_ok {identities : Finset String} {entries : List (String × String)}
    (h : (checkTargets identities entries : Except (PackageGraphError Path) _) = .ok ()) :
    ∀ entry ∈ entries, entry.2 ∈ identities := by
  induction entries with
  | nil => simp
  | cons entry entries ih =>
    rw [checkTargets] at h
    split at h
    · cases h
    next hmem => exact List.forall_mem_cons.mpr ⟨not_not.mp hmem, ih h⟩

/-- The checked locks are those of the declaration. -/
theorem validateDeclared_ok
    (h : (validateDeclared package declaration edges : Except (PackageGraphError Path) _) = .ok next) :
    (∀ aliasName dependency, Declares declaration aliasName dependency →
      Locked dependency (next.get? aliasName)) ∧
      ∀ aliasName, (∀ dependency, ¬Declares declaration aliasName dependency) → next.get? aliasName = none := by
  cases declaration with
  | none =>
    obtain ⟨_, hleft, h⟩ := except_bind_ok.mp h
    cases h
    refine ⟨?_, fun aliasName _ => ?_⟩
    · rintro aliasName dependency ⟨_, hnone, -⟩
      cases hnone
    · cases hlock : edges.locks.get? aliasName with
      | none => rfl
      | some lock =>
        exact absurd (checkLeftLocks_ok hleft _ (FiniteMap.mem_entries.mpr hlock)) (Finset.notMem_empty _)
  | some declaration =>
    rw [validateDeclared] at h
    split at h
    · cases h
    · obtain ⟨found, hfound, h⟩ := except_bind_ok.mp h
      obtain ⟨_, hleft, h⟩ := except_bind_ok.mp h
      cases h
      obtain ⟨hlocked, -⟩ := validateLocks_ok (FiniteMap.entries_nodup _) hfound
      constructor
      · rintro aliasName dependency ⟨_, hsome, hdependency⟩
        cases hsome
        exact hlocked aliasName dependency (FiniteMap.mem_entries.mpr hdependency)
      · intro aliasName hnone
        cases hlock : next.get? aliasName with
        | none => rfl
        | some lock =>
          have hdeclared := checkLeftLocks_ok hleft _ (FiniteMap.mem_entries.mpr hlock)
          obtain ⟨dependency, hdependency⟩ := Option.isSome_iff_exists.mp (declaration.dependencies.mem_keys.mp hdeclared)
          exact absurd ⟨declaration, rfl, hdependency⟩ (hnone dependency)

/-- The edges of a finished package: the authored ones and the implicit one. -/
theorem validateEdges_ok {standard : String} {identities : Finset String}
    {dependencies : FiniteMap String String}
    (himplicit : edges.implicit = FiniteMap.empty.insert standardAlias standard)
    (h : (validateEdges package declaration edges identities : Except (PackageGraphError Path) _) =
      .ok (dependencies, locks)) : edges.authored.get? standardAlias = none ∧
      dependencies = edges.authored.insert standardAlias standard ∧
      (∀ aliasName target, dependencies.get? aliasName = some target → target ∈ identities) ∧
      (∀ aliasName dependency, Declares declaration aliasName dependency →
        Locked dependency (locks.get? aliasName)) ∧
      ∀ aliasName, (∀ dependency, ¬Declares declaration aliasName dependency) →
        locks.get? aliasName = none := by
  obtain ⟨_, htargets, h⟩ := except_bind_ok.mp h
  obtain ⟨found, hfound, h⟩ := except_bind_ok.mp h
  obtain ⟨extended, hextended, h⟩ := except_bind_ok.mp h
  cases h
  have hentries := checkTargets_ok htargets
  rw [himplicit, FiniteMap.entries_single] at hextended hentries
  rw [addImplicit] at hextended
  split at hextended
  · cases hextended
  next hfree =>
    cases hextended
    have hnone : edges.authored.get? standardAlias = none := by
      rw [← Option.not_isSome_iff_eq_none]
      exact fun hsome => hfree (by rw [hsome, Bool.or_true])
    refine ⟨hnone, rfl, fun aliasName target htarget => ?_, validateDeclared_ok hfound⟩
    rw [FiniteMap.get_insert] at htarget
    split at htarget
    next =>
      cases htarget
      exact hentries _ (List.mem_append_right _ (List.mem_singleton_self _))
    next => exact hentries _ (List.mem_append_left _ (FiniteMap.mem_entries.mpr htarget))

/-- The finished packages are the loaded ones with their validated edges. -/
theorem finishPackages_ok {identities : Finset String}
    {entries : List (String × LoadedPackageSnapshot Path)} {all left : FiniteMap String ResolvedPackageEdges}
    {packages : List (ResolvedPackageSnapshot Path)} (hnodup : (entries.map Prod.fst).Nodup)
    (h : finishPackages identities entries all = .ok (packages, left)) :
    packages.map ResolvedPackageSnapshot.identity = entries.map Prod.fst ∧
      ∀ package ∈ packages, ∃ loaded resolved, (package.identity, loaded) ∈ entries ∧
        all.get? package.identity = some resolved ∧
        validateEdges package.identity loaded.declaration resolved identities =
          (.ok (package.dependencies, package.locks) : Except (PackageGraphError Path) _) ∧
        loaded = ⟨package.displayName, package.canonicalRoot, package.declaration⟩ := by
  induction entries generalizing all packages with
  | nil =>
    cases h
    exact ⟨rfl, fun _ h => absurd h List.not_mem_nil⟩
  | cons entry entries ih =>
    obtain ⟨identity, loaded⟩ := entry
    rw [List.map_cons, List.nodup_cons] at hnodup
    rw [finishPackages] at h
    split at h
    · cases h
    next resolved hresolved =>
      obtain ⟨⟨dependencies, locks⟩, hvalid, h⟩ := except_bind_ok.mp h
      obtain ⟨⟨rest, restLeft⟩, hrest, h⟩ := except_bind_ok.mp h
      cases h
      obtain ⟨hidentities, hpackages⟩ := ih hnodup.2 hrest
      constructor
      · rw [List.map_cons, List.map_cons, hidentities]
      · refine List.forall_mem_cons.mpr ⟨⟨loaded, resolved, List.mem_cons_self, hresolved, hvalid, rfl⟩, ?_⟩
        intro package hpackage
        obtain ⟨otherLoaded, otherResolved, hmem, hedges, hvalidated, hloaded⟩ := hpackages package hpackage
        have hne : package.identity ≠ identity := by
          intro hsame
          rw [← hidentities, ← hsame] at hnodup
          exact hnodup.1 (List.mem_map_of_mem hpackage)
        rw [FiniteMap.get_erase, if_neg hne] at hedges
        exact ⟨otherLoaded, otherResolved, List.mem_cons_of_mem _ hmem, hedges, hvalidated, hloaded⟩

theorem rootOf_some {packages : List (ResolvedPackageSnapshot Path)} {identity : String} {root : Path}
    (h : rootOf packages identity = some root) :
    ∃ package ∈ packages, package.identity = identity ∧ package.canonicalRoot = root := by
  obtain ⟨package, hfind, rfl⟩ := Option.map_eq_some_iff.mp h
  have hsame := List.find?_some hfind
  exact ⟨package, List.mem_of_find?_eq_some hfind, of_decide_eq_true hsame, rfl⟩

variable {files : Universe Path}

theorem canonicalize_ok {operation : String} {path root : Path}
    (h : canonicalize files operation path = .ok root) : files.canonicalize path = .ok root := by
  rw [canonicalize] at h
  split at h
  next found hfound =>
    cases h
    exact hfound
  next => cases h

variable [DecidableEq Path]

/-- A validated path dependency points to the package at its canonical root. -/
theorem validatePathRoot_ok {packages : List (ResolvedPackageSnapshot Path)}
    {package : ResolvedPackageSnapshot Path} {aliasName path : String}
    (h : validatePathRoot files packages package aliasName (.path path) = .ok ()) :
    ∃ other ∈ packages, package.dependencies.get? aliasName = some other.identity ∧
      files.canonicalize (files.join package.canonicalRoot path) = .ok other.canonicalRoot := by
  obtain ⟨expected, hexpected, h⟩ := except_bind_ok.mp h
  split at h
  · cases h
  next target htarget =>
    split at h
    · cases h
    next actual hactual =>
      split at h
      · cases h
      next hsame =>
        rw [ne_eq, not_not] at hsame
        obtain ⟨other, hother, rfl, rfl⟩ := rootOf_some hactual
        refine ⟨other, hother, htarget, ?_⟩
        rw [← hsame]
        exact canonicalize_ok hexpected

theorem validatePathRoots_ok {packages : List (ResolvedPackageSnapshot Path)}
    (h : validatePathRoots files packages = .ok ()) : ∀ package ∈ packages, ∀ aliasName dependency path,
      Declares package.declaration aliasName dependency → dependency.source = .path path →
      ∃ other ∈ packages, package.dependencies.get? aliasName = some other.identity ∧
        files.canonicalize (files.join package.canonicalRoot path) = .ok other.canonicalRoot := by
  intro package hpackage aliasName dependency path hdeclares hsource
  obtain ⟨declaration, hdeclaration, hdependency⟩ := hdeclares
  have hchecked := forM_ok_iff.mp h package hpackage
  simp only [hdeclaration] at hchecked
  have hdeclared := forM_ok_iff.mp hchecked (aliasName, dependency) (FiniteMap.mem_entries.mpr hdependency)
  simp only [hsource] at hdeclared
  exact validatePathRoot_ok hdeclared

theorem finish_ok {builder : PackageGraphBuilder Path} {all : FiniteMap String ResolvedPackageEdges}
    {graph : List (ResolvedPackageSnapshot Path)} (h : builder.finish files all = .ok graph) :
    graph.map ResolvedPackageSnapshot.identity = builder.packages.entries.map Prod.fst ∧
      (∀ package ∈ graph, ∃ resolved, builder.packages.get? package.identity =
          some ⟨package.displayName, package.canonicalRoot, package.declaration⟩ ∧
        all.get? package.identity = some resolved ∧
        validateEdges package.identity package.declaration resolved builder.packages.keys =
          (.ok (package.dependencies, package.locks) : Except (PackageGraphError Path) _)) ∧
      validatePathRoots files graph = .ok () := by
  obtain ⟨⟨packages, left⟩, hpackages, h⟩ := except_bind_ok.mp h
  obtain ⟨hidentities, hfinished⟩ := finishPackages_ok (FiniteMap.entries_nodup _) hpackages
  simp only at h
  split at h
  · cases h
  · obtain ⟨_, hpaths, h⟩ := except_bind_ok.mp h
    cases h
    refine ⟨hidentities, fun package hpackage => ?_, hpaths⟩
    obtain ⟨loaded, resolved, hmem, hedges, hvalid, rfl⟩ := hfinished package hpackage
    exact ⟨resolved, FiniteMap.mem_entries.mp hmem, hedges, hvalid⟩

end Finish

/-! ## Resolved selections -/

section Selections

variable {Path : Type} {files : Universe Path} {resolver : DependencyResolver Path}
  {overlay : String → String → Option ExactDependencyLock} {standard rootId : String}
  {standardRoot commandRoot : Path}

/-- A graph of the reachable packages, closed under its edges. -/
structure ClosedGraph (files : Universe Path) (resolver : DependencyResolver Path)
    (overlay : String → String → Option ExactDependencyLock) (standard : String) (standardRoot : Path)
    (rootId : String) (commandRoot : Path) (graph : List (ResolvedPackageSnapshot Path)) : Prop where
  reachable : ∀ identity root,
    (∃ package ∈ graph, package.identity = identity ∧ package.canonicalRoot = root) ↔
      Reaches files resolver overlay standard standardRoot rootId commandRoot identity root
  distinct : (graph.map ResolvedPackageSnapshot.identity).Nodup
  one_root : ∀ package ∈ graph, ∀ other ∈ graph, package.identity = other.identity →
    package.canonicalRoot = other.canonicalRoot
  one_identity : ∀ package ∈ graph, ∀ other ∈ graph, package.canonicalRoot = other.canonicalRoot →
    package.identity = other.identity
  loaded : ∀ package ∈ graph,
    files.rootSource package.canonicalRoot = .ok (package.displayName, package.declaration)
  aliases : ∀ package ∈ graph, ∀ aliasName, (package.dependencies.get? aliasName).isSome ↔
    aliasName = standardAlias ∨ ∃ dependency, Declares package.declaration aliasName dependency
  implicit : ∀ package ∈ graph, package.dependencies.get? standardAlias = some standard ∧
    ∀ dependency, ¬Declares package.declaration standardAlias dependency
  resolved : ∀ package ∈ graph, ∀ aliasName dependency, Declares package.declaration aliasName dependency →
    ∃ found, resolveDependency files resolver overlay package.identity package.canonicalRoot aliasName
      dependency = .ok found ∧ package.dependencies.get? aliasName = some found.target
  target : ∀ package ∈ graph, ∀ aliasName target, package.dependencies.get? aliasName = some target →
    ∃ other ∈ graph, other.identity = target
  locked : ∀ package ∈ graph, ∀ aliasName dependency, Declares package.declaration aliasName dependency →
    Locked dependency (package.locks.get? aliasName)
  unlocked : ∀ package ∈ graph, ∀ aliasName, (∀ dependency, ¬Declares package.declaration aliasName dependency) →
    package.locks.get? aliasName = none
  paths : ∀ package ∈ graph, ∀ aliasName dependency path,
    Declares package.declaration aliasName dependency → dependency.source = .path path →
    ∃ other ∈ graph, package.dependencies.get? aliasName = some other.identity ∧
      files.canonicalize (files.join package.canonicalRoot path) = .ok other.canonicalRoot

variable [DecidableEq Path]

/-- A finished worklist gives a closed graph. -/
theorem closed_of_finish {state : ResolutionState Path} {graph : List (ResolvedPackageSnapshot Path)}
    (hstate : WorklistInvariant files resolver overlay standard standardRoot rootId commandRoot none state)
    (hpending : ∀ identity, state.pending.get? identity = none)
    (h : state.builder.finish files state.edges = .ok graph) :
    ClosedGraph files resolver overlay standard standardRoot rootId commandRoot graph := by
  obtain ⟨hidentities, hfinished, hpaths⟩ := finish_ok h
  have hconsistent := hstate.consistent
  have hroot : ∀ package ∈ graph, state.roots.get? package.identity = some package.canonicalRoot ∧
      files.rootSource package.canonicalRoot = .ok (package.displayName, package.declaration) := by
    intro package hpackage
    obtain ⟨resolved, hloaded, -⟩ := hfinished package hpackage
    exact hconsistent.loaded _ _ hloaded
  have hmember : ∀ identity, identity ∈ state.builder.packages.keys →
      ∃ package ∈ graph, package.identity = identity := by
    intro identity hidentity
    obtain ⟨loaded, hloaded⟩ := Option.isSome_iff_exists.mp (state.builder.packages.mem_keys.mp hidentity)
    have hentry := List.mem_map_of_mem (f := Prod.fst) (FiniteMap.mem_entries.mpr hloaded)
    rw [← hidentities] at hentry
    exact List.mem_map.mp hentry
  have hedges : ∀ package ∈ graph, ∃ resolved pending,
      ResolvesEdges files resolver overlay package.identity package.canonicalRoot
        (Declares package.declaration) ⟨resolved.authored, resolved.locks, pending⟩ ∧
      resolved.implicit = FiniteMap.empty.insert standardAlias standard ∧
      validateEdges package.identity package.declaration resolved state.builder.packages.keys =
        (.ok (package.dependencies, package.locks) : Except (PackageGraphError Path) _) := by
    intro package hpackage
    obtain ⟨resolved, hloaded, hresolved, hvalid⟩ := hfinished package hpackage
    obtain ⟨settled, pending, hsettled, hresolves, himplicit, -⟩ := hstate.settled _ _ hresolved
    cases hloaded.symm.trans hsettled
    exact ⟨resolved, pending, hresolves, himplicit, hvalid⟩
  constructor
  · intro identity root
    constructor
    · rintro ⟨package, hpackage, rfl, rfl⟩
      exact hstate.reached _ _ (hroot package hpackage).1
    · intro hreach
      have hknown := hstate.complete hpending hreach
      obtain ⟨loaded, hloaded, -⟩ := hconsistent.known identity root hknown
      obtain ⟨package, hpackage, rfl⟩ := hmember identity (FiniteMap.mem_keys_of_get hloaded)
      exact ⟨package, hpackage, rfl, Option.some.inj ((hroot package hpackage).1.symm.trans hknown)⟩
  · rw [hidentities]
    exact FiniteMap.entries_nodup _
  · intro package hpackage other hother hsame
    have hpackageRoot := (hroot package hpackage).1
    rw [hsame] at hpackageRoot
    exact Option.some.inj (hpackageRoot.symm.trans (hroot other hother).1)
  · intro package hpackage other hother hsame
    have hpackageRoot := (hconsistent.unique _ _).mpr (hroot package hpackage).1
    rw [hsame] at hpackageRoot
    exact Option.some.inj (hpackageRoot.symm.trans ((hconsistent.unique _ _).mpr (hroot other hother).1))
  · exact fun package hpackage => (hroot package hpackage).2
  · intro package hpackage aliasName
    obtain ⟨resolved, pending, hresolves, himplicit, hvalid⟩ := hedges package hpackage
    obtain ⟨-, hdependencies, -⟩ := validateEdges_ok himplicit hvalid
    rw [hdependencies, FiniteMap.get_insert]
    split
    next hstandard => exact iff_of_true rfl (Or.inl hstandard)
    next hother =>
      rw [or_iff_right hother]
      constructor
      · intro hsome
        by_contra hnone
        rw [(hresolves.only aliasName fun dependency hdeclares => hnone ⟨dependency, hdeclares⟩).1] at hsome
        cases hsome
      · rintro ⟨dependency, hdeclares⟩
        obtain ⟨selection, -, -, htarget, -⟩ := hresolves.declared aliasName dependency hdeclares
        rw [htarget]
        rfl
  · intro package hpackage
    obtain ⟨resolved, pending, hresolves, himplicit, hvalid⟩ := hedges package hpackage
    obtain ⟨hfree, hdependencies, -⟩ := validateEdges_ok himplicit hvalid
    refine ⟨by rw [hdependencies, FiniteMap.get_insert, if_pos rfl], fun dependency hdeclares => ?_⟩
    obtain ⟨selection, -, -, htarget, -⟩ := hresolves.declared standardAlias dependency hdeclares
    rw [hfree] at htarget
    cases htarget
  · intro package hpackage aliasName dependency hdeclares
    obtain ⟨resolved, pending, hresolves, himplicit, hvalid⟩ := hedges package hpackage
    obtain ⟨hfree, hdependencies, -⟩ := validateEdges_ok himplicit hvalid
    obtain ⟨selection, -, hselection, htarget, -⟩ := hresolves.declared aliasName dependency hdeclares
    refine ⟨selection, hselection, ?_⟩
    rw [hdependencies, FiniteMap.get_insert, if_neg]
    · exact htarget
    · rintro rfl
      rw [hfree] at htarget
      cases htarget
  · intro package hpackage aliasName target htarget
    obtain ⟨resolved, pending, -, himplicit, hvalid⟩ := hedges package hpackage
    obtain ⟨-, -, htargets, -⟩ := validateEdges_ok himplicit hvalid
    exact hmember target (htargets aliasName target htarget)
  · intro package hpackage
    obtain ⟨resolved, pending, -, himplicit, hvalid⟩ := hedges package hpackage
    exact (validateEdges_ok himplicit hvalid).2.2.2.1
  · intro package hpackage
    obtain ⟨resolved, pending, -, himplicit, hvalid⟩ := hedges package hpackage
    exact (validateEdges_ok himplicit hvalid).2.2.2.2
  · exact validatePathRoots_ok hpaths

/-- The first state of the worklist has the two packages. -/
theorem initialState_ok {request : StandardPackage Path} {state : ResolutionState Path}
    (h : initialState files request standardRoot rootId commandRoot = .ok state) :
    WorklistInvariant files resolver overlay request.identity standardRoot rootId commandRoot none state := by
  obtain ⟨first, hfirst, h⟩ := except_bind_ok.mp h
  obtain ⟨_, -, h⟩ := except_bind_ok.mp h
  have hempty : Consistent files none
      (⟨⟨FiniteMap.empty, FiniteMap.empty⟩, FiniteMap.empty, FiniteMap.empty, FiniteMap.empty⟩ :
        ResolutionState Path) := by
    constructor <;> simp
  obtain ⟨hconsistent, hbegun, hroots⟩ := insertPackage_ok hempty (by simp) hfirst
  obtain ⟨hnext, hextends, hnextRoots⟩ := insertPackage_ok hconsistent (by simp) h
  have hedges : ∀ identity, state.edges.get? identity = none := by
    intro identity
    rw [hextends.edges, hbegun.edges, FiniteMap.get_empty]
  refine ⟨hnext, ?_, ?_, ?_, ?_⟩
  · apply hextends.roots
    rw [hroots, FiniteMap.get_insert, if_pos rfl]
  · rw [hnextRoots, FiniteMap.get_insert, if_pos rfl]
  · intro identity root hroot
    rw [hnextRoots, hroots, FiniteMap.get_insert, FiniteMap.get_insert] at hroot
    split at hroot
    next hsame =>
      cases hroot
      rw [hsame]
      exact .root
    next =>
      split at hroot
      next hsame =>
        cases hroot
        rw [hsame]
        exact .standard
      next => cases hroot
  · intro identity edges hsome
    rw [hedges] at hsome
    cases hsome

/-- Resolution ends, and what it selects is a closed graph of the reachable packages. -/
theorem resolution_closed (files : Universe Path) (request : PackageResolutionRequest Path)
    (accepted : Finset Path)
    (haccepted : ∀ root found, files.rootSource root = .ok found → root ∈ accepted) :
    ∃ result, (∀ passes, accepted.card < passes →
        resolvePackageSelection files request passes = some result) ∧
      ∀ selection, result = .ok selection → ∃ root rootId standardRoot,
        canonicalPackageRoot files request.root = .ok root ∧
        PackageId.fromCanonicalPath files root = .ok rootId ∧
        canonicalPackageRoot files request.standard.root = .ok standardRoot ∧
        selection.root = rootId ∧ selection.standard = request.standard.identity ∧
        ClosedGraph files (dependencyResolver files request root) request.lockOverlay
          request.standard.identity standardRoot rootId root selection.graph := by
  cases hstart : startResolution files request with
  | error error =>
    refine ⟨.error error, fun passes _ => ?_, fun selection h => by cases h⟩
    rw [resolvePackageSelection, hstart]
  | ok start =>
    obtain ⟨root, hroot, hsteps⟩ := except_bind_ok.mp hstart
    obtain ⟨rootId, hrootId, hsteps⟩ := except_bind_ok.mp hsteps
    obtain ⟨standardRoot, hstandard, hsteps⟩ := except_bind_ok.mp hsteps
    obtain ⟨state, hstate, hsteps⟩ := except_bind_ok.mp hsteps
    cases hsteps
    have hinvariant := @initialState_ok _ files (dependencyResolver files request root) request.lockOverlay
      _ _ _ _ _ _ hstate
    obtain ⟨outcome, houtcome, hspec⟩ := worklist_spec haccepted hinvariant
    refine ⟨outcome >>= finishResolution files rootId request.standard.identity, fun passes hpasses => ?_, ?_⟩
    · rw [resolvePackageSelection, hstart]
      simp only
      rw [houtcome passes hpasses, Option.map_some]
    · intro selection hselection
      obtain ⟨last, hlast, hselection⟩ := except_bind_ok.mp hselection
      obtain ⟨graph, hgraph, hselection⟩ := except_bind_ok.mp hselection
      cases hselection
      obtain ⟨hpending, hfinal⟩ := hspec last hlast
      exact ⟨root, rootId, standardRoot, inGraph_eq_ok.mp hroot, inPackageId_eq_ok.mp hrootId,
        inGraph_eq_ok.mp hstandard, rfl, rfl, closed_of_finish hfinal hpending (inGraph_eq_ok.mp hgraph)⟩

end Selections

/-- A root package at `/app` and a standard package, without declarations. -/
def twoPackages : Universe Bool where
  canonicalize path := .ok path
  join path _ := path
  isAbsolute _ := true
  toStr path := some (if path then "/app" else "/std")
  isDir _ := true
  symlinkMetadata _ := .ok false
  verifyExactPackage _ _ := .error "not a package"
  sha256Hex _ := "f53b52ad6d21cceb72dfa78fb67614fe14f110c58e68412b01508d6a485501c3"
  rootSource path := .ok (if path then "app" else "std", none)

def twoPackagesRequest : PackageResolutionRequest Bool where
  root := true
  nocterHome := true
  standard := ⟨"std-release", false, "release"⟩
  policy := ⟨false, false⟩
  lockOverlay _ _ := none
  storeOverlay _ := none

theorem twoPackages_closed : ∃ result,
    resolvePackageSelection twoPackages twoPackagesRequest 3 = some result := by
  obtain ⟨result, hresult, -⟩ := resolution_closed twoPackages twoPackagesRequest Finset.univ
    fun root _ _ => Finset.mem_univ root
  exact ⟨result, hresult 3 (by decide)⟩

end Nocter.Package
