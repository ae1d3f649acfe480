import CodexAgents.Lib.LongestPrefix
import CodexAgents.Lib.Text

/-!
# File system permissions

`protocol/src/permissions.rs` and `WritableRoot` of `protocol/src/protocol.rs`: a policy is a list
of entries, each of which lets a path be read, be written, or neither.  What may be done with a path
is decided by the longest entry on the way to it (`resolveAccessWithCwd`).  Directories that can be
written keep their metadata (`.git`, `.agents`, `.codex`) unless there is an entry for it
(`isMetadataWriteDenied`).  For the sandboxes of the operating system a policy is turned into roots
with what is carved out of them (`getWritableRootsWithCwd`), and these are what two policies are
compared by (`semanticSignature`).

An absolute path in normal form, an `AbsolutePathBuf`, is the list of its components below the root
(`AbsPath`).  The file system has no symbolic links: `normalize_effective_absolute_path` is the
identity on it, and `canonicalize` too.
-/

namespace Permissions

open Text

/-! ## Paths -/

/-- An absolute path in normal form, as its names. -/
abbrev AbsPath := List Str

/-- A part of a path. -/
inductive Component where
  | curDir
  | parentDir
  | normal (name : Str)
  deriving DecidableEq

/-- A part as text. -/
def Component.asOsStr : Component → Str
  | curDir => "."
  | parentDir => ".."
  | normal name => name

/-- A path as it is written. -/
structure RawPath where
  isAbsolute : Bool
  components : List Component

/-- The parts between slashes. -/
def RawPath.parse (s : Str) : RawPath where
  isAbsolute := s.head? = some '/'
  components := (s.splitOn '/').filterMap fun part =>
    if part = [] then none
    else if part = "." then some .curDir
    else if part = ".." then some .parentDir
    else some (.normal part)

/-- One more part of a path, in normal form. -/
def normalizeStep (normalized : AbsPath) : Component → AbsPath
  | .curDir => normalized
  | .parentDir => normalized.dropLast
  | .normal name => normalized ++ [name]

/-- `normalize_path`, below a path that is in normal form. -/
def normalizePath (base : AbsPath) (components : List Component) : AbsPath :=
  components.foldl normalizeStep base

/-- `Path::components` of an absolute path, below the root: of the dots only `..` is kept. -/
def RawPath.parts (path : RawPath) : List Component := path.components.filter (· ≠ .curDir)

/-- `Path::starts_with`, which compares paths as they are written. -/
def RawPath.startsWith (path : RawPath) (base : AbsPath) : Bool :=
  path.isAbsolute && decide (base.map .normal <+: path.parts)

/-- An absolute path, as it is written. -/
def AbsPath.toRaw (path : AbsPath) : RawPath := ⟨true, path.map .normal⟩

instance : Coe AbsPath RawPath := ⟨AbsPath.toRaw⟩

/-- A path as text. -/
def AbsPath.toStr (path : AbsPath) : Str :=
  if path = [] then ['/'] else path.flatMap ('/' :: ·)

/-- What permissions are resolved against, apart from the current directory. -/
structure Host where
  /-- `cfg!(unix)`. -/
  unix : Bool := true
  home : Option AbsPath := none
  /-- `TMPDIR`, if it is set and not empty. -/
  tmpdir : Option AbsPath := none
  isDir : AbsPath → Bool
  isFile : AbsPath → Bool
  pathExists : AbsPath → Bool
  readToString : AbsPath → Option Str

/-- A path that begins with `~` is one below the home directory. -/
def resolvePathAgainstBase (host : Host) (path : RawPath) (base : AbsPath) : AbsPath :=
  if path.isAbsolute then normalizePath [] path.components
  else
    match path.components, host.home with
    | .normal ['~'] :: rest, some home => normalizePath home rest
    | components, _ => normalizePath base components

/-- The path that is asked about. -/
def resolveCandidatePath (host : Host) (path : RawPath) (cwd : AbsPath) : AbsPath :=
  resolvePathAgainstBase host path cwd

/-- What is left of a path below another. -/
def stripPrefix (path base : AbsPath) : Option AbsPath :=
  if base <+: path then some (path.drop base.length) else none

/-! ## Policies -/

/-- In the order in which they prevail over each other on one path. -/
inductive FileSystemAccessMode where
  | read
  | write
  | deny
  deriving DecidableEq

namespace FileSystemAccessMode

/-- Of two accesses to one path, the higher counts. -/
def rank : FileSystemAccessMode → Nat
  | read => 0
  | write => 1
  | deny => 2

lemma rank_injective : Function.Injective rank := by
  intro a b h
  cases a <;> cases b <;> first | rfl | cases h

instance : LinearOrder FileSystemAccessMode := LinearOrder.lift' rank rank_injective

/-- Reading is allowed. -/
def canRead : FileSystemAccessMode → Bool
  | deny => false
  | _ => true

/-- Writing is allowed. -/
def canWrite : FileSystemAccessMode → Bool
  | write => true
  | _ => false

end FileSystemAccessMode

/-- Paths that depend on the host and the working directory. -/
inductive FileSystemSpecialPath where
  | root
  | minimal
  | projectRoots (subpath : Option Str)
  | tmpdir
  | slashTmp
  | unknown (path : Str) (subpath : Option Str)
  deriving DecidableEq

/-- What an entry is for. -/
inductive FileSystemPath where
  | path (path : AbsPath)
  | globPattern (pattern : Str)
  | special (value : FileSystemSpecialPath)
  deriving DecidableEq

/-- What is done about a path that is not there. -/
inductive MissingPathBehavior where
  | skip
  deriving DecidableEq

/-- An access to a path. -/
structure FileSystemSandboxEntry where
  path : FileSystemPath
  access : FileSystemAccessMode
  missingPathBehavior : Option MissingPathBehavior := none
  deriving DecidableEq

/-- Who restricts the access. -/
inductive FileSystemSandboxKind where
  | restricted
  | unrestricted
  | externalSandbox
  deriving DecidableEq

/-- The accesses of a sandbox. -/
structure FileSystemSandboxPolicy where
  kind : FileSystemSandboxKind
  globScanMaxDepth : Option Nat := none
  entries : List FileSystemSandboxEntry := []

/-- A restricted policy. -/
def FileSystemSandboxPolicy.ofEntries (entries : List FileSystemSandboxEntry) :
    FileSystemSandboxPolicy where
  kind := .restricted
  entries

/-! ## Entries on paths -/

/-- The path `/tmp`. -/
def slashTmp : AbsPath := ["tmp"]

variable (host : Host) (cwd : AbsPath)

/-- Where a special path is. -/
def resolveFileSystemSpecialPath : FileSystemSpecialPath → Option AbsPath
  | .root => none
  | .minimal => none
  | .unknown _ _ => none
  | .projectRoots (some subpath) => some (resolvePathAgainstBase host (RawPath.parse subpath) cwd)
  | .projectRoots none => some cwd
  | .tmpdir => host.tmpdir
  | .slashTmp => if host.unix && host.isDir slashTmp then some slashTmp else none

/-- Where an entry is; a glob is nowhere. -/
def resolveFileSystemPath : FileSystemPath → Option AbsPath
  | .path path => some path
  | .globPattern _ => none
  | .special value => resolveFileSystemSpecialPath host cwd value

/-- The root of the file system is `[]`, for every current directory. -/
def resolveEntryPath : FileSystemPath → Option AbsPath
  | .special .root => some []
  | path => resolveFileSystemPath host cwd path

/-- The two are the same on every host. -/
def specialPathsShareTarget : FileSystemSpecialPath → FileSystemSpecialPath → Bool
  | .root, .root => true
  | .minimal, .minimal => true
  | .tmpdir, .tmpdir => true
  | .slashTmp, .slashTmp => true
  | .projectRoots left, .projectRoots right => left = right
  | .unknown left leftSubpath, .unknown right rightSubpath =>
    left = right && leftSubpath = rightSubpath
  | _, _ => false

/-- The special path is this one on every host. -/
def specialPathMatchesAbsolutePath (value : FileSystemSpecialPath) (path : AbsPath) : Bool :=
  match value with
  | .root => path = []
  | .slashTmp => path = slashTmp
  | _ => false

/-- The two entries are for the same path. -/
def fileSystemPathsShareTarget : FileSystemPath → FileSystemPath → Bool
  | .path left, .path right => left = right
  | .special left, .special right => specialPathsShareTarget left right
  | .path path, .special value => specialPathMatchesAbsolutePath value path
  | .special value, .path path => specialPathMatchesAbsolutePath value path
  | .globPattern left, .globPattern right => left = right
  | .globPattern _, _ => false
  | _, .globPattern _ => false

/-- An access to an absolute path. -/
structure ResolvedFileSystemEntry where
  path : AbsPath
  access : FileSystemAccessMode

/-- Entries for longer paths prevail, and then the access that does. -/
def resolvedEntryPrecedence (entry : ResolvedFileSystemEntry) : Nat ×ₗ FileSystemAccessMode :=
  toLex (entry.path.length + 1, entry.access)

/-- Names that are not written under a writable root. -/
def protectedMetadataPathNames : List Str := [".git", ".agents", ".codex"]

/-- The protected name, if it is one. -/
def metadataPathName (name : Str) : Option Str := protectedMetadataPathNames.find? (name = ·)

namespace FileSystemSandboxPolicy

variable (host : Host) (policy : FileSystemSandboxPolicy) (cwd : AbsPath)

/-- The entries that have a path. -/
def resolvedEntriesWithCwd : List ResolvedFileSystemEntry :=
  policy.entries.filterMap fun entry =>
    (resolveEntryPath host cwd entry.path).map fun path => ⟨path, entry.access⟩

/-! ## The whole disk -/

/-- Some entry for the root has the access. -/
def hasRootAccess (predicate : FileSystemAccessMode → Bool) : Bool :=
  policy.kind = .restricted &&
    policy.entries.any fun entry => entry.path = .special .root && predicate entry.access

/-- Something cannot be read. -/
def hasDeniedReadRestrictions : Bool :=
  policy.kind = .restricted && policy.entries.any fun entry =>
      entry.access = .deny && !(entry.path = .special .slashTmp && !host.unix)

/-- A stronger entry for the same path allows writing. -/
def hasSameTargetWriteOverride (entry : FileSystemSandboxEntry) : Bool :=
  policy.entries.any fun candidate =>
    candidate.access.canWrite && entry.access < candidate.access &&
      fileSystemPathsShareTarget candidate.path entry.path

/-- Something cannot be written. -/
def hasWriteNarrowingEntries : Bool :=
  policy.kind = .restricted && policy.entries.any fun entry =>
      !entry.access.canWrite && match entry.path with
        | .path _ => !policy.hasSameTargetWriteOverride entry
        | .globPattern _ => true
        | .special .root => entry.access = .deny
        | .special .slashTmp => host.unix && !policy.hasSameTargetWriteOverride entry
        | .special .minimal => false
        | .special (.unknown _ _) => false
        | .special _ => !policy.hasSameTargetWriteOverride entry

/-- Everything is taken to be readable. -/
def hasFullDiskReadAccess : Bool :=
  match policy.kind with
  | .restricted => policy.hasRootAccess (·.canRead) && !policy.hasDeniedReadRestrictions host
  | _ => true

/-- Everything is taken to be writable. -/
def hasFullDiskWriteAccess : Bool :=
  match policy.kind with
  | .restricted => policy.hasRootAccess (·.canWrite) && !policy.hasWriteNarrowingEntries host
  | _ => true

/-- The paths that every program needs can be read. -/
def includePlatformDefaults : Bool :=
  !policy.hasFullDiskReadAccess host && policy.kind = .restricted &&
    policy.entries.any fun entry => entry.path = .special .minimal && entry.access.canRead

/-! ## Decisions -/

variable (path : RawPath)

/-- The access of the longest entry that the path is under. -/
def resolveAccessWithCwd : FileSystemAccessMode :=
  match policy.kind with
  | .restricted =>
    let target := resolveCandidatePath host path cwd
    ((((policy.resolvedEntriesWithCwd host cwd).filter fun entry =>
      entry.path <+: target).map resolvedEntryPrecedence).max?).elim .deny fun precedence =>
        (ofLex precedence).2
  | _ => .write

/-- The metadata directory a path is in, of the first entry that makes it one. -/
def metadataChildOfWritableRoot (target : AbsPath) : Option (AbsPath × Str) :=
  (((policy.resolvedEntriesWithCwd host cwd).filter fun entry =>
    entry.access.canWrite).filterMap fun entry => do
      let relativePath ← stripPrefix target entry.path
      let firstComponent ← relativePath.head?
      let metadataName ← metadataPathName firstComponent
      return (entry.path ++ [metadataName], metadataName)).head?

/-- An entry inside the protected path allows writing. -/
def hasExplicitWriteEntryForMetadataPath (protectedMetadataPath target : AbsPath) : Bool :=
  (policy.resolvedEntriesWithCwd host cwd).any fun entry =>
    entry.access.canWrite && entry.path <+: target && protectedMetadataPath <+: entry.path

/-- The path is under a protected name, and no entry there allows writing. -/
def isMetadataWriteDenied : Bool :=
  if policy.kind = .restricted then
    let target := resolveCandidatePath host path cwd
    match policy.metadataChildOfWritableRoot host cwd target with
    | none => false
    | some (protectedMetadataPath, _) =>
      !policy.hasExplicitWriteEntryForMetadataPath host cwd protectedMetadataPath target
  else false

/-- The path can be read. -/
def canReadPathWithCwd : Bool := (policy.resolveAccessWithCwd host cwd path).canRead

/-- The path can be written. -/
def canWritePathWithCwd : Bool :=
  if !(policy.resolveAccessWithCwd host cwd path).canWrite then false
  else if policy.hasFullDiskWriteAccess host then true
  else !policy.isMetadataWriteDenied host cwd path

end FileSystemSandboxPolicy

/-! ## Roots -/

/-- A path under which files can be written, with exceptions. -/
structure WritableRoot where
  root : AbsPath
  readOnlySubpaths : List AbsPath
  protectedMetadataNames : List Str
  deriving DecidableEq

namespace WritableRoot

/-- The first name under the root is protected. -/
def pathContainsProtectedMetadataName (root : WritableRoot) (path : RawPath) : Bool :=
  path.startsWith root.root && (path.parts.drop root.root.length).head?.any fun firstComponent =>
    root.protectedMetadataNames.any (firstComponent.asOsStr = ·)

/-- The path is under the root and no exception. -/
def isPathWritable (root : WritableRoot) (path : RawPath) : Bool :=
  path.startsWith root.root && !root.readOnlySubpaths.any path.startsWith &&
    !root.pathContainsProtectedMetadataName path

end WritableRoot

/-- The first of each. -/
def dedupAbsolutePaths (paths : List AbsPath) : List AbsPath :=
  paths.foldl (fun deduped path => if path ∈ deduped then deduped else deduped ++ [path]) []

/-- A path on a file system without symbolic links. -/
def normalizeEffectiveAbsolutePath (path : AbsPath) : AbsPath := path

variable (host : Host)

/-- Where the `.git` file of a worktree or a submodule points to. -/
def resolveGitdirFromFile (dotGit : AbsPath) : Option AbsPath := do
  let contents ← host.readToString dotGit
  let trimmed := trim contents
  if ':' ∉ trimmed then none
  let gitdirRaw := trim ((trimmed.dropWhile (· ≠ ':')).tail)
  if trim (trimmed.takeWhile (· ≠ ':')) ≠ "gitdir" then none
  if gitdirRaw = [] then none
  if dotGit = [] then none
  let gitdirPath := resolvePathAgainstBase host (RawPath.parse gitdirRaw) dotGit.dropLast
  if host.pathExists gitdirPath then some gitdirPath else none

/-- A file that says where the repository is. -/
def isGitPointerFile (path : AbsPath) : Bool :=
  host.isFile path && path.getLast? = some ".git"

/-- The exceptions of every root. -/
def defaultReadOnlySubpathsForWritableRoot (writableRoot : AbsPath)
    (protectMissingDotCodex : Bool) : List AbsPath :=
  let topLevelGit := writableRoot ++ [".git".toList]
  let gitdir :=
    if host.isFile topLevelGit && isGitPointerFile host topLevelGit then
      (resolveGitdirFromFile host topLevelGit).toList
    else []
  let git :=
    if host.isDir topLevelGit || host.isFile topLevelGit then gitdir ++ [topLevelGit] else []
  let topLevelAgents := writableRoot ++ [".agents".toList]
  let agents := if host.isDir topLevelAgents then [topLevelAgents] else []
  let topLevelCodex := writableRoot ++ [".codex".toList]
  let codex :=
    if protectMissingDotCodex || host.isDir topLevelCodex then [topLevelCodex] else []
  dedupAbsolutePaths (git ++ agents ++ codex)

namespace FileSystemSandboxPolicy

variable (host : Host) (policy : FileSystemSandboxPolicy) (cwd : AbsPath) (root : AbsPath)

/-- The protected names that cannot be written under the root. -/
def protectedMetadataNamesForWritableRoot (rawWritableRoots : List AbsPath) : List Str :=
  protectedMetadataPathNames.filter fun metadataName =>
    ((root ++ [metadataName]) :: rawWritableRoots.map (· ++ [metadataName])).all fun path =>
      !policy.canWritePathWithCwd host cwd path

/-- The path of an entry that is carved out of a root, as it is written or as it is resolved. -/
def carveoutPath (rawWritableRoots : List AbsPath)
    (entry : ResolvedFileSystemEntry) : Option AbsPath :=
  let effectivePath := normalizeEffectiveAbsolutePath entry.path
  let rawCarveoutPath :=
    if root = [] then none
    else if entry.path = root then none
    else if root <+: entry.path then some entry.path
    else rawWritableRoots.findSome? fun rawRoot =>
      match stripPrefix entry.path rawRoot with
      | some (name :: suffix) => some (root ++ name :: suffix)
      | _ => none
  match rawCarveoutPath with
  | some path => some path
  | none => if effectivePath = root ∨ ¬ root <+: effectivePath then none else some effectivePath

/-- The entries whose paths can be written. -/
def writableEntries : List AbsPath :=
  (((policy.resolvedEntriesWithCwd host cwd).filter fun entry =>
    entry.access.canWrite).filter fun entry =>
      policy.canWritePathWithCwd host cwd entry.path).map (·.path)

/-- A root with its exceptions. -/
def writableRoot : WritableRoot :=
  let resolvedEntries := policy.resolvedEntriesWithCwd host cwd
  let rawWritableRoots := (policy.writableEntries host cwd).filter fun path =>
    normalizeEffectiveAbsolutePath path = root
  let protectMissingDotCodex := normalizeEffectiveAbsolutePath cwd = root
  { root
    protectedMetadataNames :=
      policy.protectedMetadataNamesForWritableRoot host cwd root rawWritableRoots
    readOnlySubpaths := dedupAbsolutePaths <|
      (defaultReadOnlySubpathsForWritableRoot host root protectMissingDotCodex).filter
          (fun path => !resolvedEntries.any (·.path = path)) ++
        (((resolvedEntries.filter fun entry => !entry.access.canWrite).filter fun entry =>
          !policy.canWritePathWithCwd host cwd entry.path).filterMap
            (carveoutPath root rawWritableRoots)) }

/-- All roots, unless everything can be written. -/
def getWritableRootsWithCwd : List WritableRoot :=
  if policy.hasFullDiskWriteAccess host then []
  else (dedupAbsolutePaths ((policy.writableEntries host cwd).map
    normalizeEffectiveAbsolutePath)).map (policy.writableRoot host cwd)

/-- The paths that can be read, unless everything can. -/
def getReadableRootsWithCwd : List AbsPath :=
  if policy.hasFullDiskReadAccess host then []
  else dedupAbsolutePaths <| ((((policy.resolvedEntriesWithCwd host cwd).filter fun entry =>
      entry.access.canRead).filter fun entry =>
        policy.canReadPathWithCwd host cwd entry.path).map (·.path)).map
          normalizeEffectiveAbsolutePath

/-- The root of the file system is left out. -/
def getUnreadableRootsWithCwd : List AbsPath :=
  if policy.kind = .restricted then
    dedupAbsolutePaths <| (((((policy.resolvedEntriesWithCwd host cwd).filter fun entry =>
        entry.access = .deny).filter fun entry =>
          !policy.canReadPathWithCwd host cwd entry.path).filter fun entry =>
            entry.path ≠ []).map (·.path)).map normalizeEffectiveAbsolutePath
  else []

/-- The globs of what cannot be read. -/
def getUnreadableGlobsWithCwd : List Str :=
  if policy.kind = .restricted then
    (((policy.entries.filter fun entry => entry.access = .deny).filterMap fun entry =>
      match entry.path with
      | .globPattern pattern =>
        some (AbsPath.toStr (resolvePathAgainstBase host (RawPath.parse pattern) cwd))
      | _ => none).insertionSort (· ≤ ·)).destutter (· ≠ ·)
  else []

end FileSystemSandboxPolicy

/-! ## Signatures -/

/-- Paths in order. -/
def sortedAbsolutePaths (paths : List AbsPath) : List AbsPath := paths.insertionSort (· ≤ ·)

/-- Roots in order, with exceptions in order. -/
def sortedWritableRoots (roots : List WritableRoot) : List WritableRoot :=
  (roots.map fun root =>
    { root with
      readOnlySubpaths := sortedAbsolutePaths root.readOnlySubpaths
      protectedMetadataNames :=
        (root.protectedMetadataNames.insertionSort (· ≤ ·)).destutter (· ≠ ·) }).insertionSort
          (·.root ≤ ·.root)

/-- What policies are compared by. -/
structure FileSystemSemanticSignature where
  hasFullDiskReadAccess : Bool
  hasFullDiskWriteAccess : Bool
  includePlatformDefaults : Bool
  readableRoots : List AbsPath
  writableRoots : List WritableRoot
  unreadableRoots : List AbsPath
  unreadableGlobs : List Str
  deriving DecidableEq

namespace FileSystemSandboxPolicy

variable (host : Host) (policy : FileSystemSandboxPolicy) (cwd : AbsPath)

/-- The signature of a policy. -/
def semanticSignature : FileSystemSemanticSignature where
  hasFullDiskReadAccess := policy.hasFullDiskReadAccess host
  hasFullDiskWriteAccess := policy.hasFullDiskWriteAccess host
  includePlatformDefaults := policy.includePlatformDefaults host
  readableRoots := sortedAbsolutePaths (policy.getReadableRootsWithCwd host cwd)
  writableRoots := sortedWritableRoots (policy.getWritableRootsWithCwd host cwd)
  unreadableRoots := sortedAbsolutePaths (policy.getUnreadableRootsWithCwd host cwd)
  unreadableGlobs := policy.getUnreadableGlobsWithCwd host cwd

/-- The signatures are the same. -/
def isSemanticallyEquivalentTo (other : FileSystemSandboxPolicy) : Bool :=
  policy.semanticSignature host cwd = other.semanticSignature host cwd

end FileSystemSandboxPolicy

end Permissions
