import CodexAgents.Permissions.Signature

/-!
# Grants within a request

`intersect_permission_profiles` of `sandboxing/src/policy_transforms.rs`: the permissions a command
gets are the entries of a grant that are within the request for them
(`grantedFileSystemEntryWithinRequest`), with the denials of both sides that concern them.

As rules, the result has the grants within the request, and the denials of either side that are
above or below one of them (`mem_rules_intersectEntries`).
-/

namespace Permissions

open Text LongestPrefix List

/-! ## Profiles -/

/-- What is asked for the network. -/
structure NetworkPermissions where
  enabled : Option Bool := none
  deriving DecidableEq

/-- What is asked for files. -/
structure FileSystemPermissions where
  entries : List FileSystemSandboxEntry := []
  globScanMaxDepth : Option Nat := none

/-- What is asked for, or granted. -/
structure AdditionalPermissionProfile where
  network : Option NetworkPermissions := none
  fileSystem : Option FileSystemPermissions := none

/-- What denies reading, with a matcher for each glob. -/
structure ReadDenyMatcher where
  deniedCandidates : List (List AbsPath)
  denyReadMatchers : List (AbsPath → Bool)
  invalidPattern : Bool

/-- Without symbolic links a path is the same as the canonical one. -/
def normalizedAndCanonicalCandidates (path : AbsPath) : List AbsPath := [path]

section

variable (host : Host) (buildGlobMatcher : Str → Option (AbsPath → Bool))

/-- A glob that is not valid makes every path one that is denied. -/
def ReadDenyMatcher.new (policy : FileSystemSandboxPolicy) (cwd : AbsPath) :
    Option ReadDenyMatcher :=
  if !policy.hasDeniedReadRestrictions host then none
  else
    let matchers := (policy.getUnreadableGlobsWithCwd host cwd).map buildGlobMatcher
    some
      { deniedCandidates :=
          (policy.getUnreadableRootsWithCwd host cwd).map normalizedAndCanonicalCandidates
        denyReadMatchers := matchers.filterMap id
        invalidPattern := matchers.any (·.isNone) }

/-- Some entry denies reading the path. -/
def ReadDenyMatcher.isReadDenied (matcher : ReadDenyMatcher) (path : AbsPath) : Bool :=
  matcher.invalidPattern || (matcher.deniedCandidates.any fun denied =>
      (normalizedAndCanonicalCandidates path).any fun candidate =>
        denied.any fun deniedCandidate => deniedCandidate <+: candidate) ||
    matcher.denyReadMatchers.any fun isMatch => (normalizedAndCanonicalCandidates path).any isMatch

/-- The path of an entry, if it has one. -/
def resolvePermissionPath (cwd : AbsPath) : FileSystemPath → Option AbsPath
  | .path path => some path
  | .globPattern _ => none
  | .special .root => some []
  | .special (.projectRoots (some subpath)) =>
    some (resolvePathAgainstBase host (RawPath.parse subpath) cwd)
  | .special (.projectRoots none) => some cwd
  | .special .tmpdir => host.tmpdir
  | .special .slashTmp => if host.unix && host.isDir slashTmp then some slashTmp else none
  | .special .minimal => none
  | .special (.unknown _ _) => none

/-- What is asked for is enough for what is granted. -/
def accessCovers (requested granted : FileSystemAccessMode) : Bool :=
  match granted with
  | .read => requested.canRead
  | .write => requested.canWrite
  | .deny => false

/-- The entry grants no more than was asked for. -/
def grantedFileSystemEntryWithinRequest (requested : List FileSystemSandboxEntry)
    (requestedPolicy : FileSystemSandboxPolicy)
    (requestedReadDenyMatcher : Option ReadDenyMatcher) (grantedEntry : FileSystemSandboxEntry)
    (cwd : AbsPath) : Bool :=
  if !grantedEntry.access.canRead ||
    (grantedEntry.path = .special .slashTmp && !host.unix) then false
  else
    match resolvePermissionPath host cwd grantedEntry.path with
    | some path =>
      if requestedReadDenyMatcher.any (·.isReadDenied path) then false
      else accessCovers (requestedPolicy.resolveAccessWithCwd host cwd path) grantedEntry.access
    | none =>
      requested.any fun requestedEntry =>
        accessCovers requestedEntry.access grantedEntry.access &&
          requestedEntry.path = grantedEntry.path

/-- The path of an entry that depends on the current directory, made absolute. -/
def materializeCwdDependentEntry (cwd : AbsPath) (entry : FileSystemSandboxEntry) :
    FileSystemSandboxEntry :=
  match entry.path with
  | .special (.projectRoots _) =>
    match resolvePermissionPath host cwd entry.path with
    | some path => { entry with path := .path path }
    | none => entry
  | .globPattern pattern =>
    { entry with
      path := .globPattern
        (AbsPath.toStr (resolvePathAgainstBase host (RawPath.parse pattern) cwd)) }
  | _ => entry

/-- One path is under the other. -/
def pathsOverlap (left right : AbsPath) : Bool := right <+: left || left <+: right

/-- The directory above the first wildcard. -/
def globStaticPrefixPath (pattern : Str) (cwd : AbsPath) : Option AbsPath :=
  let resolvedPattern := AbsPath.toStr (resolvePathAgainstBase host (RawPath.parse pattern) cwd)
  let isWildcard : Char → Bool := fun c => c = '*' || c = '?' || c = '[' || c = ']'
  let staticPart := resolvedPattern.takeWhile fun c => !isWildcard c
  let parsed := normalizePath [] (RawPath.parse staticPart).components
  if resolvedPattern.any isWildcard then
    if staticPart = [] then none
    else if staticPart.getLast? = some '/' || staticPart.getLast? = some '\\' then some parsed
    else some parsed.dropLast
  else some parsed

/-- The entry denies something that is granted. -/
def denyEntryConstrainsAcceptedGrant (denyEntry : FileSystemSandboxEntry)
    (acceptedEntries : List FileSystemSandboxEntry) (cwd : AbsPath) : Bool :=
  (acceptedEntries.filter (·.access.canRead)).any fun entry =>
    match resolvePermissionPath host cwd entry.path with
    | none => false
    | some grantPath =>
      match denyEntry.path with
      | .globPattern pattern =>
        (globStaticPrefixPath host pattern cwd).any fun staticPath =>
          pathsOverlap staticPath grantPath
      | path =>
        (resolvePermissionPath host cwd path).any fun denyPath => pathsOverlap denyPath grantPath

/-- An entry is added at the end, if it is not there. -/
def pushNew (entries : List FileSystemSandboxEntry) (entry : FileSystemSandboxEntry) :
    List FileSystemSandboxEntry :=
  if entry ∈ entries then entries else entries ++ [entry]

/-- The denials that concern what was accepted. -/
def constrainingDenyEntries (sourceEntries acceptedEntries : List FileSystemSandboxEntry)
    (cwd : AbsPath) : List FileSystemSandboxEntry :=
  ((sourceEntries.filter fun entry => entry.access = .deny).filter fun entry =>
    denyEntryConstrainsAcceptedGrant host entry acceptedEntries cwd).map
      (materializeCwdDependentEntry host cwd)

/-- The entries with the denials added, and the denials. -/
def retainConstrainingDenyEntries (sourceEntries acceptedEntries : List FileSystemSandboxEntry)
    (cwd : AbsPath) (outputEntries : List FileSystemSandboxEntry) :
    List FileSystemSandboxEntry × List FileSystemSandboxEntry :=
  let retained := constrainingDenyEntries host sourceEntries acceptedEntries cwd
  (retained.foldl pushNew outputEntries, retained)

/-- How deep globs are looked for. -/
inductive GlobScanDepth where
  | bounded (depth : Nat)
  | unbounded

/-- The depth, where there are globs. -/
def effectiveGlobScanDepth (entries : List FileSystemSandboxEntry) (depth : Option Nat) :
    Option GlobScanDepth :=
  let isDenyGlob : FileSystemSandboxEntry → Bool := fun entry =>
    entry.access = .deny && match entry.path with
      | .globPattern _ => true
      | _ => false
  if entries.any isDenyGlob then
    match depth with
    | some depth => some (.bounded depth)
    | none => some .unbounded
  else none

/-- The greater depth. -/
def mergeGlobScanMaxDepth (leftEntries : List FileSystemSandboxEntry) (leftDepth : Option Nat)
    (rightEntries : List FileSystemSandboxEntry) (rightDepth : Option Nat) : Option Nat :=
  match effectiveGlobScanDepth leftEntries leftDepth,
    effectiveGlobScanDepth rightEntries rightDepth with
  | some .unbounded, _ => none
  | _, some .unbounded => none
  | some (.bounded left), some (.bounded right) => some (max left right)
  | some (.bounded depth), none => some depth
  | none, some (.bounded depth) => some depth
  | none, none => none

/-- The entries of the grant that are within the request. -/
def acceptedEntries (requested granted : List FileSystemSandboxEntry) (cwd : AbsPath) :
    List FileSystemSandboxEntry :=
  let requestedPolicy := FileSystemSandboxPolicy.ofEntries requested
  let matcher := ReadDenyMatcher.new host buildGlobMatcher requestedPolicy cwd
  ((granted.filter fun entry =>
    grantedFileSystemEntryWithinRequest host requested requestedPolicy matcher entry cwd).map
      (materializeCwdDependentEntry host cwd)).foldl pushNew []

/-- What was asked for and is granted, and what is denied in it. -/
def intersectFileSystem (requested granted : FileSystemPermissions) (cwd : AbsPath) :
    FileSystemPermissions :=
  let accepted := acceptedEntries host buildGlobMatcher requested.entries granted.entries cwd
  let (entries, requestedRetained) :=
    retainConstrainingDenyEntries host requested.entries accepted cwd accepted
  let (entries, grantedRetained) :=
    retainConstrainingDenyEntries host granted.entries accepted cwd entries
  { entries
    globScanMaxDepth :=
      (mergeGlobScanMaxDepth requestedRetained requested.globScanMaxDepth grantedRetained
        granted.globScanMaxDepth).filter (· ≠ 0) }

/-- The same for all permissions. -/
def intersectPermissionProfiles (requested granted : AdditionalPermissionProfile) (cwd : AbsPath) :
    AdditionalPermissionProfile where
  fileSystem :=
    (requested.fileSystem.map fun requestedFileSystem =>
      intersectFileSystem host buildGlobMatcher requestedFileSystem (granted.fileSystem.getD {})
        cwd).filter fun fileSystem => fileSystem.entries ≠ []
  network :=
    match requested.network, granted.network with
    | some ⟨some true⟩, some ⟨some true⟩ => some ⟨some true⟩
    | _, _ => none

end

/-- The entries of a profile, as a restricted policy. -/
def AdditionalPermissionProfile.policy (profile : AdditionalPermissionProfile) :
    FileSystemSandboxPolicy :=
  .ofEntries (profile.fileSystem.getD {}).entries

/-! ## Entries that are added once -/

lemma mem_foldl_pushNew {entries kept : List FileSystemSandboxEntry}
    {entry} :
    entry ∈ entries.foldl pushNew kept ↔ entry ∈ kept ∨ entry ∈ entries :=
  mem_foldl_dedup

/-- What is found first does not depend on repetitions. -/
lemma findSome?_foldl_pushNew {β : Type} (f : FileSystemSandboxEntry → Option β)
    (entries kept : List FileSystemSandboxEntry) :
    (entries.foldl pushNew kept).findSome? f = (kept ++ entries).findSome? f := by
  induction entries generalizing kept with
  | nil => rw [foldl_nil, append_nil]
  | cons entry entries ih =>
    rw [foldl_cons, ih, pushNew]
    split_ifs with hmem
    · rw [findSome?_append, findSome?_append, findSome?_cons]
      rcases hfound : f entry with _ | found
      · rfl
      · have hkept : (kept.findSome? f).isSome := by
          rw [findSome?_isSome_iff]
          exact ⟨entry, hmem, by rw [hfound]; rfl⟩
        obtain ⟨first, hfirst⟩ := Option.isSome_iff_exists.mp hkept
        rw [hfirst, Option.some_or, Option.some_or]
    · rw [append_assoc, singleton_append]

/-! ## Paths of entries -/

variable {host : Host}

section

variable {cwd : AbsPath}

lemma resolvePermissionPath_eq (path : FileSystemPath) :
    resolvePermissionPath host cwd path = resolveEntryPath host cwd path := by
  obtain _ | _ | value := path
  · rfl
  · rfl
  · rcases value with _ | _ | ⟨_ | _⟩ | _ | _ | _ <;> rfl

@[simp] lemma materializeCwdDependentEntry_access (entry : FileSystemSandboxEntry) :
    (materializeCwdDependentEntry host cwd entry).access = entry.access := by
  obtain ⟨_ | _ | value, access, _⟩ := entry
  · rfl
  · rfl
  · rcases value with _ | _ | ⟨_ | _⟩ | _ | _ | _ <;> rfl

@[simp] lemma resolveEntryPath_materialize (entry : FileSystemSandboxEntry) :
    resolveEntryPath host cwd (materializeCwdDependentEntry host cwd entry).path =
      resolveEntryPath host cwd entry.path := by
  obtain ⟨_ | _ | value, access, _⟩ := entry
  · rfl
  · rfl
  · rcases value with _ | _ | ⟨_ | _⟩ | _ | _ | _ <;> rfl

/-- Denials of paths concern what is above or below them. -/
lemma denyEntryConstrains_iff {denyEntry d}
    (hd : resolveEntryPath host cwd denyEntry.path = some d)
    {accepted} :
    denyEntryConstrainsAcceptedGrant host denyEntry accepted cwd ↔
      ∃ w access, (w, access) ∈ (FileSystemSandboxPolicy.ofEntries accepted).rules host cwd ∧
        access ≠ .deny ∧ (w <+: d ∨ d <+: w) := by
  have hoverlap : ∀ w : AbsPath, (match denyEntry.path with
      | .globPattern pattern =>
        (globStaticPrefixPath host pattern cwd).any fun staticPath => pathsOverlap staticPath w
      | path => (resolvePermissionPath host cwd path).any fun denyPath => pathsOverlap denyPath w) =
        pathsOverlap d w := by
    intro w
    rcases hpath : denyEntry.path with q | pattern | value
    · rw [hpath] at hd
      simp [resolvePermissionPath_eq, hd]
    · rw [hpath] at hd
      cases hd
    · rw [hpath] at hd
      simp [resolvePermissionPath_eq, hd]
  simp only [denyEntryConstrainsAcceptedGrant, any_eq_true, mem_filter,
    FileSystemAccessMode.canRead_iff, FileSystemSandboxPolicy.mem_rules_iff_exists]
  constructor
  · rintro ⟨entry, ⟨hentry, hread⟩, hmatch⟩
    rw [resolvePermissionPath_eq] at hmatch
    split at hmatch
    · cases hmatch
    · rename_i w hw
      rw [hoverlap, pathsOverlap, Bool.or_eq_true, decide_eq_true_iff, decide_eq_true_iff] at hmatch
      exact ⟨w, entry.access, ⟨entry, hentry, hw, rfl⟩, hread, hmatch⟩
  · rintro ⟨w, _, ⟨entry, hentry, hw, rfl⟩, hread, hle⟩
    refine ⟨entry, ⟨hentry, hread⟩, ?_⟩
    rw [resolvePermissionPath_eq, hw]
    simp only []
    rw [hoverlap, pathsOverlap, Bool.or_eq_true, decide_eq_true_iff, decide_eq_true_iff]
    exact hle

end

/-! ## The result -/

section

open FileSystemSandboxPolicy

variable {buildGlobMatcher : Str → Option (AbsPath → Bool)}
  {requested granted : List FileSystemSandboxEntry} {cwd : AbsPath}

variable (host buildGlobMatcher requested granted cwd) in
/-- **The grants within the request**, as a policy. -/
def grantsWithin : FileSystemSandboxPolicy :=
  ofEntries ((granted.filter fun entry =>
    grantedFileSystemEntryWithinRequest host requested (ofEntries requested)
      (ReadDenyMatcher.new host buildGlobMatcher (ofEntries requested) cwd) entry cwd).map
        (materializeCwdDependentEntry host cwd))

lemma mem_acceptedEntries_iff {entry} :
    entry ∈ acceptedEntries host buildGlobMatcher requested granted cwd ↔
      entry ∈ (grantsWithin host buildGlobMatcher requested granted cwd).entries := by
  rw [acceptedEntries, mem_foldl_pushNew, or_iff_right not_mem_nil]
  rfl

variable {access : FileSystemAccessMode}

/-- A grant is within the request if the request lets its path be read, and be written if the grant
does. -/
lemma of_mem_rules_grantsWithin {w}
    (h : (w, access) ∈ (grantsWithin host buildGlobMatcher requested granted cwd).rules host cwd) :
    (w, access) ∈ (ofEntries granted).rules host cwd ∧ access ≠ .deny ∧
      accessCovers ((ofEntries requested).resolveAccessWithCwd host cwd w) access := by
  obtain ⟨_, hmap, hpath, rfl⟩ := mem_rules_iff_exists.mp h
  obtain ⟨entry, hfilter, rfl⟩ := mem_map.mp hmap
  obtain ⟨hentry, hwithin⟩ := mem_filter.mp hfilter
  rw [resolveEntryPath_materialize] at hpath
  rw [materializeCwdDependentEntry_access]
  rw [grantedFileSystemEntryWithinRequest, resolvePermissionPath_eq, hpath] at hwithin
  simp only [Bool.or_eq_true, Bool.not_eq_true'] at hwithin
  split at hwithin
  · cases hwithin
  · rename_i hread
    split at hwithin
    · cases hwithin
    · refine ⟨mem_rules_iff_exists.mpr ⟨entry, hentry, hpath, rfl⟩, ?_, hwithin⟩
      rw [← FileSystemAccessMode.canRead_iff]
      by_contra hdeny
      exact hread (.inl (Bool.not_eq_true _ ▸ hdeny))

/-- A denial of one of the sides. -/
def DeniedBySide (host : Host) (requested granted : List FileSystemSandboxEntry) (cwd d : AbsPath) :
    Prop :=
  (d, .deny) ∈ (ofEntries requested).rules host cwd ∨
    (d, .deny) ∈ (ofEntries granted).rules host cwd

variable (host buildGlobMatcher requested granted cwd) in
/-- The entries of the result. -/
def intersectEntries : List FileSystemSandboxEntry :=
  (intersectFileSystem host buildGlobMatcher { entries := requested } { entries := granted }
    cwd).entries

lemma intersectEntries_eq : intersectEntries host buildGlobMatcher requested granted cwd =
      (constrainingDenyEntries host granted
        (acceptedEntries host buildGlobMatcher requested granted cwd) cwd).foldl pushNew
          ((constrainingDenyEntries host requested
            (acceptedEntries host buildGlobMatcher requested granted cwd) cwd).foldl pushNew
              (acceptedEntries host buildGlobMatcher requested granted cwd)) := rfl

lemma mem_constrainingDenyEntries_rules {source accepted d} :
    (d, access) ∈ (ofEntries (constrainingDenyEntries host source accepted cwd)).rules host cwd ↔
      access = .deny ∧ (d, .deny) ∈ (ofEntries source).rules host cwd ∧
        ∃ w access, (w, access) ∈ (ofEntries accepted).rules host cwd ∧ access ≠ .deny ∧
          (w <+: d ∨ d <+: w) := by
  constructor
  · intro h
    obtain ⟨_, hmap, hpath, rfl⟩ := mem_rules_iff_exists.mp h
    obtain ⟨entry, hfilter, rfl⟩ := mem_map.mp hmap
    obtain ⟨hfilter, hconstrains⟩ := mem_filter.mp hfilter
    obtain ⟨hentry, hdeny⟩ := mem_filter.mp hfilter
    rw [resolveEntryPath_materialize] at hpath
    have hdeny := of_decide_eq_true hdeny
    exact ⟨(materializeCwdDependentEntry_access entry).trans hdeny,
      mem_rules_iff_exists.mpr ⟨entry, hentry, hpath, hdeny⟩,
      (denyEntryConstrains_iff hpath).mp hconstrains⟩
  · rintro ⟨rfl, hd, hconstrains⟩
    obtain ⟨entry, hentry, hpath, hdeny⟩ := mem_rules_iff_exists.mp hd
    refine mem_rules_iff_exists.mpr ⟨materializeCwdDependentEntry host cwd entry, ?_, ?_, ?_⟩
    · refine mem_map_of_mem (mem_filter.mpr ⟨mem_filter.mpr ⟨hentry, ?_⟩, ?_⟩)
      · exact decide_eq_true hdeny
      · exact (denyEntryConstrains_iff hpath).mpr hconstrains
    · rw [resolveEntryPath_materialize, hpath]
    · rw [materializeCwdDependentEntry_access, hdeny]

/-- Policies have the same rules if they have the same entries. -/
lemma mem_rules_acceptedEntries {q} :
    (q, access) ∈ (ofEntries (acceptedEntries host buildGlobMatcher requested granted cwd)).rules
        host cwd ↔
      (q, access) ∈ (grantsWithin host buildGlobMatcher requested granted cwd).rules host cwd := by
  simp only [mem_rules_iff_exists]
  exact exists_congr fun entry => and_congr_left fun _ => mem_acceptedEntries_iff

/-- **The rules of the result** are the grants within the request, and the denials of both sides
that concern them. -/
theorem mem_rules_intersectEntries {q} :
    (q, access) ∈ (ofEntries (intersectEntries host buildGlobMatcher requested granted cwd)).rules
        host cwd ↔
      (q, access) ∈ (grantsWithin host buildGlobMatcher requested granted cwd).rules host cwd ∨
        access = .deny ∧ DeniedBySide host requested granted cwd q ∧ ∃ w access, (w, access) ∈
              (grantsWithin host buildGlobMatcher requested granted cwd).rules host cwd ∧
            (w <+: q ∨ q <+: w) := by
  have hentries : ∀ entry, entry ∈ intersectEntries host buildGlobMatcher requested granted cwd ↔
      (entry ∈ acceptedEntries host buildGlobMatcher requested granted cwd ∨
        entry ∈ constrainingDenyEntries host requested
          (acceptedEntries host buildGlobMatcher requested granted cwd) cwd) ∨
        entry ∈ constrainingDenyEntries host granted
          (acceptedEntries host buildGlobMatcher requested granted cwd) cwd := fun entry => by
    rw [intersectEntries_eq, mem_foldl_pushNew, mem_foldl_pushNew]
  have hrules : (q, access) ∈
      (ofEntries (intersectEntries host buildGlobMatcher requested granted cwd)).rules host cwd ↔
      ((q, access) ∈ (ofEntries (acceptedEntries host buildGlobMatcher requested granted
          cwd)).rules host cwd ∨
        (q, access) ∈ (ofEntries (constrainingDenyEntries host requested
          (acceptedEntries host buildGlobMatcher requested granted cwd) cwd)).rules host cwd) ∨
        (q, access) ∈ (ofEntries (constrainingDenyEntries host granted
          (acceptedEntries host buildGlobMatcher requested granted cwd) cwd)).rules host cwd := by
    simp only [mem_rules_iff_exists, ofEntries, hentries, or_and_right, exists_or]
  rw [hrules, mem_constrainingDenyEntries_rules, mem_constrainingDenyEntries_rules]
  simp only [mem_rules_acceptedEntries]
  constructor
  · rintro ((hmem | ⟨rfl, hd, w, access, hw, -, hle⟩) | ⟨rfl, hd, w, access, hw, -, hle⟩)
    · exact .inl hmem
    · exact .inr ⟨rfl, .inl hd, w, access, hw, hle⟩
    · exact .inr ⟨rfl, .inr hd, w, access, hw, hle⟩
  · rintro (hmem | ⟨rfl, hd | hd, w, access, hw, hle⟩)
    · exact .inl (.inl hmem)
    · exact .inl (.inr ⟨rfl, hd, w, access, hw, (of_mem_rules_grantsWithin hw).2.1, hle⟩)
    · exact .inr ⟨rfl, hd, w, access, hw, (of_mem_rules_grantsWithin hw).2.1, hle⟩

/-- An entry of the result governs a path if it is a grant that does, with no denial below it. -/
lemma governs_intersectEntries_iff {w p} (hne : access ≠ .deny) :
    Governs ((ofEntries (intersectEntries host buildGlobMatcher requested granted cwd)).rules
        host cwd) w access p ↔
      Governs ((grantsWithin host buildGlobMatcher requested granted cwd).rules host cwd) w access
          p ∧
        ∀ d, DeniedBySide host requested granted cwd d → w <+: d → ¬ d <+: p := by
  constructor
  · intro h
    have hmem : (w, access) ∈
        (grantsWithin host buildGlobMatcher requested granted cwd).rules host cwd := by
      obtain hmem | ⟨rfl, -⟩ := mem_rules_intersectEntries.mp h.mem
      · exact hmem
      · exact absurd rfl hne
    refine ⟨⟨hmem, h.le, fun v c hv => h.longest v c (mem_rules_intersectEntries.mpr (.inl hv)),
      fun c hc => h.greatest c (mem_rules_intersectEntries.mpr (.inl hc))⟩, fun d hd hwd hdp => ?_⟩
    have hdmem := mem_rules_intersectEntries.mpr (.inr ⟨rfl, hd, w, access, hmem, .inl hwd⟩)
    obtain rfl : w = d := hwd.eq_of_length_le (h.longest d .deny hdmem hdp).length_le
    have hle := h.greatest .deny hdmem
    cases access
    · exact absurd hle (by decide)
    · exact absurd hle (by decide)
    · exact hne rfl
  · rintro ⟨h, hdeny⟩
    refine ⟨mem_rules_intersectEntries.mpr (.inl h.mem), h.le, fun v c hv hvp => ?_, fun c hc => ?_⟩
    · obtain hv | ⟨rfl, hd, -⟩ := mem_rules_intersectEntries.mp hv
      · exact h.longest v c hv hvp
      · obtain hbelow | ⟨habove, -⟩ := prefix_or_strict hvp h.le
        · exact hbelow
        · exact absurd hvp (hdeny v hd habove)
    · obtain hc | ⟨rfl, hd, -⟩ := mem_rules_intersectEntries.mp hc
      · exact h.greatest c hc
      · exact absurd h.le (hdeny w hd (prefix_refl w))

end

end Permissions
