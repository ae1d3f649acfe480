import CodexAgents.Permissions.Intersect

/-!
# What the result of an intersection lets be done

What can be read with the result of `intersect_permission_profiles` can be read by both sides, and
the network is enabled if both sides enable it.  For writing, an entry of the grant is compared with
the request at its own path only.  Below it, an entry of the request that lets less be done is not
carried over unless it denies reading (`read_only_part_written`), and neither are the metadata
directories which either side protects.  `intersect_within_iff` says that it suffices to look at the
paths of such entries: between a path that can be written and one below that cannot there is one of
them (`exists_checkpoint`).
-/

namespace Permissions

open Text LongestPrefix List

namespace FileSystemSandboxPolicy

/-! ## Where a path is first denied -/

section

variable {host : Host} {policy : FileSystemSandboxPolicy} {cwd : AbsPath}

/-- The metadata directory is that of the first entry. -/
lemma metadataChild_eq_findSome? (target : AbsPath) :
    policy.metadataChildOfWritableRoot host cwd target = policy.entries.findSome? fun entry =>
      if entry.access.canWrite then
        (resolveEntryPath host cwd entry.path).bind (metadataChildBelow target)
      else none := by
  rw [metadataChild_eq_head?, metadataChildren, head?_filterMap, resolvedEntriesWithCwd]
  induction policy.entries with
  | nil => rfl
  | cons entry entries ih =>
    rw [findSome?_cons, ← ih, filterMap_cons]
    rcases hpath : resolveEntryPath host cwd entry.path with _ | w
    · simp
    · simp only [Option.map_some, Option.bind_some]
      rcases hwrite : entry.access.canWrite with _ | _
      · rw [filter_cons_of_neg (by simp [hwrite])]
        simp
      · rw [filter_cons_of_pos (by simp [hwrite]), findSome?_cons]
        simp

/-- **A checkpoint of a policy**: a path that an entry makes read-only, or a metadata directory of
one that can be written. -/
def Checkpoint (host : Host) (policy : FileSystemSandboxPolicy) (cwd c : AbsPath) : Prop :=
  (c, .read) ∈ policy.rules host cwd ∨
    ∃ v name, (v, .write) ∈ policy.rules host cwd ∧ name ∈ protectedMetadataPathNames ∧
      c = v ++ [name]

/-- **Between a path that can be written and one below that cannot** there is a denial or a
checkpoint that cannot be written. -/
theorem exists_checkpoint (hkind : policy.kind = .restricted) {w p} (hle : w <+: p)
    (hw : policy.canWritePathWithCwd host cwd w)
    (hp : policy.canWritePathWithCwd host cwd p = false)
    (hdeny : ∀ d, (d, .deny) ∈ policy.rules host cwd → w <+: d → ¬ d <+: p) :
    ∃ c, w <+: c ∧ c <+: p ∧ Checkpoint host policy cwd c ∧
      policy.canWritePathWithCwd host cwd c = false := by
  obtain ⟨w', hw', -⟩ := (canWrite_iff_governs hkind).mp hw
  rw [resolveCandidatePath_toRaw] at hw'
  obtain ⟨v, access, hv, hw'v⟩ := exists_governs hw'.mem (hw'.le.trans hle)
  by_cases haccess : access = .write
  · -- `p` is denied for a metadata directory of the entry that governs it
    subst haccess
    have hnot := hp
    rw [← Bool.not_eq_true, canWrite_iff_governs hkind, resolveCandidatePath_toRaw] at hnot
    have hfull : policy.hasFullDiskWriteAccess host = false := by
      rw [← Bool.not_eq_true]
      exact fun hfull => hnot ⟨v, hv, .inl hfull⟩
    obtain ⟨name, hchild⟩ : ∃ name, policy.metadataChildOfWritableRoot host cwd p =
        some (v ++ [name], name) := by
      by_contra hnone
      exact hnot ⟨v, hv, .inr fun name hname => hnone ⟨name, hname⟩⟩
    obtain ⟨_, -, hname, -, hpre⟩ := mem_metadataChildren_iff.mp (mem_of_mem_head? hchild)
    have hcan := canWrite_eq_false_of_metadata hkind hfull hv hchild
    obtain hbelow | ⟨habove, -⟩ := prefix_or_strict hle hpre
    · exact ⟨v ++ [name], hbelow, hpre, .inr ⟨v, name, hv.mem, hname, rfl⟩, hcan⟩
    · have hvw := hv.of_le ((prefix_append v [name]).trans habove) hle
      rw [canWrite_metadata hkind hfull hvw habove, hcan] at hw
      cases hw
  · -- an entry that is not for writing is below `w`
    have hstrict : w <+: v := by
      obtain hbelow | ⟨habove, -⟩ := prefix_or_strict hle hv.le
      · exact hbelow
      · exact absurd (hw'.unique (hv.of_le habove hle)).2 haccess
    have hread : access = .read := by
      cases access
      · rfl
      · exact absurd rfl haccess
      · exact absurd hv.le (hdeny v hv.mem hstrict)
    subst hread
    exact ⟨v, hstrict, hv.le, .inl hv.mem, canWrite_eq_false_of_governs hkind hv.self haccess⟩

/-- **Below a path that can be read** only a denial keeps one from being read. -/
theorem canRead_of_not_denied (hkind : policy.kind = .restricted) {w p} (hle : w <+: p)
    (hw : policy.canReadPathWithCwd host cwd w)
    (hdeny : ∀ d, (d, .deny) ∈ policy.rules host cwd → w <+: d → ¬ d <+: p) :
    policy.canReadPathWithCwd host cwd p := by
  obtain ⟨w', access', hw', hne⟩ := (canReadPathWithCwd_iff hkind).mp hw
  rw [resolveCandidatePath_toRaw] at hw'
  obtain ⟨v, access, hv, -⟩ := exists_governs hw'.mem (hw'.le.trans hle)
  rw [canReadPathWithCwd_iff hkind, resolveCandidatePath_toRaw]
  refine ⟨v, access, hv, ?_⟩
  rintro rfl
  obtain hbelow | ⟨habove, -⟩ := prefix_or_strict hle hv.le
  · exact hdeny v hv.mem hbelow hv.le
  · exact hne (hw'.unique (hv.of_le habove hle)).2.symm

end

end FileSystemSandboxPolicy

section

open FileSystemSandboxPolicy

variable {host : Host} {buildGlobMatcher : Str → Option (AbsPath → Bool)}
  {requested granted : List FileSystemSandboxEntry} {cwd : AbsPath}

/-! ## The whole disk -/

variable {policy : FileSystemSandboxPolicy} {entry : FileSystemSandboxEntry}

/-- A denial is not overridden. -/
lemma hasSameTargetWriteOverride_deny (h : entry.access = .deny) :
    policy.hasSameTargetWriteOverride entry = false := by
  rw [← Bool.not_eq_true, hasSameTargetWriteOverride, any_eq_true]
  rintro ⟨candidate, -, hcandidate⟩
  simp only [Bool.and_eq_true, FileSystemAccessMode.canWrite_iff, decide_eq_true_iff] at hcandidate
  obtain ⟨⟨hwrite, hlt⟩, -⟩ := hcandidate
  rw [h, hwrite] at hlt
  exact absurd hlt (by decide)

/-- With a denial of something that was accepted, not all of the disk can be written. -/
lemma hasWriteNarrowingEntries_of_constraining {source accepted}
    (hkind : policy.kind = .restricted) (hmem : entry ∈ policy.entries)
    (h : entry ∈ constrainingDenyEntries host source accepted cwd) :
    policy.hasWriteNarrowingEntries host := by
  obtain ⟨denyEntry, hfilter, rfl⟩ := mem_map.mp h
  obtain ⟨hfilter, hconstrains⟩ := mem_filter.mp hfilter
  have hdeny := of_decide_eq_true (mem_filter.mp hfilter).2
  have haccess : (materializeCwdDependentEntry host cwd denyEntry).access = .deny :=
    (materializeCwdDependentEntry_access denyEntry).trans hdeny
  have hoverride : policy.hasSameTargetWriteOverride
      (materializeCwdDependentEntry host cwd denyEntry) = false :=
    hasSameTargetWriteOverride_deny haccess
  simp only [hasWriteNarrowingEntries, hkind, decide_true, Bool.true_and, any_eq_true]
  refine ⟨_, hmem, ?_⟩
  rw [haccess, hoverride]
  -- a path that is not resolved concerns nothing
  have hresolved : (∀ pattern, denyEntry.path ≠ .globPattern pattern) →
      resolveEntryPath host cwd denyEntry.path ≠ none := by
    intro hglob hnone
    simp only [denyEntryConstrainsAcceptedGrant, any_eq_true] at hconstrains
    obtain ⟨accepted, -, hoverlap⟩ := hconstrains
    split at hoverlap
    · cases hoverlap
    · rw [resolvePermissionPath_eq, hnone] at hoverlap
      cases hoverlap
  obtain ⟨_ | _ | value, access, missing⟩ := denyEntry
  · rfl
  · rfl
  · obtain _ | _ | ⟨_ | _⟩ | _ | _ | _ := value
    · rfl
    · exact absurd rfl (hresolved fun _ => FileSystemPath.noConfusion)
    · rfl
    · rfl
    · rfl
    · have hunix : host.unix := by
        by_contra hunix
        refine hresolved (fun _ => FileSystemPath.noConfusion) (if_neg ?_)
        rw [Bool.not_eq_true] at hunix
        rw [hunix]
        exact Bool.false_ne_true
      show (true && (host.unix && true)) = true
      rw [hunix]
      rfl
    · exact absurd rfl (hresolved fun _ => FileSystemPath.noConfusion)

lemma constrainingDenyEntries_accepted (source : List FileSystemSandboxEntry) :
    constrainingDenyEntries host source
        (acceptedEntries host buildGlobMatcher requested granted cwd) cwd =
      constrainingDenyEntries host source
        (grantsWithin host buildGlobMatcher requested granted cwd).entries cwd := by
  have hconstrains : ∀ entry, denyEntryConstrainsAcceptedGrant host entry
      (acceptedEntries host buildGlobMatcher requested granted cwd) cwd =
        denyEntryConstrainsAcceptedGrant host entry
          (grantsWithin host buildGlobMatcher requested granted cwd).entries cwd := fun entry =>
    any_congr_of_mem (fun e => by
      rw [mem_filter, mem_filter, mem_acceptedEntries_iff]) _
  simp [constrainingDenyEntries, hconstrains]

variable (host buildGlobMatcher requested granted cwd) in
/-- **The grants are for the whole disk**, and no denial concerns them. -/
def WholeDisk : Prop :=
  (grantsWithin host buildGlobMatcher requested granted cwd).hasFullDiskWriteAccess host = true ∧
    constrainingDenyEntries host requested
      (grantsWithin host buildGlobMatcher requested granted cwd).entries cwd = [] ∧
    constrainingDenyEntries host granted
      (grantsWithin host buildGlobMatcher requested granted cwd).entries cwd = []

lemma hasFullDiskWriteAccess_intersectEntries :
    (ofEntries (intersectEntries host buildGlobMatcher requested granted
        cwd)).hasFullDiskWriteAccess host ↔
      WholeDisk host buildGlobMatcher requested granted cwd := by
  have hsame : constrainingDenyEntries host requested
        (grantsWithin host buildGlobMatcher requested granted cwd).entries cwd = [] →
      constrainingDenyEntries host granted
        (grantsWithin host buildGlobMatcher requested granted cwd).entries cwd = [] →
      SameEntries (grantsWithin host buildGlobMatcher requested granted cwd)
        (ofEntries (intersectEntries host buildGlobMatcher requested granted cwd)) := by
    intro hrequested hgranted
    refine ⟨rfl, fun entry => ?_⟩
    rw [← mem_acceptedEntries_iff, ofEntries, intersectEntries_eq, constrainingDenyEntries_accepted,
      constrainingDenyEntries_accepted, hrequested, hgranted, foldl_nil, foldl_nil]
  constructor
  · intro hfull
    have hnone : ∀ source, (∀ entry ∈ constrainingDenyEntries host source
        (acceptedEntries host buildGlobMatcher requested granted cwd) cwd,
          entry ∈ intersectEntries host buildGlobMatcher requested granted cwd) →
        constrainingDenyEntries host source
          (grantsWithin host buildGlobMatcher requested granted cwd).entries cwd = [] := by
      intro source hmem
      rw [← constrainingDenyEntries_accepted, eq_nil_iff_forall_not_mem]
      intro entry hentry
      have hnarrow : (ofEntries (intersectEntries host buildGlobMatcher requested granted
          cwd)).hasWriteNarrowingEntries host :=
        hasWriteNarrowingEntries_of_constraining rfl (hmem entry hentry) hentry
      simp only [hasFullDiskWriteAccess, ofEntries, Bool.and_eq_true, Bool.not_eq_true'] at hfull
      exact Bool.false_ne_true (hfull.2.symm.trans hnarrow)
    have hrequested := hnone requested fun entry hentry => by
      rw [intersectEntries_eq, mem_foldl_pushNew, mem_foldl_pushNew]
      exact .inl (.inr hentry)
    have hgranted := hnone granted fun entry hentry => by
      rw [intersectEntries_eq, mem_foldl_pushNew]
      exact .inr hentry
    exact ⟨(hsame hrequested hgranted).hasFullDiskWriteAccess ▸ hfull, hrequested, hgranted⟩
  · rintro ⟨hfull, hrequested, hgranted⟩
    exact (hsame hrequested hgranted).hasFullDiskWriteAccess.trans hfull

lemma metadataChild_intersectEntries (target : AbsPath) :
    (ofEntries (intersectEntries host buildGlobMatcher requested granted
        cwd)).metadataChildOfWritableRoot host cwd target =
      (grantsWithin host buildGlobMatcher requested granted cwd).metadataChildOfWritableRoot host
        cwd target := by
  have hnone : ∀ source accepted, (constrainingDenyEntries host source accepted cwd).findSome?
      (fun entry => if entry.access.canWrite then
        (resolveEntryPath host cwd entry.path).bind (metadataChildBelow target) else none) =
        none := by
    intro source accepted
    rw [findSome?_eq_none_iff]
    intro entry hentry
    obtain ⟨denyEntry, hfilter, rfl⟩ := mem_map.mp hentry
    have hdeny := of_decide_eq_true (mem_filter.mp (mem_filter.mp hfilter).1).2
    rw [materializeCwdDependentEntry_access, hdeny]
    rfl
  rw [metadataChild_eq_findSome?, metadataChild_eq_findSome?, ofEntries, intersectEntries_eq,
    findSome?_foldl_pushNew, findSome?_append, findSome?_foldl_pushNew, findSome?_append,
    hnone, hnone, Option.or_none, Option.or_none, acceptedEntries, findSome?_foldl_pushNew]
  rfl

/-! ## Grants and checkpoints -/

variable (host buildGlobMatcher requested granted cwd) in
/-- **A grant opens a path for writing**: it is the one that governs it among the grants within the
request, no side denies anything on the way from one to the other, and the grant does not protect
the path as metadata. -/
structure Opens (w p : AbsPath) : Prop where
  governs : Governs ((grantsWithin host buildGlobMatcher requested granted cwd).rules host cwd) w
    .write p
  notDenied : ∀ d, DeniedBySide host requested granted cwd d → w <+: d → ¬ d <+: p
  notMetadata : WholeDisk host buildGlobMatcher requested granted cwd ∨
    ∀ name, (grantsWithin host buildGlobMatcher requested granted cwd).metadataChildOfWritableRoot
      host cwd p ≠ some (w ++ [name], name)

lemma canWrite_intersectEntries_iff {p : AbsPath} :
    (ofEntries (intersectEntries host buildGlobMatcher requested granted
        cwd)).canWritePathWithCwd host cwd p ↔
      ∃ w, Opens host buildGlobMatcher requested granted cwd w p := by
  rw [canWrite_iff_governs rfl, resolveCandidatePath_toRaw]
  refine exists_congr fun w => ?_
  rw [governs_intersectEntries_iff (by decide), hasFullDiskWriteAccess_intersectEntries,
    metadataChild_intersectEntries]
  exact ⟨fun ⟨⟨hgoverns, hdenied⟩, hmetadata⟩ => ⟨hgoverns, hdenied, hmetadata⟩,
    fun ⟨hgoverns, hdenied, hmetadata⟩ => ⟨⟨hgoverns, hdenied⟩, hmetadata⟩⟩

/-- It opens everything in between. -/
lemma Opens.of_le {w c p} (h : Opens host buildGlobMatcher requested granted cwd w p)
    (hw : w <+: c) (hc : c <+: p) : Opens host buildGlobMatcher requested granted cwd w c := by
  refine ⟨h.governs.of_le hw hc, fun d hd hwd hdc => h.notDenied d hd hwd (hdc.trans hc),
    h.notMetadata.imp_right fun hnot name hchild => hnot name ?_⟩
  obtain ⟨_, -, -, -, hle⟩ := mem_metadataChildren_iff.mp (mem_of_mem_head? hchild)
  rw [metadataChild_eq_of_governs h.governs (hle.trans hc),
    ← metadataChild_eq_of_governs (h.governs.of_le hw hc) hle, hchild]

variable (host buildGlobMatcher requested granted cwd) in
/-- **Both sides let checkpoints be written** that grants open, and the paths of the grants. -/
def CheckpointsWritable : Prop :=
  ∀ w c, Opens host buildGlobMatcher requested granted cwd w c →
    c = w ∨ Checkpoint host (ofEntries requested) cwd c ∨
      Checkpoint host (ofEntries granted) cwd c →
    (ofEntries requested).canWritePathWithCwd host cwd c = true ∧
      (ofEntries granted).canWritePathWithCwd host cwd c = true

lemma canWrite_within_iff :
    (∀ p : AbsPath, (ofEntries (intersectEntries host buildGlobMatcher requested granted
        cwd)).canWritePathWithCwd host cwd p →
      (ofEntries requested).canWritePathWithCwd host cwd p ∧
        (ofEntries granted).canWritePathWithCwd host cwd p) ↔
      CheckpointsWritable host buildGlobMatcher requested granted cwd := by
  constructor
  · intro hwithin w c hopens _
    exact hwithin c (canWrite_intersectEntries_iff.mpr ⟨w, hopens⟩)
  · intro hcheck p hp
    obtain ⟨w, hopens⟩ := canWrite_intersectEntries_iff.mp hp
    have hle := hopens.governs.le
    have hself := hcheck w w (hopens.of_le (prefix_refl w) hle) (.inl rfl)
    constructor
    · by_contra hnot
      obtain ⟨c, hwc, hcp, hpoint, hcan⟩ := exists_checkpoint rfl hle hself.1
        (Bool.not_eq_true _ ▸ hnot) fun d hd => hopens.notDenied d (.inl hd)
      rw [(hcheck w c (hopens.of_le hwc hcp) (.inr (.inl hpoint))).1] at hcan
      cases hcan
    · by_contra hnot
      obtain ⟨c, hwc, hcp, hpoint, hcan⟩ := exists_checkpoint rfl hle hself.2
        (Bool.not_eq_true _ ▸ hnot) fun d hd => hopens.notDenied d (.inr hd)
      rw [(hcheck w c (hopens.of_le hwc hcp) (.inr (.inr hpoint))).2] at hcan
      cases hcan

/-- **What can be read with the result** can be read by both sides. -/
theorem canRead_within {p : AbsPath}
    (h : (ofEntries (intersectEntries host buildGlobMatcher requested granted
      cwd)).canReadPathWithCwd host cwd p) :
    (ofEntries requested).canReadPathWithCwd host cwd p ∧
      (ofEntries granted).canReadPathWithCwd host cwd p := by
  obtain ⟨w, access, hw, hne⟩ := (canReadPathWithCwd_iff rfl).mp h
  rw [resolveCandidatePath_toRaw, governs_intersectEntries_iff hne] at hw
  obtain ⟨hw, hdenied⟩ := hw
  obtain ⟨hgranted, -, hcovers⟩ := of_mem_rules_grantsWithin hw.mem
  constructor
  · refine canRead_of_not_denied rfl hw.le ?_ fun d hd => hdenied d (.inl hd)
    rw [canReadPathWithCwd]
    cases access
    · exact hcovers
    · rw [FileSystemAccessMode.canWrite_iff.mp hcovers]
      rfl
    · exact absurd rfl hne
  · refine canRead_of_not_denied rfl hw.le ?_ fun d hd => hdenied d (.inr hd)
    obtain ⟨v, access', hv, hwv⟩ := exists_governs hgranted (prefix_refl w)
    obtain rfl : w = v := hwv.eq_of_length_le hv.le.length_le
    rw [canReadPathWithCwd_iff rfl, resolveCandidatePath_toRaw]
    refine ⟨w, access', hv, ?_⟩
    rintro rfl
    exact hdenied w (.inr hv.mem) (prefix_refl w) hw.le

end

/-! ## Profiles within profiles -/

section

open FileSystemSandboxPolicy

variable (host : Host) (buildGlobMatcher : Str → Option (AbsPath → Bool))
  (requested granted : AdditionalPermissionProfile) (cwd : AbsPath)

lemma acceptedEntries_nil (granted : List FileSystemSandboxEntry) :
    acceptedEntries host buildGlobMatcher [] granted cwd = [] := by
  have hnone : (granted.filter fun entry => grantedFileSystemEntryWithinRequest host []
      (ofEntries []) (ReadDenyMatcher.new host buildGlobMatcher (ofEntries []) cwd) entry cwd) =
        [] := by
    rw [filter_eq_nil_iff]
    intro entry _ hwithin
    rw [grantedFileSystemEntryWithinRequest] at hwithin
    split at hwithin
    · cases hwithin
    · split at hwithin
      · split at hwithin
        · cases hwithin
        · cases haccess : entry.access <;> rw [haccess] at hwithin <;> cases hwithin
      · cases hwithin
  rw [acceptedEntries, hnone]
  rfl

lemma policy_intersectPermissionProfiles :
    (intersectPermissionProfiles host buildGlobMatcher requested granted cwd).policy =
      ofEntries (intersectEntries host buildGlobMatcher requested.policy.entries
        granted.policy.entries cwd) := by
  rw [AdditionalPermissionProfile.policy, intersectPermissionProfiles]
  congr 1
  rcases hrequested : requested.fileSystem with _ | requestedFileSystem
  · have hpolicy : requested.policy.entries = [] := by
      rw [AdditionalPermissionProfile.policy, hrequested]
      rfl
    have hconstraining : ∀ source, constrainingDenyEntries host source [] cwd = [] :=
      fun source => by
      rw [constrainingDenyEntries, map_eq_nil_iff, filter_eq_nil_iff]
      exact fun _ _ h => (nomatch h)
    rw [hpolicy, intersectEntries_eq, acceptedEntries_nil, hconstraining, hconstraining]
    rfl
  · have hpolicy : requested.policy.entries = requestedFileSystem.entries := by
      rw [AdditionalPermissionProfile.policy, hrequested]
      rfl
    rw [hpolicy, Option.map_some, Option.filter_some]
    have hentries : (intersectFileSystem host buildGlobMatcher requestedFileSystem
        (granted.fileSystem.getD {}) cwd).entries =
          intersectEntries host buildGlobMatcher requestedFileSystem.entries granted.policy.entries
            cwd := rfl
    dsimp only
    split_ifs with hempty
    · exact hentries
    · rw [← hentries]
      exact (not_not.mp fun hne => hempty (decide_eq_true hne)).symm

/-- **When the result of an intersection is within both sides.** -/
theorem intersect_within_iff : ((∀ path : RawPath,
        ((intersectPermissionProfiles host buildGlobMatcher requested granted
            cwd).policy.canWritePathWithCwd host cwd path →
          requested.policy.canWritePathWithCwd host cwd path ∧
            granted.policy.canWritePathWithCwd host cwd path) ∧
        ((intersectPermissionProfiles host buildGlobMatcher requested granted
            cwd).policy.canReadPathWithCwd host cwd path →
          requested.policy.canReadPathWithCwd host cwd path ∧
            granted.policy.canReadPathWithCwd host cwd path)) ∧
      ((intersectPermissionProfiles host buildGlobMatcher requested granted cwd).network =
          some ⟨some true⟩ →
        requested.network = some ⟨some true⟩ ∧ granted.network = some ⟨some true⟩)) ↔
      CheckpointsWritable host buildGlobMatcher requested.policy.entries granted.policy.entries
        cwd := by
  rw [policy_intersectPermissionProfiles, ← canWrite_within_iff]
  constructor
  · rintro ⟨hpaths, -⟩ p
    exact (hpaths p).1
  · refine fun hwrite => ⟨fun path => ⟨fun hcan => ?_, fun hcan => ?_⟩, fun hnetwork => ?_⟩
    · rw [canWritePathWithCwd_resolve] at hcan
      rw [canWritePathWithCwd_resolve path, canWritePathWithCwd_resolve path]
      exact hwrite _ hcan
    · rw [canReadPathWithCwd_resolve] at hcan
      rw [canReadPathWithCwd_resolve path, canReadPathWithCwd_resolve path]
      exact canRead_within hcan
    · rw [intersectPermissionProfiles] at hnetwork
      split at hnetwork
      · rename_i hr hg
        exact ⟨hr, hg⟩
      · cases hnetwork

/-- A request to write a workspace, apart from a directory that is to be read only. -/
def workspaceRequest : AdditionalPermissionProfile where
  fileSystem := some
    { entries :=
        [⟨.path ["ws"], .write, none⟩, ⟨.path ["ws", "ro"], .read, none⟩] }

/-- A grant of the workspace. -/
def workspaceGrant : AdditionalPermissionProfile where
  fileSystem := some { entries := [⟨.path ["ws"], .write, none⟩] }

/-- **The directory can be written** with the result, which was not requested. -/
theorem read_only_part_written :
    (intersectPermissionProfiles bareHost (fun _ => none) workspaceRequest workspaceGrant
        []).policy.canWritePathWithCwd bareHost [] (["ws", "ro"] : AbsPath) ∧
      workspaceRequest.policy.canWritePathWithCwd bareHost []
        (["ws", "ro"] : AbsPath) = false := by
  decide

end

end Permissions
