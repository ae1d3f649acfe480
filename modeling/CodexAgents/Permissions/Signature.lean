import CodexAgents.Permissions.Roots

/-!
# Policies with one signature

Policies are compared by what sandboxes are given for them (`isSemanticallyEquivalentTo`).  Two
policies that are the same in this sense let the same paths be read, and nearly the same be written
(`equivalent_decide_alike_iff`).  There are two things which the signature does not show:

* where a `.git` file points to is carved out of a root whether there is an entry for it or not, but
  only an entry keeps it from being written (`pointer_target_undecided`);
* with the whole disk writable, there are no roots, and an entry that makes `/tmp` read-only is
  taken to be overridden by one that makes it writable, which may not be resolved.
-/

namespace Permissions

open Text LongestPrefix List FileSystemAccessMode

/-! ## Sorted lists -/

lemma mem_destutter'_iff {α : Type} [DecidableEq α] {a x : α} {l} :
    x ∈ l.destutter' (· ≠ ·) a ↔ x ∈ a :: l := by
  induction l generalizing a with
  | nil => simp
  | cons b l ih =>
    rw [destutter'_cons]
    split_ifs with h
    · rw [mem_cons, ih, mem_cons (a := x) (b := a)]
    · obtain rfl : a = b := not_not.mp h
      rw [ih, mem_cons, mem_cons, mem_cons, or_self_left]

lemma mem_destutter_iff {α : Type} [DecidableEq α] {x} {l : List α} :
    x ∈ l.destutter (· ≠ ·) ↔ x ∈ l := by
  cases l with
  | nil => simp
  | cons a l => exact mem_destutter'_iff

lemma mem_sortedAbsolutePaths {path paths} :
    path ∈ sortedAbsolutePaths paths ↔ path ∈ paths :=
  mem_insertionSort _

/-- Roots that differ by order only. -/
structure SameRoot (root root' : WritableRoot) : Prop where
  path : root.root = root'.root
  subpaths : ∀ s, s ∈ root.readOnlySubpaths ↔ s ∈ root'.readOnlySubpaths
  names : ∀ name, name ∈ root.protectedMetadataNames ↔ name ∈ root'.protectedMetadataNames

lemma exists_sameRoot {roots roots'}
    (h : sortedWritableRoots roots = sortedWritableRoots roots') {root}
    (hroot : root ∈ roots) : ∃ root' ∈ roots', SameRoot root root' := by
  have hmem := (mem_insertionSort (fun r r' : WritableRoot => r.root ≤ r'.root)).mpr
    (mem_map_of_mem (f := fun root : WritableRoot =>
      { root with
        readOnlySubpaths := sortedAbsolutePaths root.readOnlySubpaths
        protectedMetadataNames :=
          (root.protectedMetadataNames.insertionSort (· ≤ ·)).destutter (· ≠ ·) }) hroot)
  rw [← sortedWritableRoots, h, sortedWritableRoots, mem_insertionSort, mem_map] at hmem
  obtain ⟨root', hroot', heq⟩ := hmem
  obtain ⟨hpath, hsubpaths, hnames⟩ := WritableRoot.mk.inj heq
  refine ⟨root', hroot', hpath.symm, fun s => ?_, fun name => ?_⟩
  · rw [← mem_sortedAbsolutePaths, ← hsubpaths, mem_sortedAbsolutePaths]
  · rw [← mem_insertionSort (· ≤ ·), ← mem_destutter_iff, ← hnames, mem_destutter_iff,
      mem_insertionSort]

namespace FileSystemSandboxPolicy

variable {host : Host} {policy policy' : FileSystemSandboxPolicy} {cwd : AbsPath}

/-! ## What the signature shows -/

variable (host policy policy' cwd) in
/-- **What policies with one signature share.** -/
structure SameProjection : Prop where
  fullRead : policy.hasFullDiskReadAccess host = policy'.hasFullDiskReadAccess host
  fullWrite : policy.hasFullDiskWriteAccess host = policy'.hasFullDiskWriteAccess host
  readable : ∀ path, path ∈ policy.getReadableRootsWithCwd host cwd ↔
    path ∈ policy'.getReadableRootsWithCwd host cwd
  unreadable : ∀ path, path ∈ policy.getUnreadableRootsWithCwd host cwd ↔
    path ∈ policy'.getUnreadableRootsWithCwd host cwd
  writable : ∀ root ∈ policy.getWritableRootsWithCwd host cwd,
    ∃ root' ∈ policy'.getWritableRootsWithCwd host cwd, SameRoot root root'
  writable' : ∀ root ∈ policy'.getWritableRootsWithCwd host cwd,
    ∃ root' ∈ policy.getWritableRootsWithCwd host cwd, SameRoot root root'

lemma SameProjection.of_equivalent (h : policy.isSemanticallyEquivalentTo host cwd policy') :
    SameProjection host policy policy' cwd := by
  have h := of_decide_eq_true h
  simp only [semanticSignature, FileSystemSemanticSignature.mk.injEq] at h
  obtain ⟨hread, hwrite, -, hreadable, hwritable, hunreadable, -⟩ := h
  refine ⟨hread, hwrite, fun path => ?_, fun path => ?_, fun root => exists_sameRoot hwritable,
    fun root => exists_sameRoot hwritable.symm⟩
  · rw [← mem_sortedAbsolutePaths, hreadable, mem_sortedAbsolutePaths]
  · rw [← mem_sortedAbsolutePaths, hunreadable, mem_sortedAbsolutePaths]

lemma SameProjection.symm (h : SameProjection host policy policy' cwd) :
    SameProjection host policy' policy cwd :=
  ⟨h.fullRead.symm, h.fullWrite.symm, fun path => (h.readable path).symm,
    fun path => (h.unreadable path).symm, h.writable', h.writable⟩

lemma kind_of_not_full_read (h : policy.hasFullDiskReadAccess host = false) :
    policy.kind = .restricted := by
  rw [hasFullDiskReadAccess] at h
  split at h
  · assumption
  · cases h

lemma kind_of_not_full_write (h : policy.hasFullDiskWriteAccess host = false) :
    policy.kind = .restricted := by
  rw [hasFullDiskWriteAccess] at h
  split at h
  · assumption
  · cases h

variable {path : AbsPath}

lemma mem_getReadableRootsWithCwd_iff (hfull : policy.hasFullDiskReadAccess host = false) :
    path ∈ policy.getReadableRootsWithCwd host cwd ↔
      (∃ access, (path, access) ∈ policy.rules host cwd ∧ access ≠ .deny) ∧
        policy.canReadPathWithCwd host cwd path := by
  simp only [getReadableRootsWithCwd, hfull, Bool.false_eq_true, if_false, mem_dedupAbsolutePaths,
    mem_map, mem_filter, normalizeEffectiveAbsolutePath, exists_eq_right,
    canRead_iff]
  constructor
  · rintro ⟨⟨_, access⟩, ⟨⟨hmem, hne⟩, hcan⟩, rfl⟩
    exact ⟨⟨access, mem_rules_iff.mpr hmem, hne⟩, hcan⟩
  · rintro ⟨⟨access, hmem, hne⟩, hcan⟩
    exact ⟨⟨path, access⟩, ⟨⟨mem_rules_iff.mp hmem, hne⟩, hcan⟩, rfl⟩

lemma mem_getUnreadableRootsWithCwd_iff (hkind : policy.kind = .restricted) :
    path ∈ policy.getUnreadableRootsWithCwd host cwd ↔ (path, .deny) ∈ policy.rules host cwd ∧
        policy.canReadPathWithCwd host cwd path = false ∧ path ≠ [] := by
  simp only [getUnreadableRootsWithCwd, hkind, if_true, mem_dedupAbsolutePaths, mem_map,
    mem_filter, normalizeEffectiveAbsolutePath, exists_eq_right, decide_eq_true_iff,
    Bool.not_eq_true']
  constructor
  · rintro ⟨⟨_, _⟩, ⟨⟨⟨hmem, rfl⟩, hcan⟩, hne⟩, rfl⟩
    exact ⟨mem_rules_iff.mpr hmem, hcan, hne⟩
  · rintro ⟨hmem, hcan, hne⟩
    exact ⟨⟨path, .deny⟩, ⟨⟨⟨mem_rules_iff.mp hmem, rfl⟩, hcan⟩, hne⟩, rfl⟩

/-! ## Reading -/

/-- With the whole disk readable, every path is. -/
lemma canRead_of_full (hfull : policy.hasFullDiskReadAccess host) (path : RawPath) :
    policy.canReadPathWithCwd host cwd path := by
  rcases hkind : policy.kind with _ | _ | _
  · simp only [hasFullDiskReadAccess, hkind, Bool.and_eq_true, Bool.not_eq_true', hasRootAccess,
      hasDeniedReadRestrictions, decide_true, Bool.true_and, any_eq_true, any_eq_false,
      decide_eq_true_iff] at hfull
    obtain ⟨⟨entry, hentry, hpath, hread⟩, hdeny⟩ := hfull
    have hroot : ([], entry.access) ∈ policy.rules host cwd :=
      mem_rules_iff_exists.mpr ⟨entry, hentry, by rw [hpath]; rfl, rfl⟩
    obtain ⟨w, access, hw, -⟩ := exists_governs hroot nil_prefix
    refine (canReadPathWithCwd_iff hkind).mpr ⟨w, access, hw, ?_⟩
    rintro rfl
    obtain ⟨entry', hentry', hpath', haccess⟩ := mem_rules_iff_exists.mp hw.mem
    refine hdeny entry' hentry' ⟨haccess, ?_⟩
    -- the one deny that is let through is for a path that is not resolved
    rw [← Bool.not_eq_true, Bool.and_eq_true, decide_eq_true_iff, Bool.not_eq_true']
    rintro ⟨hslash, hunix⟩
    rw [hslash] at hpath'
    simp [resolveEntryPath, resolveFileSystemPath, resolveFileSystemSpecialPath, hunix] at hpath'
  all_goals
    simp only [canReadPathWithCwd, resolveAccessWithCwd, hkind]
    rfl

/-- What one of the policies lets be read, the other does. -/
lemma SameProjection.canRead (h : SameProjection host policy policy' cwd) {path}
    (hcan : policy.canReadPathWithCwd host cwd path) :
    policy'.canReadPathWithCwd host cwd path := by
  rcases hfull : policy'.hasFullDiskReadAccess host with _ | _
  · have hkind' := kind_of_not_full_read hfull
    have hfull' := h.fullRead.trans hfull
    have hkind := kind_of_not_full_read hfull'
    obtain ⟨w, access, hw, hne⟩ := (canReadPathWithCwd_iff hkind).mp hcan
    have hwcan : policy.canReadPathWithCwd host cwd w :=
      (canReadPathWithCwd_iff hkind).mpr ⟨w, access, by simpa using hw.self, hne⟩
    obtain ⟨⟨access', hmem', -⟩, hwcan'⟩ := (mem_getReadableRootsWithCwd_iff hfull).mp
      ((h.readable w).mp ((mem_getReadableRootsWithCwd_iff hfull').mpr
        ⟨⟨access, hw.mem, hne⟩, hwcan⟩))
    obtain ⟨u, b, hu, hwu⟩ := exists_governs hmem' hw.le
    refine (canReadPathWithCwd_iff hkind').mpr ⟨u, b, hu, ?_⟩
    rintro rfl
    -- a denied entry below `w` is one of both policies
    have hucan' : policy'.canReadPathWithCwd host cwd u = false := by
      rw [← Bool.not_eq_true, canReadPathWithCwd_iff hkind', resolveCandidatePath_toRaw]
      rintro ⟨v, c, hv, hc⟩
      exact hc (hu.self.unique hv).2
    have hne' : w ≠ u := by
      rintro rfl
      rw [hwcan'] at hucan'
      cases hucan'
    have hnil : u ≠ [] := by
      rintro rfl
      exact hne' (prefix_nil.mp hwu)
    obtain ⟨hmem, -, -⟩ := (mem_getUnreadableRootsWithCwd_iff hkind).mp
      ((h.unreadable u).mpr ((mem_getUnreadableRootsWithCwd_iff hkind').mpr ⟨hu.mem, hucan', hnil⟩))
    exact hne' (hwu.eq_of_length_le (hw.longest u .deny hmem hu.le).length_le)
  · exact canRead_of_full hfull path

/-! ## Writing below roots -/

variable (host) in
/-- Where the `.git` file of a directory points to. -/
def pointerTarget (root : AbsPath) : Option AbsPath :=
  if host.isFile (root ++ [".git".toList]) && isGitPointerFile host (root ++ [".git".toList]) then
    resolveGitdirFromFile host (root ++ [".git".toList])
  else none

lemma mem_defaultReadOnlySubpaths {root s protectCodex}
    (h : s ∈ defaultReadOnlySubpathsForWritableRoot host root protectCodex) :
    pointerTarget host root = some s ∨ ∃ name ∈ protectedMetadataPathNames, s = root ++ [name] := by
  simp only [defaultReadOnlySubpathsForWritableRoot, mem_dedupAbsolutePaths, mem_append] at h
  have hname : ∀ name ∈ protectedMetadataPathNames, s ∈ [root ++ [name]] →
      ∃ name ∈ protectedMetadataPathNames, s = root ++ [name] :=
    fun name hname hs => ⟨name, hname, mem_singleton.mp hs⟩
  obtain (h | h) | h := h
  · split at h
    · obtain h | h := mem_append.mp h
      · left
        rw [pointerTarget]
        split_ifs at h with hpointer
        · rw [if_pos hpointer]
          exact Option.mem_toList.mp h
        · cases h
      · exact .inr (hname ".git" (by decide) h)
    · cases h
  · split at h
    · exact .inr (hname ".agents" (by decide) h)
    · cases h
  · split at h
    · exact .inr (hname ".codex" (by decide) h)
    · cases h

/-- A root of one policy is one of the other, with the same carved out of it. -/
lemma SameProjection.writableRoot (h : SameProjection host policy policy' cwd)
    (hfull : policy.hasFullDiskWriteAccess host = false) {root}
    (hroot : root ∈ policy.writableEntries host cwd) :
    root ∈ policy'.writableEntries host cwd ∧
      SameRoot (policy.writableRoot host cwd root) (policy'.writableRoot host cwd root) := by
  obtain ⟨root', hroot', hsame⟩ :=
    h.writable _ ((mem_getWritableRootsWithCwd_iff hfull).mpr ⟨root, hroot, rfl⟩)
  obtain ⟨path, hpath, rfl⟩ := (mem_getWritableRootsWithCwd_iff (h.fullWrite ▸ hfull)).mp hroot'
  obtain rfl : root = path := hsame.path
  exact ⟨hpath, hsame⟩

section

variable (h : SameProjection host policy policy' cwd)
  (hfull : policy.hasFullDiskWriteAccess host = false)

include h hfull

/-- **What can be written in one policy and not in the other** is where a `.git` file of a root
points to, or below. -/
theorem SameProjection.exists_pointer {p : AbsPath} (hcan : policy.canWritePathWithCwd host cwd p)
    (hcan' : policy'.canWritePathWithCwd host cwd p = false) :
    ∃ root target access, pointerTarget host root = some target ∧ root <+: target ∧
      root ≠ target ∧ target <+: p ∧ Governs (policy.rules host cwd) root .write p ∧
      Governs (policy'.rules host cwd) target access target ∧ access ≠ .write := by
  have hkind := kind_of_not_full_write hfull
  have hfull' := h.fullWrite.symm.trans hfull
  have hkind' := kind_of_not_full_write hfull'
  obtain ⟨w, hw, -⟩ := (canWritePathWithCwd_iff hkind hfull).mp hcan
  rw [resolveCandidatePath_toRaw] at hw
  have hwroot : w ∈ policy.writableEntries host cwd :=
    mem_writableEntries_iff.mpr ⟨hw.mem, canWrite_self hkind hfull hw⟩
  obtain ⟨hwroot', hsame⟩ := h.writableRoot hfull hwroot
  obtain ⟨hwmem', hwcan'⟩ := mem_writableEntries_iff.mp hwroot'
  -- a metadata directory of `w` on the way that cannot be written in `policy'` cannot in `policy`
  have hmetadata : ∀ name ∈ protectedMetadataPathNames, w ++ [name] <+: p →
      policy'.canWritePathWithCwd host cwd ((w ++ [name] : AbsPath)) ≠ false := by
    intro name hname hle hname'
    have := (hsame.names name).mpr (mem_protectedMetadataNames_iff.mpr ⟨hname, hname'⟩)
    rw [canWrite_metadata hkind hfull hw hle, (mem_protectedMetadataNames_iff.mp this).2] at hcan
    cases hcan
  obtain ⟨u, access, hu, hwu⟩ := exists_governs hwmem' hw.le
  by_cases haccess : access = .write
  · -- the entry is for writing, so the path is denied for its metadata
    subst haccess
    obtain ⟨huroot, -⟩ := h.symm.writableRoot hfull'
      (mem_writableEntries_iff.mpr ⟨hu.mem, canWrite_self hkind' hfull' hu⟩)
    have huw := hw.longest u .write (mem_writableEntries_iff.mp huroot).1 hu.le
    obtain rfl : w = u := hwu.eq_of_length_le huw.length_le
    exfalso
    rw [← Bool.not_eq_true, canWritePathWithCwd_iff hkind' hfull', resolveCandidatePath_toRaw]
      at hcan'
    refine hcan' ⟨w, hu, fun name hchild => ?_⟩
    obtain ⟨_, -, hname, -, hle⟩ := mem_metadataChildren_iff.mp (mem_of_mem_head? hchild)
    exact hmetadata name hname hle (canWrite_eq_false_of_metadata hkind' hfull' hu hchild)
  · have hucan' := canWrite_eq_false_of_governs hkind' hu.self haccess
    have hne : w ≠ u := by
      rintro rfl
      rw [hwcan'] at hucan'
      cases hucan'
    -- the entry is carved out of `w` in both policies, and there is none for it in `policy`
    have hcarved := (hsame.subpaths u).mpr (mem_readOnlySubpaths_iff.mpr
      (.inr ⟨access, hu.mem, haccess, hucan', hwu, hne⟩))
    have hnone : ∀ access, (u, access) ∉ policy.rules host cwd := fun access hmem =>
      hne (hwu.eq_of_length_le (hw.longest u access hmem hu.le).length_le)
    obtain ⟨hdefault, -⟩ | ⟨access, hmem, -⟩ := mem_readOnlySubpaths_iff.mp hcarved
    · obtain hpointer | ⟨name, hname, rfl⟩ := mem_defaultReadOnlySubpaths hdefault
      · exact ⟨w, u, access, hpointer, hwu, hne, hu.le, hw, hu.self, haccess⟩
      · exact absurd hucan' (hmetadata name hname hu.le)
    · exact absurd hmem (hnone access)

end

variable (host policy policy' cwd) in
/-- **Pointers lead to what both decide**: there is no root of the first policy that decides on what
its `.git` file points to, and lets it be written, while the second has an entry for it that does
not. -/
def PointersCovered : Prop :=
  ∀ root target, pointerTarget host root = some target → root ≠ target →
    Governs (policy.rules host cwd) root .write target →
    (∀ name ∈ protectedMetadataPathNames, root ++ [name] <+: target →
      policy.canWritePathWithCwd host cwd ((root ++ [name] : AbsPath)) = true) →
    ∀ access, Governs (policy'.rules host cwd) target access target → access = .write

lemma SameProjection.canWrite_iff (h : SameProjection host policy policy' cwd)
    (hfull : policy.hasFullDiskWriteAccess host = false) :
    (∀ p : AbsPath, policy.canWritePathWithCwd host cwd p →
      policy'.canWritePathWithCwd host cwd p) ↔ PointersCovered host policy policy' cwd := by
  have hkind := kind_of_not_full_write hfull
  have hkind' := kind_of_not_full_write (h.fullWrite.symm.trans hfull)
  constructor
  · intro hall root target _ _ hroot hmetadata access htarget
    by_contra hne
    have hcan : policy.canWritePathWithCwd host cwd target := by
      rw [canWritePathWithCwd_iff hkind hfull, resolveCandidatePath_toRaw]
      refine ⟨root, hroot, fun name hchild => ?_⟩
      obtain ⟨_, -, hname, -, hle⟩ := mem_metadataChildren_iff.mp (mem_of_mem_head? hchild)
      have hname' := canWrite_eq_false_of_metadata hkind hfull hroot hchild
      rw [hmetadata name hname hle] at hname'
      cases hname'
    have hcan' := canWrite_eq_false_of_governs hkind' htarget hne
    rw [hall target hcan] at hcan'
    cases hcan'
  · intro hpointers p hcan
    by_contra hcan'
    obtain ⟨root, target, access, hpointer, hbelow, hne, hle, hroot, htarget, haccess⟩ :=
      h.exists_pointer hfull hcan (Bool.not_eq_true _ ▸ hcan')
    refine haccess (hpointers root target hpointer hne (hroot.of_le hbelow hle) ?_ access htarget)
    intro name hname hpre
    rw [← canWrite_metadata hkind hfull hroot (hpre.trans hle)]
    exact hcan

/-! ## Writing the whole disk -/

lemma specialPathsShareTarget_eq {value value'}
    (h : specialPathsShareTarget value value') : value = value' := by
  cases value <;> cases value' <;> simp_all [specialPathsShareTarget]

variable {w : AbsPath}

/-- Paths with the same target are resolved alike, but for the special path of `/tmp`, which is only
resolved if it is a directory. -/
lemma resolveEntryPath_of_shareTarget {candidate path w}
    (h : fileSystemPathsShareTarget candidate path)
    (hw : resolveEntryPath host cwd path = some w) :
    resolveEntryPath host cwd candidate = some w ∨
      candidate = .special .slashTmp ∧ path = .path slashTmp := by
  rcases candidate with left | left | left <;> rcases path with right | right | right
  · obtain rfl : left = right := of_decide_eq_true h
    exact .inl hw
  · cases hw
  · obtain _ | _ | _ | _ | _ | _ := right
    · obtain rfl : left = [] := of_decide_eq_true h
      exact .inl hw
    all_goals try cases h
    obtain rfl : left = slashTmp := of_decide_eq_true h
    refine .inl (Eq.trans ?_ hw)
    simp only [resolveEntryPath, resolveFileSystemPath, resolveFileSystemSpecialPath] at hw ⊢
    rw [if_pos]
    by_contra hnot
    rw [if_neg hnot] at hw
    cases hw
  · cases h
  · cases hw
  · cases h
  · obtain _ | _ | _ | _ | _ | _ := left
    · obtain rfl : right = [] := of_decide_eq_true h
      exact .inl hw
    all_goals try cases h
    obtain rfl : right = slashTmp := of_decide_eq_true h
    exact .inr ⟨rfl, rfl⟩
  · cases hw
  · obtain rfl := specialPathsShareTarget_eq h
    exact .inl hw

/-- With the whole disk writable, an entry that is not for writing is overridden by one for the same
path, but for `/tmp`. -/
lemma rule_of_full (hkind : policy.kind = .restricted)
    (hfull : policy.hasFullDiskWriteAccess host) {access}
    (hmem : (w, access) ∈ policy.rules host cwd) (hne : access ≠ .write) :
    access = .read ∧ ((w, .write) ∈ policy.rules host cwd ∨ w = slashTmp ∧
      ∃ entry ∈ policy.entries, entry.path = .path slashTmp ∧ entry.access = .read) := by
  obtain ⟨entry, hentry, hpath, rfl⟩ := mem_rules_iff_exists.mp hmem
  simp only [hasFullDiskWriteAccess, hkind, Bool.and_eq_true, Bool.not_eq_true', hasRootAccess,
    hasWriteNarrowingEntries, decide_true, Bool.true_and, any_eq_true, decide_eq_true_iff,
    canWrite_iff, ← Bool.not_eq_true] at hfull
  obtain ⟨⟨root, hroot, hrootpath, hrootwrite⟩, hnarrow⟩ := hfull
  have hread : ∀ access : FileSystemAccessMode, access ≠ .write → access ≠ .deny → access = .read :=
    fun access => by cases access <;> decide
  by_cases hover : policy.hasSameTargetWriteOverride entry = true
  · simp only [hasSameTargetWriteOverride, any_eq_true, Bool.and_eq_true,
      canWrite_iff, decide_eq_true_iff] at hover
    obtain ⟨candidate, hcandidate, ⟨hwrite, hlt⟩, hshare⟩ := hover
    have hentryread := hread _ hne fun hdeny => by
      rw [hdeny, hwrite] at hlt
      exact absurd hlt (by decide)
    refine ⟨hentryread, ?_⟩
    obtain hw | ⟨-, htmp⟩ := resolveEntryPath_of_shareTarget hshare hpath
    · exact .inl (mem_rules_iff_exists.mpr ⟨candidate, hcandidate, hw, hwrite⟩)
    · rw [htmp] at hpath
      exact .inr ⟨(Option.some_inj.mp hpath).symm, entry, hentry, htmp, hentryread⟩
  · -- without an override, the only entry that narrows nothing is for the root
    rcases hkindpath : entry.path with q | pattern | value
    · exact absurd ⟨entry, hentry, hne, by rw [hkindpath]; simpa using hover⟩ hnarrow
    · exact absurd ⟨entry, hentry, hne, by rw [hkindpath]⟩ hnarrow
    · rw [hkindpath] at hpath
      cases value with
      | root =>
        obtain rfl : [] = w := Option.some_inj.mp hpath
        refine ⟨hread _ hne fun hdeny => ?_,
          .inl (mem_rules_iff_exists.mpr ⟨root, hroot, by rw [hrootpath]; rfl, hrootwrite⟩)⟩
        exact hnarrow ⟨entry, hentry, hne, by rw [hkindpath]; exact decide_eq_true hdeny⟩
      | slashTmp =>
        simp only [resolveEntryPath, resolveFileSystemPath, resolveFileSystemSpecialPath] at hpath
        split at hpath
        · rename_i hunix
          rw [Bool.and_eq_true] at hunix
          exact absurd ⟨entry, hentry, hne, by rw [hkindpath]; simpa [hunix.1] using hover⟩ hnarrow
        · cases hpath
      | minimal | unknown => cases hpath
      | projectRoots | tmpdir =>
        exact absurd ⟨entry, hentry, hne, by rw [hkindpath]; simpa using hover⟩ hnarrow

lemma root_mem_rules_of_full (hkind : policy.kind = .restricted)
    (hfull : policy.hasFullDiskWriteAccess host) : ([], .write) ∈ policy.rules host cwd := by
  simp only [hasFullDiskWriteAccess, hkind, hasRootAccess, Bool.and_eq_true, any_eq_true,
    canWrite_iff, decide_eq_true_iff] at hfull
  obtain ⟨⟨-, entry, hentry, hpath, hwrite⟩, -⟩ := hfull
  exact mem_rules_iff_exists.mpr ⟨entry, hentry, by rw [hpath]; rfl, hwrite⟩

lemma canWrite_eq_false_iff_of_full (hfull : policy.hasFullDiskWriteAccess host) {p : AbsPath} :
    policy.canWritePathWithCwd host cwd p = false ↔
      policy.kind = .restricted ∧ Governs (policy.rules host cwd) slashTmp .read p := by
  constructor
  · intro hcan
    have hkind : policy.kind = .restricted := by
      rw [canWritePathWithCwd, resolveAccessWithCwd, hfull] at hcan
      split at hcan
      · assumption
      · cases hcan
    refine ⟨hkind, ?_⟩
    have hresolve : policy.resolveAccessWithCwd host cwd p ≠ .write := by
      rw [canWritePathWithCwd, hfull] at hcan
      intro hwrite
      rw [hwrite] at hcan
      cases hcan
    obtain ⟨w, access, hw, -⟩ := exists_governs (root_mem_rules_of_full hkind hfull) p.nil_prefix
    have hne : access ≠ .write := by
      rintro rfl
      exact hresolve (resolveAccessWithCwd_of_governs hkind (by rwa [resolveCandidatePath_toRaw]))
    obtain ⟨rfl, hmem | ⟨rfl, -⟩⟩ := rule_of_full hkind hfull hw.mem hne
    · exact absurd (hw.greatest .write hmem) (by decide)
    · exact hw
  · rintro ⟨hkind, htmp⟩
    exact canWrite_eq_false_of_governs hkind htmp (by decide)

variable (host policy policy' cwd) in
/-- **What is read-only below `/tmp`** in the first policy, although the whole disk can be written,
is so in the second. -/
def TmpCovered : Prop :=
  policy.kind = .restricted → Governs (policy.rules host cwd) slashTmp .read slashTmp →
    policy'.kind = .restricted ∧ Governs (policy'.rules host cwd) slashTmp .read slashTmp ∧
      ∀ v access, (v, access) ∈ policy'.rules host cwd → slashTmp <+: v → slashTmp ≠ v →
        ∃ u access', (u, access') ∈ policy.rules host cwd ∧ slashTmp <+: u ∧ slashTmp ≠ u ∧ u <+: v

lemma canWrite_iff_of_full (hfull : policy.hasFullDiskWriteAccess host)
    (hfull' : policy'.hasFullDiskWriteAccess host) :
    (∀ p : AbsPath, policy.canWritePathWithCwd host cwd p = false →
      policy'.canWritePathWithCwd host cwd p = false) ↔ TmpCovered host policy policy' cwd := by
  simp only [canWrite_eq_false_iff_of_full hfull, canWrite_eq_false_iff_of_full hfull', and_imp]
  constructor
  · intro hall hkind htmp
    obtain ⟨hkind', htmp'⟩ := hall slashTmp hkind htmp
    refine ⟨hkind', htmp', fun v access hv hle hne => ?_⟩
    by_contra hnone
    -- with nothing in between, `/tmp` governs `v` in the first policy and not in the second
    have hgoverns := htmp.extend hle fun u access' hu huv => by
      obtain hpre | ⟨hpre, hne'⟩ := prefix_or_strict huv hle
      · exact hpre
      · exact absurd ⟨u, access', hu, hpre, hne', huv⟩ hnone
    have hlongest := (hall v hkind hgoverns).2.longest v access hv (prefix_refl v)
    exact hne (hle.eq_of_length_le hlongest.length_le)
  · intro hcovered p hkind hp
    obtain ⟨hkind', htmp', hbelow⟩ := hcovered hkind hp.self
    refine ⟨hkind', htmp'.extend hp.le fun v access hv hvp => ?_⟩
    obtain hpre | ⟨hpre, hne⟩ := prefix_or_strict hvp hp.le
    · exact hpre
    · obtain ⟨u, access', hu, hle, hne', huv⟩ := hbelow v access hv hpre hne
      have hlongest := hp.longest u access' hu (huv.trans hvp)
      exact absurd (hle.eq_of_length_le hlongest.length_le) hne'

/-! ## Equivalent policies -/

lemma canReadPathWithCwd_resolve (path : RawPath) : policy.canReadPathWithCwd host cwd path =
      policy.canReadPathWithCwd host cwd (resolveCandidatePath host path cwd) := by
  simp [canReadPathWithCwd, resolveAccessWithCwd, resolveCandidatePath_toRaw]

/-- **When policies with one signature decide alike.** -/
theorem equivalent_decide_alike_iff (h : policy.isSemanticallyEquivalentTo host cwd policy') :
    (∀ path : RawPath,
      policy.canReadPathWithCwd host cwd path = policy'.canReadPathWithCwd host cwd path ∧
        policy.canWritePathWithCwd host cwd path = policy'.canWritePathWithCwd host cwd path) ↔
      if policy.hasFullDiskWriteAccess host then
        TmpCovered host policy policy' cwd ∧ TmpCovered host policy' policy cwd
      else PointersCovered host policy policy' cwd ∧ PointersCovered host policy' policy cwd := by
  have hsame := SameProjection.of_equivalent h
  have hread : ∀ path : RawPath,
      policy.canReadPathWithCwd host cwd path = policy'.canReadPathWithCwd host cwd path :=
    fun path => Bool.eq_iff_iff.mpr ⟨hsame.canRead, hsame.symm.canRead⟩
  have hwrite : (∀ path : RawPath,
      policy.canReadPathWithCwd host cwd path = policy'.canReadPathWithCwd host cwd path ∧
        policy.canWritePathWithCwd host cwd path = policy'.canWritePathWithCwd host cwd path) ↔
      ∀ p : AbsPath,
        policy.canWritePathWithCwd host cwd p = policy'.canWritePathWithCwd host cwd p := by
    refine ⟨fun hall p => (hall p).2, fun hall path => ⟨hread path, ?_⟩⟩
    rw [canWritePathWithCwd_resolve path, canWritePathWithCwd_resolve path]
    exact hall _
  rw [hwrite]
  split_ifs with hfull
  · have hfull' := hsame.fullWrite.symm.trans hfull
    rw [← canWrite_iff_of_full hfull hfull', ← canWrite_iff_of_full hfull' hfull, ← forall_and]
    refine forall_congr' fun p => ?_
    cases policy.canWritePathWithCwd host cwd p <;>
      cases policy'.canWritePathWithCwd host cwd p <;> decide
  · have hfull := Bool.not_eq_true _ ▸ hfull
    have hfull' := hsame.fullWrite.symm.trans hfull
    rw [← hsame.canWrite_iff hfull, ← hsame.symm.canWrite_iff hfull', ← forall_and]
    refine forall_congr' fun p => ?_
    cases policy.canWritePathWithCwd host cwd p <;>
      cases policy'.canWritePathWithCwd host cwd p <;> decide

/-- **The order of the entries** of a workspace is not a difference. -/
theorem equivalent_decide_alike_docs :
    (ofEntries readOnlyDocs).isSemanticallyEquivalentTo bareHost []
        (ofEntries readOnlyDocs.reverse) ∧
      ∀ path : RawPath, (ofEntries readOnlyDocs).canReadPathWithCwd bareHost [] path =
            (ofEntries readOnlyDocs.reverse).canReadPathWithCwd bareHost [] path ∧
          (ofEntries readOnlyDocs).canWritePathWithCwd bareHost [] path =
            (ofEntries readOnlyDocs.reverse).canWritePathWithCwd bareHost [] path := by
  have hequivalent : (ofEntries readOnlyDocs).isSemanticallyEquivalentTo bareHost []
      (ofEntries readOnlyDocs.reverse) := by decide
  refine ⟨hequivalent, (equivalent_decide_alike_iff hequivalent).mpr ?_⟩
  -- there are no files, so nothing points anywhere
  exact ⟨fun _ _ hpointer => (nomatch hpointer), fun _ _ hpointer => (nomatch hpointer)⟩

/-- A submodule: its `.git` is a file that points to a directory below. -/
def submoduleHost : Host where
  isDir _ := false
  isFile path := path = ["ws", ".git"]
  pathExists path := path = ["ws", "modules", "foo"]
  readToString path :=
    if path = ["ws", ".git"] then some "gitdir: modules/foo" else none

/-- Everything can be read, and the submodule be written. -/
def submoduleEntries : List FileSystemSandboxEntry :=
  [⟨.special .root, .read, none⟩, ⟨.path ["ws"], .write, none⟩]

/-- The entry for the directory that is pointed to. -/
def gitdirEntry : FileSystemSandboxEntry :=
  ⟨.path ["ws", "modules", "foo"], .read, none⟩

/-- **An entry for what a pointer leads to** makes no difference to the signature. -/
theorem pointer_target_undecided :
    (ofEntries submoduleEntries).isSemanticallyEquivalentTo submoduleHost []
        (ofEntries (submoduleEntries ++ [gitdirEntry])) ∧
      (ofEntries submoduleEntries).canWritePathWithCwd submoduleHost []
        (["ws", "modules", "foo"] : AbsPath) ∧
      (ofEntries (submoduleEntries ++ [gitdirEntry])).canWritePathWithCwd submoduleHost []
        (["ws", "modules", "foo"] : AbsPath) = false := by
  decide

end FileSystemSandboxPolicy

end Permissions
