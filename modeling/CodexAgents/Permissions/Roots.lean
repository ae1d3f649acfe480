import CodexAgents.Permissions.Access

/-!
# The roots that sandboxes are given

`get_writable_roots_with_cwd` turns a policy into roots, each of which lets everything below it be
written, except for what is carved out of it (`CarvedOut`).  A path can be written in a sandbox if
some root accepts it, and that should not be more than the policy allows.

A root does what the policy does with its own metadata, and with everything the policy has an entry
for.  It does not know of the metadata of a root below it: that is protected by the inner root,
which makes no difference while the outer one accepts it (`outer_root_accepts_metadata`).
`writable_roots_sound_iff` says that this is the only way to get more than the policy allows, for
paths without `..`.  A root compares paths as they are written, so that with `..` one gets anywhere
from it (`isPathWritable_climb`).
-/

namespace Permissions

open Text LongestPrefix List

/-! ## Lists without repetitions -/

lemma mem_foldl_dedup {α : Type} [∀ (path : α) (paths : List α), Decidable (path ∈ paths)]
    {path} {paths kept : List α} :
    path ∈ paths.foldl (fun deduped path =>
        if path ∈ deduped then deduped else deduped ++ [path]) kept ↔
      path ∈ kept ∨ path ∈ paths := by
  induction paths generalizing kept with
  | nil => simp
  | cons first paths ih =>
    rw [foldl_cons, ih, mem_cons]
    split_ifs with hmem
    · constructor
      · exact Or.imp_right .inr
      · rintro (hkept | rfl | hpaths)
        · exact .inl hkept
        · exact .inl hmem
        · exact .inr hpaths
    · rw [mem_append, mem_singleton, or_assoc]

@[simp] lemma mem_dedupAbsolutePaths {path paths} :
    path ∈ dedupAbsolutePaths paths ↔ path ∈ paths := by
  rw [dedupAbsolutePaths, mem_foldl_dedup, or_iff_right not_mem_nil]

namespace FileSystemSandboxPolicy

variable {host : Host} {policy : FileSystemSandboxPolicy} {cwd : AbsPath}

/-! ## What is carved out of a root -/

variable (host policy cwd) in
/-- **A path is carved out of a root**: an entry of the policy does it, or the path is one that is
read-only by default, or it is in a metadata directory that cannot be written. -/
def CarvedOut (root path : AbsPath) : Prop :=
  (∃ v access, (v, access) ∈ policy.rules host cwd ∧ access ≠ .write ∧
      policy.canWritePathWithCwd host cwd v = false ∧ root <+: v ∧ root ≠ v ∧ v <+: path) ∨
    (∃ s ∈ defaultReadOnlySubpathsForWritableRoot host root (cwd = root),
      (∀ access, (s, access) ∉ policy.rules host cwd) ∧ s <+: path) ∨
    ∃ name ∈ protectedMetadataPathNames, root ++ [name] <+: path ∧
      policy.canWritePathWithCwd host cwd ((root ++ [name] : AbsPath)) = false

lemma CarvedOut.mono {root path path'} (h : CarvedOut host policy cwd root path)
    (hpre : path <+: path') : CarvedOut host policy cwd root path' := by
  rcases h with ⟨v, access, hv, hne, hcan, hroot, hrv, hpath⟩ | ⟨s, hs, hnone, hpath⟩ |
    ⟨name, hname, hpath, hcan⟩
  · exact .inl ⟨v, access, hv, hne, hcan, hroot, hrv, hpath.trans hpre⟩
  · exact .inr (.inl ⟨s, hs, hnone, hpath.trans hpre⟩)
  · exact .inr (.inr ⟨name, hname, hpath.trans hpre, hcan⟩)

/-- The paths of entries that are carved out of a root are those below it. -/
lemma carveoutPath_eq_some_iff {root path raws}
    (hraws : ∀ raw ∈ raws, raw = root) {entry} :
    carveoutPath root raws entry = some path ↔ entry.path = path ∧ root <+: path ∧ root ≠ path := by
  have hraw : carveoutPath root raws entry =
      if root <+: entry.path ∧ root ≠ entry.path then some entry.path else none := by
    rw [carveoutPath, normalizeEffectiveAbsolutePath]
    by_cases hpre : root <+: entry.path
    · by_cases hroot : entry.path = root
      · simp [hroot]
      · by_cases hnil : root = []
        · simp only [hnil, if_true, nil_prefix, not_true_eq_false, or_false, true_and, ne_eq]
          rw [if_neg (hnil ▸ hroot), if_pos (Ne.symm (hnil ▸ hroot))]
        · simp [hnil, hroot, hpre, Ne.symm hroot]
    · have hroot : entry.path ≠ root := fun heq => hpre (heq ▸ prefix_refl _)
      have hnil : root ≠ [] := fun heq => hpre (heq ▸ nil_prefix)
      simp only [hnil, hroot, hpre, if_false, not_false_eq_true, or_true, if_true, false_and]
      rw [findSome?_eq_none_iff.mpr fun raw hraw => by
        rw [hraws raw hraw, stripPrefix, if_neg hpre]]
  rw [hraw]
  constructor
  · intro h
    split at h
    · rename_i hbelow
      cases h
      exact ⟨rfl, hbelow⟩
    · cases h
  · rintro ⟨rfl, hbelow⟩
    exact if_pos hbelow

lemma mem_writableEntries_iff {root} : root ∈ policy.writableEntries host cwd ↔
      (root, .write) ∈ policy.rules host cwd ∧ policy.canWritePathWithCwd host cwd root := by
  simp only [writableEntries, mem_map, mem_filter, FileSystemAccessMode.canWrite_iff]
  constructor
  · rintro ⟨⟨_, _⟩, ⟨⟨hmem, rfl⟩, hcan⟩, rfl⟩
    exact ⟨mem_rules_iff.mpr hmem, hcan⟩
  · rintro ⟨hmem, hcan⟩
    exact ⟨⟨root, .write⟩, ⟨⟨mem_rules_iff.mp hmem, rfl⟩, hcan⟩, rfl⟩

/-- Without symbolic links, a root is written in one way only. -/
lemma eq_of_mem_rawWritableRoots {root raw}
    (h : raw ∈ (policy.writableEntries host cwd).filter fun path =>
      normalizeEffectiveAbsolutePath path = root) : raw = root :=
  of_decide_eq_true (mem_filter.mp h).2

lemma mem_readOnlySubpaths_iff {root s} :
    s ∈ (policy.writableRoot host cwd root).readOnlySubpaths ↔
      (s ∈ defaultReadOnlySubpathsForWritableRoot host root (cwd = root) ∧
          ∀ access, (s, access) ∉ policy.rules host cwd) ∨
        ∃ access, (s, access) ∈ policy.rules host cwd ∧ access ≠ .write ∧
          policy.canWritePathWithCwd host cwd s = false ∧ root <+: s ∧ root ≠ s := by
  have hdefault : (!(policy.resolvedEntriesWithCwd host cwd).any fun entry => entry.path = s) =
      true ↔ ∀ access, (s, access) ∉ policy.rules host cwd := by
    rw [Bool.not_eq_true', any_eq_false]
    constructor
    · intro hnone access hmem
      exact hnone ⟨s, access⟩ (mem_rules_iff.mp hmem) (decide_eq_true rfl)
    · rintro hnone ⟨path, access⟩ hmem hpath
      obtain rfl : path = s := of_decide_eq_true hpath
      exact hnone access (mem_rules_iff.mpr hmem)
  simp only [writableRoot, mem_dedupAbsolutePaths, mem_append, mem_filter, hdefault,
    mem_filterMap, carveoutPath_eq_some_iff fun _ => eq_of_mem_rawWritableRoots,
    Bool.not_eq_true', ← Bool.not_eq_true, FileSystemAccessMode.canWrite_iff]
  refine or_congr_right ?_
  constructor
  · rintro ⟨⟨_, access⟩, ⟨⟨hmem, hne⟩, hcan⟩, rfl, hbelow⟩
    exact ⟨access, mem_rules_iff.mpr hmem, hne, hcan, hbelow⟩
  · rintro ⟨access, hmem, hne, hcan, hbelow⟩
    exact ⟨⟨s, access⟩, ⟨⟨mem_rules_iff.mp hmem, hne⟩, hcan⟩, rfl, hbelow⟩

lemma mem_protectedMetadataNames_iff {root name} :
    name ∈ (policy.writableRoot host cwd root).protectedMetadataNames ↔
      name ∈ protectedMetadataPathNames ∧
        policy.canWritePathWithCwd host cwd ((root ++ [name] : AbsPath)) = false := by
  rw [writableRoot, protectedMetadataNamesForWritableRoot, mem_filter]
  refine and_congr_right fun _ => ?_
  rw [all_cons, Bool.and_eq_true, Bool.not_eq_true', and_iff_left_iff_imp]
  intro hcan
  rw [all_map, all_eq_true]
  intro raw hraw
  rw [Function.comp_apply, eq_of_mem_rawWritableRoots hraw, hcan]
  rfl

@[simp] lemma parts_toRaw (path : AbsPath) : path.toRaw.parts = path.map .normal := by
  simp [RawPath.parts, AbsPath.toRaw, filter_map, Function.comp_def]

@[simp] lemma startsWith_toRaw (path base : AbsPath) :
    path.toRaw.startsWith base ↔ base <+: path := by
  rw [RawPath.startsWith, parts_toRaw, Bool.and_eq_true, decide_eq_true_iff,
    prefix_map_iff_of_injective fun _ _ => Component.normal.inj]
  exact and_iff_right rfl

lemma pathContainsProtectedMetadataName_iff {root : WritableRoot} {path : AbsPath} :
    root.pathContainsProtectedMetadataName path ↔
      ∃ name ∈ root.protectedMetadataNames, root.root ++ [name] <+: path := by
  rw [WritableRoot.pathContainsProtectedMetadataName, Bool.and_eq_true, startsWith_toRaw,
    parts_toRaw, ← map_drop, head?_map]
  constructor
  · rintro ⟨⟨rest, rfl⟩, h⟩
    rw [drop_left] at h
    obtain _ | ⟨first, rest⟩ := rest
    · cases h
    · obtain ⟨name, hname, heq⟩ := any_eq_true.mp h
      obtain rfl : first = name := of_decide_eq_true heq
      exact ⟨first, hname, rest, by simp⟩
  · rintro ⟨name, hname, rest, rfl⟩
    rw [append_assoc, drop_left]
    exact ⟨prefix_append _ _, any_eq_true.mpr ⟨name, hname, decide_eq_true rfl⟩⟩

/-- **What a root accepts.** -/
theorem isPathWritable_iff {root} {path : AbsPath} :
    (policy.writableRoot host cwd root).isPathWritable path ↔
      root <+: path ∧ ¬ CarvedOut host policy cwd root path := by
  have hsubpath : ((policy.writableRoot host cwd root).readOnlySubpaths.any path.toRaw.startsWith) ↔
      ∃ s ∈ (policy.writableRoot host cwd root).readOnlySubpaths, s <+: path := by
    simp
  have hcarved : CarvedOut host policy cwd root path ↔
      (∃ s ∈ (policy.writableRoot host cwd root).readOnlySubpaths, s <+: path) ∨
        ∃ name ∈ (policy.writableRoot host cwd root).protectedMetadataNames,
          root ++ [name] <+: path := by
    simp only [mem_readOnlySubpaths_iff, mem_protectedMetadataNames_iff]
    constructor
    · rintro (⟨v, access, hv, hne, hcan, hroot, hrv, hpath⟩ | ⟨s, hs, hnone, hpath⟩ |
        ⟨name, hname, hpath, hcan⟩)
      · exact .inl ⟨v, .inr ⟨access, hv, hne, hcan, hroot, hrv⟩, hpath⟩
      · exact .inl ⟨s, .inl ⟨hs, hnone⟩, hpath⟩
      · exact .inr ⟨name, ⟨hname, hcan⟩, hpath⟩
    · rintro (⟨s, ⟨hs, hnone⟩ | ⟨access, hv, hne, hcan, hroot, hrv⟩, hpath⟩ |
        ⟨name, ⟨hname, hcan⟩, hpath⟩)
      · exact .inr (.inl ⟨s, hs, hnone, hpath⟩)
      · exact .inl ⟨s, access, hv, hne, hcan, hroot, hrv, hpath⟩
      · exact .inr (.inr ⟨name, hname, hpath, hcan⟩)
  rw [hcarved, not_or, ← hsubpath, WritableRoot.isPathWritable, Bool.and_eq_true, Bool.and_eq_true,
    Bool.not_eq_true', Bool.not_eq_true', ← Bool.not_eq_true, ← Bool.not_eq_true,
    pathContainsProtectedMetadataName_iff, startsWith_toRaw, and_assoc]
  rfl

lemma mem_getWritableRootsWithCwd_iff (hfull : policy.hasFullDiskWriteAccess host = false)
    {root} :
    root ∈ policy.getWritableRootsWithCwd host cwd ↔
      ∃ path ∈ policy.writableEntries host cwd, policy.writableRoot host cwd path = root := by
  simp [getWritableRootsWithCwd, hfull, mem_dedupAbsolutePaths, normalizeEffectiveAbsolutePath]

/-! ## Roots within roots -/

variable (host policy cwd) in
/-- **The metadata of every root within a root** that cannot be written is carved out of the outer
root too. -/
def NestedMetadataCarvedOut : Prop :=
  ∀ root ∈ policy.writableEntries host cwd, ∀ inner, (inner, .write) ∈ policy.rules host cwd →
    root <+: inner → root ≠ inner → ∀ name ∈ protectedMetadataPathNames,
      policy.canWritePathWithCwd host cwd ((inner ++ [name] : AbsPath)) = false →
        CarvedOut host policy cwd root (inner ++ [name])

lemma sound_toRaw_iff (hkind : policy.kind = .restricted)
    (hfull : policy.hasFullDiskWriteAccess host = false) :
    (∀ root ∈ policy.getWritableRootsWithCwd host cwd, ∀ path : AbsPath,
      root.isPathWritable path → policy.canWritePathWithCwd host cwd path) ↔
      NestedMetadataCarvedOut host policy cwd := by
  simp only [mem_getWritableRootsWithCwd_iff hfull, forall_exists_index, and_imp,
    forall_apply_eq_imp_iff₂, isPathWritable_iff]
  constructor
  · intro hsound root hroot inner hinner hpre hne name hname hcan
    by_contra hcarved
    have hcan' := hsound root hroot (inner ++ [name]) (hpre.trans (prefix_append inner _))
      hcarved
    rw [hcan] at hcan'
    cases hcan'
  · intro hnested root hroot path hpre hcarved
    obtain ⟨hmem, hcan⟩ := mem_writableEntries_iff.mp hroot
    obtain ⟨w, access, hw, hrootw⟩ := exists_governs hmem hpre
    -- an entry that is not for writing is carved out
    have haccess : access = .write := by
      by_contra hne
      have hwcan := canWrite_eq_false_of_governs hkind hw.self hne
      refine hcarved (.inl ⟨w, access, hw.mem, hne, hwcan, hrootw, ?_, hw.le⟩)
      rintro rfl
      rw [hcan] at hwcan
      cases hwcan
    subst haccess
    rw [canWritePathWithCwd_iff hkind hfull, resolveCandidatePath_toRaw]
    refine ⟨w, hw, fun name hchild => hcarved ?_⟩
    have hdenied := canWrite_eq_false_of_metadata hkind hfull hw hchild
    obtain ⟨_, -, hname, -, hchildle⟩ := mem_metadataChildren_iff.mp (mem_of_mem_head? hchild)
    obtain rfl | hne := eq_or_ne root w
    · exact .inr (.inr ⟨name, hname, hchildle, hdenied⟩)
    · exact (hnested root hroot w hw.mem hrootw hne name hname hdenied).mono hchildle

/-! ## Paths as they are written -/

lemma canWritePathWithCwd_resolve (path : RawPath) : policy.canWritePathWithCwd host cwd path =
      policy.canWritePathWithCwd host cwd (resolveCandidatePath host path cwd) := by
  simp [canWritePathWithCwd, resolveAccessWithCwd, isMetadataWriteDenied,
    resolveCandidatePath_toRaw]

lemma map_normalizePath {components} (h : .parentDir ∉ components) (base : AbsPath) :
    (normalizePath base components).map Component.normal =
      base.map .normal ++ components.filter (· ≠ .curDir) := by
  induction components generalizing base with
  | nil => simp [normalizePath]
  | cons component components ih =>
    rw [mem_cons, not_or] at h
    show (normalizePath (normalizeStep base component) components).map _ = _
    rw [ih h.2]
    obtain _ | _ | name := component
    · simp [normalizeStep]
    · exact absurd rfl h.1
    · simp [normalizeStep]

/-- Without `..`, a root sees where a path leads to. -/
lemma isPathWritable_resolve {root : WritableRoot} {path : RawPath} (habs : path.isAbsolute)
    (hup : .parentDir ∉ path.components) :
    root.isPathWritable path =
      root.isPathWritable (resolveCandidatePath host path cwd) := by
  have hparts : path.parts = (resolveCandidatePath host path cwd).toRaw.parts := by
    rw [parts_toRaw, resolveCandidatePath, resolvePathAgainstBase, if_pos habs,
      map_normalizePath hup]
    rfl
  have hstarts : path.startsWith = (resolveCandidatePath host path cwd).toRaw.startsWith := by
    funext base
    rw [RawPath.startsWith, RawPath.startsWith, hparts, habs]
    rfl
  rw [WritableRoot.isPathWritable, WritableRoot.isPathWritable,
    WritableRoot.pathContainsProtectedMetadataName,
    WritableRoot.pathContainsProtectedMetadataName, hparts, hstarts]

/-- Out of a directory, and from the root to another path. -/
def climb (root path : AbsPath) : RawPath where
  isAbsolute := true
  components := root.map .normal ++ replicate (root.length + 1) .parentDir ++ path.map .normal

lemma resolve_climb (root path : AbsPath) :
    resolveCandidatePath host (climb root path) cwd = path := by
  have hup : ∀ (n : Nat) (base : AbsPath), base.length ≤ n →
      normalizePath base (replicate n .parentDir) = [] := by
    intro n
    induction n with
    | zero => exact fun base h => eq_nil_of_length_eq_zero (Nat.le_zero.mp h)
    | succ n ih => exact fun base h => ih base.dropLast (by rw [length_dropLast]; omega)
  have happend : ∀ base first rest, normalizePath base (first ++ rest) =
      normalizePath (normalizePath base first) rest := fun _ _ _ => foldl_append
  show normalizePath [] (root.map .normal ++ replicate (root.length + 1) .parentDir ++
    path.map .normal) = path
  rw [happend, happend, normalizePath_map_normal _ path, normalizePath_map_normal, nil_append,
    hup _ _ (Nat.le_succ _), nil_append]

/-- **A root lets one get anywhere**, unless nothing can be written in it. -/
lemma isPathWritable_climb {root} (h : ¬ CarvedOut host policy cwd root root) (path : AbsPath) :
    (policy.writableRoot host cwd root).isPathWritable (climb root path) := by
  have hparts : (climb root path).parts = root.map .normal ++ .parentDir ::
      (replicate root.length .parentDir ++ path.map .normal) := by
    simp [RawPath.parts, climb, filter_map, Function.comp_def, replicate_succ]
  have hstarts : ∀ {base}, (climb root path).startsWith base → base <+: root := by
    intro base hbase
    rw [RawPath.startsWith, hparts, Bool.and_eq_true, decide_eq_true_iff] at hbase
    obtain hle | hlt := Nat.lt_or_ge root.length base.length
    · -- a longer one would have the first `..` in it
      have hup : root.map .normal ++ [Component.parentDir] <+: base.map Component.normal :=
        prefix_of_prefix_length_le (by simp) hbase.2 (by simpa using hle)
      simpa using hup.subset (mem_append_right _ (mem_singleton_self _))
    · refine (prefix_map_iff_of_injective fun _ _ => Component.normal.inj).mp ?_
      exact prefix_of_prefix_length_le hbase.2 (prefix_append _ _) (by simpa using hlt)
  have hroot : (climb root path).startsWith root := by
    rw [RawPath.startsWith, hparts]
    simp [climb]
  simp only [WritableRoot.isPathWritable, WritableRoot.pathContainsProtectedMetadataName,
    Bool.and_eq_true, Bool.not_eq_true', any_eq_false]
  refine ⟨⟨hroot, fun s hs hstarts' => ?_⟩, ?_⟩
  · obtain ⟨hs, hnone⟩ | ⟨access, -, -, -, hle, hne⟩ := mem_readOnlySubpaths_iff.mp hs
    · exact h (.inr (.inl ⟨s, hs, hnone, hstarts hstarts'⟩))
    · exact hne (hle.eq_of_length_le (hstarts hstarts').length_le)
  · have hdrop : (climb root path).parts.drop root.length = .parentDir ::
        (replicate root.length .parentDir ++ path.map .normal) := by
      rw [hparts, drop_append_of_le_length (by simp), drop_eq_nil_of_le (by simp), nil_append]
    rw [show (policy.writableRoot host cwd root).root = root from rfl, hdrop]
    refine Bool.and_eq_false_imp.mpr fun _ => any_eq_false.mpr fun name hname heq => ?_
    obtain rfl : ".." = name := of_decide_eq_true heq
    exact absurd (mem_protectedMetadataNames_iff.mp hname).1 (by decide)

/-- **When no root accepts more than the policy**: for paths without `..`, and for all of them. -/
theorem writable_roots_sound_iff (hkind : policy.kind = .restricted)
    (hfull : policy.hasFullDiskWriteAccess host = false) :
    ((∀ root ∈ policy.getWritableRootsWithCwd host cwd, ∀ path : RawPath, path.isAbsolute →
        .parentDir ∉ path.components → root.isPathWritable path →
          policy.canWritePathWithCwd host cwd path) ↔ NestedMetadataCarvedOut host policy cwd) ∧
    ((∀ root ∈ policy.getWritableRootsWithCwd host cwd, ∀ path : RawPath, path.isAbsolute →
        root.isPathWritable path → policy.canWritePathWithCwd host cwd path) ↔
      (∀ path : RawPath, policy.canWritePathWithCwd host cwd path) ∨
        ∀ root ∈ policy.writableEntries host cwd, CarvedOut host policy cwd root root) := by
  rw [← sound_toRaw_iff hkind hfull]
  refine ⟨⟨fun h root hroot path hw => ?_, fun h root hroot path habs hup hw => ?_⟩, ?_⟩
  · exact h root hroot path.toRaw rfl (by simp [AbsPath.toRaw]) hw
  · rw [canWritePathWithCwd_resolve]
    exact h root hroot _ (isPathWritable_resolve habs hup ▸ hw)
  simp only [mem_getWritableRootsWithCwd_iff hfull, forall_exists_index, and_imp,
    forall_apply_eq_imp_iff₂]
  constructor
  · intro h
    by_contra hnot
    rw [not_or, not_forall, not_forall] at hnot
    obtain ⟨⟨path, hpath⟩, root, hroot⟩ := hnot
    obtain ⟨hroot, hcarved⟩ := Classical.not_imp.mp hroot
    have hclimb := h root hroot _ rfl
      (isPathWritable_climb hcarved (resolveCandidatePath host path cwd))
    rw [canWritePathWithCwd_resolve, resolve_climb, ← canWritePathWithCwd_resolve] at hclimb
    exact hpath hclimb
  · rintro (hall | hcarved) root hroot path habs hw
    · exact hall path
    exfalso
    rw [WritableRoot.isPathWritable, Bool.and_eq_true, Bool.and_eq_true, Bool.not_eq_true',
      any_eq_false] at hw
    obtain ⟨v, access, -, -, -, hle, hne, hv⟩ | ⟨s, hs, hnone, hle⟩ | ⟨name, -, hle, -⟩ :=
      hcarved root hroot
    · exact hne (hle.eq_of_length_le hv.length_le)
    · refine hw.1.2 s (mem_readOnlySubpaths_iff.mpr (.inl ⟨hs, hnone⟩)) ?_
      have hstarts := hw.1.1
      rw [RawPath.startsWith, Bool.and_eq_true, decide_eq_true_iff] at hstarts ⊢
      exact ⟨habs, (hle.map _).trans hstarts.2⟩
    · exact not_concat_prefix_self hle

/-- A workspace and a directory in it. -/
def innerEntries : List FileSystemSandboxEntry :=
  [⟨.path ["ws"], .write, none⟩, ⟨.path ["ws", "sub"], .write, none⟩]

/-- A workspace with a directory that cannot be written. -/
def readOnlyDocs : List FileSystemSandboxEntry :=
  [⟨.path ["ws"], .write, none⟩, ⟨.path ["ws", "docs"], .read, none⟩]

/-- **The outer root accepts the metadata of the inner one**, and a root what lies beyond it. -/
theorem outer_root_accepts_metadata :
    ((ofEntries innerEntries).hasFullDiskWriteAccess bareHost = false ∧
      (∃ root ∈ (ofEntries innerEntries).getWritableRootsWithCwd bareHost [],
        root.isPathWritable (["ws", "sub", ".git"] : AbsPath)) ∧
      (ofEntries innerEntries).canWritePathWithCwd bareHost []
        (["ws", "sub", ".git"] : AbsPath) = false) ∧
    (ofEntries readOnlyDocs).hasFullDiskWriteAccess bareHost = false ∧
      (∃ root ∈ (ofEntries readOnlyDocs).getWritableRootsWithCwd bareHost [],
        root.isPathWritable (RawPath.parse "/ws/../etc")) ∧
      (ofEntries readOnlyDocs).canWritePathWithCwd bareHost [] (RawPath.parse "/ws/../etc") =
        false := by
  decide

/-- **With one root** nothing more is accepted. -/
theorem writable_roots_sound_docs :
    (ofEntries readOnlyDocs).hasFullDiskWriteAccess bareHost = false ∧
      ∀ root ∈ (ofEntries readOnlyDocs).getWritableRootsWithCwd bareHost [], ∀ path : RawPath,
        path.isAbsolute = true → .parentDir ∉ path.components → root.isPathWritable path = true →
          (ofEntries readOnlyDocs).canWritePathWithCwd bareHost [] path = true := by
  have hfull : (ofEntries readOnlyDocs).hasFullDiskWriteAccess bareHost = false := by decide
  refine ⟨hfull, (writable_roots_sound_iff rfl hfull).1.mpr ?_⟩
  have hrules : (ofEntries readOnlyDocs).rules bareHost [] =
      [(["ws".toList], .write), (["ws".toList, "docs".toList], .read)] := rfl
  have hentries : (ofEntries readOnlyDocs).writableEntries bareHost [] = [["ws".toList]] := by
    decide
  intro root hroot inner hinner _ hne
  rw [hentries, mem_singleton] at hroot
  rw [hrules] at hinner
  have hinner' : inner = ["ws".toList] := by simpa using hinner
  exact absurd (hroot.trans hinner'.symm) hne

end FileSystemSandboxPolicy

end Permissions
