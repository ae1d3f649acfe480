import CodexAgents.Permissions.Policy

/-!
# What a policy lets be written

The decisions of a restricted policy in terms of the entry that governs a path
(`LongestPrefix.Governs`): a path can be read if the entry lets it (`canReadPathWithCwd_iff`), and
it can be written if the entry lets it and is not itself the first one to protect the metadata
directory the path is in (`canWritePathWithCwd_iff`).  Metadata directories of other entries do not
matter, since the governing entry is one for something in them.

The word *first* is the one place where the order of the entries comes in.  `order_irrelevant_iff`
says for which paths it makes a difference: those in a metadata directory of an entry that is itself
for something in a metadata directory of another.
-/

namespace Permissions

open Text LongestPrefix List FileSystemAccessMode

variable {access : FileSystemAccessMode}

lemma FileSystemAccessMode.canWrite_iff : access.canWrite ↔ access = .write := by
  cases access <;> decide

lemma FileSystemAccessMode.canRead_iff : access.canRead ↔ access ≠ .deny := by
  cases access <;> decide

/-! ## Paths in normal form -/

lemma normalizePath_map_normal (base path : AbsPath) :
    normalizePath base (path.map .normal) = base ++ path := by
  induction path generalizing base with
  | nil => exact (append_nil base).symm
  | cons name path ih =>
    show normalizePath (base ++ [name]) (path.map .normal) = _
    rw [ih, append_assoc, singleton_append]

@[simp] lemma resolveCandidatePath_toRaw (host : Host) (path cwd : AbsPath) :
    resolveCandidatePath host path cwd = path :=
  normalizePath_map_normal [] path

lemma stripPrefix_eq_some_iff {path base rest} :
    stripPrefix path base = some rest ↔ path = base ++ rest := by
  rw [stripPrefix]
  constructor
  · intro h
    split at h
    · rename_i hpre
      obtain ⟨rest', rfl⟩ := hpre
      rw [drop_left, Option.some_inj] at h
      rw [h]
    · cases h
  · rintro rfl
    rw [if_pos (prefix_append base rest), drop_left]

lemma metadataPathName_eq_some_iff {name found} :
    metadataPathName name = some found ↔ found = name ∧ name ∈ protectedMetadataPathNames := by
  rw [metadataPathName]
  constructor
  · intro h
    have hname : name = found := by simpa using find?_some h
    subst hname
    exact ⟨rfl, mem_of_find?_eq_some h⟩
  · rintro ⟨rfl, hmem⟩
    rcases hfound : protectedMetadataPathNames.find? (found = ·) with _ | found'
    · exact absurd (decide_eq_true rfl) (find?_eq_none.mp hfound found hmem)
    · have hname : found = found' := by simpa using find?_some hfound
      rw [hname]

lemma any_congr_of_mem {α : Type} {l l' : List α} (h : ∀ a, a ∈ l ↔ a ∈ l') (f : α → Bool) :
    l.any f = l'.any f := by
  rw [Bool.eq_iff_iff, any_eq_true, any_eq_true]
  simp [h]

namespace FileSystemSandboxPolicy

variable (host : Host) (policy : FileSystemSandboxPolicy) (cwd : AbsPath)

/-! ## Rules -/

/-- The entries that are resolved, as paths with a value. -/
def rules : List (AbsPath × FileSystemAccessMode) :=
  (policy.resolvedEntriesWithCwd host cwd).map fun entry => (entry.path, entry.access)

variable {host policy cwd} {access : FileSystemAccessMode}

lemma mem_rules_iff {path} : (path, access) ∈ policy.rules host cwd ↔
      (⟨path, access⟩ : ResolvedFileSystemEntry) ∈ policy.resolvedEntriesWithCwd host cwd := by
  rw [rules, mem_map]
  constructor
  · rintro ⟨⟨path', access'⟩, hmem, hpair⟩
    cases hpair
    exact hmem
  · exact fun hmem => ⟨_, hmem, rfl⟩

lemma mem_rules_iff_exists {path} : (path, access) ∈ policy.rules host cwd ↔
      ∃ entry ∈ policy.entries, resolveEntryPath host cwd entry.path = some path ∧
        entry.access = access := by
  rw [mem_rules_iff, resolvedEntriesWithCwd, mem_filterMap]
  refine exists_congr fun entry => and_congr_right fun _ => ?_
  rw [Option.map_eq_some_iff]
  constructor
  · rintro ⟨path', hpath, hentry⟩
    cases hentry
    exact ⟨hpath, rfl⟩
  · rintro ⟨hpath, rfl⟩
    exact ⟨path, hpath, rfl⟩

lemma resolveAccessWithCwd_eq (hkind : policy.kind = .restricted) (path : RawPath) :
    policy.resolveAccessWithCwd host cwd path =
      (best (policy.rules host cwd) (resolveCandidatePath host path cwd)).elim .deny
        fun precedence => (ofLex precedence).2 := by
  rw [resolveAccessWithCwd, hkind, best, rules, filter_map, map_map]
  rfl

variable {path : RawPath} {w : AbsPath}

section

variable (hkind : policy.kind = .restricted)

include hkind

lemma resolveAccessWithCwd_of_governs
    (h : Governs (policy.rules host cwd) w access (resolveCandidatePath host path cwd)) :
    policy.resolveAccessWithCwd host cwd path = access := by
  rw [resolveAccessWithCwd_eq hkind, best_eq_some_iff.mpr ⟨w, rfl, h⟩]
  rfl

/-- An access other than `deny` comes from an entry. -/
lemma resolveAccessWithCwd_eq_iff (hne : access ≠ .deny) :
    policy.resolveAccessWithCwd host cwd path = access ↔
      ∃ w, Governs (policy.rules host cwd) w access (resolveCandidatePath host path cwd) := by
  constructor
  · intro h
    rw [resolveAccessWithCwd_eq hkind] at h
    rcases hbest : best (policy.rules host cwd) (resolveCandidatePath host path cwd) with
      _ | ⟨n, access'⟩
    · rw [hbest] at h
      exact absurd h.symm hne
    · rw [hbest] at h
      obtain rfl : access' = access := h
      obtain ⟨w, -, hw⟩ := best_eq_some_iff.mp hbest
      exact ⟨w, hw⟩
  · rintro ⟨w, hw⟩
    exact resolveAccessWithCwd_of_governs hkind hw

/-- **What can be read.** -/
theorem canReadPathWithCwd_iff :
    policy.canReadPathWithCwd host cwd path ↔
      ∃ w access, Governs (policy.rules host cwd) w access (resolveCandidatePath host path cwd) ∧
        access ≠ .deny := by
  rw [canReadPathWithCwd, canRead_iff]
  constructor
  · intro hne
    obtain ⟨w, hw⟩ := (resolveAccessWithCwd_eq_iff hkind hne).mp rfl
    exact ⟨w, _, hw, hne⟩
  · rintro ⟨w, access, hw, hne⟩
    rwa [resolveAccessWithCwd_of_governs hkind hw]

end

/-! ## Metadata -/

/-- The metadata directory below `w` that a path is in. -/
def metadataChildBelow (target w : AbsPath) : Option (AbsPath × Str) := do
  let relativePath ← stripPrefix target w
  let firstComponent ← relativePath.head?
  let metadataName ← metadataPathName firstComponent
  return (w ++ [metadataName], metadataName)

variable {name : Str}

lemma metadataChildBelow_eq_some_iff {target q} :
    metadataChildBelow target w = some (q, name) ↔
      name ∈ protectedMetadataPathNames ∧ w ++ [name] = q ∧ q <+: target := by
  simp only [metadataChildBelow, Option.bind_eq_bind, Option.bind_eq_some_iff,
    stripPrefix_eq_some_iff, metadataPathName_eq_some_iff, Option.pure_def, Option.some_inj,
    Prod.mk.injEq]
  constructor
  · rintro ⟨rest, rfl, first, hfirst, _, ⟨rfl, hmem⟩, rfl, rfl⟩
    obtain ⟨rest', rfl⟩ := head?_eq_some_iff.mp hfirst
    refine ⟨hmem, rfl, rest', ?_⟩
    rw [append_assoc, singleton_append]
  · rintro ⟨hmem, rfl, rest, rfl⟩
    refine ⟨name :: rest, ?_, name, rfl, name, ⟨rfl, hmem⟩, rfl, rfl⟩
    rw [append_assoc, singleton_append]

variable (host policy cwd) in
/-- The metadata directories of writable entries that a path is in. -/
def metadataChildren (target : AbsPath) : List (AbsPath × Str) :=
  ((policy.resolvedEntriesWithCwd host cwd).filter fun entry =>
    entry.access.canWrite).filterMap fun entry => metadataChildBelow target entry.path

lemma mem_metadataChildren_iff {target q} :
    (q, name) ∈ policy.metadataChildren host cwd target ↔
      ∃ w, (w, .write) ∈ policy.rules host cwd ∧ name ∈ protectedMetadataPathNames ∧
        w ++ [name] = q ∧ q <+: target := by
  simp only [metadataChildren, mem_filterMap, mem_filter, metadataChildBelow_eq_some_iff]
  constructor
  · rintro ⟨⟨w, access⟩, ⟨hmem, hwrite⟩, hname⟩
    obtain rfl : access = .write := canWrite_iff.mp hwrite
    exact ⟨w, mem_rules_iff.mpr hmem, hname⟩
  · rintro ⟨w, hmem, hname⟩
    exact ⟨⟨w, .write⟩, ⟨mem_rules_iff.mp hmem, rfl⟩, hname⟩

lemma metadataChild_eq_head? (target : AbsPath) :
    policy.metadataChildOfWritableRoot host cwd target =
      (policy.metadataChildren host cwd target).head? := rfl

lemma hasExplicitWriteEntry_iff {q target} :
    policy.hasExplicitWriteEntryForMetadataPath host cwd q target ↔
      ∃ w, (w, .write) ∈ policy.rules host cwd ∧ w <+: target ∧ q <+: w := by
  rw [hasExplicitWriteEntryForMetadataPath, any_eq_true]
  constructor
  · rintro ⟨⟨w, access⟩, hmem, h⟩
    simp only [Bool.and_eq_true, decide_eq_true_iff] at h
    obtain ⟨⟨hwrite, hw⟩, hq⟩ := h
    obtain rfl : access = .write := canWrite_iff.mp hwrite
    exact ⟨w, mem_rules_iff.mpr hmem, hw, hq⟩
  · rintro ⟨w, hmem, hw, hq⟩
    refine ⟨⟨w, .write⟩, mem_rules_iff.mp hmem, ?_⟩
    simp only [Bool.and_eq_true, decide_eq_true_iff]
    exact ⟨⟨rfl, hw⟩, hq⟩

section

variable (hkind : policy.kind = .restricted)

include hkind

/-- **A path is denied for its metadata** if the entry that governs it is the first one to protect
the directory.  If another is, the governing entry is for something in there. -/
theorem isMetadataWriteDenied_iff
    (h : Governs (policy.rules host cwd) w .write (resolveCandidatePath host path cwd)) :
    policy.isMetadataWriteDenied host cwd path ↔
      ∃ name, policy.metadataChildOfWritableRoot host cwd (resolveCandidatePath host path cwd) =
        some (w ++ [name], name) := by
  simp only [isMetadataWriteDenied, if_pos hkind]
  rcases hchild : policy.metadataChildOfWritableRoot host cwd
    (resolveCandidatePath host path cwd) with _ | ⟨q, name⟩
  · exact iff_of_false Bool.false_ne_true fun ⟨_, h⟩ => nomatch h
  have hmem : (q, name) ∈ policy.metadataChildren host cwd (resolveCandidatePath host path cwd) :=
    mem_of_mem_head? hchild
  obtain ⟨v, hv, -, rfl, hq⟩ := mem_metadataChildren_iff.mp hmem
  have hvw : v <+: w := h.longest v .write hv ((prefix_append v [name]).trans hq)
  show (!policy.hasExplicitWriteEntryForMetadataPath host cwd _ _) = true ↔ _
  rw [Bool.not_eq_true', ← Bool.not_eq_true, hasExplicitWriteEntry_iff]
  obtain rfl | hne := eq_or_ne v w
  · refine iff_of_true ?_ ⟨name, rfl⟩
    rintro ⟨u, hu, hut, hqu⟩
    exact not_concat_prefix_self (hqu.trans (h.longest u .write hu hut))
  · refine iff_of_false (not_not.mpr ⟨w, h.mem, h.le, concat_prefix_of_strict hq h.le hvw hne⟩) ?_
    rintro ⟨name', heq⟩
    obtain ⟨hpath, -⟩ := Prod.mk_inj.mp (Option.some_inj.mp heq)
    exact hne (append_inj' hpath rfl).1

/-- **What can be written.** -/
theorem canWrite_iff_governs :
    policy.canWritePathWithCwd host cwd path ↔
      ∃ w, Governs (policy.rules host cwd) w .write (resolveCandidatePath host path cwd) ∧
        (policy.hasFullDiskWriteAccess host ∨ ∀ name, policy.metadataChildOfWritableRoot host cwd
            (resolveCandidatePath host path cwd) ≠ some (w ++ [name], name)) := by
  have hwrite : (policy.resolveAccessWithCwd host cwd path).canWrite ↔
      ∃ w, Governs (policy.rules host cwd) w .write (resolveCandidatePath host path cwd) := by
    rw [canWrite_iff, resolveAccessWithCwd_eq_iff hkind (by decide)]
  have hsplit : policy.canWritePathWithCwd host cwd path ↔
      (policy.resolveAccessWithCwd host cwd path).canWrite ∧ (policy.hasFullDiskWriteAccess host ∨
          ¬ policy.isMetadataWriteDenied host cwd path) := by
    rw [canWritePathWithCwd]
    cases (policy.resolveAccessWithCwd host cwd path).canWrite <;>
      cases policy.hasFullDiskWriteAccess host <;>
      cases policy.isMetadataWriteDenied host cwd path <;> decide
  rw [hsplit, hwrite]
  constructor
  · rintro ⟨⟨w, hw⟩, hdenied⟩
    refine ⟨w, hw, hdenied.imp_right fun hdenied name hname => hdenied ?_⟩
    exact (isMetadataWriteDenied_iff hkind hw).mpr ⟨name, hname⟩
  · rintro ⟨w, hw, hname⟩
    refine ⟨⟨w, hw⟩, hname.imp_right fun hname hdenied => ?_⟩
    obtain ⟨name, hchild⟩ := (isMetadataWriteDenied_iff hkind hw).mp hdenied
    exact hname name hchild

lemma canWritePathWithCwd_iff
    (hfull : policy.hasFullDiskWriteAccess host = false) :
    policy.canWritePathWithCwd host cwd path ↔
      ∃ w, Governs (policy.rules host cwd) w .write (resolveCandidatePath host path cwd) ∧
        ∀ name, policy.metadataChildOfWritableRoot host cwd (resolveCandidatePath host path cwd) ≠
          some (w ++ [name], name) := by
  rw [canWrite_iff_governs hkind, hfull]
  simp

end

/-- A metadata directory of the governing entry is decided at the directory. -/
lemma metadataChild_eq_of_governs {target}
    (h : Governs (policy.rules host cwd) w .write target) (hpre : w ++ [name] <+: target) :
    policy.metadataChildOfWritableRoot host cwd target =
      policy.metadataChildOfWritableRoot host cwd (w ++ [name]) := by
  rw [metadataChild_eq_head?, metadataChild_eq_head?, metadataChildren, metadataChildren]
  refine congrArg head? (filterMap_congr fun entry hentry => ?_)
  obtain ⟨hmem, hwrite⟩ := mem_filter.mp hentry
  have hrule : (entry.path, .write) ∈ policy.rules host cwd :=
    mem_rules_iff.mpr (canWrite_iff.mp hwrite ▸ hmem)
  ext ⟨q, name'⟩
  rw [metadataChildBelow_eq_some_iff, metadataChildBelow_eq_some_iff]
  refine and_congr_right fun _ => and_congr_right fun hq =>
    ⟨fun hle => ?_, fun hle => hle.trans hpre⟩
  subst hq
  have hpath := h.longest _ _ hrule ((prefix_append _ _).trans hle)
  obtain heq | hne := eq_or_ne entry.path w
  · rw [heq] at hle ⊢
    rw [concat_prefix_unique hle hpre]
  · exact (concat_prefix_of_strict hle h.le hpath hne).trans (prefix_append w [name])

section

variable (hkind : policy.kind = .restricted)

include hkind

/-- An entry that does not let its path be written keeps it from being written. -/
lemma canWrite_eq_false_of_governs {w path access}
    (h : Governs (policy.rules host cwd) w access path) (hne : access ≠ .write) :
    policy.canWritePathWithCwd host cwd path = false := by
  have haccess : policy.resolveAccessWithCwd host cwd path = access :=
    resolveAccessWithCwd_of_governs hkind (by rwa [resolveCandidatePath_toRaw])
  rw [canWritePathWithCwd, haccess, if_pos]
  rw [Bool.not_eq_true', ← Bool.not_eq_true, canWrite_iff]
  exact hne

variable (hfull : policy.hasFullDiskWriteAccess host = false)

include hfull

/-- An entry for writing lets its own path be written. -/
lemma canWrite_self {w path} (h : Governs (policy.rules host cwd) w .write path) :
    policy.canWritePathWithCwd host cwd w := by
  rw [canWritePathWithCwd_iff hkind hfull, resolveCandidatePath_toRaw]
  refine ⟨w, h.self, fun name hchild => ?_⟩
  obtain ⟨_, -, -, -, hpre⟩ := mem_metadataChildren_iff.mp (mem_of_mem_head? hchild)
  exact not_concat_prefix_self hpre

/-- A metadata directory that keeps a path from being written cannot be written either. -/
lemma canWrite_eq_false_of_metadata {w target name}
    (h : Governs (policy.rules host cwd) w .write target)
    (hchild : policy.metadataChildOfWritableRoot host cwd target = some (w ++ [name], name)) :
    policy.canWritePathWithCwd host cwd ((w ++ [name] : AbsPath)) = false := by
  obtain ⟨_, -, -, -, hpre⟩ := mem_metadataChildren_iff.mp (mem_of_mem_head? hchild)
  rw [metadataChild_eq_of_governs h hpre] at hchild
  have hw := h.of_le (prefix_append w [name]) hpre
  rw [← Bool.not_eq_true, canWritePathWithCwd_iff hkind hfull, resolveCandidatePath_toRaw]
  rintro ⟨v, hv, hnot⟩
  obtain ⟨rfl, -⟩ := hw.unique hv
  exact hnot name hchild

/-- A path in a metadata directory of the governing entry is decided like the directory. -/
lemma canWrite_metadata {w target name}
    (h : Governs (policy.rules host cwd) w .write target) (hpre : w ++ [name] <+: target) :
    policy.canWritePathWithCwd host cwd target =
      policy.canWritePathWithCwd host cwd ((w ++ [name] : AbsPath)) := by
  have hw := h.of_le (prefix_append w [name]) hpre
  rw [Bool.eq_iff_iff, canWritePathWithCwd_iff hkind hfull, canWritePathWithCwd_iff hkind hfull,
    resolveCandidatePath_toRaw, resolveCandidatePath_toRaw, metadataChild_eq_of_governs h hpre]
  constructor
  · rintro ⟨v, hv, hnot⟩
    obtain ⟨rfl, -⟩ := h.unique hv
    exact ⟨v, hw, hnot⟩
  · rintro ⟨v, hv, hnot⟩
    obtain ⟨rfl, -⟩ := hw.unique hv
    exact ⟨v, h, hnot⟩

end

/-! ## The order of the entries -/

section

variable {policy' : FileSystemSandboxPolicy}

/-- The same entries, in any order and number. -/
structure SameEntries (policy policy' : FileSystemSandboxPolicy) : Prop where
  kind : policy'.kind = policy.kind
  mem : ∀ entry, entry ∈ policy'.entries ↔ entry ∈ policy.entries

lemma SameEntries.mem_rules (h : SameEntries policy policy')
    (rule : AbsPath × FileSystemAccessMode) :
    rule ∈ policy'.rules host cwd ↔ rule ∈ policy.rules host cwd := by
  obtain ⟨path, access⟩ := rule
  rw [mem_rules_iff_exists, mem_rules_iff_exists]
  simp only [h.mem]

lemma SameEntries.hasFullDiskWriteAccess (h : SameEntries policy policy') :
    policy'.hasFullDiskWriteAccess host = policy.hasFullDiskWriteAccess host := by
  have hoverride : ∀ entry, policy'.hasSameTargetWriteOverride entry =
      policy.hasSameTargetWriteOverride entry := fun entry => any_congr_of_mem h.mem _
  simp only [FileSystemSandboxPolicy.hasFullDiskWriteAccess, hasRootAccess,
    hasWriteNarrowingEntries, hoverride, h.kind, any_congr_of_mem h.mem]

variable {w : AbsPath}

lemma SameEntries.governs_iff (h : SameEntries policy policy') {p access} :
    Governs (policy'.rules host cwd) w access p ↔ Governs (policy.rules host cwd) w access p :=
  ⟨fun hw => hw.congr fun v c _ => h.mem_rules (v, c),
    fun hw => hw.congr fun v c _ => (h.mem_rules (v, c)).symm⟩

lemma SameEntries.resolveAccessWithCwd (h : SameEntries policy policy') (path : RawPath) :
    policy'.resolveAccessWithCwd host cwd path = policy.resolveAccessWithCwd host cwd path := by
  rcases hkind : policy.kind with _ | _ | _
  · have hkind' := h.kind.trans hkind
    rw [resolveAccessWithCwd_eq hkind, resolveAccessWithCwd_eq hkind', best_congr h.mem_rules]
  all_goals
    have hkind' := h.kind.trans hkind
    simp [FileSystemSandboxPolicy.resolveAccessWithCwd, hkind, hkind']

variable (host policy cwd) in
/-- **The order makes a difference to a path**: an entry governs it, and the path is in a metadata
directory of the entry, and the entry in a metadata directory of another. -/
def Ambiguous (target : AbsPath) : Prop :=
  ∃ w v name name', Governs (policy.rules host cwd) w .write target ∧
    name ∈ protectedMetadataPathNames ∧ w ++ [name] <+: target ∧
    (v, .write) ∈ policy.rules host cwd ∧ name' ∈ protectedMetadataPathNames ∧ v ++ [name'] <+: w

/-- Without such entries, the directory is that of the governing entry. -/
lemma metadataChild_eq_of_not_ambiguous {target name}
    (hw : Governs (policy.rules host cwd) w .write target)
    (hname : name ∈ protectedMetadataPathNames) (hpre : w ++ [name] <+: target)
    (h : ¬ Ambiguous host policy cwd target) :
    policy.metadataChildOfWritableRoot host cwd target = some (w ++ [name], name) := by
  have hmem : (w ++ [name], name) ∈ policy.metadataChildren host cwd target :=
    mem_metadataChildren_iff.mpr ⟨w, hw.mem, hname, rfl, hpre⟩
  rw [metadataChild_eq_head?]
  rcases hchildren : policy.metadataChildren host cwd target with _ | ⟨⟨q, name'⟩, rest⟩
  · rw [hchildren] at hmem
    cases hmem
  obtain ⟨v, hv, hname', rfl, hq⟩ := mem_metadataChildren_iff.mp
    (hchildren ▸ mem_cons_self : (q, name') ∈ policy.metadataChildren host cwd target)
  have hvw := hw.longest v .write hv ((prefix_append v [name']).trans hq)
  obtain rfl | hne := eq_or_ne v w
  · rw [concat_prefix_unique hpre hq, head?_cons]
  · exact absurd ⟨w, v, name, name', hw, hname, hpre, hv, hname',
      concat_prefix_of_strict hq hw.le hvw hne⟩ h

variable {entries : List FileSystemSandboxEntry}

/-- The first entry decides which directory it is. -/
lemma metadataChild_of_first {entry target name}
    (hentries : policy.entries = entry :: entries)
    (hentry : resolveEntryPath host cwd entry.path = some w) (hwrite : entry.access = .write)
    (hname : name ∈ protectedMetadataPathNames) (hpre : w ++ [name] <+: target) :
    policy.metadataChildOfWritableRoot host cwd target = some (w ++ [name], name) := by
  have hbelow : metadataChildBelow target w = some (w ++ [name], name) :=
    metadataChildBelow_eq_some_iff.mpr ⟨hname, rfl, hpre⟩
  rw [metadataChild_eq_head?, metadataChildren, resolvedEntriesWithCwd, hentries,
    filterMap_cons, hentry, hwrite]
  show ((filter _ (_ :: _)).filterMap _).head? = _
  rw [filter_cons_of_pos (by rfl), filterMap_cons, hbelow, head?_cons]

lemma sameEntries_of_perm (h : entries.Perm policy.entries) :
    SameEntries policy { policy with entries } :=
  ⟨rfl, fun _ => h.mem_iff⟩

lemma SameEntries.canWritePathWithCwd (h : SameEntries policy policy') {path}
    (hclear : policy.kind = .restricted → policy.hasFullDiskWriteAccess host = false →
      ¬ Ambiguous host policy cwd (resolveCandidatePath host path cwd)) :
    policy'.canWritePathWithCwd host cwd path = policy.canWritePathWithCwd host cwd path := by
  have hfull : policy'.hasFullDiskWriteAccess host = policy.hasFullDiskWriteAccess host :=
    h.hasFullDiskWriteAccess
  rcases hkind : policy.kind with _ | _ | _
  · have hkind' := h.kind.trans hkind
    rcases hnarrow : policy.hasFullDiskWriteAccess host with _ | _
    · have hclear := hclear hkind hnarrow
      have hclear' : ¬ Ambiguous host policy' cwd (resolveCandidatePath host path cwd) := by
        simpa [Ambiguous, h.governs_iff, h.mem_rules] using hclear
      rw [Bool.eq_iff_iff, canWritePathWithCwd_iff hkind hnarrow,
        canWritePathWithCwd_iff hkind' (hfull.trans hnarrow)]
      simp only [h.governs_iff]
      refine exists_congr fun w => and_congr_right fun hw => forall_congr' fun name => not_congr ?_
      -- both are equalities only if the path is in a metadata directory of the entry
      have hchild : ∀ {p : FileSystemSandboxPolicy}, p.metadataChildOfWritableRoot host cwd
          (resolveCandidatePath host path cwd) = some (w ++ [name], name) →
            name ∈ protectedMetadataPathNames ∧
              w ++ [name] <+: resolveCandidatePath host path cwd := fun hsome => by
        obtain ⟨_, -, hname, -, hpre⟩ := mem_metadataChildren_iff.mp (mem_of_mem_head? hsome)
        exact ⟨hname, hpre⟩
      constructor
      · intro hsome
        obtain ⟨hname, hpre⟩ := hchild hsome
        exact metadataChild_eq_of_not_ambiguous hw hname hpre hclear
      · intro hsome
        obtain ⟨hname, hpre⟩ := hchild hsome
        exact metadataChild_eq_of_not_ambiguous (h.governs_iff.mpr hw) hname hpre hclear'
    · simp [FileSystemSandboxPolicy.canWritePathWithCwd, hfull, hnarrow, h.resolveAccessWithCwd]
  all_goals
    have hkind' := h.kind.trans hkind
    simp [FileSystemSandboxPolicy.canWritePathWithCwd, hfull, h.resolveAccessWithCwd,
      isMetadataWriteDenied, hkind, hkind']

/-- An entry can be put first. -/
lemma exists_perm_first (hw : (w, .write) ∈ policy.rules host cwd) :
    ∃ entries, entries.Perm policy.entries ∧ ∀ target name, name ∈ protectedMetadataPathNames →
      w ++ [name] <+: target →
        ({ policy with entries }).metadataChildOfWritableRoot host cwd target =
          some (w ++ [name], name) := by
  obtain ⟨entry, hentry, hpath, haccess⟩ := mem_rules_iff_exists.mp hw
  exact ⟨entry :: policy.entries.erase entry, (perm_cons_erase hentry).symm,
    fun target name => metadataChild_of_first rfl hpath haccess⟩

/-- **When the order of the entries makes no difference.** -/
theorem order_irrelevant_iff (path : RawPath) : (∀ entries, entries.Perm policy.entries →
      ({ policy with entries }).resolveAccessWithCwd host cwd path =
          policy.resolveAccessWithCwd host cwd path ∧
        ({ policy with entries }).canReadPathWithCwd host cwd path =
          policy.canReadPathWithCwd host cwd path ∧
        ({ policy with entries }).canWritePathWithCwd host cwd path =
          policy.canWritePathWithCwd host cwd path) ↔
      (policy.kind = .restricted → policy.hasFullDiskWriteAccess host = false →
        ¬ Ambiguous host policy cwd (resolveCandidatePath host path cwd)) := by
  constructor
  · rintro hsame hkind hfull ⟨w, v, name, name', hw, hname, hpre, hv, hname', hpre'⟩
    -- with the entry first the path is denied, with the other first it is not
    obtain ⟨entries, hperm, hfirst⟩ := exists_perm_first hw.mem
    obtain ⟨entries', hperm', hfirst'⟩ := exists_perm_first hv
    have hentries := sameEntries_of_perm hperm
    have hentries' := sameEntries_of_perm hperm'
    have hdenied : ¬ ({ policy with entries }).canWritePathWithCwd host cwd path := by
      rw [canWritePathWithCwd_iff (hentries.kind.trans hkind)
        (hentries.hasFullDiskWriteAccess.trans hfull)]
      rintro ⟨u, hu, hnot⟩
      obtain ⟨rfl, -⟩ := hw.unique (hentries.governs_iff.mp hu)
      exact hnot name (hfirst _ name hname hpre)
    have hallowed : ({ policy with entries := entries' }).canWritePathWithCwd host cwd path =
        true := by
      rw [canWritePathWithCwd_iff (hentries'.kind.trans hkind)
        (hentries'.hasFullDiskWriteAccess.trans hfull)]
      refine ⟨w, hentries'.governs_iff.mpr hw, fun name'' hsome => ?_⟩
      rw [hfirst' _ name' hname' (hpre'.trans hw.le)] at hsome
      obtain ⟨hpath, -⟩ := Prod.mk_inj.mp (Option.some_inj.mp hsome)
      have hvw : v = w := (append_inj' hpath rfl).1
      exact not_concat_prefix_self (hvw ▸ hpre')
    rw [(hsame entries hperm).2.2, ← (hsame entries' hperm').2.2] at hdenied
    exact hdenied hallowed
  · intro hclear entries hperm
    have hentries := sameEntries_of_perm hperm
    refine ⟨hentries.resolveAccessWithCwd path, ?_, hentries.canWritePathWithCwd hclear⟩
    rw [canReadPathWithCwd, canReadPathWithCwd, hentries.resolveAccessWithCwd path]

/-- Nothing exists. -/
def bareHost : Host where
  isDir _ := false
  isFile _ := false
  pathExists _ := false
  readToString _ := none

/-- A workspace, and a directory in its `.git`. -/
def nestedEntries : List FileSystemSandboxEntry :=
  [⟨.path ["ws"], .write, none⟩,
    ⟨.path ["ws", ".git", "sub"], .write, none⟩]

/-- **With the entries reversed** the metadata of the inner directory is protected. -/
theorem order_decides_nested : nestedEntries.reverse.Perm nestedEntries ∧
      (ofEntries nestedEntries).canWritePathWithCwd bareHost []
        (["ws", ".git", "sub", ".codex"] : AbsPath) ∧
      (ofEntries nestedEntries.reverse).canWritePathWithCwd bareHost []
        (["ws", ".git", "sub", ".codex"] : AbsPath) = false :=
  ⟨reverse_perm _, by decide, by decide⟩

end

end FileSystemSandboxPolicy

end Permissions
