import CodexAgents.Permissions.Signature

/-!
# The whole disk

A policy of `protocol/src/permissions.rs` that has full disk access for writing lets every path be
written, unless the entry for writing `/tmp` is a special one that is not resolved
(`full_disk_access_iff`).  `has_same_target_write_override` takes the two for the same target, and
`resolve_access_with_cwd` does not.
-/

namespace Permissions

open LongestPrefix List FileSystemAccessMode

variable {host : Host} {cwd : AbsPath}

namespace FileSystemSandboxPolicy

variable {policy : FileSystemSandboxPolicy} {w : AbsPath} {access : FileSystemAccessMode}

variable (host policy cwd) in
/-- `/tmp` can be read by an entry with its path, and written by none that is resolved. -/
def TmpShadowed : Prop :=
  policy.kind = .restricted ∧
    (∃ entry ∈ policy.entries, entry.path = .path slashTmp ∧ entry.access = .read) ∧
      (slashTmp, .write) ∉ policy.rules host cwd

/-- Where something is resolved to, there is an entry for writing. -/
lemma mem_rules_write_of_full (hfull : policy.hasFullDiskWriteAccess host)
    (hkind : policy.kind = .restricted) (htmp : ¬ policy.TmpShadowed host cwd)
    (h : (w, access) ∈ policy.rules host cwd) :
    access ≠ .deny ∧ (w, .write) ∈ policy.rules host cwd := by
  by_cases hne : access = .write
  · subst hne
    exact ⟨by decide, h⟩
  obtain ⟨rfl, hmem | ⟨rfl, hentry⟩⟩ := rule_of_full hkind hfull h hne
  · exact ⟨by decide, hmem⟩
  · refine ⟨by decide, ?_⟩
    by_contra hnot
    exact htmp ⟨hkind, hentry, hnot⟩

/-- **The whole disk.**  Full access for writing is real unless the entry that overrides one for
reading `/tmp` is not resolved; full access for reading always is. -/
theorem full_disk_access_iff : (policy.hasFullDiskWriteAccess host →
        ((∀ path : RawPath, policy.resolveAccessWithCwd host cwd path = .write) ↔
          ¬ policy.TmpShadowed host cwd)) ∧
      (policy.hasFullDiskReadAccess host →
        ∀ path : RawPath, policy.resolveAccessWithCwd host cwd path ≠ .deny) := by
  by_cases hkind : policy.kind = .restricted
  swap
  · have hwrite : ∀ path : RawPath, policy.resolveAccessWithCwd host cwd path = .write := by
      intro path
      rw [resolveAccessWithCwd]
      split
      · rename_i hrestricted
        exact absurd hrestricted hkind
      · rfl
    refine ⟨fun _ => iff_of_true hwrite fun h => hkind h.1, fun _ path => ?_⟩
    rw [hwrite path]
    decide
  refine ⟨fun hfull => ⟨?_, fun htmp path => ?_⟩, fun hfull path => ?_⟩
  · rintro hall ⟨-, ⟨entry, hentry, hpath, hread⟩, hnot⟩
    have htmp : (slashTmp, .read) ∈ policy.rules host cwd :=
      mem_rules_iff_exists.mpr ⟨entry, hentry, by rw [hpath]; rfl, hread⟩
    obtain ⟨w, hw⟩ := (resolveAccessWithCwd_eq_iff hkind (by decide)).mp (hall slashTmp.toRaw)
    rw [resolveCandidatePath_toRaw] at hw
    obtain rfl : slashTmp = w := (hw.longest _ _ htmp (prefix_refl _)).eq_of_length_le
      hw.le.length_le
    exact hnot hw.mem
  · have hle : [] <+: resolveCandidatePath host path cwd := nil_prefix
    obtain ⟨w, access, hw, -⟩ := exists_governs (root_mem_rules_of_full hkind hfull) hle
    rw [resolveAccessWithCwd_of_governs hkind hw]
    obtain ⟨hdeny, hwrite⟩ := mem_rules_write_of_full hfull hkind htmp hw.mem
    have hle := hw.greatest _ hwrite
    obtain _ | _ | _ := access
    · exact absurd hle (by decide)
    · rfl
    · exact absurd rfl hdeny
  · exact canRead_iff.mp (canRead_of_full hfull path)

/-- Nothing is at `/tmp`, which an entry lets be read and a special one written. -/
theorem tmp_not_written : (ofEntries [⟨.special .root, .write, none⟩, ⟨.path slashTmp, .read, none⟩,
        ⟨.special .slashTmp, .write, none⟩]).hasFullDiskWriteAccess bareHost ∧
      (ofEntries [⟨.special .root, .write, none⟩, ⟨.path slashTmp, .read, none⟩,
        ⟨.special .slashTmp, .write, none⟩]).resolveAccessWithCwd bareHost [] slashTmp.toRaw =
          .read := by
  decide

end FileSystemSandboxPolicy

end Permissions
