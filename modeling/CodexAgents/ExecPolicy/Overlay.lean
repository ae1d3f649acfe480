import CodexAgents.ExecPolicy.Policy

/-!
# Managed rules over the rules of users and projects

`load_exec_policy` in `core/src/exec_policy.rs` puts the policy of the requirements over the one it
has read from the rule files, with `merge_overlay`.  The rules of both are in the result, and where
the requirements list the paths of a program, theirs are.

Managed rules are meant to stay in force whatever the files say.  They do when they match a command
as it stands.  When they match it by the name of the file only, the files have two ways around them:
a rule for the path, which is looked up first, and a list of the paths of the program without this
one.  `managed_rules_kept_iff` says that there is no other: `Protected` is what has to hold of the
two policies.
-/

namespace ExecPolicy

open Text HashMap

variable {A : Type} [DecidableEq A]

namespace Policy

/-! ## Merging -/

section

variable (order : PolicyOrder A) (user managed : Policy A)

omit [DecidableEq A]

lemma rulesMatching_mergeOverlay (program : Str) (cmd : List Str) :
    (user.mergeOverlay order managed).rulesMatching program cmd =
      user.rulesMatching program cmd ++ managed.rulesMatching program cmd := by
  rw [rulesMatching, mergeOverlay, values_pushAll_arrange, List.filter_append]
  rfl

lemma exactRules_mergeOverlay (cmd : List Str) : (user.mergeOverlay order managed).exactRules cmd =
      user.exactRules cmd ++ managed.exactRules cmd := by
  obtain _ | ⟨first, rest⟩ := cmd
  · rfl
  · exact rulesMatching_mergeOverlay order user managed first (first :: rest)

lemma permits_mergeOverlay {basename program} :
    (user.mergeOverlay order managed).Permits basename program ↔ managed.Permits basename program ∧
        (get managed.hostExecutablesByName basename = none → user.Permits basename program) := by
  rw [Permits, mergeOverlay, get_extend, Permits]
  obtain _ | listed := get managed.hostExecutablesByName basename
  · rw [Option.none_or]
    exact ⟨fun h => ⟨fun _ hmem => (nomatch hmem), fun _ => h⟩, fun h => h.2 rfl⟩
  · rw [Option.some_or]
    exact ⟨fun h => ⟨h, fun hnone => (nomatch hnone)⟩, fun h => h.1⟩

end

end Policy

open Policy

/-! ## Paths as on Unix -/

/-- A word that does not begin with a slash is a path below the current directory, and what follows
the last slash is the name.  Words with `.`, `..` or `~` for a part are read as they stand. -/
def unixPaths : HostPaths Str where
  tryFrom word := some (if word.head? = some '/' then word else "/work/" ++ word)
  executablePathLookupKey program := some (program.reverse.takeWhile (· ≠ '/')).reverse

/-- The user allows a program by its path. -/
def userGitPath : Policy Str where
  rulesByProgram := push ∅ "/usr/bin/git" (prefixRule "/usr/bin/git" [] .allow)

/-- The managed policy forbids it by its name. -/
def managedGit : Policy Str where
  rulesByProgram := push ∅ "git" (prefixRule "git" [] .forbidden)

/-! ## Protection -/

lemma Decision.le_iff {d d'} :
    d ≤ d' ↔ (d = forbidden → d' = forbidden) ∧ (d = prompt → prompt ≤ d') := by
  cases d <;> cases d' <;> decide

/-- **The managed rules are protected** from those of the user, for a command that none of them
matches as it stands, and that they allow to be looked up by the name of the file.

* If rules of the user match the command as it stands, they are at least as strict.
* If none does, and the program is looked up in the user's list of paths, it is there; otherwise
  the fallback is at least as strict. -/
def Protected (paths : HostPaths A) (user managed : Policy A) (cmd : List Str)
    (fallback : Decision) : Prop :=
  ∀ program basename basenameCmd, resolve paths cmd = some (program, basename, basenameCmd) →
    managed.exactRules cmd = [] → managed.Permits basename program →
    ∀ rule ∈ managed.rulesMatching basename basenameCmd,
      (user.exactRules cmd ≠ [] → ∃ rule' ∈ user.exactRules cmd, rule.decision ≤ rule'.decision) ∧
      (user.exactRules cmd = [] → get managed.hostExecutablesByName basename = none →
        ¬ user.Permits basename program → rule.decision ≤ fallback)

section

variable (paths : HostPaths A) (order : PolicyOrder A) (user managed : Policy A) (cmd : List Str)

variable {paths managed cmd} in
/-- A managed rule that matches by the name of the file. -/
lemma le_verdict_merged_iff {fallback program basename basenameCmd}
    (hresolve : resolve paths cmd = some (program, basename, basenameCmd))
    (hnone : managed.exactRules cmd = []) (hpermits : managed.Permits basename program)
    {rule} (hrule : rule ∈ managed.rulesMatching basename basenameCmd) :
    rule.decision ≤ verdict ((user.mergeOverlay order managed).decidingRules paths cmd) fallback ↔
      (user.exactRules cmd ≠ [] → ∃ rule' ∈ user.exactRules cmd, rule.decision ≤ rule'.decision) ∧
      (user.exactRules cmd = [] → get managed.hostExecutablesByName basename = none →
        ¬ user.Permits basename program → rule.decision ≤ fallback) := by
  have hmerged : (user.mergeOverlay order managed).exactRules cmd = user.exactRules cmd := by
    rw [exactRules_mergeOverlay, hnone, List.append_nil]
  obtain huser | huser := eq_or_ne (user.exactRules cmd) []
  · rw [decidingRules_of_resolved (hmerged.trans huser) hresolve, rulesMatching_mergeOverlay]
    split
    · -- the rule is still looked up, and decides with the others
      rename_i hlisted
      rw [permits_mergeOverlay] at hlisted
      exact iff_of_true (le_verdict (List.mem_append_right _ hrule))
        ⟨absurd huser, fun _ hunlisted hnot => absurd (hlisted.2 hunlisted) hnot⟩
    · -- the user's list of paths is in force and leaves the program out
      rename_i hhidden
      rw [permits_mergeOverlay] at hhidden
      rw [verdict_nil]
      refine ⟨fun h => ⟨absurd huser, fun _ _ _ => h⟩, fun h => h.2 huser ?_ ?_⟩
      · by_contra hlisted
        exact hhidden ⟨hpermits, fun hunlisted => absurd hunlisted hlisted⟩
      · exact fun huserPermits => hhidden ⟨hpermits, fun _ => huserPermits⟩
  · rw [decidingRules_of_exact (hmerged.symm ▸ huser), hmerged, le_verdict_iff huser]
    exact ⟨fun h => ⟨fun _ => h, fun hnil => absurd hnil huser⟩, fun h => h.1 huser⟩

lemma verdict_le_iff_protected (fallback : Decision) : (managed.decidingRules paths cmd ≠ [] →
      verdict (managed.decidingRules paths cmd) fallback ≤
        verdict ((user.mergeOverlay order managed).decidingRules paths cmd) fallback) ↔
      Protected paths user managed cmd fallback := by
  rw [verdict_le_iff]
  constructor
  · intro h program basename basenameCmd hresolve hnone hpermits rule hrule
    refine (le_verdict_merged_iff order user hresolve hnone hpermits hrule).mp (h rule ?_)
    exact mem_decidingRules_iff.mpr (.inr ⟨hnone, _, _, _, hresolve, hpermits, hrule⟩)
  · intro h rule hrule
    rcases mem_decidingRules_iff.mp hrule with
      hexact | ⟨hnone, program, basename, basenameCmd, hresolve, hpermits, hnamed⟩
    · -- it is looked up first among all the rules, too
      refine le_verdict (mem_decidingRules_iff.mpr (.inl ?_))
      rw [exactRules_mergeOverlay]
      exact List.mem_append_right _ hexact
    · exact (le_verdict_merged_iff order user hresolve hnone hpermits hnamed).mpr
        (h _ _ _ hresolve hnone hpermits rule hnamed)

/-- **When managed rules stay in force**: what they forbid, or want confirmed, the user's rules and
theirs together forbid, or want confirmed, exactly for the commands for which they are protected. -/
theorem managed_rules_kept_iff (fallback : List Str → Decision) :
    (∀ e, managed.checkWithOptions paths cmd fallback ⟨true⟩ = some e → e.isMatch →
      ∃ e', (user.mergeOverlay order managed).checkWithOptions paths cmd fallback ⟨true⟩ = some e' ∧
        (e.decision = .forbidden → e'.decision = .forbidden) ∧
        (e.decision = .prompt → .prompt ≤ e'.decision)) ↔
      Protected paths user managed cmd (fallback cmd) := by
  obtain ⟨e, he, hdecision, hmatch⟩ := checkWithOptions_eq paths managed cmd fallback
  obtain ⟨e', he', hdecision', -⟩ :=
    checkWithOptions_eq paths (user.mergeOverlay order managed) cmd fallback
  rw [← verdict_le_iff_protected paths order, ← hdecision, ← hdecision', ← hmatch]
  simp only [he, he', Option.some_inj, forall_eq', exists_eq_left']
  exact imp_congr_right fun _ => Decision.le_iff.symm

end

/-- A user rule that allows a program by its path, and a managed one that forbids it by name. -/
theorem managed_rule_hidden_by_path :
    ∃ e e', managedGit.checkWithOptions unixPaths ["/usr/bin/git", "push"]
          (fun _ => .prompt) ⟨true⟩ = some e ∧
      e.isMatch ∧ e.decision = .forbidden ∧
      (userGitPath.mergeOverlay .kept managedGit).checkWithOptions unixPaths
          ["/usr/bin/git", "push"] (fun _ => .prompt) ⟨true⟩ = some e' ∧
      e'.decision = .allow :=
  ⟨_, _, rfl, rfl, rfl, rfl, rfl⟩

end ExecPolicy
