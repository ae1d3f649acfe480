import CodexAgents.ExecPolicy.Policy

/-!
# A rule that allows a command

When a command has been approved for good, `append_amendment_and_update` in
`core/src/exec_policy.rs` adds a rule that allows everything the command is a prefix of.  This
module is about the effect of such a rule on a policy.

What becomes of commands (`approval`) depends on the strictest deciding rule of each of them, its
`ruling`.  A rule that allows can change a ruling in two ways only: it makes a command match as it
stands, so that rules for the name of the file are no longer looked up, or it makes one match by the
name of its file that no rule matched.  `rulings_kept_iff` says when neither happens for a command
that is allowed by the name of its file already.
-/

namespace ExecPolicy

open Text HashMap List Option

variable {A : Type} [DecidableEq A]

/-! ## Rulings -/

/-- The strictest of the decisions. -/
def strictest (rules : List PrefixRule) : Option Decision := (rules.map (·.decision)).max?

section

variable {rules : List PrefixRule} {d : Decision}

lemma strictest_eq_none_iff : strictest rules = none ↔ rules = [] := by
  rw [strictest, max?_eq_none_iff, map_eq_nil_iff]

lemma strictest_eq_some_iff : strictest rules = some d ↔
      (∃ rule ∈ rules, rule.decision = d) ∧ ∀ rule ∈ rules, rule.decision ≤ d := by
  rw [strictest, max?_eq_some_iff, List.mem_map, List.forall_mem_map]

lemma strictest_eq_allow_iff :
    strictest rules = some .allow ↔ rules ≠ [] ∧ ∀ rule ∈ rules, rule.decision = .allow := by
  rw [strictest_eq_some_iff]
  constructor
  · rintro ⟨⟨rule, hrule, -⟩, hle⟩
    exact ⟨ne_nil_of_mem hrule, fun r hr => Decision.eq_allow_of_le (hle r hr)⟩
  · rintro ⟨hne, hall⟩
    obtain ⟨rule, hrule⟩ := exists_mem_of_ne_nil _ hne
    exact ⟨⟨rule, hrule, hall rule hrule⟩, fun r hr => (hall r hr).le⟩

/-- Only which rules there are matters. -/
lemma strictest_congr {rules'} (h : ∀ rule, rule ∈ rules ↔ rule ∈ rules') :
    strictest rules = strictest rules' := by
  ext d
  rw [strictest_eq_some_iff, strictest_eq_some_iff]
  simp [h]

/-- A rule that allows makes no difference to others. -/
lemma strictest_of_gained {rules' rule} (hallow : rule.decision = .allow)
    (h : ∀ r, r ∈ rules' ↔ r ∈ rules ∨ r = rule) :
    strictest rules' = some ((strictest rules).getD .allow) := by
  have hle : ∀ d, rule.decision ≤ d := fun d => hallow.symm ▸ Decision.allow_le d
  rcases hrules : strictest rules with _ | d
  · rw [getD_none, strictest_eq_allow_iff]
    rw [strictest_eq_none_iff] at hrules
    simp only [hrules, not_mem_nil, false_or] at h
    exact ⟨ne_nil_of_mem ((h rule).mpr rfl), fun r hr => (h r).mp hr ▸ hallow⟩
  · obtain ⟨⟨r, hr, hdecision⟩, hmax⟩ := strictest_eq_some_iff.mp hrules
    rw [getD_some, strictest_eq_some_iff]
    refine ⟨⟨r, (h r).mpr (.inl hr), hdecision⟩, fun r' hr' => ?_⟩
    obtain hold | rfl := (h r').mp hr'
    · exact hmax r' hold
    · exact hle d

end

namespace Policy

/-- **The ruling on a command**: the strictest of the deciding rules. -/
def ruling (paths : HostPaths A) (policy : Policy A) (cmd : List Str) : Option Decision :=
  strictest (policy.decidingRules paths cmd)

end Policy

open Policy

/-! ## Approvals -/

/-- What `create_exec_approval_requirement_for_command` comes to for the segments of a command. -/
structure Approval where
  decision : Decision
  /-- Whether the command runs without a sandbox, if it is allowed. -/
  bypassSandbox : Option Bool

variable (paths : HostPaths A) (policy : Policy A)

/-- What is decided about some commands, and if the sandbox can be left. -/
def approval (commands : List (List Str)) (fallback : List Str → Decision) : Option Approval :=
  (policy.checkMultipleWithOptions paths commands fallback ⟨true⟩).map fun evaluation =>
    { decision := evaluation.decision
      bypassSandbox :=
        match evaluation.decision with
        | .allow => some (commands.all fun command =>
            (policy.matchesForCommandWithOptions paths command none ⟨true⟩).any fun found =>
              found.isPolicyMatch && found.decision = .allow)
        | _ => none }

/-- The matches of one command come to its ruling, or the fallback. -/
lemma max?_matches (cmd : List Str) (fallback : List Str → Decision) :
    ((policy.matchesForCommandWithOptions paths cmd (some fallback) ⟨true⟩).map
      (·.decision)).max? = some ((policy.ruling paths cmd).getD (fallback cmd)) := by
  rw [matches_some]
  by_cases hnil : policy.decidingRules paths cmd = []
  · rw [if_pos hnil, ruling, strictest_eq_none_iff.mpr hnil]
    rfl
  · rw [if_neg hnil, (shows_matches paths policy cmd).map_decision]
    obtain ⟨d, hd⟩ := ne_none_iff_exists'.mp (mt strictest_eq_none_iff.mp hnil)
    rw [ruling, hd, getD_some]
    exact hd

lemma max?_flatMap {α : Type} (f : α → List Decision) (g : α → Decision)
    (h : ∀ a, (f a).max? = some (g a)) (l : List α) : (l.flatMap f).max? = (l.map g).max? := by
  ext d
  rw [max?_eq_some_iff, max?_eq_some_iff]
  have hg : ∀ a, g a ∈ f a ∧ ∀ d ∈ f a, d ≤ g a := fun a => max?_eq_some_iff.mp (h a)
  simp only [mem_flatMap, List.mem_map]
  constructor
  · rintro ⟨⟨a, ha, hd⟩, hmax⟩
    refine ⟨⟨a, ha, le_antisymm (hmax _ ⟨a, ha, (hg a).1⟩) ((hg a).2 d hd)⟩, ?_⟩
    rintro _ ⟨b, hb, rfl⟩
    exact hmax _ ⟨b, hb, (hg b).1⟩
  · rintro ⟨⟨a, ha, rfl⟩, hmax⟩
    refine ⟨⟨a, ha, (hg a).1⟩, ?_⟩
    rintro d ⟨b, hb, hd⟩
    exact ((hg b).2 d hd).trans (hmax _ ⟨b, hb, rfl⟩)

lemma any_allow_iff (cmd : List Str) :
    ((policy.matchesForCommandWithOptions paths cmd none ⟨true⟩).any fun found =>
        found.isPolicyMatch && found.decision = .allow) =
      (policy.decidingRules paths cmd).any fun rule => rule.decision = .allow := by
  have h := congrArg (any · fun shown : Decision × Bool => shown.2 && shown.1 = .allow)
    (shows_matches paths policy cmd)
  simpa only [List.any_map, Function.comp_def, Bool.true_and] using h

/-- **Approvals depend on rulings.** -/
theorem approval_eq (commands : List (List Str)) (fallback : List Str → Decision) :
    approval paths policy commands fallback =
      ((commands.map fun cmd => (policy.ruling paths cmd).getD (fallback cmd)).max?).map fun d =>
        ⟨d, if d = .allow then some (commands.all fun cmd =>
          policy.ruling paths cmd = some .allow) else none⟩ := by
  have hmax : ((commands.flatMap fun cmd => policy.matchesForCommandWithOptions paths cmd
      (some fallback) ⟨true⟩).map (·.decision)).max? =
      (commands.map fun cmd => (policy.ruling paths cmd).getD (fallback cmd)).max? := by
    rw [map_flatMap]
    exact max?_flatMap _ _ (fun cmd => max?_matches paths policy cmd fallback) commands
  rw [approval, checkMultipleWithOptions, Evaluation.fromMatches, hmax, Option.map_map]
  rcases hd : (commands.map fun cmd => (policy.ruling paths cmd).getD (fallback cmd)).max? with
    _ | d
  · rfl
  rw [map_some, map_some, some_inj, Function.comp_apply]
  obtain _ | _ | _ := d
  · -- everything is allowed: by a rule if there is one
    have hall : ∀ cmd ∈ commands, (policy.ruling paths cmd).getD (fallback cmd) = .allow :=
      fun cmd hcmd => Decision.eq_allow_of_le
        ((max?_eq_some_iff.mp hd).2 _ (mem_map_of_mem hcmd))
    have hsegments : (commands.all fun cmd => (policy.matchesForCommandWithOptions paths cmd none
          ⟨true⟩).any fun found => found.isPolicyMatch && found.decision = .allow) =
        commands.all fun cmd => policy.ruling paths cmd = some .allow := by
      refine Bool.eq_iff_iff.mpr ?_
      rw [List.all_eq_true, List.all_eq_true]
      refine forall₂_congr fun cmd hcmd => ?_
      rw [any_allow_iff, decide_eq_true_iff, List.any_eq_true]
      simp only [decide_eq_true_iff]
      constructor
      · rintro ⟨rule, hrule, -⟩
        obtain ⟨d, hd⟩ := ne_none_iff_exists'.mp
          (mt strictest_eq_none_iff.mp (ne_nil_of_mem hrule))
        have hallow := hall cmd hcmd
        rw [ruling, hd, getD_some] at hallow
        rw [ruling, hd, hallow]
      · intro hruling
        obtain ⟨hne, hallow⟩ := strictest_eq_allow_iff.mp hruling
        obtain ⟨rule, hrule⟩ := exists_mem_of_ne_nil _ hne
        exact ⟨rule, hrule, hallow rule hrule⟩
    simp [hsegments]
  · rfl
  · rfl

variable {paths : HostPaths A}

lemma approval_congr {policy policy'}
    (h : ∀ cmd, policy'.ruling paths cmd = policy.ruling paths cmd) (commands : List (List Str))
    (fallback : List Str → Decision) :
    approval paths policy' commands fallback = approval paths policy commands fallback := by
  simp [approval_eq, h]

variable {cmd : List Str}

/-- An allowed command is told from one that is not, whatever the fallback. -/
lemma ruling_eq_allow_of_approval_eq {policy policy' fallback}
    (h : approval paths policy' [cmd] fallback = approval paths policy [cmd] fallback)
    (hallow : policy'.ruling paths cmd = some .allow) : policy.ruling paths cmd = some .allow := by
  simp only [approval_eq, hallow, map_singleton, max?_singleton, getD_some,
    map_some, some_inj, Approval.mk.injEq, if_true, all_cons, all_nil,
    Bool.and_true, decide_true] at h
  have hbypass := h.2
  rw [← h.1, if_pos rfl, some_inj] at hbypass
  exact of_decide_eq_true hbypass.symm

/-! ## Prefixes -/

variable {program : A} {basename : Str}

omit [DecidableEq A] in
lemma basenameCmd_of_resolve {basenameCmd}
    (h : resolve paths cmd = some (program, basename, basenameCmd)) :
    basenameCmd = basename :: cmd.tail := by
  obtain ⟨first, -, h⟩ := bind_eq_some_iff.mp h
  obtain ⟨path, -, h⟩ := bind_eq_some_iff.mp h
  obtain ⟨name, -, h⟩ := map_eq_some_iff.mp h
  cases h
  rfl

omit [DecidableEq A] in
/-- Which file a command leads to depends on its first word. -/
lemma resolve_append {first rest basenameCmd}
    (h : resolve paths (first :: rest) = some (program, basename, basenameCmd)) (more : List Str) :
    resolve paths (first :: rest ++ more) = some (program, basename, basenameCmd ++ more) := by
  obtain ⟨word, hword, h⟩ := bind_eq_some_iff.mp h
  cases hword
  obtain ⟨path, hpath, h⟩ := bind_eq_some_iff.mp h
  obtain ⟨name, hname, h⟩ := map_eq_some_iff.mp h
  cases h
  simp [resolve, hpath, hname]

lemma zip_all_matchesToken_iff {tokens : List PatternToken} {words} :
    (tokens.length ≤ words.length ∧ (tokens.zip words).all (fun t => t.1.matchesToken t.2)) ↔
      ∃ matched more, words = matched ++ more ∧
        List.Forall₂ (fun token word => token.matchesToken word = true) tokens matched := by
  induction tokens generalizing words with
  | nil => exact iff_of_true ⟨Nat.zero_le _, rfl⟩ ⟨[], words, rfl, .nil⟩
  | cons token tokens ih =>
    obtain _ | ⟨word, words⟩ := words
    · refine iff_of_false (fun h => absurd h.1 (Nat.not_succ_le_zero _)) ?_
      rintro ⟨_, _, hwords, _ | ⟨_, _⟩⟩
      cases hwords
    · rw [zip_cons_cons, all_cons, Bool.and_eq_true, length_cons, length_cons,
        Nat.add_le_add_iff_right, and_left_comm, ih]
      constructor
      · rintro ⟨htoken, matched, more, rfl, hmatched⟩
        exact ⟨word :: matched, more, rfl, .cons htoken hmatched⟩
      · rintro ⟨_, more, hwords, _ | ⟨htoken, hmatched⟩⟩
        cases hwords
        exact ⟨htoken, _, more, rfl, hmatched⟩

variable {p : PrefixPattern}

/-- A pattern matches the commands that begin as it says. -/
lemma matchesPrefix_isSome_iff :
    (p.matchesPrefix cmd).isSome ↔ ∃ words more, cmd = p.first :: words ++ more ∧
      List.Forall₂ (fun token word => token.matchesToken word = true) p.rest words := by
  obtain _ | ⟨word, rest⟩ := cmd
  · refine iff_of_false (fun h => ?_) fun ⟨_, _, hcmd, _⟩ => nomatch hcmd
    simp [PrefixPattern.matchesPrefix] at h
  · have hsome : (p.matchesPrefix (word :: rest)).isSome ↔ word = p.first ∧
        (p.rest.length ≤ rest.length ∧ (p.rest.zip rest).all (fun t => t.1.matchesToken t.2)) := by
      simp only [PrefixPattern.matchesPrefix]
      by_cases hfails : (word :: rest).length < p.rest.length + 1 ∨
        (word :: rest).head? ≠ some p.first
      · rw [if_pos hfails]
        rw [length_cons, head?_cons] at hfails
        refine iff_of_false Bool.false_ne_true fun h => ?_
        obtain hlength | hfirst := hfails
        · omega
        · exact hfirst (congrArg some h.1)
      · rw [if_neg hfails]
        rw [not_or, not_not, length_cons, head?_cons, some_inj] at hfails
        rw [and_iff_right hfails.2, and_iff_right (by omega)]
        by_cases hall : (p.rest.zip (word :: rest).tail).all (fun t => t.1.matchesToken t.2) = true
        · rw [if_pos hall]
          exact iff_of_true rfl hall
        · rw [if_neg hall]
          exact iff_of_false Bool.false_ne_true hall
    rw [hsome, zip_all_matchesToken_iff]
    constructor
    · rintro ⟨rfl, words, more, rfl, hwords⟩
      exact ⟨words, more, rfl, hwords⟩
    · rintro ⟨words, more, hcmd, hwords⟩
      cases hcmd
      exact ⟨rfl, words, more, rfl, hwords⟩

lemma matchesPrefix_mono {cmd'} (h : (p.matchesPrefix cmd).isSome)
    (hpre : cmd <+: cmd') : (p.matchesPrefix cmd').isSome := by
  obtain ⟨words, more, rfl, hwords⟩ := matchesPrefix_isSome_iff.mp h
  obtain ⟨rest, rfl⟩ := hpre
  exact matchesPrefix_isSome_iff.mpr ⟨words, more ++ rest, append_assoc _ _ _, hwords⟩

variable {decision : Decision}

lemma prefixRule_matches_iff {first rest} :
    ((prefixRule first rest decision).pattern.matchesPrefix cmd).isSome ↔
      first :: rest <+: cmd := by
  have hwords : ∀ words,
    List.Forall₂ (fun token word => PatternToken.matchesToken token word = true)
      (rest.map .single) words ↔ rest = words := by
    intro words
    simp [PatternToken.matchesToken]
  rw [matchesPrefix_isSome_iff]
  constructor
  · rintro ⟨words, more, rfl, hmatch⟩
    obtain rfl := (hwords words).mp hmatch
    exact ⟨more, rfl⟩
  · rintro ⟨more, rfl⟩
    exact ⟨rest, more, rfl, (hwords rest).mpr rfl⟩

/-! ## A rule more -/

/-- The first policy with a rule more, as far as commands are concerned. -/
structure Gained (rule : PrefixRule) (policy policy' : Policy A) : Prop where
  hosts : ∀ name, get policy'.hostExecutablesByName name = get policy.hostExecutablesByName name
  rules : ∀ program r, r ∈ values policy'.rulesByProgram program ↔
    r ∈ values policy.rulesByProgram program ∨ program = rule.pattern.first ∧ r = rule

omit [DecidableEq A] in
lemma gained_addPrefixRule {policy policy' : Policy A} {first rest}
    (h : policy.addPrefixRule (first :: rest) decision = .ok policy') :
    Gained (prefixRule first rest decision) policy policy' := by
  cases h
  refine ⟨fun _ => rfl, fun program r => ?_⟩
  rw [values_push]
  split <;> simp_all [prefixRule]

variable {first : Str} {rest : List Str}

namespace Gained

variable {policy policy' : Policy A}

omit [DecidableEq A] in
lemma permits_iff {rule} (h : Gained rule policy policy')
    {basename program} : policy'.Permits basename program ↔ policy.Permits basename program := by
  rw [Permits, Permits, h.hosts]

section

variable (h : Gained (prefixRule first rest .allow) policy policy')

include h

variable {cmd : List Str}

omit [DecidableEq A] in
lemma mem_rulesMatching {r program} :
    r ∈ policy'.rulesMatching program cmd ↔ r ∈ policy.rulesMatching program cmd ∨
        (program = first ∧ first :: rest <+: cmd) ∧ r = prefixRule first rest .allow := by
  rw [rulesMatching, rulesMatching, mem_filter, mem_filter, h.rules, or_and_right]
  refine or_congr_right ?_
  constructor
  · rintro ⟨⟨hprogram, rfl⟩, hmatch⟩
    exact ⟨⟨hprogram, prefixRule_matches_iff.mp hmatch⟩, rfl⟩
  · rintro ⟨⟨hprogram, hpre⟩, rfl⟩
    exact ⟨⟨hprogram, rfl⟩, prefixRule_matches_iff.mpr hpre⟩

omit [DecidableEq A] in
lemma mem_exactRules {r} : r ∈ policy'.exactRules cmd ↔
      r ∈ policy.exactRules cmd ∨ first :: rest <+: cmd ∧ r = prefixRule first rest .allow := by
  obtain _ | ⟨word, words⟩ := cmd
  · simp [exactRules]
  · show r ∈ policy'.rulesMatching word (word :: words) ↔ _
    rw [h.mem_rulesMatching]
    refine or_congr_right (and_congr_left fun _ => and_iff_right_of_imp fun hpre => ?_)
    exact (cons_prefix_cons.mp hpre).1.symm

variable {paths : HostPaths A}

/-- **A command that begins so** is decided by the rules that match it as it stands. -/
theorem ruling_of_prefix (hpre : first :: rest <+: cmd) :
    policy'.ruling paths cmd = some ((strictest (policy.exactRules cmd)).getD .allow) := by
  have hmem : ∀ r, r ∈ policy'.exactRules cmd ↔
      r ∈ policy.exactRules cmd ∨ r = prefixRule first rest .allow := fun r => by
    rw [h.mem_exactRules, and_iff_right hpre]
  rw [ruling, decidingRules_of_exact (ne_nil_of_mem ((hmem _).mpr (.inr rfl)))]
  exact strictest_of_gained rfl hmem

omit [DecidableEq A] in
lemma exactRules_eq_nil_iff (hpre : ¬ first :: rest <+: cmd) :
    policy'.exactRules cmd = [] ↔ policy.exactRules cmd = [] := by
  simp only [eq_nil_iff_forall_not_mem, h.mem_exactRules, hpre, false_and, or_false]

/-- Another command that matches as it stands. -/
lemma ruling_of_exact (hpre : ¬ first :: rest <+: cmd) (hexact : policy.exactRules cmd ≠ []) :
    policy'.ruling paths cmd = policy.ruling paths cmd := by
  have hexact' := mt (h.exactRules_eq_nil_iff hpre).mp hexact
  rw [ruling, ruling, decidingRules_of_exact hexact, decidingRules_of_exact hexact']
  refine strictest_congr fun r => ?_
  rw [h.mem_exactRules, or_iff_left fun hnew => hpre hnew.1]

/-- **Another command that does not**: the rule has a say if it matches by the name of the file. -/
theorem ruling_of_name (hpre : ¬ first :: rest <+: cmd) (hnone : policy.exactRules cmd = [])
    {program basename basenameCmd}
    (hresolve : resolve paths cmd = some (program, basename, basenameCmd))
    (hpermits : policy.Permits basename program) (hname : first :: rest <+: basenameCmd) :
    policy'.ruling paths cmd = some ((policy.ruling paths cmd).getD .allow) := by
  have hbasename : basename = first := by
    rw [basenameCmd_of_resolve hresolve] at hname
    exact (cons_prefix_cons.mp hname).1.symm
  rw [ruling, ruling, decidingRules_of_resolved hnone hresolve, if_pos hpermits,
    decidingRules_of_resolved ((h.exactRules_eq_nil_iff hpre).mpr hnone) hresolve,
    if_pos (h.permits_iff.mpr hpermits)]
  have hmem : ∀ r, r ∈ policy'.rulesMatching basename basenameCmd ↔
      r ∈ policy.rulesMatching basename basenameCmd ∨ r = prefixRule first rest .allow :=
        fun r => by
    rw [h.mem_rulesMatching, and_iff_right ⟨hbasename, hname⟩]
  exact strictest_of_gained rfl hmem

lemma ruling_of_not_name (hpre : ¬ first :: rest <+: cmd) (hname : ∀ program basename basenameCmd,
      resolve paths cmd = some (program, basename, basenameCmd) →
        policy.Permits basename program → ¬ first :: rest <+: basenameCmd) :
    policy'.ruling paths cmd = policy.ruling paths cmd := by
  refine strictest_congr fun r => ?_
  have hexact : r ∈ policy'.exactRules cmd ↔ r ∈ policy.exactRules cmd := by
    rw [h.mem_exactRules, or_iff_left fun hnew => hpre hnew.1]
  rw [mem_decidingRules_iff, mem_decidingRules_iff, h.exactRules_eq_nil_iff hpre, hexact]
  refine or_congr_right (and_congr_right fun _ => exists₃_congr fun program basename basenameCmd =>
    and_congr_right fun hresolve => ?_)
  rw [h.permits_iff]
  refine and_congr_right fun hpermits => ?_
  rw [h.mem_rulesMatching, or_iff_left fun hnew => hname _ _ _ hresolve hpermits hnew.1.2]

/-- Two policies that have gained the rule rule alike. -/
lemma ruling_eq {policy''} (h' : Gained (prefixRule first rest .allow) policy policy'')
    (paths : HostPaths A) (cmd : List Str) :
    policy''.ruling paths cmd = policy'.ruling paths cmd := by
  have hnil : policy''.exactRules cmd = [] ↔ policy'.exactRules cmd = [] := by
    simp only [eq_nil_iff_forall_not_mem, h.mem_exactRules, h'.mem_exactRules]
  refine strictest_congr fun r => ?_
  simp [mem_decidingRules_iff, hnil, h.mem_exactRules, h'.mem_exactRules, h.permits_iff,
    h'.permits_iff, h.mem_rulesMatching, h'.mem_rulesMatching]

/-- **A rule that allows changes no ruling**, if what begins so is allowed already, or decided by
rules that match it as it stands, and what matches by name is decided by others. -/
theorem ruling_kept (hlonger : ∀ cmd, first :: rest <+: cmd → policy.exactRules cmd = [] →
      policy.ruling paths cmd = some .allow) (hrenamed : ∀ cmd program basename basenameCmd,
      resolve paths cmd = some (program, basename, basenameCmd) → policy.exactRules cmd = [] →
      policy.Permits basename program → first :: rest <+: basenameCmd →
      policy.rulesMatching basename basenameCmd ≠ []) (cmd : List Str) :
    policy'.ruling paths cmd = policy.ruling paths cmd := by
  by_cases hpre : first :: rest <+: cmd
  · rw [h.ruling_of_prefix hpre]
    obtain hnone | hexact := eq_or_ne (policy.exactRules cmd) []
    · rw [hlonger cmd hpre hnone, hnone]
      rfl
    · obtain ⟨d, hd⟩ := ne_none_iff_exists'.mp (mt strictest_eq_none_iff.mp hexact)
      rw [ruling, decidingRules_of_exact hexact, hd, getD_some]
  by_cases hnone : policy.exactRules cmd = []
  · by_cases hname : ∃ program basename basenameCmd,
      resolve paths cmd = some (program, basename, basenameCmd) ∧
        policy.Permits basename program ∧ first :: rest <+: basenameCmd
    · obtain ⟨program, basename, basenameCmd, hresolve, hpermits, hname⟩ := hname
      have hne : policy.decidingRules paths cmd ≠ [] := by
        rw [decidingRules_of_resolved hnone hresolve, if_pos hpermits]
        exact hrenamed cmd program basename basenameCmd hresolve hnone hpermits hname
      obtain ⟨d, hd⟩ := ne_none_iff_exists'.mp (mt strictest_eq_none_iff.mp hne)
      rw [h.ruling_of_name hpre hnone hresolve hpermits hname, ruling, hd, getD_some]
    · push Not at hname
      exact h.ruling_of_not_name hpre hname
  · exact h.ruling_of_exact hpre hnone

end

end Gained

/-! ## Commands that are allowed already -/

/-- The command is allowed, by rules for the name of its file. -/
structure AllowedByName (paths : HostPaths A) (policy : Policy A) (command : List Str) : Prop where
  unmatched : policy.exactRules command = []
  named : policy.decidingRules paths command ≠ []
  allowed : ∀ rule ∈ policy.decidingRules paths command, rule.decision = .allow

/-- **A rule that allows the command is settled** by the rules for the names of files. -/
structure Settled (paths : HostPaths A) (policy : Policy A) (command : List Str) : Prop where
  /-- What begins with the command, and is decided by the name of the file, is allowed. -/
  longer : ∀ cmd, command <+: cmd → policy.exactRules cmd = [] →
    ∀ rule ∈ policy.decidingRules paths cmd, rule.decision = .allow
  /-- What begins with the command when its file is named is decided by the name of the file. -/
  renamed : ∀ cmd program basename basenameCmd,
    resolve paths cmd = some (program, basename, basenameCmd) → policy.exactRules cmd = [] →
    policy.Permits basename program → command <+: basenameCmd →
    policy.rulesMatching basename basenameCmd ≠ []

section

variable {policy policy' : Policy A}

lemma AllowedByName.decidingRules_ne_nil {paths} (h : AllowedByName paths policy (first :: rest))
    {cmd} (hpre : first :: rest <+: cmd) (hnone : policy.exactRules cmd = []) :
    policy.decidingRules paths cmd ≠ [] := by
  obtain ⟨rule, hrule⟩ := exists_mem_of_ne_nil _ h.named
  obtain ⟨more, rfl⟩ := hpre
  rcases mem_decidingRules_iff.mp hrule with
    hexact | ⟨-, program, basename, basenameCmd, hresolve, hpermits, hmatch⟩
  · rw [h.unmatched] at hexact
    cases hexact
  · obtain ⟨hmem, hmatch⟩ := mem_filter.mp hmatch
    refine ne_nil_of_mem (a := rule) (mem_decidingRules_iff.mpr (.inr ⟨hnone, program, basename,
      basenameCmd ++ more, resolve_append hresolve more, hpermits, mem_filter.mpr ⟨hmem, ?_⟩⟩))
    exact matchesPrefix_mono hmatch (prefix_append _ _)

section

variable (h : Gained (prefixRule first rest .allow) policy policy')

include h

/-- **When a rule that allows changes nothing**, for a command allowed by name. -/
theorem approvals_kept_iff
    (hname : AllowedByName paths policy (first :: rest)) (fallback : List Str → Decision) :
    (∀ commands, approval paths policy' commands fallback =
      approval paths policy commands fallback) ↔ Settled paths policy (first :: rest) := by
  constructor
  · intro hkept
    -- where the rule allows a command, the policy without it has to
    have hallow : ∀ cmd, policy'.ruling paths cmd = some .allow →
        policy.ruling paths cmd = some .allow := fun cmd =>
      ruling_eq_allow_of_approval_eq (hkept [cmd])
    refine ⟨fun cmd hpre hnone => ?_, fun cmd program basename basenameCmd hresolve hnone
      hpermits hrenamed hnil => ?_⟩
    · have hruling := hallow cmd (by rw [h.ruling_of_prefix hpre, hnone]; rfl)
      exact (strictest_eq_allow_iff.mp hruling).2
    · have hdeciding : policy.decidingRules paths cmd = [] := by
        rw [decidingRules_of_resolved hnone hresolve, if_pos hpermits, hnil]
      have hpre : ¬ first :: rest <+: cmd :=
        fun hpre => hname.decidingRules_ne_nil hpre hnone hdeciding
      have hruling : policy.ruling paths cmd = none := strictest_eq_none_iff.mpr hdeciding
      have hallowed := hallow cmd (by
        rw [h.ruling_of_name hpre hnone hresolve hpermits hrenamed, hruling, getD_none])
      rw [hruling] at hallowed
      cases hallowed
  · intro hsettled commands
    refine approval_congr (h.ruling_kept (fun cmd hpre hnone => ?_) hsettled.renamed) commands
      fallback
    exact strictest_eq_allow_iff.mpr
      ⟨hname.decidingRules_ne_nil hpre hnone, hsettled.longer cmd hpre hnone⟩

/-- A command that matches as it stands. -/
lemma approvals_kept_of_exact {paths}
    (hexact : policy.exactRules (first :: rest) ≠ []) (commands : List (List Str))
    (fallback : List Str → Decision) :
    approval paths policy' commands fallback = approval paths policy commands fallback := by
  obtain ⟨rule, hrule⟩ := exists_mem_of_ne_nil _ hexact
  obtain ⟨hrule, hmatch⟩ := mem_filter.mp hrule
  refine approval_congr (h.ruling_kept (fun cmd hpre hnone => ?_)
    fun cmd program basename basenameCmd hresolve _ _ hname => ?_) commands fallback
  · obtain ⟨more, rfl⟩ := hpre
    refine absurd hnone (ne_nil_of_mem (a := rule) ?_)
    exact mem_filter.mpr ⟨hrule, matchesPrefix_mono hmatch (prefix_append _ _)⟩
  · refine ne_nil_of_mem (a := rule) (mem_filter.mpr ⟨?_, matchesPrefix_mono hmatch hname⟩)
    rw [basenameCmd_of_resolve hresolve] at hname
    rw [← (cons_prefix_cons.mp hname).1]
    exact hrule

end

end

end ExecPolicy
