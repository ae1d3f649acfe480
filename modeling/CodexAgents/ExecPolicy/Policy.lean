import CodexAgents.Lib.HashMap
import CodexAgents.Lib.Text

/-!
# Command policies

`execpolicy/src/policy.rs` and `rule.rs`: a policy decides whether a command may run.  Its rules are
prefixes of commands, kept by the program they begin with.  A command is looked up by its first word
as it stands; if no rule matches and host executables are to be resolved, it is looked up by the
name of the file its first word leads to, unless the policy lists the paths of that program and this
one is not among them.  The strictest of the matching rules decides, and if there is none a fallback
does.

What a path is, and how a word is turned into one, is left open (`HostPaths`).

`decidingRules` says which rules have a say, and `checkWithOptions_eq` that the code decides by
them.  Everything else is proved from there.
-/

namespace ExecPolicy

open Text HashMap List Option

/-! ## Decisions -/

/-- What is decided about a command. -/
inductive Decision where
  | allow
  | prompt
  | forbidden
  deriving DecidableEq

namespace Decision

/-- The order of the decisions, from the mildest. -/
def rank : Decision → Nat
  | allow => 0
  | prompt => 1
  | forbidden => 2

lemma rank_injective : Function.Injective rank := by
  intro a b h
  cases a <;> cases b <;> first | rfl | cases h

/-- From the most to the least permissive. -/
instance : LinearOrder Decision := LinearOrder.lift' rank rank_injective

lemma allow_le (d : Decision) : allow ≤ d := Nat.zero_le d.rank

lemma eq_allow_of_le {d} (h : d ≤ allow) : d = allow := le_antisymm h (allow_le d)

end Decision

/-! ## Rules -/

/-- What a word of a command may be. -/
inductive PatternToken where
  | single (expected : Str)
  | alts (alternatives : List Str)

/-- The word is one that the token stands for. -/
def PatternToken.matchesToken : PatternToken → Str → Bool
  | single expected, token => expected = token
  | alts alternatives, token => alternatives.any (· = token)

/-- What a command begins with. -/
structure PrefixPattern where
  first : Str
  rest : List PatternToken

/-- The part of the command that matches, if it does. -/
def PrefixPattern.matchesPrefix (p : PrefixPattern) (cmd : List Str) : Option (List Str) :=
  let patternLength := p.rest.length + 1
  if cmd.length < patternLength ∨ cmd.head? ≠ some p.first then none
  else if (p.rest.zip cmd.tail).all fun t => t.1.matchesToken t.2 then some (cmd.take patternLength)
  else none

/-- A decision about the commands that begin in some way. -/
structure PrefixRule where
  pattern : PrefixPattern
  decision : Decision
  justification : Option Str := none

/-- A rule that matched, or what was guessed without one. -/
inductive RuleMatch (A : Type) where
  | prefixRuleMatch (matchedPrefix : List Str) (decision : Decision) (resolvedProgram : Option A)
      (justification : Option Str)
  | heuristicsRuleMatch (command : List Str) (decision : Decision)

variable {A : Type}

namespace RuleMatch

/-- What the match decides. -/
def decision : RuleMatch A → Decision
  | prefixRuleMatch _ decision _ _ => decision
  | heuristicsRuleMatch _ decision => decision

/-- The program that the name stood for. -/
def withResolvedProgram (program : A) : RuleMatch A → RuleMatch A
  | prefixRuleMatch matchedPrefix decision _ justification =>
    prefixRuleMatch matchedPrefix decision (some program) justification
  | other => other

/-- The match is that of a rule of the policy. -/
def isPolicyMatch : RuleMatch A → Bool
  | prefixRuleMatch .. => true
  | heuristicsRuleMatch .. => false

end RuleMatch

/-- The match of a rule, if it is one. -/
def PrefixRule.matchesCommand (A : Type) (rule : PrefixRule) (cmd : List Str) :
    Option (RuleMatch A) :=
  (rule.pattern.matchesPrefix cmd).map fun matchedPrefix =>
    .prefixRuleMatch matchedPrefix rule.decision none rule.justification

/-- What a rule for the network is about. -/
inductive NetworkRuleProtocol where
  | http
  | https
  | socks5Tcp
  | socks5Udp

/-- A decision about a host. -/
structure NetworkRule where
  host : Str
  protocol : NetworkRuleProtocol
  decision : Decision
  justification : Option Str

/-! ## Policies -/

/-- `AbsolutePathBuf::try_from` for the first word of a command, and
`executable_path_lookup_key`. -/
structure HostPaths (A : Type) where
  tryFrom : Str → Option A
  executablePathLookupKey : A → Option Str

/-- How commands are matched. -/
structure MatchOptions where
  resolveHostExecutables : Bool := false

/-- The rules, by the first word, and where programs are. -/
structure Policy (A : Type) where
  rulesByProgram : HashMap Str (List PrefixRule) := ∅
  networkRules : List NetworkRule := []
  hostExecutablesByName : HashMap Str (List A) := ∅

/-- The order in which the maps of a policy are gone over. -/
structure PolicyOrder (A : Type) where
  rules : Order (Str × List PrefixRule)
  hostExecutables : Order (Str × List A)

/-- The order in which keys are stored. -/
def PolicyOrder.kept {A : Type} : PolicyOrder A := ⟨.kept _, .kept _⟩

/-- The decision, and the rules for it. -/
structure Evaluation (A : Type) where
  decision : Decision
  matchedRules : List (RuleMatch A)

namespace Evaluation

/-- Some rule of the policy matched. -/
def isMatch (e : Evaluation A) : Bool := e.matchedRules.any (·.isPolicyMatch)

/-- The strictest decision; without any match, this panics. -/
def fromMatches (matchedRules : List (RuleMatch A)) : Option (Evaluation A) :=
  ((matchedRules.map (·.decision)).max?).map fun decision => ⟨decision, matchedRules⟩

end Evaluation

namespace Policy

variable [DecidableEq A]

/-- The rule `add_prefix_rule` adds for a prefix. -/
def prefixRule (first : Str) (rest : List Str) (decision : Decision) : PrefixRule :=
  ⟨⟨first, rest.map .single⟩, decision, none⟩

variable (policy : Policy A)

/-- There is no rule for the empty prefix. -/
def addPrefixRule (tokens : List Str) (decision : Decision) : Except Str (Policy A) :=
  match tokens with
  | [] => .error "prefix cannot be empty"
  | first :: rest =>
    .ok { policy with
      rulesByProgram := push policy.rulesByProgram first (prefixRule first rest decision) }

/-- The rules of both, and the paths of the overlay where it has any. -/
def mergeOverlay (order : PolicyOrder A) (policy overlay : Policy A) : Policy A where
  rulesByProgram :=
    pushAll policy.rulesByProgram (order.rules.arrange (pairs overlay.rulesByProgram))
  networkRules := policy.networkRules ++ overlay.networkRules
  hostExecutablesByName :=
    extend order.hostExecutables policy.hostExecutablesByName overlay.hostExecutablesByName

/-- The rules for the first word as it is. -/
def matchExactRules (cmd : List Str) : Option (List (RuleMatch A)) :=
  cmd.head?.map fun first =>
    ((get policy.rulesByProgram first).map fun rules =>
      rules.filterMap (·.matchesCommand A cmd)).getD []

variable (paths : HostPaths A)

/-- The rules for the name of a program that is given by its path. -/
def matchHostExecutableRules (policy : Policy A) (cmd : List Str) : List (RuleMatch A) :=
  match cmd with
  | [] => []
  | first :: rest =>
    match paths.tryFrom first with
    | none => []
    | some program =>
      match paths.executablePathLookupKey program with
      | none => []
      | some basename =>
        match get policy.rulesByProgram basename with
        | none => []
        | some rules =>
          if ∃ listed ∈ get policy.hostExecutablesByName basename, program ∉ listed then []
          else
            (rules.filterMap (·.matchesCommand A (basename :: rest))).map
              (·.withResolvedProgram program)

/-- The exact rules come first, then those for the name, then the guess. -/
def matchesForCommandWithOptions (policy : Policy A) (cmd : List Str)
    (heuristicsFallback : Option (List Str → Decision)) (options : MatchOptions) :
    List (RuleMatch A) :=
  let exact := (policy.matchExactRules cmd).getD []
  let matchedRules :=
    if exact ≠ [] then exact
    else if options.resolveHostExecutables then policy.matchHostExecutableRules paths cmd
    else []
  match heuristicsFallback with
  | some fallback =>
    if matchedRules = [] then [.heuristicsRuleMatch cmd (fallback cmd)] else matchedRules
  | none => matchedRules

/-- The decision about several commands. -/
def checkMultipleWithOptions (policy : Policy A) (commands : List (List Str))
    (heuristicsFallback : List Str → Decision) (options : MatchOptions) : Option (Evaluation A) :=
  Evaluation.fromMatches <| commands.flatMap fun command =>
    policy.matchesForCommandWithOptions paths command (some heuristicsFallback) options

/-- The decision about one command. -/
def checkWithOptions (policy : Policy A) (cmd : List Str)
    (heuristicsFallback : List Str → Decision) (options : MatchOptions) : Option (Evaluation A) :=
  Evaluation.fromMatches <|
    policy.matchesForCommandWithOptions paths cmd (some heuristicsFallback) options

/-! ## The rules that decide -/

/-- The rules of a program that match a command. -/
def rulesMatching (program : Str) (cmd : List Str) : List PrefixRule :=
  (values policy.rulesByProgram program).filter fun rule => (rule.pattern.matchesPrefix cmd).isSome

/-- The rules that match the command as it stands. -/
def exactRules (cmd : List Str) : List PrefixRule :=
  cmd.head?.elim [] fun first => policy.rulesMatching first cmd

/-- The path the first word leads to, the name of that file, and the command with that name in the
place of its first word. -/
def resolve (cmd : List Str) : Option (A × Str × List Str) :=
  cmd.head?.bind fun first => (paths.tryFrom first).bind fun program =>
    (paths.executablePathLookupKey program).map fun basename =>
      (program, basename, basename :: cmd.tail)

/-- The rules that match the command by the name of the file. -/
def basenameRules (policy : Policy A) (cmd : List Str) : List PrefixRule :=
  (resolve paths cmd).elim [] fun (_, basename, basenameCmd) =>
    policy.rulesMatching basename basenameCmd

/-- The policy does not list the paths of the program, or lists this one. -/
def Permits (basename : Str) (program : A) : Prop :=
  ∀ listed ∈ get policy.hostExecutablesByName basename, program ∈ listed

instance (policy : Policy A) (basename : Str) (program : A) :
    Decidable (policy.Permits basename program) :=
  inferInstanceAs (Decidable (∀ listed ∈ get policy.hostExecutablesByName basename,
    program ∈ listed))

/-- **The rules that decide**, if host executables are resolved. -/
def decidingRules (policy : Policy A) (cmd : List Str) : List PrefixRule :=
  if policy.exactRules cmd ≠ [] then policy.exactRules cmd
  else (resolve paths cmd).elim [] fun (program, basename, _) =>
    if policy.Permits basename program then policy.basenameRules paths cmd else []

section

variable {paths : HostPaths A} {policy : Policy A} {cmd : List Str}

lemma decidingRules_of_exact (h : policy.exactRules cmd ≠ []) :
    policy.decidingRules paths cmd = policy.exactRules cmd := if_pos h

lemma decidingRules_of_resolved (h : policy.exactRules cmd = []) {program basename basenameCmd}
    (hresolve : resolve paths cmd = some (program, basename, basenameCmd)) :
    policy.decidingRules paths cmd =
      if policy.Permits basename program then policy.rulesMatching basename basenameCmd
        else [] := by
  rw [decidingRules, if_neg (not_not.mpr h), basenameRules, hresolve]
  rfl

/-- **How a rule gets to decide**: it matches the command as it stands, or no rule does, and it
matches the command by the name of the file. -/
theorem mem_decidingRules_iff {rule} : rule ∈ policy.decidingRules paths cmd ↔
      rule ∈ policy.exactRules cmd ∨ policy.exactRules cmd = [] ∧ ∃ program basename basenameCmd,
          resolve paths cmd = some (program, basename, basenameCmd) ∧
          policy.Permits basename program ∧ rule ∈ policy.rulesMatching basename basenameCmd := by
  obtain hnone | hexact := eq_or_ne (policy.exactRules cmd) []
  · simp only [hnone, not_mem_nil, false_or, true_and]
    rcases hresolve : resolve paths cmd with _ | ⟨program, basename, basenameCmd⟩
    · simp [decidingRules, hnone, hresolve]
    · simp [decidingRules_of_resolved hnone hresolve]
  · rw [decidingRules_of_exact hexact]
    exact (or_iff_left fun h => hexact h.1).symm

end

/-- What is decided by rules, or by the fallback if there are none. -/
def verdict (rules : List PrefixRule) (fallback : Decision) : Decision :=
  ((rules.map (·.decision)).max?).getD fallback

/-- The matches are those of the rules, one by one, as far as decisions go. -/
def Shows (found : List (RuleMatch A)) (rules : List PrefixRule) : Prop :=
  found.map (fun m => (m.decision, m.isPolicyMatch)) = rules.map fun rule => (rule.decision, true)

variable {rules : List PrefixRule}

section

variable {found : List (RuleMatch A)}

omit [DecidableEq A]

lemma Shows.map_decision (h : Shows found rules) :
    found.map (·.decision) = rules.map (·.decision) := by
  have hfst := congrArg (map Prod.fst) h
  rwa [List.map_map, List.map_map] at hfst

lemma Shows.map_isPolicyMatch (h : Shows found rules) :
    found.map (·.isPolicyMatch) = rules.map fun _ => true := by
  have hsnd := congrArg (map Prod.snd) h
  rwa [List.map_map, List.map_map] at hsnd

lemma Shows.eq_nil_iff (h : Shows found rules) : found = [] ↔ rules = [] := by
  rw [← map_eq_nil_iff (f := fun m => (m.decision, m.isPolicyMatch)), h, map_eq_nil_iff]

lemma shows_filterMap (rules : List PrefixRule) (cmd : List Str) :
    Shows (rules.filterMap (·.matchesCommand A cmd))
      (rules.filter fun rule => (rule.pattern.matchesPrefix cmd).isSome) := by
  induction rules with
  | nil => rfl
  | cons rule rules ih =>
    rw [Shows] at ih ⊢
    rcases hmatch : rule.pattern.matchesPrefix cmd with _ | matchedPrefix
    · have hnone : rule.matchesCommand A cmd = none := by
        rw [PrefixRule.matchesCommand, hmatch]
        rfl
      simp [hnone, hmatch, ih]
    · have hsome : rule.matchesCommand A cmd =
          some (.prefixRuleMatch matchedPrefix rule.decision none rule.justification) := by
        rw [PrefixRule.matchesCommand, hmatch]
        rfl
      simp only [filterMap_cons, hsome, filter_cons, hmatch, isSome_some, if_true, map_cons, ih]
      rfl

lemma Shows.map_withResolvedProgram (h : Shows found rules) (program : A) :
    Shows (found.map (·.withResolvedProgram program)) rules := by
  have hsame : ∀ m : RuleMatch A, ((m.withResolvedProgram program).decision,
      (m.withResolvedProgram program).isPolicyMatch) = (m.decision, m.isPolicyMatch) := by
    rintro (_ | _) <;> rfl
  simp only [Shows, List.map_map, Function.comp_def, hsame]
  exact h

end

omit [DecidableEq A] in
lemma shows_matchExactRules (policy : Policy A) (cmd : List Str) :
    Shows ((policy.matchExactRules cmd).getD []) (policy.exactRules cmd) := by
  obtain _ | ⟨first, rest⟩ := cmd
  · rfl
  · have hvalues : (policy.matchExactRules (first :: rest)).getD [] =
        (values policy.rulesByProgram first).filterMap (·.matchesCommand A (first :: rest)) := by
      simp only [matchExactRules, head?_cons, map_some, getD_some, values]
      rcases get policy.rulesByProgram first with _ | rules <;> rfl
    rw [hvalues]
    exact shows_filterMap _ _

variable (paths : HostPaths A)

lemma shows_matchHostExecutableRules (policy : Policy A) (cmd : List Str) :
    Shows (policy.matchHostExecutableRules paths cmd)
      ((resolve paths cmd).elim [] fun (program, basename, _) =>
        if policy.Permits basename program then policy.basenameRules paths cmd else []) := by
  obtain _ | ⟨first, rest⟩ := cmd
  · rfl
  rcases hprogram : paths.tryFrom first with _ | program
  · simp only [matchHostExecutableRules, resolve, head?_cons, bind_some, hprogram,
      bind_none, elim_none]
    rfl
  rcases hbasename : paths.executablePathLookupKey program with _ | basename
  · simp only [matchHostExecutableRules, resolve, head?_cons, bind_some, hprogram,
      hbasename, map_none, elim_none]
    rfl
  have hresolve : resolve paths (first :: rest) = some (program, basename, basename :: rest) := by
    simp [resolve, hprogram, hbasename]
  simp only [basenameRules, hresolve, elim_some, matchHostExecutableRules, hprogram, hbasename]
  by_cases hpermits : policy.Permits basename program
  · have hlisted : ¬ ∃ listed ∈ get policy.hostExecutablesByName basename, program ∉ listed := by
      rintro ⟨listed, hlisted, hnot⟩
      exact hnot (hpermits listed hlisted)
    rw [if_pos hpermits, rulesMatching, values]
    obtain _ | rules := get policy.rulesByProgram basename
    · rfl
    · simp only [if_neg hlisted]
      exact (shows_filterMap rules (basename :: rest)).map_withResolvedProgram program
  · have hlisted : ∃ listed ∈ get policy.hostExecutablesByName basename, program ∉ listed := by
      by_contra hnone
      exact hpermits fun listed hlisted => by_contra fun hnot => hnone ⟨listed, hlisted, hnot⟩
    rw [if_neg hpermits]
    obtain _ | rules := get policy.rulesByProgram basename
    · rfl
    · simp only [if_pos hlisted]
      rfl

/-- **The matches are those of the deciding rules.** -/
theorem shows_matches (policy : Policy A) (cmd : List Str) :
    Shows (policy.matchesForCommandWithOptions paths cmd none ⟨true⟩)
      (policy.decidingRules paths cmd) := by
  have hexact := shows_matchExactRules policy cmd
  simp only [matchesForCommandWithOptions, decidingRules, ne_eq, hexact.eq_nil_iff, if_true]
  split
  · exact hexact
  · exact shows_matchHostExecutableRules paths policy cmd

lemma matches_some (policy : Policy A) (cmd : List Str) (fallback : List Str → Decision) :
    policy.matchesForCommandWithOptions paths cmd (some fallback) ⟨true⟩ =
      if policy.decidingRules paths cmd = [] then [.heuristicsRuleMatch cmd (fallback cmd)]
      else policy.matchesForCommandWithOptions paths cmd none ⟨true⟩ := by
  simp only [← (shows_matches paths policy cmd).eq_nil_iff]
  rfl

/-- **What is decided**: the deciding rules do, or the fallback.  There is always a decision. -/
theorem checkWithOptions_eq (policy : Policy A) (cmd : List Str) (fallback : List Str → Decision) :
    ∃ e, policy.checkWithOptions paths cmd fallback ⟨true⟩ = some e ∧
      e.decision = verdict (policy.decidingRules paths cmd) (fallback cmd) ∧
      (e.isMatch ↔ policy.decidingRules paths cmd ≠ []) := by
  have hshows := shows_matches paths policy cmd
  rw [checkWithOptions, matches_some]
  by_cases hnil : policy.decidingRules paths cmd = []
  · rw [if_pos hnil, hnil]
    exact ⟨_, rfl, rfl, iff_of_false Bool.false_ne_true fun h => h rfl⟩
  · have hmax : ((policy.decidingRules paths cmd).map (·.decision)).max? ≠ none := by
      rwa [ne_eq, max?_eq_none_iff, map_eq_nil_iff]
    obtain ⟨decision, hdecision⟩ := ne_none_iff_exists'.mp hmax
    rw [if_neg hnil, Evaluation.fromMatches, hshows.map_decision, hdecision]
    refine ⟨_, rfl, ?_, iff_of_true ?_ hnil⟩
    · rw [verdict, hdecision, getD_some]
    · obtain ⟨m, hm⟩ := exists_mem_of_ne_nil _ (mt hshows.eq_nil_iff.mp hnil)
      have hpolicy : m.isPolicyMatch ∈ (policy.decidingRules paths cmd).map fun _ => true := by
        rw [← hshows.map_isPolicyMatch]
        exact mem_map_of_mem hm
      obtain ⟨_, _, htrue⟩ := mem_map.mp hpolicy
      exact any_eq_true.mpr ⟨m, hm, htrue.symm⟩

section

variable {fallback d : Decision}

lemma verdict_nil (fallback : Decision) : verdict [] fallback = fallback := rfl

lemma verdict_eq_iff (hne : rules ≠ []) : verdict rules fallback = d ↔
      (∃ rule ∈ rules, rule.decision = d) ∧ ∀ rule ∈ rules, rule.decision ≤ d := by
  have hmax : (rules.map (·.decision)).max? ≠ none := by
    rwa [ne_eq, max?_eq_none_iff, map_eq_nil_iff]
  obtain ⟨decision, hdecision⟩ := ne_none_iff_exists'.mp hmax
  rw [verdict, hdecision, getD_some, ← some_inj, ← hdecision,
    max?_eq_some_iff, List.mem_map, List.forall_mem_map]

/-- A verdict is at least as strict as each of the rules. -/
lemma le_verdict {rule} (h : rule ∈ rules) : rule.decision ≤ verdict rules fallback :=
  ((verdict_eq_iff (ne_nil_of_mem h)).mp rfl).2 rule h

lemma exists_verdict_eq (hne : rules ≠ []) :
    ∃ rule ∈ rules, rule.decision = verdict rules fallback :=
  ((verdict_eq_iff hne).mp rfl).1

lemma verdict_le_iff :
    (rules ≠ [] → verdict rules fallback ≤ d) ↔ ∀ rule ∈ rules, rule.decision ≤ d := by
  constructor
  · exact fun h rule hrule => (le_verdict hrule).trans (h (ne_nil_of_mem hrule))
  · intro h hne
    obtain ⟨rule, hrule, hdecision⟩ : ∃ rule ∈ rules, rule.decision = verdict rules fallback :=
      exists_verdict_eq hne
    exact hdecision ▸ h rule hrule

lemma le_verdict_iff (hne : rules ≠ []) :
    d ≤ verdict rules fallback ↔ ∃ rule ∈ rules, d ≤ rule.decision := by
  constructor
  · intro h
    obtain ⟨rule, hrule, hdecision⟩ : ∃ rule ∈ rules, rule.decision = verdict rules fallback :=
      exists_verdict_eq hne
    exact ⟨rule, hrule, hdecision ▸ h⟩
  · rintro ⟨rule, hrule, h⟩
    exact h.trans (le_verdict hrule)

end

end Policy

end ExecPolicy
