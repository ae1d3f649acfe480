import CodexAgents.ExecPolicy.Amend
import CodexAgents.ExecPolicy.Builder
import CodexAgents.ExecPolicy.Overlay

/-!
# Amendments and rule files

`execpolicy/src/amend.rs`, and the parts of `core/src/exec_policy.rs` that read rule files and amend
them.  A policy is read from the rule files of all layers of the configuration, in their order, and
the one of the requirements is put over it.  When a command has been approved for good, a line is
written to the default rule file, and the policy in memory gets the rule the line stands for, unless
it allows the command already.

The two should come to the same: the policy in memory and the one that is read the next time.  They
need not.  A command can be allowed by rules for the name of its file, and then the rule is left out
in memory, while in the file it is one that matches the command as it stands
(`path_amended_on_reload`).  `amendment_agrees_with_reload_iff` says that this is the only way, and
when it shows.

Reading and writing files is taken to succeed, and the files to be left alone in between.
-/

namespace ExecPolicy

open Text HashMap Policy PolicyBuilder List Function Outcome

/-! ## The line -/

/-- A character in a JSON string, as `serde_json` writes it. -/
def jsonEscape (c : Char) : Str :=
  if c = '"' then "\\\""
  else if c = '\\' then "\\\\"
  else if c = '\n' then "\\n"
  else if c = '\r' then "\\r"
  else if c = '\t' then "\\t"
  else if c.toNat = 8 then "\\b"
  else if c.toNat = 12 then "\\f"
  else if c.toNat < 32 then
    "\\u00" ++ [Nat.digitChar (c.toNat / 16), Nat.digitChar (c.toNat % 16)]
  else [c]

/-- A text as it is written in JSON. -/
def jsonString (s : Str) : Str := '"' :: s.flatMap jsonEscape ++ ['"']

/-- The line for a rule that allows a prefix. -/
def allowPrefixRuleLine (tokens : List Str) : Str :=
  "prefix_rule(pattern=[" ++ ", ".toList.intercalate (tokens.map jsonString) ++
    "], decision=\"allow\")"

/-- The line is added, on a line of its own, unless it is there. -/
def appendLockedLine (contents line : Str) : Str :=
  if line ∈ lines contents then contents
  else
    (if contents ≠ [] ∧ contents.getLast? ≠ some '\n' then contents ++ ['\n'] else contents) ++
      line ++ ['\n']

/-- Why an amendment is refused. -/
inductive AmendError where
  | emptyPrefix

/-- What becomes of the contents of a rule file, if there is one. -/
def blockingAppendAllowPrefixRule (contents : Option Str) (tokens : List Str) :
    Except AmendError Str :=
  if tokens = [] then .error .emptyPrefix
  else .ok (appendLockedLine (contents.getD []) (allowPrefixRuleLine tokens))

/-! ## Layers -/

section

variable {D : Type}

/-- Where a layer comes from, with the folder its file is in. -/
inductive ConfigLayerSource (D : Type) where
  | packagedDefaults
  | mdm
  | system (folder : Option D)
  | enterpriseManaged
  | user (folder : Option D)
  | project (dotCodexFolder : D)
  | sessionFlags
  | legacyManagedConfigTomlFromFile
  | legacyManagedConfigTomlFromMdm

/-- A layer, which may be switched off. -/
structure ConfigLayerEntry (D : Type) where
  name : ConfigLayerSource D
  disabled : Bool := false

/-- The folder of a layer. -/
def ConfigLayerEntry.configFolder (layer : ConfigLayerEntry D) : Option D :=
  match layer.name with
  | .system folder => folder
  | .user folder => folder
  | .project dotCodexFolder => some dotCodexFolder
  | _ => none

/-- All layers, and the managed policy. -/
structure ConfigLayerStack (D A : Type) where
  /-- From the lowest to the highest precedence. -/
  layers : List (ConfigLayerEntry D)
  ignoreUserAndProjectExecPolicyRules : Bool := false
  requirements : Option (Policy A) := none

/-- The folders whose rule files are read, in the order of the layers. -/
def ConfigLayerStack.policyFolders {A : Type} (stack : ConfigLayerStack D A) : List D :=
  ((stack.layers.filter fun layer => !layer.disabled).filter fun layer =>
    match layer.name with
    | .user _ | .project _ => !stack.ignoreUserAndProjectExecPolicyRules
    | _ => true).filterMap ConfigLayerEntry.configFolder

end

/-- `Path::extension` for the name of a file. -/
def extension (name : Str) : Option Str :=
  match rsplitOnce '.' name with
  | some (stem, ext) => if stem = [] then none else some ext
  | none => none

/-- The files that are read. -/
def isRulesFile (name : Str) : Bool := extension name = some "rules"

/-- The file that amendments go to. -/
def defaultPolicyFile : Str := "default.rules"

variable {A D : Type} [DecidableEq A]

/-- What rule files are read with, and the paths they are called by in messages. -/
structure LoadEnv (A D : Type) extends Env A where
  identifier : (folder : D) → (name : Str) → Str

/-- `collect_policy_files`, with what is in the files. -/
def collectPolicyFiles (env : LoadEnv A D) (dirs : D → HashMap Str Str) (folder : D) :
    List (Str × Str) :=
  (listing isRulesFile (dirs folder)).map fun file => (env.identifier folder file.1, file.2)

/-- An error in a file. -/
structure ParsePolicyError where
  path : Str
  source : Error

variable (env : Env A)

/-- All files, one after the other. -/
def parseFiles (builder : PolicyBuilder A) (files : List (Str × Str)) :
    Except ParsePolicyError (PolicyBuilder A) :=
  files.foldlM (fun builder file =>
    (builder.parse env file.1 file.2).mapError (⟨file.1, ·⟩)) builder

/-- The files of all layers, under the managed policy. -/
def loadExecPolicy (env : LoadEnv A D) (order : PolicyOrder A) (stack : ConfigLayerStack D A)
    (dirs : D → HashMap Str Str) : Except ParsePolicyError (Policy A) := do
  let policyPaths := stack.policyFolders.flatMap (collectPolicyFiles env dirs)
  let builder ← parseFiles env.toEnv {} policyPaths
  return stack.requirements.elim builder.build (builder.build.mergeOverlay order)

/-! ## Amendments -/

/-- Why an amendment is not made. -/
inductive ExecPolicyUpdateError where
  | appendRule (source : AmendError)
  | addRule (source : Str)

/-- The policy in memory, and the rule files. -/
structure ExecPolicyManager (A D : Type) where
  policy : Policy A
  dirs : D → HashMap Str Str

/-- The command is allowed, and by a rule. -/
def alreadyAllowed (paths : HostPaths A) (policy : Policy A) (command : List Str) : Bool :=
  (policy.checkMultipleWithOptions paths [command] (fun _ => .forbidden) ⟨true⟩).any fun existing =>
    existing.decision = .allow &&
      existing.matchedRules.any fun found => found.isPolicyMatch && found.decision = .allow

/-- The file is written first, and then the policy in memory is changed. -/
def appendAmendmentAndUpdate [DecidableEq D] (paths : HostPaths A) (codexHome : D)
    (amendment : List Str) (manager : ExecPolicyManager A D) :
    Except ExecPolicyUpdateError (ExecPolicyManager A D) := do
  let dir := manager.dirs codexHome
  let contents ← (blockingAppendAllowPrefixRule (get dir defaultPolicyFile) amendment).mapError
    .appendRule
  let dirs := update manager.dirs codexHome (dir.insert defaultPolicyFile contents)
  if alreadyAllowed paths manager.policy amendment then
    return { manager with dirs }
  else
    let updatedPolicy ← (manager.policy.addPrefixRule amendment .allow).mapError .addRule
    return { policy := updatedPolicy, dirs }

lemma alreadyAllowed_iff (paths : HostPaths A) (policy : Policy A) (command : List Str) :
    alreadyAllowed paths policy command ↔ policy.ruling paths command = some .allow := by
  rw [alreadyAllowed, checkMultipleWithOptions, flatMap_singleton, Evaluation.fromMatches,
    max?_matches, Option.map_some, Option.any_some, Bool.and_eq_true, decide_eq_true_iff]
  constructor
  · rintro ⟨hdecision, -⟩
    rcases hruling : policy.ruling paths command with _ | d
    · rw [hruling] at hdecision
      cases hdecision
    · rw [hruling] at hdecision
      obtain rfl : d = .allow := hdecision
      rfl
  · intro hruling
    obtain ⟨hne, hallow⟩ := strictest_eq_allow_iff.mp hruling
    refine ⟨by rw [hruling, Option.getD_some], ?_⟩
    rw [matches_some, if_neg hne, any_allow_iff, any_eq_true]
    obtain ⟨rule, hrule⟩ := exists_mem_of_ne_nil _ hne
    exact ⟨rule, hrule, decide_eq_true (hallow rule hrule)⟩

/-! ## The line is read -/

/-- The call the line stands for. -/
def allowCall (tokens : List Str) (location : Option ErrorLocation) : Call :=
  .prefixRule { pattern := tokens.map .str, decision := some "allow", location }

/-- The calls of a rule file, if there is one. -/
def callsOf (id : Str) (contents : Option Str) : List Call :=
  contents.elim [] fun contents => (env.evaluate id contents).1

/-- **The line evaluates to the rule**: written at the end of the file, it is one call more, and
where it is there already, the call is among those of the file. -/
structure LineEvaluates (env : Env A) (id : Str) (contents : Option Str) (tokens : List Str) :
    Prop where
  appended : allowPrefixRuleLine tokens ∉ lines (contents.getD []) → ∃ location, env.evaluate id
        (appendLockedLine (contents.getD []) (allowPrefixRuleLine tokens)) =
      (callsOf env id contents ++ [allowCall tokens location], none)
  present : allowPrefixRuleLine tokens ∈ lines (contents.getD []) →
    ∃ location, allowCall tokens location ∈ callsOf env id contents

lemma mem_of_mapM_eq_ok {α β : Type} {f : α → Except Error β} {l : List α} {l'}
    (h : l.mapM f = .ok l') {a} (ha : a ∈ l) : ∃ b ∈ l', f a = .ok b := by
  induction l generalizing l' with
  | nil => cases ha
  | cons x l ih =>
    rw [mapM_cons] at h
    obtain ⟨y, hy, h⟩ := bind_eq_ok_iff.mp h
    obtain ⟨ys, hys, h⟩ := bind_eq_ok_iff.mp h
    cases h
    obtain rfl | ha := mem_cons.mp ha
    · exact ⟨y, mem_cons_self, hy⟩
    · obtain ⟨b, hb, hfa⟩ := ih hys ha
      exact ⟨b, mem_cons_of_mem y hb, hfa⟩

/-- The rule the line stands for, with no examples to check. -/
def allowValidation (first : Str) (rest : List Str) (location : Option ErrorLocation) :
    PendingExampleValidation where
  rules := [prefixRule first rest .allow]
  matching := []
  notMatching := []
  location

lemma read_allowCall (first : Str) (rest : List Str) (location : Option ErrorLocation) :
    (allowCall (first :: rest) location).read env =
      .ok (.rules (allowValidation first rest location)) := by
  have htokens : parsePattern ((first :: rest).map .str) =
      .ok ((first :: rest).map PatternToken.single) := by
    have hmap : ((first :: rest).map Value.str).mapM parsePatternToken =
        .ok ((first :: rest).map PatternToken.single) := by
      rw [mapM_map]
      exact mapM_eq_ok fun _ _ => rfl
    rw [parsePattern, hmap]
    rfl
  have hdecision : Decision.parse "allow" = .ok .allow := rfl
  rw [allowCall, Call.read, PrefixRuleCall.read]
  simp only [Option.elim_some, hdecision, htokens]
  rfl

lemma validate_allowValidation (hosts : HashMap Str (List A)) (first : Str)
    (rest : List Str) (location : Option ErrorLocation) :
    (allowValidation first rest location).validate env hosts = .ok () := rfl

lemma readFile_eq_ok_iff {env : Env A} {id contents entries} :
    readFile env id contents = .ok entries ↔
      ((env.evaluate id contents).1.mapM fun call => (call.read env).mapError Error.builtin) =
        .ok entries ∧ (env.evaluate id contents).2 = none := by
  rw [readFile]
  show Except.bind _ _ = _ ↔ _
  rw [bind_eq_ok_iff]
  obtain _ | message := (env.evaluate id contents).2
  · simp [pure, Except.pure]
  · simp [throw, throwThe, MonadExceptOf.throw]

lemma readFile_append {env : Env A} {id contents contents' first rest location entries}
    (hentries : readFile env id contents = .ok entries)
    (h : env.evaluate id contents' =
      ((env.evaluate id contents).1 ++ [allowCall (first :: rest) location], none)) :
    readFile env id contents' =
      .ok (entries ++ [.rules (allowValidation first rest location)]) := by
  rw [readFile_eq_ok_iff, h]
  refine ⟨?_, rfl⟩
  rw [mapM_append, (readFile_eq_ok_iff.mp hentries).1, mapM_cons, read_allowCall]
  rfl

/-! ## The files are read again -/

section

variable {env : Env A} {builder filled : PolicyBuilder A}

lemma parseFiles_cons_iff {file files} :
    parseFiles env builder (file :: files) = .ok filled ↔
      ∃ next, builder.parse env file.1 file.2 = .ok next ∧
        parseFiles env next files = .ok filled := by
  rw [parseFiles, foldlM_cons]
  show Except.bind _ _ = _ ↔ _
  simp [bind_eq_ok_iff, mapError_eq_ok_iff, parseFiles]

lemma parseFiles_append_iff {files files'} :
    parseFiles env builder (files ++ files') = .ok filled ↔
      ∃ next, parseFiles env builder files = .ok next ∧
        parseFiles env next files' = .ok filled := by
  rw [parseFiles, foldlM_append]
  exact bind_eq_ok_iff

end

variable {first : Str} {rest : List Str} {b b' c : PolicyBuilder A}

/-- The same files, read after the amended one or before it. -/
lemma PolicyBuilder.Gains.parseFiles {rule} (h : Gains rule b b') {env files}
    (hparse : ExecPolicy.parseFiles env b files = .ok c) :
    ∃ c', ExecPolicy.parseFiles env b' files = .ok c' ∧ Gains rule c c' ∧
      (b'.Holds rule → c'.Holds rule) := by
  induction files generalizing b b' with
  | nil =>
    cases hparse
    exact ⟨b', rfl, h, id⟩
  | cons file files ih =>
    obtain ⟨next, hfile, hfiles⟩ := parseFiles_cons_iff.mp hparse
    obtain ⟨next', hfile', hnext⟩ := h.parse hfile
    obtain ⟨c', hfiles', hc, hholds⟩ := ih hnext hfiles
    exact ⟨c', parseFiles_cons_iff.mpr ⟨next', hfile', hfiles'⟩, hc,
      fun hb => hholds (hb.parse hfile')⟩

omit [DecidableEq A] in
/-- One call more, of the rule. -/
lemma PolicyBuilder.Gains.add_allow (h : Gains (prefixRule first rest .allow) b b')
    (location : Option ErrorLocation) :
    Gains (prefixRule first rest .allow) b
        (b'.add (.rules (allowValidation first rest location))) ∧
      (b'.add (.rules (allowValidation first rest location))).Holds
        (prefixRule first rest .allow) := by
  refine ⟨⟨h.hosts, fun program r hr => ?_, fun program r hr => ?_⟩, ?_⟩
  · exact mem_values_addRule.mpr (.inl (h.kept program r hr))
  · obtain hold | hnew := mem_values_addRule.mp hr
    · exact h.gained program r hold
    · exact .inr hnew
  · exact mem_values_addRule.mpr (.inr ⟨rfl, rfl⟩)

/-- **The amended file**, in the place of the one there was, if there was one. -/
theorem PolicyBuilder.Gains.parseFiles_amended (h : Gains (prefixRule first rest .allow) b b')
    {env id contents} (hline : LineEvaluates env id contents (first :: rest))
    (hparse : ExecPolicy.parseFiles env b (contents.toList.map (id, ·)) = .ok c) :
    ∃ c', ExecPolicy.parseFiles env b'
        [(id, appendLockedLine (contents.getD []) (allowPrefixRuleLine (first :: rest)))] = .ok c' ∧
      Gains (prefixRule first rest .allow) c c' ∧ c'.Holds (prefixRule first rest .allow) := by
  by_cases hpresent : allowPrefixRuleLine (first :: rest) ∈ lines (contents.getD [])
  · -- the file is left as it is, and has the rule
    obtain ⟨location, hcall⟩ := hline.present hpresent
    obtain _ | contents := contents
    · cases hcall
    · rw [appendLockedLine, if_pos hpresent]
      obtain ⟨c', hparse', hc, -⟩ := h.parseFiles hparse
      refine ⟨c', hparse', hc, ?_⟩
      obtain ⟨next, hfile, hnil⟩ := parseFiles_cons_iff.mp hparse'
      cases hnil
      obtain ⟨entries, hentries, rfl, -⟩ := parse_eq_ok_iff.mp hfile
      obtain ⟨entry, hentry, hread⟩ := mem_of_mapM_eq_ok (readFile_eq_ok_iff.mp hentries).1 hcall
      rw [mapError_eq_ok_iff, read_allowCall] at hread
      cases hread
      exact holds_foldl_add (.inr ⟨_, hentry, _, mem_singleton_self _, mem_singleton_self _⟩)
  · obtain ⟨location, heval⟩ := hline.appended hpresent
    obtain _ | contents := contents
    · cases hparse
      have hread : readFile env id (appendLockedLine [] (allowPrefixRuleLine (first :: rest))) =
          .ok [.rules (allowValidation first rest location)] := by
        rw [readFile_eq_ok_iff]
        rw [Option.getD_none] at heval
        rw [heval]
        refine ⟨?_, rfl⟩
        rw [callsOf, Option.elim_none, nil_append, mapM_cons, read_allowCall]
        rfl
      obtain ⟨hc, hholds⟩ := h.add_allow location
      refine ⟨_, parseFiles_cons_iff.mpr ⟨_, parse_eq_ok_iff.mpr ⟨_, hread, rfl, ?_⟩, rfl⟩, hc,
        hholds⟩
      exact forall_mem_singleton.mpr (validate_allowValidation _ _ _ _ _)
    · obtain ⟨next, hfile, hnil⟩ := parseFiles_cons_iff.mp hparse
      cases hnil
      obtain ⟨entries, hentries, rfl, hvalid⟩ := parse_eq_ok_iff.mp hfile
      obtain ⟨hc, hholds⟩ := (h.foldl_add entries).add_allow location
      refine ⟨_, parseFiles_cons_iff.mpr ⟨_, parse_eq_ok_iff.mpr
        ⟨_, readFile_append hentries heval, rfl, ?_⟩, rfl⟩, ?_⟩
      · rw [foldl_append, foldl_cons, foldl_nil, hc.hosts, flatMap_append]
        refine forall_mem_append.mpr ⟨hvalid, ?_⟩
        exact forall_mem_singleton.mpr (validate_allowValidation _ _ _ _ _)
      · rw [foldl_append]
        exact ⟨hc, hholds⟩

/-- The folders, of which one has the amended file. -/
lemma PolicyBuilder.Gains.parseFolders [DecidableEq D]
    (h : Gains (prefixRule first rest .allow) b b') {env dirs codexHome}
    (hline : LineEvaluates env.toEnv (env.identifier codexHome defaultPolicyFile)
      (get (dirs codexHome) defaultPolicyFile) (first :: rest)) {folders : List D}
    (hparse : ExecPolicy.parseFiles env.toEnv b
      (folders.flatMap (collectPolicyFiles env dirs)) = .ok c) :
    ∃ c', ExecPolicy.parseFiles env.toEnv b' (folders.flatMap (collectPolicyFiles env
        (update dirs codexHome ((dirs codexHome).insert defaultPolicyFile
          (appendLockedLine ((get (dirs codexHome) defaultPolicyFile).getD [])
            (allowPrefixRuleLine (first :: rest))))))) = .ok c' ∧
      Gains (prefixRule first rest .allow) c c' ∧
      (b'.Holds (prefixRule first rest .allow) ∨ codexHome ∈ folders →
        c'.Holds (prefixRule first rest .allow)) := by
  induction folders generalizing b b' with
  | nil =>
    cases hparse
    exact ⟨b', rfl, h, fun hholds => hholds.resolve_right fun hmem => nomatch hmem⟩
  | cons folder folders ih =>
    obtain ⟨next, hfolder, hfolders⟩ := parseFiles_append_iff.mp hparse
    rw [flatMap_cons]
    simp only [parseFiles_append_iff]
    obtain rfl | hne := eq_or_ne folder codexHome
    · obtain ⟨before, after, hlisting, hinsert⟩ :=
        listing_insert isRulesFile (dirs folder) (k := defaultPolicyFile) (by decide)
      rw [collectPolicyFiles, hlisting, map_append, map_append, map_map,
        parseFiles_append_iff] at hfolder
      obtain ⟨amended, hamended, hafter⟩ := hfolder
      obtain ⟨start, hbefore, hamended⟩ := parseFiles_append_iff.mp hamended
      obtain ⟨start', hbefore', hstart, -⟩ := h.parseFiles hbefore
      obtain ⟨amended', hamended', hgains, hholds⟩ := hstart.parseFiles_amended hline hamended
      obtain ⟨next', hafter', hnext, hkept⟩ := hgains.parseFiles hafter
      obtain ⟨c', hfolders', hc, hlast⟩ := ih hnext hfolders
      refine ⟨c', ⟨next', ?_, hfolders'⟩, hc, fun _ => hlast (.inl (hkept hholds))⟩
      rw [collectPolicyFiles, update_self, hinsert, map_append, map_cons,
        ← singleton_append, parseFiles_append_iff]
      refine ⟨start', hbefore', ?_⟩
      rw [parseFiles_append_iff]
      exact ⟨amended', hamended', hafter'⟩
    · obtain ⟨next', hfolder', hnext, hkept⟩ := h.parseFiles hfolder
      obtain ⟨c', hfolders', hc, hlast⟩ := ih hnext hfolders
      refine ⟨c', ⟨next', ?_, hfolders'⟩, hc, fun hholds => hlast ?_⟩
      · rw [collectPolicyFiles, update_of_ne hne]
        exact hfolder'
      · exact hholds.imp hkept fun hmem => (mem_cons.mp hmem).resolve_left hne.symm

omit [DecidableEq A] in
lemma PolicyBuilder.Gains.gained_build {rule} (h : Gains rule b b')
    (hholds : b'.Holds rule) : Gained rule b.build b'.build := by
  refine ⟨fun name => congrArg (get · name) h.hosts, fun program r => ⟨h.gained program r, ?_⟩⟩
  rintro (hold | ⟨rfl, rfl⟩)
  · exact h.kept program r hold
  · exact hholds

omit [DecidableEq A] in
lemma Gained.mergeOverlay {rule policy policy'}
    (h : Gained rule policy policy') (order order' : PolicyOrder A) (overlay : Policy A) :
    Gained rule (policy.mergeOverlay order overlay) (policy'.mergeOverlay order' overlay) := by
  refine ⟨fun name => ?_, fun program r => ?_⟩
  · rw [Policy.mergeOverlay, Policy.mergeOverlay, get_extend, get_extend, h.hosts]
  · rw [Policy.mergeOverlay, Policy.mergeOverlay, values_pushAll_arrange, values_pushAll_arrange,
      mem_append, mem_append, h.rules, or_right_comm]

/-- **The policy that is read again** has gained the rule. -/
theorem loadExecPolicy_amended [DecidableEq D] {env order stack dirs policy}
    (hload : loadExecPolicy env order stack dirs = .ok policy) {codexHome : D}
    (hhome : codexHome ∈ stack.policyFolders)
    (hline : LineEvaluates env.toEnv (env.identifier codexHome defaultPolicyFile)
      (get (dirs codexHome) defaultPolicyFile) (first :: rest)) (order' : PolicyOrder A) :
    ∃ reloaded, loadExecPolicy env order' stack
        (update dirs codexHome ((dirs codexHome).insert defaultPolicyFile
          (appendLockedLine ((get (dirs codexHome) defaultPolicyFile).getD [])
            (allowPrefixRuleLine (first :: rest))))) = .ok reloaded ∧
      Gained (prefixRule first rest .allow) policy reloaded := by
  obtain ⟨c, hparse, hpolicy⟩ := bind_eq_ok_iff.mp hload
  obtain ⟨c', hparse', hgains, hholds⟩ := (Gains.refl _ _).parseFolders hline hparse
  have hgained := hgains.gained_build (hholds (.inr hhome))
  refine ⟨_, bind_eq_ok_iff.mpr ⟨c', hparse', rfl⟩, ?_⟩
  cases hpolicy
  obtain _ | requirements := stack.requirements
  · exact hgained
  · exact hgained.mergeOverlay order order' requirements

/-! ## Memory and files -/

/-- What an update that succeeds does. -/
lemma appendAmendmentAndUpdate_eq_ok [DecidableEq D] {paths : HostPaths A} {codexHome : D}
    {manager manager' amendment}
    (h : appendAmendmentAndUpdate paths codexHome amendment manager = .ok manager') :
    ∃ first rest, amendment = first :: rest ∧ manager'.dirs = update manager.dirs codexHome
        ((manager.dirs codexHome).insert defaultPolicyFile
          (appendLockedLine ((get (manager.dirs codexHome) defaultPolicyFile).getD [])
            (allowPrefixRuleLine (first :: rest)))) ∧
      (manager.policy.ruling paths amendment = some .allow ∧ manager'.policy = manager.policy ∨
        manager.policy.ruling paths amendment ≠ some .allow ∧
          Gained (prefixRule first rest .allow) manager.policy manager'.policy) := by
  obtain ⟨contents, hcontents, h⟩ := bind_eq_ok_iff.mp h
  rw [mapError_eq_ok_iff] at hcontents
  obtain _ | ⟨first, rest⟩ := amendment
  · cases hcontents
  cases hcontents
  refine ⟨first, rest, rfl, ?_⟩
  split_ifs at h with hallowed
  · cases h
    exact ⟨rfl, .inl ⟨(alreadyAllowed_iff _ _ _).mp hallowed, rfl⟩⟩
  · obtain ⟨updated, hupdated, h⟩ := bind_eq_ok_iff.mp h
    rw [mapError_eq_ok_iff] at hupdated
    cases h
    exact ⟨rfl, .inr ⟨mt (alreadyAllowed_iff _ _ _).mpr hallowed, gained_addPrefixRule hupdated⟩⟩

/-- **When memory and files agree**: always, unless the command was allowed by the name of its file
only, and then exactly if the rule is settled by the rules for such names. -/
theorem amendment_agrees_with_reload_iff [DecidableEq D] {env : LoadEnv A D}
    {order : PolicyOrder A} {stack : ConfigLayerStack D A}
      {manager manager' : ExecPolicyManager A D}
    (hload : loadExecPolicy env order stack manager.dirs = .ok manager.policy) {codexHome : D}
    (hhome : codexHome ∈ stack.policyFolders) {amendment : List Str}
    (hline : LineEvaluates env.toEnv (env.identifier codexHome defaultPolicyFile)
      (get (manager.dirs codexHome) defaultPolicyFile) amendment)
    (hupdate : appendAmendmentAndUpdate env.toHostPaths codexHome amendment manager = .ok manager')
    (order' : PolicyOrder A) (fallback : List Str → Decision) :
    ∃ reloaded, loadExecPolicy env order' stack manager'.dirs = .ok reloaded ∧
      ((∀ commands, approval env.toHostPaths reloaded commands fallback =
          approval env.toHostPaths manager'.policy commands fallback) ↔
        (AllowedByName env.toHostPaths manager.policy amendment →
          Settled env.toHostPaths manager.policy amendment)) := by
  obtain ⟨first, rest, rfl, hdirs, hpolicy⟩ := appendAmendmentAndUpdate_eq_ok hupdate
  obtain ⟨reloaded, hreloaded, hgained⟩ := loadExecPolicy_amended hload hhome hline order'
  refine ⟨reloaded, hdirs ▸ hreloaded, ?_⟩
  obtain ⟨hruling, hsame⟩ | ⟨hruling, hmemory⟩ := hpolicy
  · rw [hsame]
    by_cases hnone : manager.policy.exactRules (first :: rest) = []
    · obtain ⟨hne, hallow⟩ := strictest_eq_allow_iff.mp hruling
      have hname : AllowedByName env.toHostPaths manager.policy (first :: rest) :=
        ⟨hnone, hne, hallow⟩
      rw [approvals_kept_iff hgained hname fallback]
      exact ⟨fun hsettled _ => hsettled, fun hsettled => hsettled hname⟩
    · exact iff_of_true (fun commands => approvals_kept_of_exact hgained hnone commands fallback)
        fun hname => absurd hname.unmatched hnone
  · refine iff_of_true (fun commands => approval_congr (hmemory.ruling_eq hgained _) commands _) ?_
    exact fun hname => absurd (strictest_eq_allow_iff.mpr ⟨hname.named, hname.allowed⟩) hruling

/-! ## A program with a rule for its name and an amendment for its path -/

/-- A language with three lines. -/
def gitLines : List (Str × Call) :=
  [(allowPrefixRuleLine ["git"], allowCall ["git"] none),
    ("prefix_rule(pattern=[\"git\", \"push\"], decision=\"forbidden\")",
      .prefixRule { pattern := [.str "git", .str "push"]
                    decision := some "forbidden" }),
    (allowPrefixRuleLine ["/usr/bin/git"], allowCall ["/usr/bin/git"] none)]

/-- An environment for rules about one program. -/
def gitEnv : LoadEnv Str Str where
  toHostPaths := unixPaths
  evaluate _ contents :=
    ((lines contents).filterMap fun line => (gitLines.find? (·.1 = line)).map (·.2), none)
  isAbsolute path := path.head? = some '/'
  isBareName name := '/' ∉ name
  tryFromError _ := []
  executableLookupKey := id
  shlexSplit _ := none
  shlexTryJoin _ := none
  debugRule _ := []
  debugMatch _ := []
  identifier folder name := folder ++ "/rules/" ++ name

/-- The folder of the user. -/
def codexHome : Str := "/home/.codex"

/-- The layers of a system and a user. -/
def gitStack : ConfigLayerStack Str Str where
  layers := [⟨.system none, false⟩, ⟨.user (some codexHome), false⟩]

/-- The program is allowed, but not to push. -/
def gitManager : ExecPolicyManager Str Str where
  policy :=
    { rulesByProgram := push (push ∅ "git" (prefixRule "git" [] .allow)) "git"
        (prefixRule "git" ["push"] .forbidden) }
  dirs folder :=
    if folder = codexHome then
      AList.insert defaultPolicyFile (joinLines ((gitLines.take 2).map (·.1))) ∅
    else ∅

lemma gitManager_loaded :
    loadExecPolicy gitEnv .kept gitStack gitManager.dirs = .ok gitManager.policy := rfl

lemma gitLine_evaluates : LineEvaluates gitEnv.toEnv (gitEnv.identifier codexHome defaultPolicyFile)
      (get (gitManager.dirs codexHome) defaultPolicyFile) ["/usr/bin/git"] where
  appended _ := ⟨none, rfl⟩
  present h := absurd h (by decide)

theorem amendment_agrees_with_reload_git :
    ∃ manager', appendAmendmentAndUpdate unixPaths codexHome ["/usr/bin/git"] gitManager =
        .ok manager' ∧
      ∃ reloaded, loadExecPolicy gitEnv .kept gitStack manager'.dirs = .ok reloaded ∧
        ((∀ commands, approval unixPaths reloaded commands (fun _ => .prompt) =
            approval unixPaths manager'.policy commands (fun _ => .prompt)) ↔
          (AllowedByName unixPaths gitManager.policy ["/usr/bin/git"] →
            Settled unixPaths gitManager.policy ["/usr/bin/git"])) :=
  ⟨_, rfl, amendment_agrees_with_reload_iff gitManager_loaded (by decide) gitLine_evaluates rfl
    .kept fun _ => .prompt⟩

/-- **A push is forbidden until the files are read again**, and then it is allowed, without a
sandbox. -/
theorem path_amended_on_reload :
    ∃ manager' reloaded, loadExecPolicy gitEnv .kept gitStack gitManager.dirs =
      .ok gitManager.policy ∧ codexHome ∈ gitStack.policyFolders ∧
      LineEvaluates gitEnv.toEnv (gitEnv.identifier codexHome defaultPolicyFile)
        (get (gitManager.dirs codexHome) defaultPolicyFile) ["/usr/bin/git"] ∧
      appendAmendmentAndUpdate unixPaths codexHome ["/usr/bin/git"] gitManager =
        .ok manager' ∧
      loadExecPolicy gitEnv .kept gitStack manager'.dirs = .ok reloaded ∧
      approval unixPaths manager'.policy [["/usr/bin/git", "push"]]
        (fun _ => .prompt) = some ⟨.forbidden, none⟩ ∧
      approval unixPaths reloaded [["/usr/bin/git", "push"]]
        (fun _ => .prompt) = some ⟨.allow, some true⟩ :=
  ⟨_, _, gitManager_loaded, by decide, gitLine_evaluates, rfl, rfl, rfl, rfl⟩

end ExecPolicy
