import CodexAgents.ExecPolicy.Policy
import CodexAgents.Lib.Outcome

/-!
# Reading rule files

`execpolicy/src/parser.rs`: a rule file is a program in Starlark, whose calls of `prefix_rule`,
`network_rule` and `host_executable` fill a `PolicyBuilder`.  A rule can come with examples of
commands it should, or should not, match.  They are checked at the end of the file, against the
rules of their call alone, but with all the paths of host executables known by then.

The language is not modelled: `Env.evaluate` gives the calls a file makes, with their arguments, and
how it fails if it does.  What a call does depends on its arguments only (`Call.read`), so that a
file is a list of entries for the builder, whatever the builder holds already.

`Gains` compares two builders of which one has got a rule more, perhaps.  Every entry, and with it
every file, keeps it (`Gains.add`, `Gains.parse`): the rule makes no other file fail.
-/

namespace ExecPolicy

open Text HashMap List

/-! ## Errors -/

/-- A place in a file. -/
structure TextPosition where
  line : Nat
  column : Nat
  deriving DecidableEq

/-- From one place to another. -/
structure TextRange where
  start : TextPosition
  stop : TextPosition
  deriving DecidableEq

/-- Where an error is. -/
structure ErrorLocation where
  path : Str
  range : TextRange
  deriving DecidableEq

/-- Why a file of rules is refused. -/
inductive Error where
  | invalidDecision (raw : Str)
  | invalidPattern (message : Str)
  | invalidExample (message : Str)
  | invalidRule (message : Str)
  | exampleDidNotMatch (rules examples : List Str) (location : Option ErrorLocation)
  | exampleDidMatch (rule : Str) (sample : Str) (location : Option ErrorLocation)
  /-- An error of the language. -/
  | starlark (message : Str)
  /-- An error of one of the functions below, as the language hands it on. -/
  | builtin (error : Error)
  deriving DecidableEq

/-- The place of an example that is wrong, unless it is known. -/
def Error.withLocation (location : ErrorLocation) : Error → Error
  | exampleDidNotMatch rules examples none => exampleDidNotMatch rules examples (some location)
  | exampleDidMatch rule sample none => exampleDidMatch rule sample (some location)
  | other => other

/-- The place of an error, if there is one. -/
def attachValidationLocation (location : Option ErrorLocation) (error : Error) : Error :=
  location.elim error error.withLocation

/-! ## Words of the rule files -/

variable (raw : Str)

/-- The names of decisions. -/
def Decision.parse : Except Error Decision :=
  if raw = "allow" then .ok .allow
  else if raw = "prompt" then .ok .prompt
  else if raw = "forbidden" then .ok .forbidden
  else .error (.invalidDecision raw)

/-- In rules for the network, `deny` is a name too. -/
def parseNetworkRuleDecision : Except Error Decision :=
  if raw = "deny" then .ok .forbidden else Decision.parse raw

/-- The names of protocols. -/
def NetworkRuleProtocol.parse : Except Error NetworkRuleProtocol :=
  if raw = "http".toList then .ok .http
  else if raw ∈ ["https".toList, "https_connect".toList, "http-connect".toList] then .ok .https
  else if raw = "socks5_tcp".toList then .ok .socks5Tcp
  else if raw = "socks5_udp".toList then .ok .socks5Udp
  else .error (.invalidRule
    ("network_rule protocol must be one of http, https, socks5_tcp, socks5_udp (got ".toList ++
      raw ++ ")".toList))

/-- `str::split_once`. -/
def splitOnce (c : Char) (s : Str) : Option (Str × Str) :=
  if c ∈ s then some (s.takeWhile (· ≠ c), (s.dropWhile (· ≠ c)).tail) else none

/-- `str::rsplit_once`. -/
def rsplitOnce (c : Char) (s : Str) : Option (Str × Str) :=
  if c ∈ s then some ((s.rdropWhile (· ≠ c)).dropLast, s.rtakeWhile (· ≠ c)) else none

/-- A port: digits, and at least one. -/
def isPort (s : Str) : Bool := s ≠ [] && s.all Char.isDigit

/-- The host without brackets, or without a port, but not both taken off one after the other. -/
def stripNetworkRulePort (raw host : Str) : Except Error Str :=
  match stripPrefix ['['] host with
  | some stripped =>
    match splitOnce ']' stripped with
    | none => .error (.invalidRule
        "network_rule host has an invalid bracketed IPv6 literal")
    | some (inside, rest) =>
      if rest ≠ [] ∧ ¬ (stripPrefix [':'] rest).any isPort then
        .error (.invalidRule ("network_rule host contains an unsupported suffix: " ++ raw))
      else .ok inside
  | none =>
    if host.count ':' = 1 then
      match rsplitOnce ':' host with
      | some (candidate, port) => .ok (if candidate ≠ [] ∧ isPort port then candidate else host)
      | none => .ok host
    else .ok host

/-- A host without port and dots at the end, in lower case. -/
def normalizeNetworkRuleHost : Except Error Str := do
  let host := trim raw
  if host = [] then throw (.invalidRule "network_rule host cannot be empty")
  if "://" <:+: host ∨ '/' ∈ host ∨ '?' ∈ host ∨ '#' ∈ host then
    throw (.invalidRule
      "network_rule host must be a hostname or IP literal (without scheme or path)")
  let host ← stripNetworkRulePort raw host
  let normalized := (trim (host.rdropWhile (· = '.'))).map Char.toLower
  if normalized = [] then throw (.invalidRule "network_rule host cannot be empty")
  if '*' ∈ normalized then
    throw (.invalidRule
      "network_rule host must be a specific host; wildcards are not allowed")
  if normalized.any isWhitespace then
    throw (.invalidRule "network_rule host cannot contain whitespace")
  return normalized

/-- A justification says something. -/
def parseJustification : Option Str → Except Error (Option Str)
  | some raw =>
    if trim raw = [] then .error (.invalidRule "justification cannot be empty")
    else .ok (some raw)
  | none => .ok none

/-! ## Calls -/

/-- A value of the language, as far as it is looked into. -/
inductive Value where
  | str (s : Str)
  | list (items : List Value)
  | other (typeName : Str)

namespace Value

/-- The text of a value. -/
def unpackStr : Value → Option Str
  | str s => some s
  | _ => none

/-- The name of the type of a value. -/
def getType : Value → Str
  | str _ => "string"
  | list _ => "list"
  | other typeName => typeName

/-- A text, or an error that names the type of what is not one. -/
def expectStr (error : Str → Error) (message : Str) (value : Value) : Except Error Str :=
  match value.unpackStr with
  | some s => .ok s
  | none => .error (error (message ++ " (got " ++ value.getType ++ ")"))

end Value

/-- The arguments of `prefix_rule`. -/
structure PrefixRuleCall where
  pattern : List Value
  decision : Option Str := none
  matching : Option (List Value) := none
  notMatching : Option (List Value) := none
  justification : Option Str := none
  location : Option ErrorLocation := none

/-- The arguments of `network_rule`. -/
structure NetworkRuleCall where
  host : Str
  protocol : Str
  decision : Str
  justification : Option Str := none

/-- The arguments of `host_executable`. -/
structure HostExecutableCall where
  name : Str
  paths : List Value

/-- A call in a file of rules. -/
inductive Call where
  | prefixRule (call : PrefixRuleCall)
  | networkRule (call : NetworkRuleCall)
  | hostExecutable (call : HostExecutableCall)

/-- What rule files are read with, apart from what is in them. -/
structure Env (A : Type) extends HostPaths A where
  /-- The calls a file makes, and the error of the language it ends with, if it does. -/
  evaluate : (policyIdentifier contents : Str) → List Call × Option Str
  /-- `Path::is_absolute`. -/
  isAbsolute : Str → Bool
  /-- The path has one component, and it is the name of a file. -/
  isBareName : Str → Bool
  /-- The error of a path that cannot be made absolute. -/
  tryFromError : Str → Str
  executableLookupKey : Str → Str
  shlexSplit : Str → Option (List Str)
  shlexTryJoin : List Str → Option Str
  debugRule : PrefixRule → Str
  debugMatch : RuleMatch A → Str

variable {A : Type} [DecidableEq A]

/-- Examples that are tried once all rules are known. -/
structure PendingExampleValidation where
  rules : List PrefixRule
  matching : List (List Str)
  notMatching : List (List Str)
  location : Option ErrorLocation

/-- A text or a list of alternatives. -/
def parsePatternToken : Value → Except Error PatternToken
  | .str s => .ok (.single s)
  | .list items => do
    let tokens ← items.mapM
      (Value.expectStr .invalidPattern "pattern alternative must be a string")
    match tokens with
    | [] => .error (.invalidPattern "pattern alternatives cannot be empty")
    | [single] => .ok (.single single)
    | _ => .ok (.alts tokens)
  | .other typeName => .error (.invalidPattern
      ("pattern element must be a string or list of strings (got " ++ typeName ++
        ")"))

/-- A pattern has one token at least. -/
def parsePattern (pattern : List Value) : Except Error (List PatternToken) := do
  let tokens ← pattern.mapM parsePatternToken
  if tokens = [] then throw (.invalidPattern "pattern cannot be empty")
  return tokens

variable (env : Env A)

/-- An example as a line for the shell. -/
def parseStringExample (raw : Str) : Except Error (List Str) :=
  match env.shlexSplit raw with
  | none => .error (.invalidExample "example string has invalid shell syntax")
  | some [] => .error (.invalidExample "example cannot be an empty string")
  | some tokens => .ok tokens

/-- An example as a list of words. -/
def parseListExample (items : List Value) : Except Error (List Str) := do
  let tokens ← items.mapM
    (Value.expectStr .invalidExample "example tokens must be strings")
  if tokens = [] then throw (.invalidExample "example cannot be an empty list")
  return tokens

/-- An example in one of the two forms. -/
def parseExample : Value → Except Error (List Str)
  | .str raw => parseStringExample env raw
  | .list items => parseListExample items
  | .other typeName => .error (.invalidExample
      ("example must be a string or list of strings (got " ++ typeName ++ ")"))

/-- All examples, none by default. -/
def parseExamples (examples : Option (List Value)) : Except Error (List (List Str)) :=
  (examples.getD []).mapM (parseExample env)

/-- A path that is absolute as it is written. -/
def parseLiteralAbsolutePath (raw : Str) : Except Error A :=
  if env.isAbsolute raw then
    match env.tryFrom raw with
    | some path => .ok path
    | none => .error (.invalidRule
        ("invalid absolute path \x60" ++ raw ++ "\x60: " ++ env.tryFromError raw))
  else .error (.invalidRule
    ("host_executable paths must be absolute (got " ++ raw ++ ")"))

/-- A name without a directory. -/
def validateHostExecutableName (name : Str) : Except Error Unit :=
  if name = [] then .error (.invalidRule "host_executable name cannot be empty")
  else if env.isBareName name then .ok ()
  else .error (.invalidRule
    ("host_executable name must be a bare executable name (got " ++ name ++ ")"))

/-- What a token stands for. -/
def PatternToken.alternatives : PatternToken → List Str
  | single expected => [expected]
  | alts alternatives => alternatives

/-! ## The builder -/

/-- A policy in the making. -/
structure PolicyBuilder (A : Type) where
  rulesByProgram : HashMap Str (List PrefixRule) := ∅
  networkRules : List NetworkRule := []
  hostExecutablesByName : HashMap Str (List A) := ∅
  pendingExampleValidations : List PendingExampleValidation := []

/-- What a call puts into the builder. -/
inductive Entry (A : Type) where
  | rules (validation : PendingExampleValidation)
  | network (rule : NetworkRule)
  | hostExecutable (name : Str) (paths : List A)

/-- The rules of a call, one for each alternative of the first word. -/
def PrefixRuleCall.read (call : PrefixRuleCall) : Except Error (Entry A) := do
  let decision ← call.decision.elim (pure .allow) Decision.parse
  let justification ← parseJustification call.justification
  let patternTokens ← parsePattern call.pattern
  let matching ← parseExamples env call.matching
  let notMatching ← parseExamples env call.notMatching
  match patternTokens with
  | [] => throw (.invalidPattern "pattern cannot be empty")
  | firstToken :: rest =>
    return .rules
      { rules := firstToken.alternatives.map fun head => ⟨⟨head, rest⟩, decision, justification⟩
        matching
        notMatching
        location := call.location }

/-- The rule of a call, or the first error. -/
def NetworkRuleCall.read (call : NetworkRuleCall) : Except Error (Entry A) := do
  let protocol ← NetworkRuleProtocol.parse call.protocol
  let decision ← parseNetworkRuleDecision call.decision
  let justification ← parseJustification call.justification
  let host ← normalizeNetworkRuleHost call.host
  return .network { host, protocol, decision, justification }

/-- A path ends in the name of the program. -/
def HostExecutableCall.readPath (name : Str) (value : Value) : Except Error A := do
  let raw ← Value.expectStr .invalidRule "host_executable paths must be strings" value
  let path ← parseLiteralAbsolutePath env raw
  if env.executablePathLookupKey path ≠ some (env.executableLookupKey name) then
    throw (.invalidRule ("host_executable path \x60" ++ raw ++
      "\x60 must have basename \x60" ++ name ++ "\x60"))
  return path

/-- Paths that are named twice are kept once. -/
def HostExecutableCall.read (call : HostExecutableCall) : Except Error (Entry A) := do
  validateHostExecutableName env call.name
  let paths ← call.paths.mapM (HostExecutableCall.readPath env call.name)
  return .hostExecutable (env.executableLookupKey call.name)
    (paths.foldl (fun kept path => if path ∈ kept then kept else kept ++ [path]) [])

/-- What a call adds to the policy. -/
def Call.read : Call → Except Error (Entry A)
  | prefixRule call => call.read env
  | networkRule call => call.read
  | hostExecutable call => call.read env

/-- Some example matches none of the rules of its call. -/
def validateMatchExamples (policy : Policy A)
    (validation : PendingExampleValidation) : Except Error Unit :=
  let unmatched := validation.matching.filter fun sample =>
    policy.matchesForCommandWithOptions env.toHostPaths sample none ⟨true⟩ = []
  if unmatched = [] then .ok ()
  else .error (.exampleDidNotMatch (validation.rules.map env.debugRule)
    (unmatched.map fun sample => (env.shlexTryJoin sample).getD "unable to render example")
    none)

/-- No rule matches these examples. -/
def validateNotMatchExamples (policy : Policy A)
    (validation : PendingExampleValidation) : Except Error Unit :=
  validation.notMatching.forM fun sample =>
    match policy.matchesForCommandWithOptions env.toHostPaths sample none ⟨true⟩ with
    | [] => .ok ()
    | found :: _ => .error (.exampleDidMatch (env.debugMatch found)
        ((env.shlexTryJoin sample).getD "unable to render example") none)

/-- The examples of a call are checked with its rules alone. -/
def PendingExampleValidation.validate (hostExecutablesByName : HashMap Str (List A))
    (validation : PendingExampleValidation) : Except Error Unit :=
  let policy : Policy A :=
    { rulesByProgram := validation.rules.foldl (fun m rule => push m rule.pattern.first rule) ∅
      hostExecutablesByName }
  (do
    validateNotMatchExamples env policy validation
    validateMatchExamples env policy validation).mapError
      (attachValidationLocation validation.location)

namespace PolicyBuilder

variable (builder : PolicyBuilder A)

/-- A rule comes behind those of its program. -/
def addRule (rule : PrefixRule) : PolicyBuilder A :=
  { builder with rulesByProgram := push builder.rulesByProgram rule.pattern.first rule }

/-- One more rule for the network. -/
def addNetworkRule (rule : NetworkRule) : PolicyBuilder A :=
  { builder with networkRules := builder.networkRules ++ [rule] }

/-- The paths of a program; the last call counts. -/
def addHostExecutable (name : Str) (paths : List A) : PolicyBuilder A :=
  { builder with hostExecutablesByName := builder.hostExecutablesByName.insert name paths }

/-- More examples to be tried. -/
def addPendingExampleValidation (validation : PendingExampleValidation) : PolicyBuilder A :=
  { builder with
    pendingExampleValidations := builder.pendingExampleValidations ++ [validation] }

/-- What a call adds. -/
def add : Entry A → PolicyBuilder A
  | .rules validation =>
    validation.rules.foldl addRule (builder.addPendingExampleValidation validation)
  | .network rule => builder.addNetworkRule rule
  | .hostExecutable name paths => builder.addHostExecutable name paths

/-- The examples of one file are tried. -/
def validatePendingExamplesFrom (env : Env A) (builder : PolicyBuilder A) (start : Nat) :
    Except Error Unit :=
  (builder.pendingExampleValidations.drop start).forM
    (·.validate env builder.hostExecutablesByName)

/-- The policy that was made. -/
def build : Policy A where
  rulesByProgram := builder.rulesByProgram
  networkRules := builder.networkRules
  hostExecutablesByName := builder.hostExecutablesByName

end PolicyBuilder

/-- The entries of a file. -/
def readFile (env : Env A) (policyIdentifier contents : Str) : Except Error (List (Entry A)) := do
  let (calls, failure) := env.evaluate policyIdentifier contents
  let entries ← calls.mapM fun call => (call.read env).mapError .builtin
  match failure with
  | some message => throw (.starlark message)
  | none => return entries

/-- `PolicyParser::parse`. -/
def PolicyBuilder.parse (env : Env A) (builder : PolicyBuilder A)
    (policyIdentifier contents : Str) : Except Error (PolicyBuilder A) := do
  let start := builder.pendingExampleValidations.length
  let entries ← readFile env policyIdentifier contents
  let filled := entries.foldl add builder
  filled.validatePendingExamplesFrom env start
  return filled

/-! ## What a file does -/

/-- A loop that only checks succeeds if every check does. -/
lemma forM_eq_ok_iff {α : Type} {check : α → Except Error Unit} {l : List α} :
    l.forM check = .ok () ↔ ∀ a ∈ l, check a = .ok () := by
  induction l with
  | nil => exact iff_of_true rfl fun _ h => nomatch h
  | cons a l ih =>
    rw [forall_mem_cons, ← ih]
    show (check a >>= fun _ => l.forM check) = .ok () ↔ _
    obtain error | ⟨⟩ := check a
    · exact iff_of_false (fun h => nomatch h) fun h => nomatch h.1
    · exact (and_iff_right rfl).symm

lemma mapM_eq_ok {α β : Type} {f : α → Except Error β} {g} {l : List α}
    (h : ∀ a ∈ l, f a = .ok (g a)) : l.mapM f = .ok (l.map g) := by
  induction l with
  | nil => rfl
  | cons a l ih =>
    rw [mapM_cons, h a mem_cons_self, ih fun b hb => h b (mem_cons_of_mem a hb)]
    rfl

/-- The examples an entry brings along. -/
def Entry.validations : Entry A → List PendingExampleValidation
  | rules validation => [validation]
  | _ => []

namespace PolicyBuilder

section

omit [DecidableEq A]

lemma foldl_addRule_pending (rules : List PrefixRule) (builder : PolicyBuilder A) :
    (rules.foldl addRule builder).pendingExampleValidations =
      builder.pendingExampleValidations := by
  induction rules generalizing builder with
  | nil => rfl
  | cons rule rules ih => exact ih (builder.addRule rule)

lemma add_pending (builder : PolicyBuilder A) (entry : Entry A) :
    (builder.add entry).pendingExampleValidations =
      builder.pendingExampleValidations ++ entry.validations := by
  obtain validation | rule | ⟨name, paths⟩ := entry
  · exact foldl_addRule_pending _ _
  · exact (append_nil _).symm
  · exact (append_nil _).symm

lemma foldl_add_pending (entries : List (Entry A)) (builder : PolicyBuilder A) :
    (entries.foldl add builder).pendingExampleValidations =
      builder.pendingExampleValidations ++ entries.flatMap Entry.validations := by
  induction entries generalizing builder with
  | nil => exact (append_nil _).symm
  | cons entry entries ih => rw [foldl_cons, ih, add_pending, append_assoc, flatMap_cons]

/-! ## A rule more -/

/-- The builder holds the rule. -/
def Holds (builder : PolicyBuilder A) (rule : PrefixRule) : Prop :=
  rule ∈ values builder.rulesByProgram rule.pattern.first

/-- **The second builder may hold a rule more**, and is as the first otherwise, as far as commands
are concerned. -/
structure Gains (rule : PrefixRule) (b b' : PolicyBuilder A) : Prop where
  hosts : b'.hostExecutablesByName = b.hostExecutablesByName
  kept : ∀ program, ∀ r ∈ values b.rulesByProgram program, r ∈ values b'.rulesByProgram program
  gained : ∀ program, ∀ r ∈ values b'.rulesByProgram program,
    r ∈ values b.rulesByProgram program ∨ program = rule.pattern.first ∧ r = rule

variable {builder : PolicyBuilder A} {rule : PrefixRule}

lemma mem_values_addRule {r program} :
    r ∈ values (builder.addRule rule).rulesByProgram program ↔
      r ∈ values builder.rulesByProgram program ∨ program = rule.pattern.first ∧ r = rule := by
  rw [addRule, values_push]
  split <;> simp_all

namespace Gains

variable {rule : PrefixRule} {b b' : PolicyBuilder A}

lemma refl (rule : PrefixRule) (b : PolicyBuilder A) : Gains rule b b :=
  ⟨rfl, fun _ _ h => h, fun _ _ h => .inl h⟩

variable (h : Gains rule b b')
include h

lemma addRule (r : PrefixRule) : Gains rule (b.addRule r) (b'.addRule r) where
  hosts := h.hosts
  kept program r' := by
    rw [mem_values_addRule, mem_values_addRule]
    exact Or.imp_left (h.kept program r')
  gained program r' := by
    rw [mem_values_addRule, mem_values_addRule]
    rintro (hmem | hadded)
    · obtain hold | hnew := h.gained program r' hmem
      · exact .inl (.inl hold)
      · exact .inr hnew
    · exact .inl (.inr hadded)

lemma foldl_addRule (rules : List PrefixRule) :
    Gains rule (rules.foldl PolicyBuilder.addRule b) (rules.foldl PolicyBuilder.addRule b') := by
  induction rules generalizing b b' with
  | nil => exact h
  | cons r rules ih => exact ih (h.addRule r)

lemma add (entry : Entry A) : Gains rule (b.add entry) (b'.add entry) := by
  obtain validation | networkRule | ⟨name, paths⟩ := entry
  · have hpending : Gains rule (b.addPendingExampleValidation validation)
        (b'.addPendingExampleValidation validation) := ⟨h.hosts, h.kept, h.gained⟩
    exact hpending.foldl_addRule validation.rules
  · exact ⟨h.hosts, h.kept, h.gained⟩
  · refine ⟨?_, h.kept, h.gained⟩
    show b'.hostExecutablesByName.insert name paths = b.hostExecutablesByName.insert name paths
    rw [h.hosts]

lemma foldl_add (entries : List (Entry A)) :
    Gains rule (entries.foldl PolicyBuilder.add b) (entries.foldl PolicyBuilder.add b') := by
  induction entries generalizing b b' with
  | nil => exact h
  | cons entry entries ih => exact ih (h.add entry)

end Gains

/-! ## The rule itself -/

lemma Holds.addRule (h : builder.Holds rule) (r : PrefixRule) :
    (builder.addRule r).Holds rule := mem_values_addRule.mpr (.inl h)

lemma holds_foldl_addRule {rules : List PrefixRule} (h : builder.Holds rule ∨ rule ∈ rules) :
    (rules.foldl PolicyBuilder.addRule builder).Holds rule := by
  induction rules generalizing builder with
  | nil => exact h.resolve_right fun hmem => nomatch hmem
  | cons r rules ih =>
    refine ih ?_
    obtain h | hmem := h
    · exact .inl (h.addRule r)
    · obtain rfl | hmem := mem_cons.mp hmem
      · exact .inl (mem_values_addRule.mpr (.inr ⟨rfl, rfl⟩))
      · exact .inr hmem

lemma holds_add {entry}
    (h : builder.Holds rule ∨ ∃ validation ∈ entry.validations, rule ∈ validation.rules) :
    (builder.add entry).Holds rule := by
  obtain validation | networkRule | ⟨name, paths⟩ := entry
  · refine holds_foldl_addRule ?_
    obtain h | ⟨_, hmem, hrule⟩ := h
    · exact .inl h
    · rw [mem_singleton.mp hmem] at hrule
      exact .inr hrule
  all_goals exact h.resolve_right fun ⟨_, hmem, _⟩ => nomatch hmem

lemma holds_foldl_add {entries : List (Entry A)} (h : builder.Holds rule ∨
      ∃ entry ∈ entries, ∃ validation ∈ entry.validations, rule ∈ validation.rules) :
    (entries.foldl add builder).Holds rule := by
  induction entries generalizing builder with
  | nil => exact h.resolve_right fun ⟨_, hmem, _⟩ => nomatch hmem
  | cons entry entries ih =>
    refine ih ?_
    obtain h | ⟨entry', hmem, hrule⟩ := h
    · exact .inl (holds_add (.inl h))
    · obtain rfl | hmem := mem_cons.mp hmem
      · exact .inl (holds_add (.inr hrule))
      · exact .inr ⟨entry', hmem, hrule⟩

end

/-! ## Files -/

variable {env : Env A} {filled : PolicyBuilder A} {contents : Str}

/-- **A file succeeds** if its calls do and its examples are as they should be.  Of what the builder
holds already, only the paths of host executables matter. -/
theorem parse_eq_ok_iff {builder id} :
    builder.parse env id contents = .ok filled ↔
      ∃ entries, readFile env id contents = .ok entries ∧ entries.foldl add builder = filled ∧
        ∀ validation ∈ entries.flatMap Entry.validations,
          validation.validate env filled.hostExecutablesByName = .ok () := by
  rw [parse]
  obtain error | entries := readFile env id contents
  · exact iff_of_false (fun h => nomatch h) fun ⟨_, h, _⟩ => nomatch h
  have hdrop : (entries.foldl add builder).pendingExampleValidations.drop
      builder.pendingExampleValidations.length = entries.flatMap Entry.validations := by
    rw [foldl_add_pending, drop_left]
  have hcheck : (entries.foldl add builder).validatePendingExamplesFrom env
      builder.pendingExampleValidations.length = .ok () ↔
      ∀ validation ∈ entries.flatMap Entry.validations, validation.validate env
        (entries.foldl add builder).hostExecutablesByName = .ok () := by
    rw [validatePendingExamplesFrom, hdrop, forM_eq_ok_iff]
  show ((entries.foldl add builder).validatePendingExamplesFrom env
    builder.pendingExampleValidations.length >>= fun _ => pure (entries.foldl add builder)) =
      .ok filled ↔ _
  constructor
  · intro h
    rcases hvalid : (entries.foldl add builder).validatePendingExamplesFrom env
      builder.pendingExampleValidations.length with error | ⟨⟩
    · rw [hvalid] at h
      cases h
    · rw [hvalid] at h
      cases h
      exact ⟨entries, rfl, rfl, hcheck.mp hvalid⟩
  · rintro ⟨_, hentries, rfl, hvalid⟩
    cases hentries
    rw [hcheck.mpr hvalid]
    rfl

variable {rule : PrefixRule}

/-- **A file is read with either builder**, or with neither. -/
theorem Gains.parse {b b'} (h : Gains rule b b') {id}
    (hparse : b.parse env id contents = .ok filled) :
    ∃ filled', b'.parse env id contents = .ok filled' ∧ Gains rule filled filled' := by
  obtain ⟨entries, hentries, rfl, hvalid⟩ := parse_eq_ok_iff.mp hparse
  have hfilled := h.foldl_add entries
  refine ⟨_, parse_eq_ok_iff.mpr ⟨entries, hentries, rfl, ?_⟩, hfilled⟩
  rwa [hfilled.hosts]

lemma Holds.parse {builder : PolicyBuilder A} (h : builder.Holds rule) {id}
    (hparse : builder.parse env id contents = .ok filled) :
    filled.Holds rule := by
  obtain ⟨entries, -, rfl, -⟩ := parse_eq_ok_iff.mp hparse
  exact holds_foldl_add (.inl h)

end PolicyBuilder

end ExecPolicy
