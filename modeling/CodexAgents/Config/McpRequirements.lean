import CodexAgents.Lib.Toml

/-!
# Requirements for MCP servers

`config/src/mcp_requirements.rs`.  A requirement for a server names its command or its URL, as a
text or with a matcher.  The alternatives are not tagged: they are tried in order, and the first one
that can be read is taken.  Those with a text ignore other keys, those with a matcher refuse them.

Regular expressions are a parameter.
-/

namespace Config

open Text Toml Assoc

/-- The command or the address that a server has to have. -/
inductive McpServerIdentity where
  | command (command : Str)
  | url (url : Str)

/-- What a text has to be. -/
inductive McpServerValueMatcher where
  | exact (value : Str)
  | prefixed (value : Str)
  | regex (expression : Str)

/-- What a command has to be, with one matcher for each argument. -/
structure McpServerCommandMatcher where
  executable : Str
  args : List McpServerValueMatcher

/-- What a server has to be. -/
inductive McpServerRequirement where
  | identity (identity : McpServerIdentity)
  | command (matcher : McpServerCommandMatcher)
  | url (matcher : McpServerValueMatcher)

/-! ## Matching -/

/-- What of a server configuration is compared. -/
inductive McpServerTransportConfig where
  | stdio (command : Str) (args : List Str)
  | streamableHttp (url : Str)

section

-- whether a text is matched as a whole by an expression that can be compiled
variable (isFullMatch : Str → Str → Bool)

/-- The text is as the matcher says. -/
def McpServerValueMatcher.matchesText (candidate : Str) : McpServerValueMatcher → Bool
  | exact value => candidate = value
  | prefixed value => startsWith candidate value
  | regex expression => isFullMatch expression candidate

/-- The server is as it has to be. -/
def McpServerRequirement.accepts : McpServerRequirement → McpServerTransportConfig → Bool
  | identity (.command wantCommand), .stdio gotCommand _ => gotCommand = wantCommand
  | identity (.url wantUrl), .streamableHttp gotUrl => gotUrl = wantUrl
  | command matcher, .stdio got args =>
    matcher.executable = got && matcher.args.length = args.length &&
      (matcher.args.zip args).all fun (matcher, arg) => matcher.matchesText isFullMatch arg
  | url matcher, .streamableHttp got => matcher.matchesText isFullMatch got
  | _, _ => false

end

/-! ## Reading -/

/-- The text under a key. -/
def textAt (k : Str) (t : Table) : Option Str := (get k t).bind Value.asString

/-- No other keys than these (`deny_unknown_fields`). -/
def onlyKeys (names : List Str) (t : Table) : Prop := ∀ k ∈ keys t, k ∈ names

instance (names : List Str) (t : Table) : Decidable (onlyKeys names t) := by
  unfold onlyKeys
  infer_instance

def commandKey : Str := "command"

def urlKey : Str := "url"

def identityKey : Str := "identity"

def matchKey : Str := "match"

def valueKey : Str := "value"

def expressionKey : Str := "expression"

def executableKey : Str := "executable"

def argsKey : Str := "args"

/-- The command is looked at first. -/
def readMcpServerIdentity : Value → Option McpServerIdentity
  | .table t =>
    if (keys t).Nodup then
      ((textAt commandKey t).map .command).or ((textAt urlKey t).map .url)
    else none
  | _ => none

/-- The key that goes with the kind of a match, and the matcher. -/
def matcherOfTag (tag : Str) : Option (Str × (Str → McpServerValueMatcher)) :=
  if tag = "exact" then some (valueKey, .exact)
  else if tag = "prefix" then some (valueKey, .prefixed)
  else if tag = "regex" then some (expressionKey, .regex)
  else none

/-- The tag says what else is in the table. -/
def readMcpServerValueMatcher : Value → Option McpServerValueMatcher
  | .table t =>
    if (keys t).Nodup then
      (textAt matchKey t).bind fun tag => (matcherOfTag tag).bind fun m =>
        if onlyKeys [matchKey, m.1] t then (textAt m.1 t).map m.2 else none
    else none
  | .array [.string tag, .string argument] => (matcherOfTag tag).map fun m => m.2 argument
  | _ => none

/-- A list of matchers. -/
def readMatchers : Value → Option (List McpServerValueMatcher)
  | .array items => items.mapM readMcpServerValueMatcher
  | _ => none

/-- A matcher for a command, without other keys. -/
def readMcpServerCommandMatcher : Value → Option McpServerCommandMatcher
  | .table t =>
    if (keys t).Nodup ∧ onlyKeys [executableKey, argsKey] t then
      (textAt executableKey t).bind fun executable =>
        ((get argsKey t).bind readMatchers).map fun args => ⟨executable, args⟩
    else none
  | .array [.string executable, args] => (readMatchers args).map fun args => ⟨executable, args⟩
  | _ => none

/-- A structure with one field and no other keys. -/
def readOnly {α : Type} (k : Str) (read : Value → Option α) : Value → Option α
  | .table t => if (keys t).Nodup ∧ onlyKeys [k] t then (get k t).bind read else none
  | .array [v] => read v
  | _ => none

/-- The alternatives, in the order in which they are tried. -/
def readRawMcpServerIdentity (v : Value) : Option McpServerRequirement :=
  ((readMcpServerIdentity v).map .identity).or
    (((readOnly commandKey readMcpServerCommandMatcher v).map .command).or
      ((readOnly urlKey readMcpServerValueMatcher v).map .url))

/-- The identity that is given for a server, next to keys that are ignored. -/
def identityOf : Value → Option Value
  | .table t => if (keys t).Nodup then get identityKey t else none
  | .array [v] => some v
  | _ => none

/-- The requirement in a table for a server. -/
def readMcpServerRequirement (v : Value) : Option McpServerRequirement :=
  (identityOf v).bind readRawMcpServerIdentity

end Config
