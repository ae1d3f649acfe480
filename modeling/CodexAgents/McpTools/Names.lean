import CodexAgents.Lib.Text
import CodexAgents.Lib.Fresh

/-!
# Names of MCP tools for the model

`codex-mcp/src/tools.rs`.  A tool of an MCP server is offered to the model under a namespace and a
name.  Both are sanitised.  Namespaces that then coincide get a hash of what they were, and so do
tools; and a name that is too long or in use is cut and gets a hash, with further attempts if that
is in use as well.

Of a tool, only what its names are made of is kept.  SHA-1 is a parameter.
-/

namespace McpTools

open Text

/-- The digits of `sha1_hex`. -/
structure Sha1 where
  hex : Str → Str
  length_hex : ∀ s, (hex s).length = 40
  digit : ∀ s, ∀ c ∈ hex s, c ∈ "0123456789abcdef".toList

/-- A tool of a server. -/
structure ToolInfo where
  serverName : Str
  callableName : Str
  callableNamespace : Str
  toolName : Str
  connectorId : Option Str

/-- What stands between the parts. -/
def mcpToolNameDelimiter : Str := "__"

/-- What the names of tools began with. -/
def legacyMcpToolNamePrefix : Str := "mcp__"

/-- How long a name can be. -/
def maxToolNameLength : Nat := 64

/-- How many digits of a hash are used. -/
def callableNameHashLen : Nat := 12

/-! ## Parts of a name -/

/-- The characters of names. -/
def isAllowed (c : Char) : Bool := c.isAlphanum || c = '_'

/-- Other characters become underscores. -/
def sanitizeResponsesApiToolName (name : Str) : Str :=
  let sanitized := name.map fun c => if isAllowed c then c else '_'
  if sanitized = [] then ['_'] else sanitized

/-- The old beginning, unless it is there or not wanted. -/
def callableNamespaceWithPrefix (ns : Str) (prefixMcpToolNames : Bool) : Str :=
  if !prefixMcpToolNames || startsWith ns legacyMcpToolNamePrefix then ns
  else legacyMcpToolNamePrefix ++ ns

variable (sha : Sha1)

/-- The first digits of the hash. -/
def callableNameHashSuffix (rawIdentity : Str) : Str :=
  '_' :: (sha.hex rawIdentity).take callableNameHashLen

/-- A name with its hash. -/
def appendHashSuffix (value rawIdentity : Str) : Str :=
  value ++ callableNameHashSuffix sha rawIdentity

/-- The hash goes before a delimiter at the end. -/
def appendNamespaceHashSuffix (ns rawIdentity : Str) : Str :=
  if mcpToolNameDelimiter <:+ ns then
    ns.take (ns.length - mcpToolNameDelimiter.length) ++ callableNameHashSuffix sha rawIdentity ++
      mcpToolNameDelimiter
  else appendHashSuffix sha ns rawIdentity

/-- The beginning of a name. -/
def truncateName (value : Str) (maxLen : Nat) : Str := value.take maxLen

/-- The parts are cut so that they fit with the hash. -/
def fitCallablePartsWithHash (ns toolName rawIdentity : Str) (reservedLen : Nat) : Str × Str :=
  let suffix := callableNameHashSuffix sha rawIdentity
  let maxToolLen := maxToolNameLength - (byteLen ns + reservedLen)
  if byteLen suffix ≤ maxToolLen then
    (ns, truncateName toolName (maxToolLen - byteLen suffix) ++ suffix)
  else (truncateName ns (maxToolNameLength - (byteLen suffix + reservedLen)), suffix)

/-- What is hashed in an attempt. -/
def hashInput (rawIdentity : Str) (attempt : Nat) : Str :=
  if attempt = 0 then rawIdentity else rawIdentity ++ '\x00' :: natText attempt

/-- How often a name is tried.  The counter of the source stops at `u32::MAX`, where the same name
is tried for ever; that the number of names in use goes beyond it is left out. -/
def maxAttempts (usedNames : List Str) : Nat := max (2 ^ 32) (usedNames.length + 1)

/-- The namespace and the name, if there is an attempt that is not in use. -/
def uniqueCallableParts (ns toolName rawIdentity : Str) (usedNames : List Str) (reservedLen : Nat) :
    Option (Str × Str) :=
  if byteLen (ns ++ toolName) + reservedLen ≤ maxToolNameLength ∧ ns ++ toolName ∉ usedNames then
    some (ns, toolName)
  else
    let parts := fun attempt =>
      fitCallablePartsWithHash sha ns toolName (hashInput rawIdentity attempt) reservedLen
    (Fresh.first usedNames (fun attempt => (parts attempt).1 ++ (parts attempt).2)
      (maxAttempts usedNames)).map parts

/-! ## Candidates -/

/-- A `CallableToolCandidate`, without its tool. -/
structure Naming where
  rawNamespaceIdentity : Str
  rawToolIdentity : Str
  callableNamespace : Str
  callableName : Str

namespace ToolInfo

variable (t : ToolInfo)

/-- What tells namespaces apart. -/
def rawNamespaceIdentity : Str :=
  t.serverName ++ '\x00' :: t.callableNamespace ++ '\x00' :: t.connectorId.getD []

/-- What tells tools apart. -/
def rawToolIdentity : Str :=
  t.rawNamespaceIdentity ++ '\x00' :: t.callableName ++ '\x00' :: t.toolName

/-- The names that a tool begins with. -/
def naming (prefixMcpToolNames : Bool) (nonPrefixedMcpToolServers : List Str) : Naming where
  rawNamespaceIdentity := t.rawNamespaceIdentity
  rawToolIdentity := t.rawToolIdentity
  callableNamespace :=
    callableNamespaceWithPrefix (sanitizeResponsesApiToolName t.callableNamespace)
      (prefixMcpToolNames && !nonPrefixedMcpToolServers.contains t.serverName)
  callableName := sanitizeResponsesApiToolName t.callableName

end ToolInfo

/-- Tools of which the identity was seen are skipped. -/
def firstSeen (seenRawNames : List Str) : List ToolInfo → List ToolInfo
  | [] => []
  | t :: tools =>
    if t.rawToolIdentity ∈ seenRawNames then firstSeen seenRawNames tools
    else t :: firstSeen (t.rawToolIdentity :: seenRawNames) tools

/-- A base that stands for several identities. -/
def collides {β : Type} [DecidableEq β] (base : Naming → β) (identity : Naming → Str)
    (candidates : List Naming) (b : β) : Bool :=
  1 < ((candidates.filter fun c => base c = b).map identity).dedup.length

section

/-- Namespaces that look the same get a hash. -/
def hashNamespace (candidates : List Naming) (c : Naming) : Naming :=
  if collides Naming.callableNamespace Naming.rawNamespaceIdentity candidates
      c.callableNamespace then
    { c with
      callableNamespace :=
        appendNamespaceHashSuffix sha c.callableNamespace c.rawNamespaceIdentity }
  else c

/-- Tools that look the same get a hash. -/
def hashTool (candidates : List Naming) (c : Naming) : Naming :=
  if collides (fun c => (c.callableNamespace, c.callableName)) Naming.rawToolIdentity candidates
      (c.callableNamespace, c.callableName) then
    { c with callableName := appendHashSuffix sha c.callableName c.rawToolIdentity }
  else c

/-- The names of the candidates, one after the other. -/
def assignNames (usedNames : List Str) : List Naming → Option (List (Str × Str))
  | [] => some []
  | c :: candidates => do
    let parts ← uniqueCallableParts sha c.callableNamespace c.callableName c.rawToolIdentity
      usedNames mcpToolNameDelimiter.length
    let rest ← assignNames ((parts.1 ++ parts.2) :: usedNames) candidates
    some (parts :: rest)

variable (prefixMcpToolNames : Bool) (nonPrefixedMcpToolServers : List Str)

/-- The candidates in the order in which they are named. -/
def orderedCandidates (tools : List ToolInfo) : List (Naming × ToolInfo) :=
  let candidates := (firstSeen [] tools).map fun t =>
    (t.naming prefixMcpToolNames nonPrefixedMcpToolServers, t)
  let candidates := candidates.map fun c => (hashNamespace sha (candidates.map Prod.fst) c.1, c.2)
  let candidates := candidates.map fun c => (hashTool sha (candidates.map Prod.fst) c.1, c.2)
  candidates.insertionSort fun a b => a.1.rawToolIdentity ≤ b.1.rawToolIdentity

/-- The tools that are kept, each with its namespace and its name for the model. -/
def namedTools (tools : List ToolInfo) : Option (List (ToolInfo × Str × Str)) :=
  let candidates := orderedCandidates sha prefixMcpToolNames nonPrefixedMcpToolServers tools
  (assignNames sha [] (candidates.map Prod.fst)).map fun names =>
    (candidates.map Prod.snd).zip names

/-- Nothing, if the attempts to find a name do not end. -/
def normalizeToolsForModelWithPrefix (tools : List ToolInfo) : Option (List ToolInfo) :=
  (namedTools sha prefixMcpToolNames nonPrefixedMcpToolServers tools).map fun named =>
    named.map fun (t, ns, name) => { t with callableNamespace := ns, callableName := name }

end

end McpTools
