import CodexAgents.Lib.Outcome
import CodexAgents.NetworkProxy.Policy

/-!
# Managed constraints on a configuration

`validate_policy_against_constraints` of `network-proxy/src/state.rs`: a configuration of the proxy
is checked against the constraints of a managed one, field by field.  The domains of a configuration
are entries with a permission, the strongest of which counts for each pattern (`effectiveEntries`).

Checks of MITM hooks and the debug format of lists are parameters (`Checks`).
-/

namespace NetworkProxy

open Text

/-! ## Configurations -/

/-- In the order in which they prevail over each other for one pattern. -/
inductive NetworkDomainPermission where
  | none
  | allow
  | deny
  deriving DecidableEq

namespace NetworkDomainPermission

/-- The order of permissions: of several for one pattern, the highest counts. -/
def rank : NetworkDomainPermission → Nat
  | none => 0
  | allow => 1
  | deny => 2

end NetworkDomainPermission

/-- A pattern for hosts, and what it says about them. -/
structure NetworkDomainPermissionEntry where
  pattern : Str
  permission : NetworkDomainPermission
  deriving DecidableEq

/-- The entry for a pattern that was met before keeps its place, with the stronger permission. -/
def recordPermission : List NetworkDomainPermissionEntry → NetworkDomainPermissionEntry →
    List NetworkDomainPermissionEntry
  | [], entry => [entry]
  | kept :: rest, entry =>
    if kept.pattern = entry.pattern then
      (if kept.permission.rank < entry.permission.rank then
        { kept with permission := entry.permission } else kept) :: rest
    else kept :: recordPermission rest entry

/-- One entry for each pattern. -/
def effectiveEntries (entries : List NetworkDomainPermissionEntry) :
    List NetworkDomainPermissionEntry :=
  entries.foldl recordPermission []

/-- What is said about a socket. -/
inductive NetworkUnixSocketPermission where
  | allow
  | deny
  deriving DecidableEq

/-- How much of the network can be used: only requests that read, or all. -/
inductive NetworkMode where
  | limited
  | full
  deriving DecidableEq

/-- The order of the modes, from the strictest. -/
def networkModeRank : NetworkMode → Nat
  | .limited => 0
  | .full => 1

/-- The name of a mode in error messages. -/
def NetworkMode.debug : NetworkMode → Str
  | .limited => "Limited"
  | .full => "Full"

/-- The fields that are checked.  Hooks are of a type that is not looked into. -/
structure NetworkProxyConfig (Hooks : Type) where
  enabled : Bool := false
  allowUpstreamProxy : Bool := true
  dangerouslyAllowNonLoopbackProxy : Bool := false
  dangerouslyAllowAllUnixSockets : Bool := false
  mode : NetworkMode := .full
  domains : Option (List NetworkDomainPermissionEntry) := none
  unixSockets : Option (List (Str × NetworkUnixSocketPermission)) := none
  allowLocalBinding : Bool := false
  mitmHooks : Hooks

/-- What the managed settings allow; nothing is required by a field that is not set. -/
structure NetworkProxyConstraints where
  enabled : Option Bool := none
  mode : Option NetworkMode := none
  allowUpstreamProxy : Option Bool := none
  dangerouslyAllowNonLoopbackProxy : Option Bool := none
  dangerouslyAllowAllUnixSockets : Option Bool := none
  allowedDomains : Option (List Str) := none
  allowlistExpansionEnabled : Option Bool := none
  deniedDomains : Option (List Str) := none
  denylistExpansionEnabled : Option Bool := none
  allowUnixSockets : Option (List Str) := none
  allowLocalBinding : Option Bool := none
  deriving DecidableEq

section

variable {Hooks : Type}

namespace NetworkProxyConfig

variable (config : NetworkProxyConfig Hooks)

/-- The patterns with a permission, unless there are none. -/
def domainEntries (permission : NetworkDomainPermission) : Option (List Str) :=
  (config.domains.map fun domains =>
    ((effectiveEntries domains).filter fun entry => entry.permission = permission).map
      (·.pattern)).filter (· ≠ [])

/-- The patterns that are allowed. -/
def allowedDomains : Option (List Str) := config.domainEntries .allow

/-- The patterns that are denied. -/
def deniedDomains : Option (List Str) := config.domainEntries .deny

/-- The sockets that are allowed. -/
def allowUnixSockets : List Str :=
  ((config.unixSockets.getD []).filter fun entry => entry.2 = .allow).map Prod.fst

end NetworkProxyConfig

/-! ## Checks -/

/-- The value of a field that is not allowed, and what is. -/
structure NetworkProxyConstraintError where
  fieldName : Str
  candidate : Str
  allowed : Str

/-- The checks that are left open. -/
structure Checks (Hooks : Type) where
  /-- `validate_mitm_hook_config`, with the text of its error. -/
  validateMitmHookConfig : NetworkProxyConfig Hooks → Except Str Unit
  /-- The debug format of a list of strings. -/
  debugStrings : List Str → Str

/-- The result of a check. -/
abbrev Validated := Except NetworkProxyConstraintError Unit

/-- The error for one value. -/
def invalidValue (fieldName candidate allowed : String) : Validated :=
  .error ⟨fieldName.toList, candidate.toList, allowed.toList⟩

/-- No pattern is for all hosts. -/
def validateNonGlobalWildcardDomainPatterns (net : Net) (fieldName : Str) (patterns : List Str) :
    Validated :=
  match patterns.find? (isGlobalWildcardDomainPattern net) with
  | some pattern => .error ⟨fieldName, trim pattern,
      "exact hosts or scoped wildcards like *.example.com or **.example.com"⟩
  | none => .ok ()

/-- A switch that the constraints may turn off. -/
def validateSwitch (fieldName : String) (candidate allowed : Bool) : Validated :=
  if candidate && !allowed then invalidValue fieldName "true" "false (disabled by managed config)"
  else .ok ()

/-- The set of entries in lower case.  The source leaves the order of its elements open. -/
def toSet (entries : List Str) : List Str := (entries.map toAsciiLowercase).dedup

/-- The same texts, in any order and number. -/
def sameSet (left right : List Str) : Bool := left.all (· ∈ right) && right.all (· ∈ left)

variable (net : Net) (checks : Checks Hooks) (config : NetworkProxyConfig Hooks)
  (constraints : NetworkProxyConstraints)

/-- The allowed patterns, none by default. -/
def configAllowedDomains : List Str := config.allowedDomains.getD []

/-- The denied patterns, none by default. -/
def configDeniedDomains : List Str := config.deniedDomains.getD []

/-- The hooks are valid. -/
def validateMitmHooks : Validated :=
  (checks.validateMitmHookConfig config).mapError fun text =>
    ⟨"network.mitm_hooks", text, "valid MITM hook configuration"⟩

/-- The mode is not above the one that is allowed. -/
def validateMode : Validated :=
  match constraints.mode with
  | none => .ok ()
  | some maxMode =>
    if networkModeRank maxMode < networkModeRank config.mode then
      .error ⟨"network.mode", config.mode.debug,
        maxMode.debug ++ " or more restrictive"⟩
    else .ok ()

/-- `allowed_domains`: all of the managed ones if they may be added to, just these if they may not,
and otherwise only such as one of these allows. -/
def validateAllowedDomains : Validated :=
  match constraints.allowedDomains with
  | none => .ok ()
  | some allowedDomains => do
    validateNonGlobalWildcardDomainPatterns net "network.allowed_domains" allowedDomains
    let candidate := configAllowedDomains config
    let deniedDomainOverrides := toSet (configDeniedDomains config)
    match constraints.allowlistExpansionEnabled with
    | some true =>
      let missing := (toSet allowedDomains).filter fun entry =>
        entry ∉ toSet candidate ∧ entry ∉ deniedDomainOverrides
      if missing = [] then .ok ()
      else .error ⟨"network.allowed_domains",
        "missing managed allowed_domains entries", checks.debugStrings missing⟩
    | some false =>
      let expectedSet := (toSet allowedDomains).filter fun entry => entry ∉ deniedDomainOverrides
      if sameSet (toSet candidate) expectedSet then .ok ()
      else .error ⟨"network.allowed_domains", checks.debugStrings candidate,
        "must match managed allowed_domains"⟩
    | none =>
      let managedPatterns := allowedDomains.map (DomainPattern.parseForConstraints net)
      let invalid := candidate.filter fun entry =>
        !managedPatterns.any fun managed =>
          managed.allows (DomainPattern.parseForConstraints net entry)
      if invalid = [] then .ok ()
      else .error ⟨"network.allowed_domains", checks.debugStrings invalid,
        "subset of managed allowed_domains"⟩

/-- All patterns of the managed denylist are denied, and no others where it is fixed. -/
def validateDeniedDomains : Validated :=
  match constraints.deniedDomains with
  | none => .ok ()
  | some deniedDomains => do
    validateNonGlobalWildcardDomainPatterns net "network.denied_domains" deniedDomains
    let candidate := configDeniedDomains config
    match constraints.denylistExpansionEnabled with
    | some false =>
      if sameSet (toSet candidate) (toSet deniedDomains) then .ok ()
      else .error ⟨"network.denied_domains", checks.debugStrings candidate,
        "must match managed denied_domains"⟩
    | _ =>
      let missing := (toSet deniedDomains).filter fun entry => entry ∉ toSet candidate
      if missing = [] then .ok ()
      else .error ⟨"network.denied_domains",
        "missing managed denied_domains entries", checks.debugStrings missing⟩

/-- The allowed sockets are among those of the managed settings, up to case. -/
def validateUnixSockets : Validated :=
  match constraints.allowUnixSockets with
  | none => .ok ()
  | some allowUnixSockets =>
    let invalid := config.allowUnixSockets.filter fun entry =>
      toAsciiLowercase entry ∉ toSet allowUnixSockets
    if invalid = [] then .ok ()
    else .error ⟨"network.allow_unix_sockets", checks.debugStrings invalid,
      "subset of managed allow_unix_sockets"⟩

/-- All checks, in the order of the source. -/
def validatePolicyAgainstConstraints : Validated := do
  validateMitmHooks checks config
  validateNonGlobalWildcardDomainPatterns net "network.denied_domains"
    (configDeniedDomains config)
  validateSwitch "network.enabled" config.enabled (constraints.enabled.getD true)
  validateMode config constraints
  validateSwitch "network.allow_upstream_proxy" config.allowUpstreamProxy
    (constraints.allowUpstreamProxy.getD true)
  validateSwitch "network.dangerously_allow_non_loopback_proxy"
    config.dangerouslyAllowNonLoopbackProxy
    (constraints.dangerouslyAllowNonLoopbackProxy.getD true)
  validateSwitch "network.dangerously_allow_all_unix_sockets" config.dangerouslyAllowAllUnixSockets
    (constraints.dangerouslyAllowAllUnixSockets.getD constraints.allowUnixSockets.isNone)
  validateSwitch "network.allow_local_binding" config.allowLocalBinding
    (constraints.allowLocalBinding.getD true)
  validateAllowedDomains net checks config constraints
  validateDeniedDomains net checks config constraints
  validateUnixSockets checks config constraints

end

/-! ## An environment -/

/-- Hosts are those of URLs without a port. -/
def plainNet : Net where
  parseIpAddr _ := none
  parseUrlHost host := if ':' ∈ host then none else some (toAsciiLowercase host)
  buildGlob pattern := some fun host =>
    Wildcard.isMatch (globTokens (toAsciiLowercase pattern)) (toAsciiLowercase host)
  buildGlob_usual _ _ := rfl

/-- Checks that find nothing. -/
def plainChecks : Checks Unit where
  validateMitmHookConfig _ := .ok ()
  debugStrings _ := []

end NetworkProxy
