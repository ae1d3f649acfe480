import CodexAgents.Config.McpRequirements

/-!
# What a layer of requirements may say

`ConfigRequirementsToml` of `config/src/config_requirements.rs` with the types of its fields, as
what is read from TOML.  The fields are kept in the order of the declarations, because a structure
can also be written as an array.

Managed hooks, rules and patterns of paths that must not be read are taken out of a layer before it
is merged; how they are read is a parameter, and so is how a path becomes absolute (`Platform`).
-/

namespace Config

open Text Toml

/-! ## Hooks -/

/-- The events that have hooks. -/
inductive HookEventName where
  | preToolUse
  | permissionRequest
  | postToolUse
  | preCompact
  | postCompact
  | sessionStart
  | sessionEnd
  | userPromptSubmit
  | subagentStart
  | subagentStop
  | stop

namespace HookEventName

/-- All of them. -/
def all : List HookEventName :=
  [preToolUse, permissionRequest, postToolUse, preCompact, postCompact, sessionStart, sessionEnd,
    userPromptSubmit, subagentStart, subagentStop, stop]

end HookEventName

/-- The groups of handlers of each event. -/
def HookEventsToml := HookEventName → List Value

/-- There is no hook for any event. -/
def HookEventsToml.isEmpty (hooks : HookEventsToml) : Bool :=
  HookEventName.all.all fun event => (hooks event).isEmpty

/-- The hooks, and where they are on each platform. -/
structure ManagedHooksRequirementsToml where
  managedDir : Option Str
  windowsManagedDir : Option Str
  hooks : HookEventsToml

/-- Nothing is set. -/
def ManagedHooksRequirementsToml.isEmpty (hooks : ManagedHooksRequirementsToml) : Bool :=
  hooks.managedDir.isNone && hooks.windowsManagedDir.isNone && hooks.hooks.isEmpty

/-- What is not of this module. -/
structure Platform where
  /-- `AbsolutePathBuf::deserialize` with or without a base, and the text of the path. -/
  absolutePath : Option Str → Str → Option Str
  /-- An absolute path needs no base. -/
  absolutePath_absolute : ∀ base text path, absolutePath base text = some path →
    (absolutePath none path).isSome = true
  /-- `FilesystemDenyReadPattern::from_input`. -/
  denyReadPattern : Option Str → Str → Bool
  /-- `ManagedHooksRequirementsToml::deserialize`. -/
  hooks : Value → Option ManagedHooksRequirementsToml
  /-- `RequirementsExecPolicyToml::deserialize`. -/
  rules : Reader
  /-- `hostname_matches_any_pattern`. -/
  hostnameMatchesAnyPattern : Str → List Str → Bool

/-! ## Single settings -/

/-- A policy for approvals, by its name or with switches. -/
def askForApproval (v : Value) : Bool :=
  oneOf ["untrusted", "on-request", "on-failure", "never"] v ||
    match v with
    | .table [(variant, config)] =>
      variant = "granular" &&
        struct [.mandatory "sandbox_approval" bool, .mandatory "rules" bool,
          .default "skill_approval" bool, .default "request_permissions" bool,
          .mandatory "mcp_elicitations" bool] anything config
    | _ => false

/-- The names of the sandbox modes. -/
def sandboxModeNames : List String :=
  ["read-only", "workspace-write", "danger-full-access", "external-sandbox"]

/-- A sandbox mode. -/
def sandboxModeRequirement : Reader := oneOf sandboxModeNames

/-- The modes for some hosts. -/
def remoteSandboxConfigToml : Reader :=
  struct [.mandatory "hostname_patterns" (list str),
    .mandatory "allowed_sandbox_modes" (list sandboxModeRequirement)] anything

/-- The settings for feedback. -/
def feedbackConfigToml : Reader := struct [.optional "enabled" bool] anything

/-- What is required of the use of the computer. -/
def computerUseRequirementsToml : Reader :=
  struct [.optional "allow_locked_computer_use" bool] anything

/-- What is required of the use of the browser. -/
def browserUseRequirementsToml : Reader := struct [.optional "disable_auto_review" bool] anything

/-- What is required on Windows. -/
def windowsRequirementsToml : Reader :=
  struct [.optional "allowed_sandbox_implementations" (list (oneOf ["elevated", "unelevated"])),
    .optional "sandbox_private_desktop" bool] anything

/-- A switch for each feature. -/
def featureRequirementsToml : Reader := flattened [] bool

/-- Where plugins may come from. -/
def marketplaceAllowedSourceToml : Reader :=
  struct [.optional "source" (oneOf ["git", "host_pattern", "local"]), .optional "url" str,
    .optional "ref" str, .optional "host_pattern" str, .optional "path" str] nothing

/-- What is required of marketplaces. -/
def marketplaceRequirementsToml : Reader :=
  struct [.optional "restrict_to_allowed_sources" bool,
    .default "allowed_sources" (map marketplaceAllowedSourceToml)] nothing

/-- How a tool of an app is approved. -/
def appToolRequirementToml : Reader :=
  struct [.optional "approval_mode" (oneOf ["auto", "prompt", "writes", "approve"])] anything

/-- What is required of an app. -/
def appRequirementToml : Reader :=
  struct [.optional "enabled" bool, .optional "tools" (flattened [] appToolRequirementToml)]
    anything

/-- What is required of all apps. -/
def appsRequirementsToml : Reader := flattened [] appRequirementToml

/-- What is required of reviews. -/
def autoReviewRequirementsToml : Reader :=
  struct [.optional "required_on_models" (list str), .optional "ignore_rules" (list str)] anything

/-- Any name but the empty one. -/
def reasoningEffort : Reader := text fun s => !s.isEmpty

/-- The defaults for new threads. -/
def newThreadModelDefaultsToml : Reader :=
  struct [.optional "model" str, .optional "model_reasoning_effort" reasoningEffort,
    .optional "service_tier" str] anything

/-- What is required of models. -/
def modelsRequirementsToml : Reader :=
  struct [.optional "new_thread" newThreadModelDefaultsToml] anything

/-! ## Network -/

/-- A permission for a domain or a socket. -/
def allowOrDeny : Reader := oneOf ["allow", "deny"]

/-- The fields for the network, as they are written. -/
def rawNetworkRequirementsToml : Reader :=
  struct [.optional "enabled" bool, .optional "http_port" (below (2 ^ 16)),
    .optional "socks_port" (below (2 ^ 16)), .optional "allow_upstream_proxy" bool,
    .optional "dangerously_allow_non_loopback_proxy" bool,
    .optional "dangerously_allow_all_unix_sockets" bool,
    .optional "domains" (flattened [] allowOrDeny), .default "allowed_domains" (list str),
    .optional "managed_allowed_domains_only" bool, .default "denied_domains" (list str),
    .optional "unix_sockets" (flattened [] allowOrDeny), .default "allow_unix_sockets" (list str),
    .optional "allow_local_binding" bool] anything

/-- The canonical maps are not combined with the legacy lists.  An array would have all of them. -/
def spelledOnce : Value → Bool
  | .table t =>
    !(Assoc.has "domains".toList t &&
        (Assoc.has "allowed_domains".toList t || Assoc.has "denied_domains".toList t)) &&
      !(Assoc.has "unix_sockets".toList t && Assoc.has "allow_unix_sockets".toList t)
  | _ => false

/-- A list can be written in one way only. -/
def networkRequirementsToml : Reader := fun v => rawNetworkRequirementsToml v && spelledOnce v

/-! ## Permissions -/

/-- An access to files. -/
def fileSystemAccessMode : Reader := oneOf ["read", "write", "deny", "none"]

/-- One access, or one for each path below. -/
def filesystemPermissionToml : Reader :=
  fun v => fileSystemAccessMode v || map fileSystemAccessMode v

/-- The accesses of a profile. -/
def filesystemPermissionsToml : Reader :=
  flattened [.optional "glob_scan_max_depth" (below (2 ^ 64))] filesystemPermissionToml

/-- An array that is not empty. -/
def nonEmpty : Reader
  | .array items => !items.isEmpty
  | _ => false

/-- A hook for requests. -/
def networkMitmHookToml : Reader :=
  struct [.mandatory "host" str, .mandatory "methods" (list str),
    .mandatory "path_prefixes" (list str), .default "query" (map (list str)),
    .default "headers" (map (list str)), .optional "body" anything,
    .mandatory "action" fun v => list str v && nonEmpty v] anything

/-- A header that a hook adds. -/
def networkMitmInjectedHeaderToml : Reader :=
  struct [.default "name" str, .default "secret_env_var" str, .default "secret_file" str,
    .default "prefix" str] anything

/-- There is something to do. -/
def hasOperation : Value → Bool
  | .table t =>
    (Assoc.get "strip_request_headers".toList t).any nonEmpty ||
      (Assoc.get "inject_request_headers".toList t).any nonEmpty
  | .array items => items.any nonEmpty
  | _ => false

/-- What a hook does, which must be something. -/
def networkMitmActionToml : Reader := fun v =>
  struct [.default "strip_request_headers" (list str),
    .default "inject_request_headers" (list networkMitmInjectedHeaderToml)] anything v &&
    hasOperation v

/-- With `validate_action_definitions`. -/
def networkMitmToml : Reader :=
  struct [.optional "hooks" (map networkMitmHookToml),
    .optional "actions" (map networkMitmActionToml)] nothing

/-- The network of a profile. -/
def networkToml : Reader :=
  struct [.optional "enabled" bool, .optional "proxy_url" str, .optional "enable_socks5" bool,
    .optional "socks_url" str, .optional "enable_socks5_udp" bool,
    .optional "allow_upstream_proxy" bool, .optional "dangerously_allow_non_loopback_proxy" bool,
    .optional "dangerously_allow_all_unix_sockets" bool,
    .optional "mode" (oneOf ["limited", "full"]), .optional "domains" (flattened [] allowOrDeny),
    .optional "unix_sockets" (flattened [] allowOrDeny), .optional "allow_local_binding" bool,
    .optional "mitm" networkMitmToml] anything

/-- A permission profile. -/
def permissionProfileToml : Reader :=
  struct [.optional "description" str, .optional "extends" str,
    .optional "workspace_roots" (flattened [] bool),
    .optional "filesystem" filesystemPermissionsToml, .optional "network" networkToml] anything

section

variable (p : Platform) (base : Option Str)

/-- Constraints of the requirements, which are not a profile. -/
def filesystemRequirementsToml : Reader :=
  struct [.optional "deny_read" (list (text (p.denyReadPattern base))),
    .optional "description" nothing, .optional "extends" nothing,
    .optional "workspace_roots" nothing, .optional "filesystem" nothing,
    .optional "network" nothing] anything

/-- What is required of files, and profiles by name. -/
def permissionsRequirementsToml : Reader :=
  flattened [.optional "filesystem" (filesystemRequirementsToml p base)] permissionProfileToml

/-- A path that can be made absolute. -/
def absolutePathBuf : Reader := text fun s => (p.absolutePath base s).isSome

/-! ## All fields -/

/-- The keys of the paths. -/
def pathKeys : List String := ["sqlite_home", "log_dir", "model_catalog_json"]

/-- The fields that depend on where the layer is. -/
def pathFields : List Field := pathKeys.map (.optional · (absolutePathBuf p base))

/-- The field for permissions. -/
def permissionsField : Field := .optional "permissions" (permissionsRequirementsToml p base)

/-- The fields that are not merged or that can be merged wrongly, with the readers of hooks, of a
requirement for a server, of rules and of a network. -/
def specialFields (hooks mcpServer rules network : Reader) : List Field :=
  [.optional "hooks" hooks,
    .optional "mcp_servers" (map mcpServer),
    .optional "plugins" (map (struct [.optional "mcp_servers" (map mcpServer)] anything)),
    .optional "rules" rules,
    .optional "experimental_network" network]

/-- The fields that do not depend on where the document is. -/
def plainFields : List Field :=
  [.optional "allowed_login_methods" (list (oneOf ["chatgpt", "api"])),
    .optional "allowed_chatgpt_workspaces" (list str),
    .optional "check_for_update_on_startup" bool,
    .optional "allow_login_shell" bool,
    .optional "feedback" feedbackConfigToml,
    .optional "allowed_approval_policies" (list askForApproval),
    .optional "allowed_approvals_reviewers"
      (list (oneOf ["user", "auto_review", "guardian_subagent"])),
    .optional "allowed_sandbox_modes" (list sandboxModeRequirement),
    .optional "allowed_permission_profiles" (map bool),
    .optional "default_permissions" str,
    .optional "remote_sandbox_config" (list remoteSandboxConfigToml),
    .optional "allowed_web_search_modes" (list (oneOf ["disabled", "cached", "indexed", "live"])),
    .optional "allow_managed_hooks_only" bool,
    .optional "allow_appshots" bool,
    .optional "allow_remote_control" bool,
    .optional "computer_use" computerUseRequirementsToml,
    .optional "browser_use" browserUseRequirementsToml,
    .optional "windows" windowsRequirementsToml,
    .optional "marketplaces" marketplaceRequirementsToml,
    .optional "apps" appsRequirementsToml,
    .optional "enforce_residency" (oneOf ["us"]),
    .optional "auto_review" autoReviewRequirementsToml,
    .optional "models" modelsRequirementsToml,
    .optional "guardian_policy_config" str]

/-- The features, which had another name. -/
def featuresField : Field :=
  (Field.optional "features" featureRequirementsToml).withAlias "feature_requirements"

/-- What can be read as a requirement for a server. -/
def mcpServerRequirement : Reader := fun v => (readMcpServerRequirement v).isSome

/-- The fields of the requirements.  Their order does not matter, because a document is a table. -/
def configRequirementsFields : List Field :=
  pathFields p base ++ permissionsField p base ::
    (specialFields (fun v => (p.hooks v).isSome) mcpServerRequirement p.rules
      networkRequirementsToml ++ featuresField :: plainFields)

/-- Whether a document can be read as requirements; other keys are ignored. -/
def configRequirementsToml (t : Table) : Bool :=
  fieldsOf (configRequirementsFields p base) anything t

end

end Config
