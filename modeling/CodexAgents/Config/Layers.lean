import CodexAgents.Config.Merge
import CodexAgents.Config.Requirements

/-!
# Layers of requirements

`config/src/requirements_layers/`.  A layer is read on its own first (`fromEntry`).  What is to be
combined in a special way is taken out of it, and what depends on where the layer is becomes
explicit.  The rest is merged as TOML, from the lowest to the highest layer, and read again
(`compose`).  Hooks are combined afterwards: only one directory can be in use on a platform.

The texts of errors of reading, the rules, the patterns that must not be read, the models that are
to be reviewed, and the sources of the composed settings are left out.
-/

namespace Config

open Assoc

open Text Toml

/-- Where a layer comes from. -/
inductive RequirementSource where
  | unknown
  | mdmManagedPreferences (domain key : Str)
  | composite (sources : List RequirementSource)
  | enterpriseManaged (id name : Str)
  | systemRequirementsToml (file : Str)
  | legacyManagedConfigTomlFromFile (file : Str)
  | legacyManagedConfigTomlFromMdm

/-- Why layers cannot be combined. -/
inductive RequirementsCompositionError where
  | parse (layerSource : RequirementSource)
  | composedParse
  | conflict (field : Str) (existingSource incomingSource : RequirementSource) (message : Str)

/-- A layer as it was loaded. -/
structure RequirementsLayerEntry where
  source : RequirementSource
  toml : Table
  baseDir : Option Str

/-- A layer that has been read, without what is combined in a special way. -/
structure ComposableRequirementsLayer where
  source : RequirementSource
  regularToml : Table
  hooks : Option ManagedHooksRequirementsToml

/-! ## A layer on its own -/

/-- A list of texts, each read in the same way. -/
def readTexts (read : Value → Option Str) : Value → Option (List Str)
  | .array items => items.mapM read
  | _ => none

/-- The names of sandbox modes. -/
def readModes : Value → Option (List Str) := readTexts Value.variant

/-- Patterns of hosts, and sandbox modes. -/
def readPatternsAndModes (patterns modes : Value) : Option (List Str × List Str) :=
  (readTexts Value.asString patterns).bind fun patterns => (readModes modes).map (patterns, ·)

/-- The patterns of hosts, and the sandbox modes that they allow. -/
def readRemoteSandboxConfigToml : Value → Option (List Str × List Str)
  | .table t =>
    (get "hostname_patterns".toList t).bind fun patterns =>
      (get "allowed_sandbox_modes".toList t).bind (readPatternsAndModes patterns)
  | .array [patterns, modes] => readPatternsAndModes patterns modes
  | _ => none

/-- A host name in lower case, without dots at the end. -/
def normalizeHostname (hostname : Str) : Option Str :=
  let hostname := (trim hostname).rdropWhile (· = '.')
  if hostname.isEmpty then none else some (hostname.map Char.toLower)

section

variable (p : Platform) (hostname : Option Str) (t : Table)

/-- The configuration for the host, if there is one. -/
def matchedRemoteSandboxConfig : Option (List Str × List Str) :=
  (get "remote_sandbox_config".toList t).bind fun
    | .array configs => (hostname.bind normalizeHostname).bind fun hostname =>
        (configs.filterMap readRemoteSandboxConfigToml).find? fun config =>
          p.hostnameMatchesAnyPattern hostname config.1
    | _ => none

/-- `allowed_sandbox_modes` after `apply_remote_sandbox_config`. -/
def allowedSandboxModes : Option (List Str) :=
  ((matchedRemoteSandboxConfig p hostname t).map Prod.snd).or
    ((get "allowed_sandbox_modes".toList t).bind readModes)

/-- A path is replaced by the absolute one. -/
def materializePath (base : Option Str) (t : Table) (k : String) : Table :=
  match (textAt k.toList t).bind (p.absolutePath base) with
  | some path => insert k.toList (.string path) t
  | none => t

/-- All paths are replaced by absolute ones. -/
def materializeResolvedPathRequirements (base : Option Str) (t : Table) : Table :=
  pathKeys.foldl (materializePath p base) t

/-- The modes for this host take the place of those for all hosts. -/
def materializeRemoteSandboxConfig (modes : Option (List Str)) (t : Table) : Table :=
  let t := remove "remote_sandbox_config".toList t
  match modes with
  | some modes => insert "allowed_sandbox_modes".toList (.array (modes.map .string)) t
  | none => t

/-- A field below a path is removed, and tables that are empty then. -/
def removeNestedFieldAndPruneEmpty : List Str → Table → Table
  | [], t => t
  | [k], t => remove k t
  | k :: rest, t =>
    match get k t with
    | some (.table child) =>
      let child := removeNestedFieldAndPruneEmpty rest child
      if child.isEmpty then remove k t else insert k (.table child) t
    | _ => t

/-- What is not merged as TOML is taken out. -/
def stripSpecialFields : Table :=
  let t := remove "hooks".toList (remove "rules".toList t)
  let t := removeNestedFieldAndPruneEmpty
    ["permissions".toList, "filesystem".toList, "deny_read".toList] t
  removeNestedFieldAndPruneEmpty ["auto_review".toList, "required_on_models".toList] t

/-- What can only be set locally is not taken from the cloud. -/
def withoutLocalFields (entry : RequirementsLayerEntry) : Table :=
  match entry.source with
  | .enterpriseManaged _ _ =>
    remove "allowed_chatgpt_workspaces"
      (remove "allowed_login_methods" entry.toml)
  | _ => entry.toml

/-- A layer is read on its own. -/
def fromEntry (entry : RequirementsLayerEntry) :
    Except RequirementsCompositionError ComposableRequirementsLayer :=
  let t := withoutLocalFields entry
  if configRequirementsToml p entry.baseDir t then
    .ok
      { source := entry.source
        regularToml := stripSpecialFields (materializeRemoteSandboxConfig
          (allowedSandboxModes p hostname t)
          (materializeResolvedPathRequirements p entry.baseDir t))
        hooks := (get "hooks".toList t).bind p.hooks }
  else .error (.parse entry.source)

end

/-! ## Hooks of several layers -/

/-- The two fields for a directory of hooks. -/
inductive HookDirectoryField where
  | managedDir
  | windowsManagedDir
  deriving DecidableEq

namespace HookDirectoryField

/-- The name of the field in errors. -/
def fieldName : HookDirectoryField → Str
  | managedDir => "hooks.managed_dir"
  | windowsManagedDir => "hooks.windows_managed_dir"

/-- The field that is not in use on this platform. -/
def inactive : HookDirectoryField → HookDirectoryField
  | managedDir => windowsManagedDir
  | windowsManagedDir => managedDir

end HookDirectoryField

namespace ManagedHooksRequirementsToml

/-- The directory in a field. -/
def hookDir (hooks : ManagedHooksRequirementsToml) : HookDirectoryField → Option Str
  | .managedDir => hooks.managedDir
  | .windowsManagedDir => hooks.windowsManagedDir

/-- Another directory in a field. -/
def withHookDir (hooks : ManagedHooksRequirementsToml) (dir : Option Str) :
    HookDirectoryField → ManagedHooksRequirementsToml
  | .managedDir => { hooks with managedDir := dir }
  | .windowsManagedDir => { hooks with windowsManagedDir := dir }

end ManagedHooksRequirementsToml

/-- The hooks for each event, one behind the other. -/
def appendHookEvents (existing incoming : HookEventsToml) : HookEventsToml :=
  fun event => existing event ++ incoming event

/-- Which field is in use, and which layers have set the two. -/
structure HookMergeState where
  directoryField : HookDirectoryField
  dirSources : HookDirectoryField → Option RequirementSource

namespace HookMergeState

/-- Nothing has been set. -/
def new (directoryField : HookDirectoryField) : HookMergeState := ⟨directoryField, fun _ => none⟩

variable (s : HookMergeState) (field : HookDirectoryField)

/-- The source of a directory, unless there is one already. -/
def trackSource (source : RequirementSource) : HookMergeState :=
  { s with dirSources :=
    Function.update s.dirSources field ((s.dirSources field).or (some source)) }

/-- The source of a value that is set. -/
def trackSingletonSource (value : Option Str) (source : RequirementSource) : HookMergeState :=
  if value.isSome then s.trackSource field source else s

/-- Two layers must not have different directories in the field that is in use. -/
def mergeActiveSingleton (existing incoming : Option Str) (incomingSource : RequirementSource) :
    Except RequirementsCompositionError (HookMergeState × Option Str) :=
  match incoming, existing with
  | none, existing => .ok (s, existing)
  | some incoming, some existing =>
    if existing ≠ incoming then
      .error (.conflict field.fieldName ((s.dirSources field).getD incomingSource) incomingSource
        ('`' :: existing ++ "` conflicts with `" ++ incoming ++ ['`']))
    else .ok (s, some existing)
  | some incoming, none => .ok (s.trackSource field incomingSource, some incoming)

/-- The other field keeps the first directory. -/
def fillSingleton (existing incoming : Option Str) (incomingSource : RequirementSource) :
    HookMergeState × Option Str :=
  match existing, incoming with
  | none, some incoming => (s.trackSource field incomingSource, some incoming)
  | existing, _ => (s, existing)

/-- The hooks of one more layer. -/
def merge (target : Option ManagedHooksRequirementsToml)
    (incoming : Option ManagedHooksRequirementsToml) (source : RequirementSource) :
    Except RequirementsCompositionError (HookMergeState × Option ManagedHooksRequirementsToml) :=
  match incoming.filter fun hooks => !hooks.isEmpty, target with
  | none, target => .ok (s, target)
  | some incoming, none =>
    let s := s.trackSingletonSource .managedDir incoming.managedDir source
    let s := s.trackSingletonSource .windowsManagedDir incoming.windowsManagedDir source
    .ok (s, some incoming)
  | some incoming, some existing => do
    let active := s.directoryField
    let (s, dir) ← s.mergeActiveSingleton active (existing.hookDir active)
      (incoming.hookDir active) source
    let (s, inactiveDir) := s.fillSingleton active.inactive (existing.hookDir active.inactive)
      (incoming.hookDir active.inactive) source
    let existing := (existing.withHookDir dir active).withHookDir inactiveDir active.inactive
    .ok (s, some { existing with hooks := appendHookEvents existing.hooks incoming.hooks })

end HookMergeState

/-! ## All layers -/

/-- What is composed: the settings that are read from the merged document, with the requirements for
servers in particular, and the hooks. -/
structure ConfigRequirementsWithSources where
  toml : Table
  mcpServers : List (Str × McpServerRequirement)
  hooks : Option ManagedHooksRequirementsToml

/-- The requirements for servers of a document. -/
def mcpServersOf (t : Table) : List (Str × McpServerRequirement) :=
  match get "mcp_servers".toList t with
  | some (.table servers) =>
    servers.filterMap fun e => (readMcpServerRequirement e.2).map fun r => (e.1, r)
  | _ => []

section

variable (kt : KeyText) (p : Platform) (directoryField : HookDirectoryField)
  (layers : List ComposableRequirementsLayer)

/-- All layers as one document, from the lowest to the highest. -/
def mergedToml : Value :=
  layers.foldl (fun v layer => mergeTomlValues kt v (.table layer.regularToml)) (.table [])

/-- Hooks are combined from the highest to the lowest layer. -/
def mergedHooks :
    Except RequirementsCompositionError (HookMergeState × Option ManagedHooksRequirementsToml) :=
  layers.reverse.foldlM (fun (s, target) layer => s.merge target layer.hooks layer.source)
    (HookMergeState.new directoryField, none)

/-- What was merged is read again, and the hooks are combined. -/
def compose : Except RequirementsCompositionError ConfigRequirementsWithSources :=
  match mergedToml kt layers with
  | .table t =>
    if configRequirementsToml p none t then do
      let (_, hooks) ← mergedHooks directoryField layers
      .ok ⟨t, mcpServersOf t, hooks⟩
    else .error .composedParse
  | _ => .error .composedParse

/-- Each layer is read, and then all are combined. -/
def composeRequirements (hostname : Option Str) (entries : List RequirementsLayerEntry) :
    Except RequirementsCompositionError ConfigRequirementsWithSources := do
  let layers ← entries.mapM (fromEntry p hostname)
  compose kt p directoryField layers

end

end Config
