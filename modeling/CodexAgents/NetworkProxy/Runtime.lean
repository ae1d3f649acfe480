import CodexAgents.NetworkProxy.Constraints

/-!
# The state of a running proxy

`network-proxy/src/runtime.rs`: what a proxy works with is a `ConfigState` behind a lock, with the
requests that were blocked lately and a count of all of them.  Tasks change it at once.  A task
holds the lock for a short while, lets go of it, and takes it again later, with what it has read
before in hand (`Task`).  A run is a list of moves (`Move`): a task is started, the reloader answers
a task, or a task takes the lock for the next time (`Task.lock`).

The reloader may answer anything.  `build_config_state` is a parameter, and what it compiles from a
configuration is of a type that is not looked into.  The order in which blocked requests are
recorded and drained is kept in a log, which the program does not have.
-/

namespace NetworkProxy

open Text

deriving instance DecidableEq for NetworkProxyConfig

/-! ## States -/

/-- How many blocked requests are kept. -/
def maxBlockedEvents : Nat := 200

/-- The largest value of a `u64`. -/
def u64Max : Nat := 2 ^ 64 - 1

/-- A request that was blocked, as it is recorded. -/
structure BlockedRequest where
  host : Str
  reason : Str
  client : Option Str
  method : Option Str
  mode : Option NetworkMode
  protocol : Str
  executionId : Option Str
  decision : Option Str
  source : Option Str
  port : Option UInt16
  timestamp : Int

/-- The settings in use, and the blocked requests. -/
structure ConfigState (Hooks Compiled : Type) where
  config : NetworkProxyConfig Hooks
  /-- The sets of globs and what else `build_config_state` compiles. -/
  compiled : Compiled
  constraints : NetworkProxyConstraints
  blocked : List BlockedRequest
  blockedTotal : Nat

/-- What the runtime takes from elsewhere. -/
structure RuntimeEnv (Hooks Compiled : Type) where
  net : Net
  checks : Checks Hooks
  /-- `build_config_state`, with the text of its error. -/
  buildConfigState : NetworkProxyConfig Hooks → NetworkProxyConstraints →
    Except Str (ConfigState Hooks Compiled)

/-! ## Domain lists -/

/-- The two lists of domains. -/
inductive DomainListKind where
  | allow
  | deny

namespace DomainListKind

/-- The name of a list in messages. -/
def listName : DomainListKind → Str
  | allow => "allowlist"
  | deny => "denylist"

/-- The field that is named in an error about a list. -/
def constraintField : DomainListKind → Str
  | allow => "network.allowed_domains"
  | deny => "network.denied_domains"

/-- The permission of the entries of a list. -/
def permission : DomainListKind → NetworkDomainPermission
  | allow => .allow
  | deny => .deny

variable {Hooks : Type}

/-- The entries of a list. -/
def entries : DomainListKind → NetworkProxyConfig Hooks → List Str
  | allow, network => network.allowedDomains.getD []
  | deny, network => network.deniedDomains.getD []

/-- The entries of the other list. -/
def oppositeEntries : DomainListKind → NetworkProxyConfig Hooks → List Str
  | allow, network => network.deniedDomains.getD []
  | deny, network => network.allowedDomains.getD []

end DomainListKind

/-- The entry for a host replaces those that are the same once normalized. -/
def NetworkProxyConfig.upsertDomainPermission {Hooks : Type} (config : NetworkProxyConfig Hooks)
    (host : Str) (permission : NetworkDomainPermission) (normalize : Str → Str) :
    NetworkProxyConfig Hooks :=
  let domains := ((config.domains.getD []).filter fun entry =>
    normalize entry.pattern ≠ normalize host) ++ [⟨host, permission⟩]
  { config with domains := if domains = [] then none else some domains }

/-! ## Blocked requests -/

/-- `pop_front` while there are too many. -/
def popWhileOver {α : Type} (max : Nat) : List α → List α
  | [] => []
  | x :: xs => if max < (x :: xs).length then popWhileOver max xs else x :: xs

section

variable {Hooks Compiled : Type}

/-- One more request: the oldest ones go, and the total saturates. -/
def ConfigState.pushBlocked (s : ConfigState Hooks Compiled) (entry : BlockedRequest) :
    ConfigState Hooks Compiled :=
  { s with
    blocked := popWhileOver maxBlockedEvents (s.blocked ++ [entry])
    blockedTotal := min (s.blockedTotal + 1) u64Max }

/-! ## Tasks -/

/-- The operations on the state. -/
inductive Op (Hooks Compiled : Type) where
  /-- The execution is that of the handle on which this is called. -/
  | recordBlocked (executionId : Option Str) (entry : BlockedRequest)
  | drainBlocked
  | updateDomainList (host : Str) (target : DomainListKind)
  | setNetworkMode (mode : NetworkMode)
  | replaceConfigState (newState : ConfigState Hooks Compiled)
  | forceReload
  | reloadIfNeeded

/-- What an operation returns. -/
inductive Answer where
  | unit
  | blocked (entries : List BlockedRequest)

/-- Where a task is, and what it has in hand there. -/
inductive Task (Hooks Compiled : Type) where
  /-- `maybe_reload` has yet to answer. -/
  | reload (op : Op Hooks Compiled)
  | reloadRead (newState : ConfigState Hooks Compiled) (op : Op Hooks Compiled)
  | reloadWrite (newState : ConfigState Hooks Compiled) (op : Op Hooks Compiled)
  /-- `reload_if_needed` is over. -/
  | reloaded (op : Op Hooks Compiled)
  | updateWrite (host : Str) (target : DomainListKind) (previousCfg : NetworkProxyConfig Hooks)
    (constraints : NetworkProxyConstraints) (newState : ConfigState Hooks Compiled)
  | setModeWrite (mode : NetworkMode) (constraints : NetworkProxyConstraints)
  | forceRead
  /-- `reload_now` has yet to answer. -/
  | forceAnswer
  | forceWrite (newState : ConfigState Hooks Compiled)
  | done (result : Except Str Answer)

/-- What the log knows of a task's turn. -/
inductive Event where
  | recorded (entry : BlockedRequest)
  | drained (entries : List BlockedRequest)

namespace Task

/-- Where an operation begins; some fail at once. -/
def start (env : RuntimeEnv Hooks Compiled) : Op Hooks Compiled → Task Hooks Compiled
  | .updateDomainList host target =>
    if normalizeHost env.net host = [] then .done (.error "invalid network host")
    else .reload (.updateDomainList host target)
  | .forceReload => .forceRead
  | op => .reload op

/-- What is left of an operation when nothing has to be reloaded. -/
def afterReload : Op Hooks Compiled → Task Hooks Compiled
  | .reloadIfNeeded => .done (.ok .unit)
  | op => .reloaded op

/-- `update_domain_list` from the first lock to the second. -/
def prepareUpdate (env : RuntimeEnv Hooks Compiled) (s : ConfigState Hooks Compiled) (host : Str)
    (target : DomainListKind) : Task Hooks Compiled :=
  let normalizedHost := normalizeHost env.net host
  let isHost := fun entry => decide (normalizeHost env.net entry = normalizedHost)
  if (target.entries s.config).any isHost && !(target.oppositeEntries s.config).any isHost then
    .done (.ok .unit)
  else
    let candidate :=
      s.config.upsertDomainPermission normalizedHost target.permission (normalizeHost env.net)
    match validatePolicyAgainstConstraints env.net env.checks candidate s.constraints with
    | .error _ => .done (.error (target.constraintField ++ " constrained by managed config"))
    | .ok () =>
      match env.buildConfigState candidate s.constraints with
      | .error _ =>
        .done (.error ("failed to compile updated network " ++ target.listName))
      | .ok newState =>
        .updateWrite host target s.config s.constraints
          { newState with blocked := s.blocked, blockedTotal := s.blockedTotal }

variable [DecidableEq Hooks]

/-- The task takes the lock, and goes on until it needs it again. -/
def lock (env : RuntimeEnv Hooks Compiled) (s : ConfigState Hooks Compiled) :
    Task Hooks Compiled → ConfigState Hooks Compiled × Task Hooks Compiled × List Event
  | .reloadRead newState op =>
    (s, .reloadWrite { newState with blocked := s.blocked, blockedTotal := s.blockedTotal } op, [])
  | .reloadWrite newState op => (newState, afterReload op, [])
  | .reloaded (.recordBlocked executionId entry) =>
    let entry := { entry with executionId }
    (s.pushBlocked entry, .done (.ok .unit), [.recorded entry])
  | .reloaded .drainBlocked =>
    ({ s with blocked := [] }, .done (.ok (.blocked s.blocked)), [.drained s.blocked])
  | .reloaded (.updateDomainList host target) => (s, prepareUpdate env s host target, [])
  | .reloaded (.setNetworkMode mode) =>
    match validatePolicyAgainstConstraints env.net env.checks { s.config with mode }
        s.constraints with
    | .error _ =>
      (s, .done (.error "network.mode constrained by managed config"), [])
    | .ok () => (s, .setModeWrite mode s.constraints, [])
  | .reloaded (.replaceConfigState newState) =>
    ({ newState with blocked := s.blocked, blockedTotal := s.blockedTotal }, .done (.ok .unit), [])
  | .updateWrite host target previousCfg constraints newState =>
    if s.constraints ≠ constraints ∨ s.config ≠ previousCfg then
      (s, .reload (.updateDomainList host target), [])
    else (newState, .done (.ok .unit), [])
  | .setModeWrite mode constraints =>
    if s.constraints ≠ constraints then (s, .reload (.setNetworkMode mode), [])
    else ({ s with config := { s.config with mode } }, .done (.ok .unit), [])
  | .forceRead => (s, .forceAnswer, [])
  -- The buffer is kept, but not the count.
  | .forceWrite newState => ({ newState with blocked := s.blocked }, .done (.ok .unit), [])
  | task => (s, task, [])

end Task

/-! ## Runs -/

/-- The shared state, the operations that are going on, and what has happened. -/
structure System (Hooks Compiled : Type) where
  shared : ConfigState Hooks Compiled
  tasks : List (Task Hooks Compiled) := []
  log : List Event := []

/-- What can happen next: an operation begins, gets an answer, or gets the lock. -/
inductive Move (Hooks Compiled : Type) where
  | spawn (op : Op Hooks Compiled)
  | maybeReload (task : Nat) (answer : Except Str (Option (ConfigState Hooks Compiled)))
  | reloadNow (task : Nat) (answer : Except Str (ConfigState Hooks Compiled))
  | lock (task : Nat)

/-- As `build_config_state` leaves it. -/
def System.start (state : ConfigState Hooks Compiled) : System Hooks Compiled where
  shared := { state with blocked := [], blockedTotal := 0 }

/-- Where an operation goes on with the answer of the reloader. -/
def answerMaybeReload (op : Op Hooks Compiled) :
    Except Str (Option (ConfigState Hooks Compiled)) → Task Hooks Compiled
  | .error e => .done (.error e)
  | .ok none => Task.afterReload op
  | .ok (some newState) => .reloadRead newState op

/-- Where a forced reload goes on. -/
def answerReloadNow : Except Str (ConfigState Hooks Compiled) → Task Hooks Compiled
  | .error e => .done (.error e)
  | .ok newState => .forceWrite newState

variable [DecidableEq Hooks]

/-- A move that a task is not ready for changes nothing. -/
def System.step (env : RuntimeEnv Hooks Compiled) (s : System Hooks Compiled) :
    Move Hooks Compiled → System Hooks Compiled
  | .spawn op => { s with tasks := s.tasks ++ [Task.start env op] }
  | .maybeReload i answer =>
    match s.tasks[i]? with
    | some (.reload op) => { s with tasks := s.tasks.set i (answerMaybeReload op answer) }
    | _ => s
  | .reloadNow i answer =>
    match s.tasks[i]? with
    | some .forceAnswer => { s with tasks := s.tasks.set i (answerReloadNow answer) }
    | _ => s
  | .lock i =>
    match s.tasks[i]? with
    | some task =>
      let (shared, task, events) := task.lock env s.shared
      { shared, tasks := s.tasks.set i task, log := s.log ++ events }
    | none => s

end

end NetworkProxy
