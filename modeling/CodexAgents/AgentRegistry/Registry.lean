import CodexAgents.Lib.HashMap
import CodexAgents.Lib.Text

/-!
# The registry of agents

`core/src/agent/registry.rs`: the agents of a session by their path (`agentTree`), the path of each
thread (`threadPaths`), and a count of spawned threads that is kept outside the lock of the two.
Whoever wants to spawn a thread first reserves a slot of the count, then maybe a path, and then
either commits the reservation or drops it.

A run is a list of moves, each of which is one critical section or one atomic operation of some
caller (`Move`).  Between the two halves of a drop or a release, a caller has yet to give its slot
back (`Task.decrementing`).  Nicknames are only kept as far as a commit marks them as used.
-/

namespace AgentRegistry

open Text

/-! ## Tables -/

/-- Checked when it was made, and only compared here. -/
abbrev AgentPath := Str

/-- The path of the agent that the others come from. -/
def rootPath : AgentPath := "/root"

/-- What is known about an agent. -/
structure AgentMetadata (ThreadId : Type) where
  agentId : Option ThreadId := none
  agentPath : Option AgentPath := none
  agentNickname : Option Str := none
  agentRole : Option Str := none

/-- The agent is the one at the root. -/
def AgentMetadata.isRoot {ThreadId : Type} (metadata : AgentMetadata ThreadId) : Bool :=
  metadata.agentPath = some rootPath

/-- The agents by path, and the paths of threads. -/
structure ActiveAgents (ThreadId : Type) where
  agentTree : HashMap Str (AgentMetadata ThreadId) := ∅
  threadPaths : HashMap ThreadId Str := ∅
  usedAgentNicknames : List Str := []

section

variable {ThreadId : Type} [DecidableEq ThreadId] (active : ActiveAgents ThreadId)
  (threadId : ThreadId)

/-- The first component says whether an agent was removed that counts. -/
def releaseSpawnedThread : Bool × ActiveAgents ThreadId :=
  match HashMap.get active.threadPaths threadId with
  | none => (false, active)
  | some key =>
    ((HashMap.get active.agentTree key).any fun metadata => !metadata.isRoot, { active with
        threadPaths := active.threadPaths.erase threadId
        agentTree := active.agentTree.erase key })

/-- The root is entered with its thread, unless it is there already. -/
def registerRootThread : ActiveAgents ThreadId :=
  match HashMap.get active.agentTree rootPath with
  | some root =>
    match root.agentId with
    | some rootThreadId =>
      { active with threadPaths := active.threadPaths.insert rootThreadId rootPath }
    | none => active
  | none =>
    { active with
      agentTree := active.agentTree.insert rootPath
        { agentId := some threadId, agentPath := some rootPath }
      threadPaths := active.threadPaths.insert threadId rootPath }

/-- A nickname is taken. -/
def useNickname (nickname : Option Str) : ActiveAgents ThreadId :=
  { active with usedAgentNicknames := nickname.toList ++ active.usedAgentNicknames }

/-- The tree without the entry of a thread that is about to get another key. -/
def leavePreviousKey (key : Str) : HashMap Str (AgentMetadata ThreadId) :=
  match HashMap.get active.threadPaths threadId with
  | some previousKey =>
    if previousKey ≠ key then active.agentTree.erase previousKey else active.agentTree
  | none => active.agentTree

/-- The paths without that of a thread whose key another thread has got. -/
def displaceThread (paths : HashMap ThreadId Str) (previous : Option ThreadId)
    (threadId : ThreadId) : HashMap ThreadId Str :=
  match previous with
  | some previousThreadId =>
    if previousThreadId ≠ threadId then paths.erase previousThreadId else paths
  | none => paths

variable (display : ThreadId → Str)

/-- The path of an agent, or its thread where it has none. -/
def agentKey (threadId : ThreadId) (agentPath : Option AgentPath) : Str :=
  agentPath.getD ("thread:" ++ display threadId)

variable (active : ActiveAgents ThreadId)

/-- An agent that runs is entered, and replaces what was reserved. -/
def registerSpawnedThread (metadata : AgentMetadata ThreadId) : ActiveAgents ThreadId :=
  match metadata.agentId with
  | none => active
  | some threadId =>
    let key := agentKey display threadId metadata.agentPath
    let active := useNickname active metadata.agentNickname
    let tree := leavePreviousKey active threadId key
    { active with
      agentTree := tree.insert key metadata
      threadPaths := displaceThread (active.threadPaths.insert threadId key)
        ((HashMap.get tree key).bind (·.agentId)) threadId }

/-- A path is taken before its agent runs. -/
def reserveAgentPath (agentPath : AgentPath) : Except Str (ActiveAgents ThreadId) :=
  match HashMap.get active.agentTree agentPath with
  | some _ => .error ("agent path `" ++ agentPath ++ "` already exists")
  | none =>
    .ok { active with
      agentTree := active.agentTree.insert agentPath { agentPath := some agentPath } }

/-- A path is given back, unless an agent runs there. -/
def releaseReservedAgentPath (agentPath : AgentPath) : ActiveAgents ThreadId :=
  if (HashMap.get active.agentTree agentPath).any fun metadata => metadata.agentId.isNone then
    { active with agentTree := active.agentTree.erase agentPath }
  else active

/-! ## Runs -/

/-- A slot, and perhaps a path. -/
structure SpawnReservation where
  reservedAgentPath : Option AgentPath := none

/-- What a caller is in the middle of. -/
inductive Task where
  /-- In the loop of `try_increment_spawned`, with the count as it was seen last. -/
  | incrementing (current maxThreads : UInt64)
  | reserved (reservation : SpawnReservation)
  /-- The tables are done with, and the count has yet to be decremented. -/
  | decrementing
  | done

/-- The tables, the count, and the callers. -/
structure Registry (ThreadId : Type) where
  active : ActiveAgents ThreadId := {}
  totalCount : UInt64 := 0
  tasks : List Task := []

/-- What a caller does next. -/
inductive Move (ThreadId : Type) where
  /-- `reserve_spawn_slot`, for a bound up to its first `load`. -/
  | reserveSpawnSlot (maxThreads : Option UInt64)
  /-- A weak exchange may fail without a reason. -/
  | compareExchange (task : Nat) (spurious : Bool)
  | reserveAgentPath (task : Nat) (agentPath : AgentPath)
  | commit (task : Nat) (metadata : AgentMetadata ThreadId)
  /-- The drop of a reservation, up to its `fetch_sub`. -/
  | drop (task : Nat)
  | fetchSub (task : Nat)
  | releaseSpawnedThread (threadId : ThreadId)
  | registerRootThread (threadId : ThreadId)

/-- A move that a task is not ready for changes nothing. -/
def Registry.step (s : Registry ThreadId) : Move ThreadId → Registry ThreadId
  | .reserveSpawnSlot none =>
    { s with
      totalCount := s.totalCount + 1
      tasks := s.tasks ++ [.reserved {}] }
  | .reserveSpawnSlot (some maxThreads) =>
    { s with tasks := s.tasks ++ [.incrementing s.totalCount maxThreads] }
  | .compareExchange i spurious =>
    match s.tasks[i]? with
    | some (.incrementing current maxThreads) =>
      if maxThreads ≤ current then { s with tasks := s.tasks.set i .done }
      else if s.totalCount = current ∧ spurious = false then
        { s with totalCount := current + 1, tasks := s.tasks.set i (.reserved {}) }
      else { s with tasks := s.tasks.set i (.incrementing s.totalCount maxThreads) }
    | _ => s
  | .reserveAgentPath i agentPath =>
    match s.tasks[i]? with
    | some (.reserved _) =>
      match AgentRegistry.reserveAgentPath s.active agentPath with
      | .ok active => { s with active, tasks := s.tasks.set i (.reserved ⟨some agentPath⟩) }
      | .error _ => s
    | _ => s
  | .commit i metadata =>
    match s.tasks[i]? with
    | some (.reserved _) =>
      { s with
        active := registerSpawnedThread display s.active metadata
        tasks := s.tasks.set i .done }
    | _ => s
  | .drop i =>
    match s.tasks[i]? with
    | some (.reserved reservation) =>
      { s with
        active := reservation.reservedAgentPath.elim s.active (releaseReservedAgentPath s.active)
        tasks := s.tasks.set i .decrementing }
    | _ => s
  | .fetchSub i =>
    match s.tasks[i]? with
    | some .decrementing =>
      { s with
        totalCount := s.totalCount - 1
        tasks := s.tasks.set i .done }
    | _ => s
  | .releaseSpawnedThread threadId =>
    let (counted, active) := AgentRegistry.releaseSpawnedThread s.active threadId
    { s with active, tasks := s.tasks ++ [if counted then .decrementing else .done] }
  | .registerRootThread threadId =>
    { s with active := AgentRegistry.registerRootThread s.active threadId }

end

end AgentRegistry
