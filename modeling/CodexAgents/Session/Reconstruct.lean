import CodexAgents.Session.History

/-!
# Resuming a thread from its rollout

`core/src/session/rollout_reconstruction.rs`.  A rollout is the list of what happened in a thread,
oldest first.  It is read twice.  A first loop goes from the newest item to the oldest and gathers
the items into turns (`scanItem`).  A turn that a later rollback takes back is skipped
(`finalizeActiveSegment`).  From the others come the history that the newest compaction left, the
settings of the newest turn, the reference context, the world state and the context window.  The
loop ends early once three of these are known (`ReverseReplay.known`).  A second loop then goes
forward over the items after a compaction and builds the history (`replayItem`).

`reverseScan` is the first loop.  Its recursion is on the older part of the rollout: the state for
`item :: newer` is that for `newer` and then `item`.  The flag says whether the loop may end early.
-/

namespace Session

open Text

/-! ## Rollouts -/

/-- A compaction in a rollout. -/
structure CompactedItem where
  message : Str
  replacementHistory : Option (List Envelope)
  windowNumber : Option Nat := none
  firstWindowId : Option Str := none
  previousWindowId : Option Str := none
  windowId : Option Str := none

/-- A snapshot, or a change of one. -/
structure WorldStateItem where
  full : Bool
  state : Str

/-- The events of a rollout that are looked at. -/
inductive EventMsg where
  | turnStarted (turnId : Str)
  | turnComplete (turnId : Str)
  | turnAborted (turnId : Option Str)
  | userMessage (message : Str)
  | threadRolledBack (numTurns : Nat)
  | other (rest : Str)

/-- An item of a rollout. -/
inductive RolloutItem where
  /-- The window id of the context window that a session starts with, if it has one. -/
  | sessionMeta (contextWindow : Option Str)
  | responseItem (envelope : Envelope)
  | interAgentCommunication (communication : InterAgentCommunication)
  | interAgentCommunicationMetadata (triggerTurn : Bool)
  | compacted (compacted : CompactedItem)
  | turnContext (ctx : TurnContextItem)
  | worldState (worldState : WorldStateItem)
  | eventMsg (event : EventMsg)

/-- What the rollout takes from elsewhere. -/
structure RolloutEnv extends Env where
  parseUuidV7 : Str → Option Str
  /-- `serde_json::from_value` for snapshots. -/
  restoreSnapshot : Str → Option WorldStateSnapshot
  applyMergePatch : WorldStateSnapshot → Str → Option WorldStateSnapshot

/-- The settings of a turn. -/
structure PreviousTurnSettings where
  model : Str
  compHash : Option Str
  realtimeActive : Option Bool
  deriving DecidableEq

/-- A context window. -/
structure ReconstructedWindow where
  number : Nat
  firstId : Option Str
  previousId : Option Str
  id : Option Str
  deriving DecidableEq

/-- The context that a turn has set, or cleared. -/
inductive TurnReferenceContextItem where
  | neverSet
  | cleared
  | latest (ctx : TurnContextItem)
  deriving DecidableEq

/-- `NeverSet` gives way to another value. -/
def TurnReferenceContextItem.or : TurnReferenceContextItem → TurnReferenceContextItem →
    TurnReferenceContextItem
  | neverSet, other => other
  | set, _ => set

/-- The context, if there is one. -/
def TurnReferenceContextItem.toOption : TurnReferenceContextItem → Option TurnContextItem
  | latest ctx => some ctx
  | neverSet | cleared => none

/-! ## The turn that is being read -/

/-- What is known about a turn, from its end on. -/
structure ActiveReplaySegment where
  turnId : Option Str := none
  countsAsUserTurn : Bool := false
  previousTurnSettings : Option PreviousTurnSettings := none
  referenceContextItem : TurnReferenceContextItem := .neverSet
  /-- Newest first. -/
  worldStateReplay : List RolloutItem := []
  baseReplacementHistory : Option (List Envelope) := none
  window : Option ReconstructedWindow := none

/-- The ids can be those of one turn. -/
def turnIdsAreCompatible (activeTurnId itemTurnId : Option Str) : Bool :=
  match activeTurnId, itemTurnId with
  | some turnId, some itemTurnId => itemTurnId = turnId
  | _, _ => true

variable (env : RolloutEnv)

/-- The window of a compaction. -/
def compactedWindow (compacted : CompactedItem) : Option ReconstructedWindow :=
  compacted.windowNumber.map fun number =>
    { number := number
      firstId := compacted.firstWindowId.bind env.parseUuidV7
      previousId := compacted.previousWindowId.bind env.parseUuidV7
      id := compacted.windowId.bind env.parseUuidV7 }

namespace ActiveReplaySegment

variable (seg : ActiveReplaySegment)

/-- A compaction in the turn. -/
def addCompacted (compacted : CompactedItem) : ActiveReplaySegment :=
  { seg with
    worldStateReplay := seg.worldStateReplay ++ [.compacted compacted]
    window := seg.window.or (compactedWindow env compacted)
    referenceContextItem := seg.referenceContextItem.or .cleared
    baseReplacementHistory := seg.baseReplacementHistory.or compacted.replacementHistory }

/-- The newest id counts. -/
def addTurnId (turnId : Option Str) : ActiveReplaySegment :=
  { seg with turnId := seg.turnId.or turnId }

/-- The turn is one of the user. -/
def addUserTurn (isUserTurn : Bool) : ActiveReplaySegment :=
  { seg with countsAsUserTurn := seg.countsAsUserTurn || isUserTurn }

/-- The settings of the turn. -/
def addTurnContext (ctx : TurnContextItem) : ActiveReplaySegment :=
  let seg := seg.addTurnId ctx.turnId
  if turnIdsAreCompatible seg.turnId ctx.turnId then
    { seg with
      previousTurnSettings := some ⟨ctx.model, ctx.compHash, ctx.realtimeActive⟩
      referenceContextItem := seg.referenceContextItem.or (.latest ctx) }
  else seg

/-- A snapshot in the turn. -/
def addWorldState (worldState : WorldStateItem) : ActiveReplaySegment :=
  { seg with worldStateReplay := seg.worldStateReplay ++ [.worldState worldState] }

end ActiveReplaySegment

/-! ## The loop from the newest item -/

/-- What has been read, from the end on. -/
structure ReverseReplay where
  baseReplacementHistory : Option (List Envelope) := none
  previousTurnSettings : Option PreviousTurnSettings := none
  referenceContextItem : TurnReferenceContextItem := .neverSet
  /-- Newest first. -/
  worldStateReplay : List RolloutItem := []
  window : Option ReconstructedWindow := none
  pendingRollbackTurns : Nat := 0
  /-- What the second loop goes over, unless that is the whole rollout. -/
  rolloutSuffix : Option (List RolloutItem) := none
  activeSegment : Option ActiveReplaySegment := none

namespace ReverseReplay

/-- `get_or_insert_with(ActiveReplaySegment::default)`, and then a change. -/
def onActive (s : ReverseReplay) (change : ActiveReplaySegment → ActiveReplaySegment) :
    ReverseReplay :=
  { s with activeSegment := some (change (s.activeSegment.getD {})) }

/-- The compaction gives a base to the turn that is being read, which had none. -/
def givesBase (s : ReverseReplay) (compacted : CompactedItem) : Bool :=
  (s.activeSegment.getD {}).baseReplacementHistory.isNone && compacted.replacementHistory.isSome

end ReverseReplay

/-- A turn is complete; it counts unless it is taken back. -/
def finalizeActiveSegment (seg : ActiveReplaySegment) (s : ReverseReplay) : ReverseReplay :=
  if 0 < s.pendingRollbackTurns then
    if seg.countsAsUserTurn then
      { s with pendingRollbackTurns := s.pendingRollbackTurns - 1 }
    else s
  else
    { s with
      worldStateReplay := s.worldStateReplay ++ seg.worldStateReplay
      baseReplacementHistory := s.baseReplacementHistory.or seg.baseReplacementHistory
      window := s.window.or seg.window
      previousTurnSettings :=
        if seg.countsAsUserTurn then s.previousTurnSettings.or seg.previousTurnSettings
        else s.previousTurnSettings
      referenceContextItem :=
        if seg.countsAsUserTurn = true ∨ seg.referenceContextItem = .cleared then
          s.referenceContextItem.or seg.referenceContextItem
        else s.referenceContextItem }

/-- The largest value of a `usize`. -/
def usizeMax : Nat := 2 ^ 64 - 1

/-- The body of the loop.  `newer` are the items after `item`. -/
def scanItem (newer : List RolloutItem) (s : ReverseReplay) : RolloutItem → ReverseReplay
  | .compacted compacted =>
    { s.onActive (·.addCompacted env compacted) with
      rolloutSuffix := if s.givesBase compacted then some newer else s.rolloutSuffix }
  | .eventMsg (.threadRolledBack numTurns) =>
    { s with
      pendingRollbackTurns := min (s.pendingRollbackTurns + min numTurns usizeMax) usizeMax }
  | .eventMsg (.turnComplete turnId) => s.onActive (·.addTurnId (some turnId))
  | .eventMsg (.turnAborted turnId) =>
    if s.activeSegment.isSome || turnId.isSome then s.onActive (·.addTurnId turnId) else s
  | .eventMsg (.userMessage _) => s.onActive (·.addUserTurn true)
  | .turnContext ctx => s.onActive (·.addTurnContext ctx)
  | .worldState worldState => s.onActive (·.addWorldState worldState)
  | .eventMsg (.turnStarted turnId) =>
    match s.activeSegment with
    | some seg =>
      if turnIdsAreCompatible seg.turnId (some turnId) then
        finalizeActiveSegment seg { s with activeSegment := none }
      else s
    | none => s
  | .responseItem envelope =>
    s.onActive (·.addUserTurn (isUserTurnBoundary env.toEnv envelope.item))
  | .interAgentCommunication _ => s.onActive (·.addUserTurn true)
  | .eventMsg (.other _) | .sessionMeta _ | .interAgentCommunicationMetadata _ => s

namespace ReverseReplay

/-- A base history, the settings of a turn and a reference context have been found. -/
def known (s : ReverseReplay) : Bool :=
  s.baseReplacementHistory.isSome && s.previousTurnSettings.isSome &&
    s.referenceContextItem ≠ .neverSet

/-- After the loop: the turn that was not closed by a start is a turn too. -/
def finish (s : ReverseReplay) : ReverseReplay :=
  match s.activeSegment with
  | some seg => finalizeActiveSegment seg { s with activeSegment := none }
  | none => s

end ReverseReplay

/-- The loop, which ends once enough is known if `stops`. -/
def reverseScan (stops : Bool) : List RolloutItem → ReverseReplay
  | [] => {}
  | item :: newer =>
    let s := reverseScan stops newer
    if stops && s.known then s else scanItem env newer s item

/-! ## The loop that builds the history -/

/-- One item, forwards. -/
def replayItem (history : ContextManager) : RolloutItem → ContextManager
  | .responseItem envelope => history.recordItem env.toEnv envelope
  | .interAgentCommunication communication =>
    history.recordItem env.toEnv ⟨communication.toModelInputItem, none⟩
  | .compacted compacted =>
    match compacted.replacementHistory with
    | some replacement => history.replaceAnnotated replacement
    | none =>
      let userMessages := collectAnnotatedUserMessages env.toEnv history.items
      history.replaceAnnotated (buildCompactedHistory env.toEnv [] userMessages compacted.message)
  | .eventMsg (.threadRolledBack numTurns) => history.dropLastNUserTurns env.toEnv numTurns
  | .eventMsg _ | .turnContext _ | .worldState _ | .sessionMeta _
  | .interAgentCommunicationMetadata _ => history

/-- All items, forwards. -/
def replay (history : ContextManager) (items : List RolloutItem) : ContextManager :=
  items.foldl (replayItem env) history

namespace RolloutItem

/-- A compaction. -/
def isCompacted : RolloutItem → Bool
  | compacted _ => true
  | _ => false

/-- A compaction that does not say what stands in place of the history. -/
def isLegacyCompaction : RolloutItem → Bool
  | compacted c => c.replacementHistory.isNone
  | _ => false

/-- A compaction of an older version. -/
def isCompactedWithoutWindowNumber : RolloutItem → Bool
  | compacted c => c.windowNumber.isNone
  | _ => false

end RolloutItem

/-! ## The world state and the window -/

/-- The snapshot after one more item. -/
def replayWorldState (baseline : Option WorldStateSnapshot) :
    RolloutItem → Option WorldStateSnapshot
  | .compacted _ => none
  | .worldState worldState =>
    if worldState.full then env.restoreSnapshot worldState.state
    else baseline.bind fun snapshot => env.applyMergePatch snapshot worldState.state
  -- only compactions and world states are collected
  | _ => baseline

variable (items : List RolloutItem)

/-- The window of the session. -/
def initialWindow : Option ReconstructedWindow :=
  if items.any RolloutItem.isCompactedWithoutWindowNumber then none
  else items.findSome? fun
    | .sessionMeta (some windowId) =>
      (env.parseUuidV7 windowId).map fun id => ⟨0, some id, none, some id⟩
    | _ => none

/-- Without numbers, compactions are counted. -/
def fallbackWindow : ReconstructedWindow :=
  ⟨(items.filter RolloutItem.isCompacted).length, none, none, none⟩

/-! ## The result -/

/-- What is reconstructed. -/
structure RolloutReconstruction where
  history : List Envelope
  previousTurnSettings : Option PreviousTurnSettings
  referenceContextItem : Option TurnContextItem
  worldStateBaseline : Option WorldStateSnapshot
  window : ReconstructedWindow

/-- What is made of the values that the first loop has found. -/
def assemble (s : ReverseReplay) : RolloutReconstruction :=
  let suffix := s.rolloutSuffix.getD items
  let base : ContextManager :=
    match s.baseReplacementHistory with
    | some replacement => ({} : ContextManager).replaceAnnotated replacement
    | none => {}
  { history := (replay env base suffix).items
    previousTurnSettings := s.previousTurnSettings
    referenceContextItem :=
      if suffix.any RolloutItem.isLegacyCompaction then none else s.referenceContextItem.toOption
    worldStateBaseline := s.worldStateReplay.reverse.foldl (replayWorldState env) none
    window := (s.window.or (initialWindow env items)).getD (fallbackWindow items) }

/-- A session from its rollout. -/
def reconstructHistoryFromRollout : RolloutReconstruction :=
  assemble env items (reverseScan env true items).finish

end Session
