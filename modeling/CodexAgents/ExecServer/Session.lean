import CodexAgents.ExecServer.Process
import CodexAgents.Lib.Outcome

/-!
# The events of a process on the client

`SessionState` of `exec-server/src/client.rs` and `client_recovery.rs`.  Events arrive as
notifications, out of order, and are published in the order of their numbers: those that are ahead
wait in `pending`.  After a connection was lost, `recover_events` takes from the answer to a read
what was missed.  The exit is not among the chunks of the answer: its number is guessed from a gap.

The map `pending` is a list in the order of the keys.  Numbers do not overflow.
-/

namespace ExecServer

open Text

/-- How many events may wait. -/
def maxPendingProcessEvents : Nat := 256

/-- How many bytes may wait. -/
def maxPendingProcessEventBytes : Nat := 1024 * 1024

/-- `OrderedSessionEvents`, and the events that were published. -/
structure SessionState where
  lastPublishedSeq : Nat := 0
  exitPublished : Bool := false
  closedPublished : Bool := false
  pending : List (Nat × ExecProcessEvent) := []
  pendingBytes : Nat := 0
  failure : Option Str := none
  events : List ExecProcessEvent := []

/-- The bytes of an event. -/
def pendingProcessEventBytes : ExecProcessEvent → Nat
  | .output chunk => chunk.chunk.length
  | .failed message => (String.ofList message).utf8ByteSize
  | .exited _ _ _ | .closed _ => 0

namespace SessionState

variable (s : SessionState)

/-! ## Publishing in order -/

variable (event : ExecProcessEvent)

/-- An event waits for those before it, if there is room. -/
def insertPending : Except Str SessionState :=
  match event.seq with
  | none => .error "cannot reorder an unsequenced process event"
  | some seq =>
    if (s.pending.lookup seq).isSome then .ok s
    else
      let closesGap : Bool := seq = s.lastPublishedSeq + 1
      if !closesGap ∧ maxPendingProcessEvents ≤ s.pending.length then
        .error "process event reorder buffer exceeds 256 entries"
      else if maxPendingProcessEventBytes < pendingProcessEventBytes event then
        .error "process event exceeds 1048576 bytes"
      else if !closesGap ∧
          maxPendingProcessEventBytes < s.pendingBytes + pendingProcessEventBytes event then
        .error "process event reorder buffer exceeds 1048576 bytes"
      else
        .ok { s with
          pending := s.pending.orderedInsert (fun a b => a.1 ≤ b.1) (seq, event)
          pendingBytes := s.pendingBytes + pendingProcessEventBytes event }

/-- The state after the next event, if that is pending, was published. -/
def publishEvent : SessionState :=
  { s with
    pending := s.pending.filter fun p => p.1 ≠ s.lastPublishedSeq + 1
    pendingBytes := s.pendingBytes - pendingProcessEventBytes event
    lastPublishedSeq := s.lastPublishedSeq + 1
    exitPublished := s.exitPublished || event.isExited
    closedPublished := s.closedPublished || event.isClosed
    events := s.events ++ [event] }

/-- The loop of `publish_ready`.  Every turn takes an event out of `pending`. -/
def publishReadyFrom : Nat → SessionState → Bool → Bool × SessionState
  | 0, s, publishedClosed => (publishedClosed, s)
  | turns + 1, s, publishedClosed =>
    match s.pending.lookup (s.lastPublishedSeq + 1) with
    | none => (publishedClosed, s)
    | some event =>
      publishReadyFrom turns (s.publishEvent event) (publishedClosed || event.isClosed)

/-- All events that are next are published. -/
def publishReady : Bool × SessionState := publishReadyFrom s.pending.length s false

/-- The state of a call that fails is the state before it. -/
def publishOrderedEvent : Except Str (Bool × SessionState) :=
  match event.seq with
  | none => .ok (false, { s with events := s.events ++ [event] })
  | some seq =>
    if s.failure.isSome || s.closedPublished || seq ≤ s.lastPublishedSeq then .ok (false, s)
    else (s.insertPending event).map publishReady

/-- The session fails, and nothing waits any more. -/
def setFailure (message : Str) : SessionState :=
  if s.failure.isSome || s.closedPublished then s
  else
    { s with
      failure := some message, pending := [], pendingBytes := 0,
      events := s.events ++ [.failed message] }

end SessionState

/-! ## Recovering -/

/-- The denial is noted in the first exit that is pending up to the target. -/
def amendExit (targetSeq : Nat) (sandboxDenied : Bool) :
    List (Nat × ExecProcessEvent) → List (Nat × ExecProcessEvent)
  | (key, .exited seq exitCode pendingDenied) :: pending =>
    if key ≤ targetSeq then
      (key, .exited seq exitCode (some (pendingDenied.getD false || sandboxDenied))) :: pending
    else (key, .exited seq exitCode pendingDenied) :: amendExit targetSeq sandboxDenied pending
  | p :: pending => p :: amendExit targetSeq sandboxDenied pending
  | [] => []

variable (s : SessionState) (targetSeq : Nat)

/-- The exit of the process is waiting. -/
def exitPending : Bool := s.pending.any fun p => p.1 ≤ targetSeq && p.2.isExited

/-- Events that were dropped cannot be recovered. -/
def recoveryGapError : Str :=
  "process events are no longer retained while recovering through sequence " ++
    natText targetSeq

/-- Where the pending events of the list, in the order of their numbers, first leave one out. -/
def firstMissingFrom (expected : Nat) : List Nat → Nat
  | [] => expected
  | seq :: seqs => if seq = expected then firstMissingFrom (expected + 1) seqs else expected

/-- The numbers of the pending events that are not published and not beyond the target. -/
def retainedSeqs : List Nat :=
  (s.pending.map Prod.fst).filter fun seq => s.lastPublishedSeq + 1 ≤ seq ∧ seq ≤ targetSeq

/-- The first number that is not there. -/
def firstMissingSeq : Nat := firstMissingFrom (s.lastPublishedSeq + 1) (retainedSeqs s targetSeq)

/-- A step of the recovery, which may fail. -/
abbrev Recovery := EStateM Str SessionState

/-- The same, in a recovery. -/
def insertPending (event : ExecProcessEvent) : Recovery PUnit := fun s =>
  match s.insertPending event with
  | .ok s' => .ok ⟨⟩ s'
  | .error message => .error message s

/-- The same, in a recovery. -/
def publishReady : Recovery Bool := fun s => .ok s.publishReady.1 s.publishReady.2

variable (response : ReadResponse)

/-- The exit of the answer, at the number that was guessed for it. -/
def insertExit (seq : Nat) : Recovery PUnit :=
  match response.exitCode with
  | some exitCode => insertPending (.exited seq exitCode (some response.sandboxDenied))
  | none => throw "recovering exited process did not include its exit code".toList

/-- A chunk is ahead of the next number: that has to be the number of the exit. -/
def guessExit (chunk : ProcessOutputChunk) (exitKnown : Bool) : Recovery (Bool × Bool) := do
  let s ← get
  if response.exited ∧ exitKnown = false ∧ s.lastPublishedSeq + 1 < chunk.seq then
    insertExit response (s.lastPublishedSeq + 1)
    let publishedClosed ← publishReady
    pure (true, publishedClosed)
  else pure (exitKnown, false)

/-- An output, if it is new. -/
def recoverChunk (chunk : ProcessOutputChunk) : Recovery Bool := do
  let s ← get
  if s.lastPublishedSeq < chunk.seq then
    insertPending (.output chunk)
    publishReady
  else pure false

/-- Whether the exit is known by then, and whether the close was published. -/
def recoverChunks (response : ReadResponse) (targetSeq : Nat) :
    List ProcessOutputChunk → Bool → Recovery (Bool × Bool)
  | [], exitKnown => pure (exitKnown, false)
  | chunk :: chunks, exitKnown =>
    if targetSeq < chunk.seq then
      throw ("recovered process output sequence " ++ natText chunk.seq ++
        " exceeds target sequence " ++ natText targetSeq)
    else do
      let (exitKnown, closed₁) ← guessExit response chunk exitKnown
      let closed₂ ← recoverChunk chunk
      let (exitKnown, closed₃) ← recoverChunks response targetSeq chunks exitKnown
      pure (exitKnown, closed₁ || closed₂ || closed₃)

variable (targetSeq : Nat)

/-- The end, unless it is known. -/
def recoverClosed : Recovery PUnit := do
  let s ← get
  if response.closed ∧ s.closedPublished = false ∧
      ¬ (s.pending.lookup targetSeq).any ExecProcessEvent.isClosed then
    insertPending (.closed targetSeq)
  else pure ⟨⟩

/-- What is missing up to the target can only be the exit. -/
def recoverExit (exitKnown : Bool) : Recovery PUnit := do
  let s ← get
  let missingCount := targetSeq - s.lastPublishedSeq - (retainedSeqs s targetSeq).length
  if response.exited ∧ exitKnown = false then
    if missingCount ≠ 1 then throw (recoveryGapError targetSeq)
    else insertExit response (firstMissingSeq s targetSeq)
  else if missingCount ≠ 0 then throw (recoveryGapError targetSeq)
  else pure ⟨⟩

/-- The number of the close is taken by something else. -/
def closeConflicts (response : ReadResponse) (targetSeq : Nat) : Bool :=
  response.closed && ((s.pending.lookup targetSeq).any (fun event => !event.isClosed) ||
      response.chunks.any fun chunk => chunk.seq = targetSeq)

/-- `recover_events`, once it is clear that there is something to recover. -/
def recoverMissing : Recovery Bool := do
  let s ← get
  set { s with pending := amendExit targetSeq response.sandboxDenied s.pending }
  if closeConflicts s response targetSeq then
    throw ("process close sequence " ++ natText targetSeq ++
      " conflicts with recovered output")
  else
    let (exitKnown, closed₁) ← recoverChunks response targetSeq response.chunks
      (s.exitPublished || exitPending s targetSeq)
    recoverClosed response targetSeq
    recoverExit response targetSeq exitKnown
    let closed₂ ← publishReady
    pure (closed₁ || closed₂)

/-- All that an answer says. -/
def recoverEvents : Recovery Bool :=
  match response.failure with
  | some message => throw ("process failed while recovering: " ++ message)
  | none => do
    let s ← get
    let targetSeq := response.nextSeq - 1
    if s.failure.isSome || s.closedPublished || targetSeq ≤ s.lastPublishedSeq then pure false
    else recoverMissing response targetSeq

end ExecServer
