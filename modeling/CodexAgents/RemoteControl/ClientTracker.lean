import CodexAgents.Lib.HashMap
import CodexAgents.Lib.Outcome
import CodexAgents.RemoteControl.Protocol

/-!
# The clients of the remote control

`app-server-transport/src/transport/remote_control/client_tracker.rs`.  Every stream of a remote
client that has sent an `initialize` request is a connection of the app server.  The tracker opens
and closes these connections and forwards the messages of the clients, by events which it puts into
the queue of the app server.

The queue is bounded, so that every event has to wait for a place in it.  What comes of the wait is
not the tracker's to choose (`Fate`): the event is forwarded, or the time is up and the tracker
stops, or the task that waits is given up.  A `ConnectionClosed` is not lost with the task that
waits for it: a task of its own forwards it, sooner or later (`closing`).

The functions of the source are programs that change the tracker and can stop at any event they
send, with what they have done so far done.
-/

namespace RemoteControl

open HashMap

open Text Outcome

/-! ## The state -/

/-- Connection ids come from a counter of 64 bits; it is not modelled that it could wrap. -/
abbrev ConnectionId := Nat

/-- What the server is told. -/
inductive TransportEvent
  | connectionOpened (connectionId : ConnectionId)
  | connectionClosed (connectionId : ConnectionId)
  | incomingMessage (connectionId : ConnectionId) (message : JSONRPCMessage)
  deriving DecidableEq

/-- The connection that it is about. -/
def TransportEvent.connectionId : TransportEvent → ConnectionId
  | .connectionOpened id | .connectionClosed id | .incomingMessage id _ => id

/-- An event in the queue, with the sequence id of the envelope that its message came in.  The
program does not keep the id; it is there to speak of the order in which messages are forwarded. -/
structure Forwarded where
  event : TransportEvent
  seqId : Option Nat

/-- Times are in milliseconds. -/
structure ClientState where
  connectionId : ConnectionId
  lastActivityAt : Nat
  lastInboundSeqId : Option Nat

/-- The clients, and what the server has been told. -/
structure ClientTracker where
  clients : HashMap ClientKey ClientState := ∅
  legacyStreamIds : HashMap ClientId StreamId := ∅
  /-- The tasks that write what the server sends to a client. -/
  joinSet : List ClientKey := []
  serverEventTx : List QueuedServerEnvelope := []
  transportEventTx : List Forwarded := []
  /-- The connections for which a task still has to forward a `ConnectionClosed`. -/
  closing : List ConnectionId := []
  /-- The counter that all transports take their connection ids from. -/
  connectionIdCounter : ConnectionId := 0

/-- What comes of an event that waits for a place in the queue. -/
inductive Fate
  | delivered
  /-- The time is up, or nobody reads the queue any more. -/
  | stopped
  /-- The task that waits is aborted. -/
  | aborted

/-- Why a program ends early. -/
inductive Halt
  | stopped
  | aborted

/-- What a call finds outside of the tracker.  While an event waits, other tasks can get a
`ConnectionClosed` into the queue (`landing`). -/
structure Env where
  now : Nat
  newRandom : StreamId
  iteration : HashMap.Order (ClientKey × ClientState)
  fate : TransportEvent → Fate
  landing : TransportEvent → List ConnectionId

/-- A step of the tracker, which may halt. -/
abbrev Program := EStateM Halt ClientTracker Unit

/-! ## The queue -/

variable (t : ClientTracker)

namespace ClientTracker

/-- The server is told something. -/
def push (f : Forwarded) : ClientTracker := { t with transportEventTx := t.transportEventTx ++ [f] }

variable (id : ConnectionId)

/-- A task will tell the server of the end of a connection. -/
def spawnConnectionClosed : ClientTracker := { t with closing := t.closing ++ [id] }

/-- A task that forwards a `ConnectionClosed` is done. -/
def land : ClientTracker :=
  if id ∈ t.closing then
    { t with closing := t.closing.erase id }.push ⟨.connectionClosed id, none⟩
  else t

/-- Such tasks are done. -/
def landAll (ids : List ConnectionId) : ClientTracker := ids.foldl land t

/-- A task that forwards a `ConnectionClosed` finds that nobody reads the queue any more. -/
def giveUpClosing : ClientTracker := { t with closing := t.closing.erase id }

end ClientTracker

variable (env : Env)

/-- The task is spawned before its end is waited for. -/
def sendConnectionClosed (id : ConnectionId) : Program := do
  modify (·.spawnConnectionClosed id)
  modify (·.landAll (env.landing (.connectionClosed id)))
  match env.fate (.connectionClosed id) with
  | .delivered => modify (·.land id)
  | .stopped => do
    modify (·.giveUpClosing id)
    throw .stopped
  | .aborted => throw .aborted

/-- An event that does not get a place in time is not forwarded. -/
def sendWithTimeout (seqId : Option Nat) (event : TransportEvent) : Program := do
  modify (·.landAll (env.landing event))
  match env.fate event with
  | .delivered => modify (·.push ⟨event, seqId⟩)
  | .stopped => throw .stopped
  | .aborted => throw .aborted

/-- The end of a connection is told without a timeout. -/
def sendTransportEvent (seqId : Option Nat) : TransportEvent → Program
  | .connectionClosed id => sendConnectionClosed env id
  | event => sendWithTimeout env seqId event

/-! ## Clients come and go -/

/-- Only `initialize` opens a connection. -/
def remoteControlMessageStartsConnection : JSONRPCMessage → Bool
  | .request _ method _ _ => method = "initialize"
  | _ => false

/-- How long a client may be silent, in milliseconds. -/
def remoteControlClientIdleTimeout : Nat := 10 * 60 * 1000

/-- The client has not been silent for so long. -/
def remoteControlClientIsAlive (client : ClientState) (now : Nat) : Bool :=
  now - client.lastActivityAt < remoteControlClientIdleTimeout

namespace ClientTracker

variable (key : ClientKey)

/-- The client is no longer there, and neither is the legacy entry if it names the same stream. -/
def withoutClient : ClientTracker :=
  { t with
    clients := t.clients.erase key
    legacyStreamIds :=
      if get t.legacyStreamIds key.1 = some key.2 then t.legacyStreamIds.erase key.1
      else t.legacyStreamIds }

/-- The client, and the tracker without it. -/
def removeClient : Option (ClientState × ClientTracker) :=
  (get t.clients key).map fun client => (client, t.withoutClient key)

/-- The number of a message that was delivered. -/
def recordInboundMessageDelivery (seqId : Option Nat) : ClientTracker :=
  match seqId, get t.clients key with
  | some seqId, some client =>
    { t with clients := t.clients.insert key { client with lastInboundSeqId := some seqId } }
  | _, _ => t

/-- The client has been active. -/
def touch (client : ClientState) (now : Nat) : ClientTracker :=
  { t with clients := t.clients.insert key { client with lastActivityAt := now } }

/-- A message with its sequence number, or a later one, was forwarded before. -/
def alreadyDelivered (seqId : Option Nat) : Bool :=
  match seqId, get t.clients key with
  | some seqId, some client => client.lastInboundSeqId.any (seqId ≤ ·)
  | _, _ => false

end ClientTracker

/-- The client goes, and the server is told. -/
def closeClient (key : ClientKey) : Program := fun t =>
  match t.removeClient key with
  | none => .ok () t
  | some (client, t) => sendTransportEvent env none (.connectionClosed client.connectionId) t

/-- The clients are collected first and then closed one after the other. -/
def closeExpiredClients : Program := fun t =>
  let expired := (env.iteration.arrange (pairs t.clients)).filter fun e =>
    !remoteControlClientIsAlive e.2 env.now
  expired.forM (fun e => closeClient env e.1) t

/-! ## Messages of the clients -/

/-- A number that has not been used. -/
def nextConnectionId : EStateM Halt ClientTracker ConnectionId := fun t =>
  .ok t.connectionIdCounter { t with connectionIdCounter := t.connectionIdCounter + 1 }

namespace ClientTracker

/-- A connection has been opened for the client, and a task writes to it. -/
def insertClient (t : ClientTracker) (key : ClientKey) (id : ConnectionId) (now : Nat)
    (isLegacyStreamId : Bool) : ClientTracker :=
  { t with
    joinSet := t.joinSet ++ [key]
    clients := t.clients.insert key ⟨id, now, none⟩
    legacyStreamIds :=
      if isLegacyStreamId then t.legacyStreamIds.insert key.1 key.2 else t.legacyStreamIds }

/-- The `initialize` request could not be forwarded.  Nobody waits for the task that closes the
connection. -/
def abandonClient (t : ClientTracker) (key : ClientKey) : ClientTracker :=
  match t.removeClient key with
  | none => t
  | some (client, t) => t.spawnConnectionClosed client.connectionId

end ClientTracker

variable (isLegacyStreamId : Bool) (seqId : Option Nat)

/-- The first message of a new connection. -/
def forwardInitialize (key : ClientKey)
    (connectionId : ConnectionId) (message : JSONRPCMessage) : Program := do
  let sent ← attempt id (fun _ t => t)
    (sendTransportEvent env seqId (.incomingMessage connectionId message))
  match sent with
  | .ok () =>
    if isLegacyStreamId then pure ()
    else modify (·.recordInboundMessageDelivery key seqId)
  | .error .stopped => do
    modify (·.abandonClient key)
    throw .stopped
  | .error .aborted => throw .aborted

/-- The end of `handle_message` for a client that is not there and sends `initialize`. -/
def openClient (key : ClientKey) (message : JSONRPCMessage) : Program := do
  let connectionId ← nextConnectionId
  sendTransportEvent env none (.connectionOpened connectionId)
  modify (·.insertClient key connectionId env.now isLegacyStreamId)
  forwardInitialize env isLegacyStreamId seqId key connectionId message

/-- An `initialize` of a client that is there closes it first. -/
def closeBeforeReopening (isInitialize : Bool) (key : ClientKey) : Program := fun t =>
  if isInitialize && (get t.clients key).isSome then closeClient env key t else .ok () t

/-- A message goes to its connection, or opens one. -/
def forwardOrOpen (isLegacyStreamId isInitialize : Bool) (seqId : Option Nat) (key : ClientKey)
    (message : JSONRPCMessage) : Program := fun t =>
  match get t.clients key with
  | some client =>
    (do
      modify (·.touch key client env.now)
      sendTransportEvent env seqId (.incomingMessage client.connectionId message)
      modify (·.recordInboundMessageDelivery key seqId) : Program) t
  | none => if isInitialize then openClient env isLegacyStreamId seqId key message t else .ok () t

/-- `handle_message` for a `ClientMessage`. -/
def handleClientMessage (key : ClientKey) (message : JSONRPCMessage) : Program := fun t =>
  let isInitialize := remoteControlMessageStartsConnection message
  if t.alreadyDelivered key seqId && !isInitialize then .ok () t
  else
    (do
      closeBeforeReopening env isInitialize key
      forwardOrOpen env isLegacyStreamId isInitialize seqId key message : Program) t

/-- A ping of a client that is not there is answered by a pong that says so.  The pong of a client
that is there is written by its own task. -/
def handlePing (key : ClientKey) : Program := fun t =>
  match get t.clients key with
  | some client => .ok () (t.touch key client env.now)
  | none => .ok () { t with serverEventTx := t.serverEventTx ++ [⟨.pong .unknown, key.1, key.2⟩] }

/-- The event opens a connection. -/
def isInitialize : ClientEvent → Bool
  | .clientMessage message => remoteControlMessageStartsConnection message
  | _ => false

variable (e : ClientEnvelope)

/-- The stream of an envelope.  A legacy client does not name its stream; its `initialize` takes the
entry it has out of `legacyStreamIds`. -/
def resolveStreamId (t : ClientTracker) : StreamId × ClientTracker :=
  match e.streamId with
  | some streamId => (streamId, t)
  | none =>
    let legacy := get t.legacyStreamIds e.clientId
    if isInitialize e.event then
      (legacy.getD env.newRandom, { t with legacyStreamIds := t.legacyStreamIds.erase e.clientId })
    else (legacy.getD (if e.event = .ping then env.newRandom else ⟨[]⟩), t)

/-- By the kind of event. -/
def handleEvent (key : ClientKey) : Program :=
  match e.event with
  | .clientMessage message => handleClientMessage env e.streamId.isNone e.seqId key message
  | .clientMessageChunk .. | .ack _ => pure ()
  | .ping => handlePing env key
  | .clientClosed => closeClient env key

/-- An envelope from a client. -/
def handleMessage : Program := fun t =>
  let (streamId, t) := resolveStreamId env e t
  if streamId.value.isEmpty then .ok () t else handleEvent env e (e.clientId, streamId) t

/-! ## Runs -/

/-- `bookkeep_join_set` gives the key of a task that has ended, and its client is closed. -/
def outboundTaskDone (key : ClientKey) : Program := fun t =>
  if key ∈ t.joinSet then closeClient env key { t with joinSet := t.joinSet.erase key }
  else .ok () t

/-- Closes clients until there are none; whether a client's event could be forwarded does not
matter.  The task that does so may itself be aborted. -/
def shutdownLoop : Nat → Program
  | 0 => pure ()
  | fuel + 1 => fun t =>
    match env.iteration.arrange (pairs t.clients) with
    | [] => .ok () t
    | (key, _) :: _ =>
      (do
        match ← attempt id (fun _ t => t) (closeClient env key) with
        | .error .aborted => throw .aborted
        | _ => shutdownLoop fuel : Program) t

/-- Every turn of the loop takes one client away. -/
def shutdown : Program := fun t => shutdownLoop env (pairs t.clients).length t

/-- What the loop of the tracker does. -/
inductive Step
  | handleMessage (e : ClientEnvelope)
  | closeExpiredClients
  | outboundTaskDone (key : ClientKey)
  | shutdown
  /-- A task that closes a connection gets its event into the queue, with no call of the tracker
  going on. -/
  | connectionClosedLands (id : ConnectionId)
  /-- Another transport takes a connection id. -/
  | connectionElsewhere

/-- A step of the loop. -/
def perform : Step → Program
  | .handleMessage e => handleMessage env e
  | .closeExpiredClients => closeExpiredClients env
  | .outboundTaskDone key => outboundTaskDone env key
  | .shutdown => shutdown env
  | .connectionClosedLands id => modify (·.land id)
  | .connectionElsewhere => modify fun t =>
    { t with connectionIdCounter := t.connectionIdCounter + 1 }

/-- A call that ends early leaves the tracker as it is then. -/
def stateAfter (m : Program) (t : ClientTracker) : ClientTracker :=
  match m t with
  | .ok _ t => t
  | .error _ t => t

/-- **A run of the tracker**: calls one after the other, each with what it finds outside. -/
def ClientTracker.run (t : ClientTracker) (steps : List (Env × Step)) : ClientTracker :=
  steps.foldl (fun t s => stateAfter (perform s.1 s.2) t) t

end RemoteControl
