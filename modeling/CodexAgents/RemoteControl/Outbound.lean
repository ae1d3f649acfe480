import CodexAgents.Lib.HashMap
import CodexAgents.RemoteControl.Segment

/-!
# What the server sends to its remote clients

`app-server-transport/src/transport/remote_control/websocket.rs`: the outbound half.  Events for the
clients wait in a queue.  The writer takes them out one by one, numbers them within their stream,
cuts them for the wire and keeps a copy of every envelope until it is acknowledged
(`BoundedOutboundBuffer`).  When the websocket breaks, a new writer starts with what is in the
buffer.

Numbering, cutting and buffering happen under one lock, sending outside of it.  So a connection can
break with any part of the envelopes of a message sent, and acknowledgements can come in between.
`Outbound` is the state of all this: next to what the program keeps it has what has been put on the
wire, on whatever connection, what was numbered, and which acknowledgements have been received.
-/

namespace RemoteControl

open Text

/-- The largest value of a `usize`. -/
def usizeMax : Nat := 2 ^ 64 - 1

/-- The largest value of a `u64`. -/
def u64Max : Nat := 2 ^ 64 - 1

/-- How many envelopes can be unacknowledged. -/
def channelCapacity : Nat := 128

/-! ## The buffer -/

/-- The envelopes that have not been acknowledged. -/
structure BoundedOutboundBuffer where
  bufferByStream : HashMap ClientKey (List ServerEnvelope) := ∅
  used : Nat := 0

/-- The place of an envelope in its stream. -/
def envelopeCursor (e : ServerEnvelope) : Nat × Nat := (e.seqId, e.event.segmentId.getD 0)

/-- The order of pairs. -/
def cursorLe (a b : Nat × Nat) : Bool := a.1 < b.1 || (a.1 = b.1 && a.2 ≤ b.2)

/-- What an acknowledgement leaves of a stream. -/
def retained (ackedSeqId : Nat) (ackedSegmentId : Option Nat) (buffer : List ServerEnvelope) :
    List ServerEnvelope :=
  buffer.filter fun e => !cursorLe (envelopeCursor e) (ackedSeqId, ackedSegmentId.getD usizeMax)

namespace BoundedOutboundBuffer

variable (b : BoundedOutboundBuffer)

/-- One more envelope. -/
def insert (e : ServerEnvelope) : BoundedOutboundBuffer where
  bufferByStream := HashMap.push b.bufferByStream e.key e
  used := b.used + 1

/-- What is acknowledged goes. -/
def ack (key : ClientKey) (ackedSeqId : Nat)
    (ackedSegmentId : Option Nat) : BoundedOutboundBuffer :=
  match HashMap.get b.bufferByStream key with
  | none => b
  | some buffer =>
    let left := retained ackedSeqId ackedSegmentId buffer
    { bufferByStream :=
        if left.isEmpty then b.bufferByStream.erase key else b.bufferByStream.insert key left
      used := b.used - (buffer.length - left.length) }

/-- The streams come in the order of the map. -/
def serverEnvelopes (iteration : HashMap.Order (ClientKey × List ServerEnvelope)) :
    List ServerEnvelope :=
  (iteration.arrange (HashMap.pairs b.bufferByStream)).flatMap (·.2)

end BoundedOutboundBuffer

/-! ## The state under the lock -/

/-- Without the parts that put the messages of the clients together. -/
structure WebsocketState where
  outboundBuffer : BoundedOutboundBuffer := {}
  nextSeqIdByStream : HashMap ClientKey Nat := ∅

/-- An acknowledgement, of a whole message or up to one of its segments. -/
structure Ack where
  key : ClientKey
  seqId : Nat
  segmentId : Option Nat

/-- Only an ack that has a number and a stream counts. -/
def ClientEnvelope.ack? (e : ClientEnvelope) : Option Ack :=
  match e.event, e.seqId, e.streamId with
  | .ack segmentId, some seqId, some streamId => some ⟨(e.clientId, streamId), seqId, segmentId⟩
  | _, _, _ => none

/-- The part of `record_client_message_delivery` that is about what the server has sent. -/
def WebsocketState.recordClientMessageDelivery (s : WebsocketState) (e : ClientEnvelope) :
    WebsocketState :=
  match e.ack? with
  | none => s
  | some a => { s with outboundBuffer := s.outboundBuffer.ack a.key a.seqId a.segmentId }

/-- The number that the next message of a stream gets. -/
def WebsocketState.nextSeqId (s : WebsocketState) (key : ClientKey) : Nat :=
  (HashMap.get s.nextSeqIdByStream key).getD 1

variable (serde : Serde)

/-- What was made of an event that the writer has taken out of the queue. -/
structure Numbered where
  queued : QueuedServerEnvelope
  seqId : Nat
  envelopes : List ServerEnvelope

/-- An envelope gets its number. -/
def QueuedServerEnvelope.number (q : QueuedServerEnvelope) (seqId : Nat) : ServerEnvelope :=
  ⟨q.event, q.clientId, q.streamId, seqId⟩

/-- What the writer does under the lock.  An event that cannot be cut does not use up a number.
Envelopes that cannot be serialised are left out. -/
def WebsocketState.number (s : WebsocketState) (q : QueuedServerEnvelope) :
    WebsocketState × Option Numbered :=
  let seqId := s.nextSeqId q.key
  match splitServerEnvelopeForTransport serde (q.number seqId) with
  | .error _ => ({ s with nextSeqIdByStream := s.nextSeqIdByStream.insert q.key seqId }, none)
  | .ok envelopes =>
    let buffered := envelopes.filter fun e => (serde.envelope e).isOk
    ({ outboundBuffer := buffered.foldl BoundedOutboundBuffer.insert s.outboundBuffer
       nextSeqIdByStream := s.nextSeqIdByStream.insert q.key (min (seqId + 1) u64Max) },
      some ⟨q, seqId, buffered⟩)

/-! ## The writer and the wire -/

/-- The sending end, with or without a connection. -/
structure Outbound where
  state : WebsocketState := {}
  /-- What the writer still has to send before it takes the next event out of the queue, if there is
  a connection. -/
  writer : Option (List ServerEnvelope) := none
  wire : List ServerEnvelope := []
  numbered : List Numbered := []
  acks : List Ack := []

/-- What happens next. -/
inductive OutboundStep
  /-- A writer starts on a new connection. -/
  | connect (iteration : HashMap.Order (ClientKey × List ServerEnvelope))
  /-- It puts the next envelope on the wire. -/
  | send
  /-- The connection breaks, or is given up.  The envelope that is being sent may have reached the
  wire. -/
  | disconnect (reached : Bool)
  /-- The writer takes an event out of the queue.  Segment ids are of type `usize`. -/
  | receive (q : QueuedServerEnvelope) (h : ∀ n ∈ q.event.segmentId, n ≤ usizeMax)
  /-- An envelope of a client has been handled. -/
  | delivered (e : ClientEnvelope)

namespace Outbound

variable (o : Outbound)

/-- The writer takes an event only if there is nothing left to send, and room in the buffer. -/
def ready : Bool := o.writer = some [] && o.state.outboundBuffer.used < channelCapacity

/-- A step of the sending end. -/
def step : OutboundStep → Outbound
  | .connect iteration =>
    match o.writer with
    | none =>
      { o with
        writer := some ((o.state.outboundBuffer.serverEnvelopes iteration).filter fun e =>
          (serde.envelope e).isOk) }
    | some _ => o
  | .send =>
    match o.writer with
    | some (e :: pending) => { o with writer := some pending, wire := o.wire ++ [e] }
    | _ => o
  | .disconnect reached =>
    match o.writer with
    | none => o
    | some pending =>
      { o with writer := none, wire := o.wire ++ if reached then pending.take 1 else [] }
  | .receive q _ =>
    if o.ready then
      let (state, numbered) := o.state.number serde q
      { o with
        state
        writer := some (numbered.elim [] (·.envelopes))
        numbered := o.numbered ++ numbered.toList }
    else o
  | .delivered e =>
    { o with
      state := o.state.recordClientMessageDelivery e
      acks := o.acks ++ e.ack?.toList }

/-- **A run**: the steps of the writer, of the reader and of the network, in any order. -/
def run (steps : List OutboundStep) : Outbound := steps.foldl (step serde) o

/-! ## What is seen of a stream -/

variable (key : ClientKey)

/-- The envelopes that have been buffered, in the order of their messages. -/
def log : List ServerEnvelope := (o.numbered.filter (·.queued.key = key)).flatMap (·.envelopes)

/-- The envelopes in the order in which they were put on the wire for the first time. -/
def firstSent : List ServerEnvelope := (o.wire.filter (·.key = key)).eraseDups

/-- The envelopes in the buffer. -/
def buffered : List ServerEnvelope := HashMap.values o.state.outboundBuffer.bufferByStream key

end Outbound

end RemoteControl
