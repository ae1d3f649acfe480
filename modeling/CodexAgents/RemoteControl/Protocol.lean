import CodexAgents.Lib.Text

/-!
# The remote-control protocol

`app-server-transport/src/transport/remote_control/protocol.rs`, and of `app-server-protocol` and
`outgoing_message.rs` the messages that go through it.  A remote client and the app server exchange
envelopes: each belongs to a stream of a client and may carry a sequence number.

JSON values are kept as texts; nothing here looks into them.
-/

namespace RemoteControl

open Text

/-- The id of a request. -/
inductive RequestId
  | string (value : Str)
  | integer (value : Int)
  deriving DecidableEq

/-- What an error says. -/
structure JSONRPCErrorError where
  code : Int
  data : Option Str := none
  message : Str
  deriving DecidableEq

/-- What clients send. -/
inductive JSONRPCMessage
  | request (id : RequestId) (method : Str) (params : Option Str) (trace : Option Str)
  | notification (method : Str) (params : Option Str)
  | response (id : RequestId) (result : Str)
  | error (id : RequestId) (error : JSONRPCErrorError)
  deriving DecidableEq

/-- What the server sends. -/
inductive OutgoingMessage
  | request (body : Str)
  | appServerNotification (body : Str)
  | response (id : RequestId) (result : Str)
  | error (id : RequestId) (error : JSONRPCErrorError)
  deriving DecidableEq

/-- A client. -/
structure ClientId where
  value : Str
  deriving DecidableEq

/-- A stream of a client. -/
structure StreamId where
  value : Str
  deriving DecidableEq

/-- A stream of a client. -/
abbrev ClientKey := ClientId × StreamId

/-! ## Envelopes of the client -/

/-- What a client sends. -/
inductive ClientEvent
  | clientMessage (message : JSONRPCMessage)
  | clientMessageChunk (segmentId segmentCount messageSizeBytes : Nat) (messageChunkBase64 : Str)
  /-- Acknowledges what the server has sent on the stream up to the sequence number of the envelope,
  or up to one segment of the message with that number. -/
  | ack (segmentId : Option Nat)
  | ping
  | clientClosed
  deriving DecidableEq

/-- An event of a client, with its number. -/
structure ClientEnvelope where
  event : ClientEvent
  clientId : ClientId
  streamId : Option StreamId
  seqId : Option Nat
  cursor : Option Str := none

/-! ## Envelopes of the server -/

/-- The answer to a ping. -/
inductive PongStatus
  | active
  | unknown
  deriving DecidableEq

/-- What the server sends. -/
inductive ServerEvent
  | serverMessage (message : OutgoingMessage)
  | serverMessageChunk (segmentId segmentCount messageSizeBytes : Nat) (messageChunkBase64 : Str)
  | ack
  | pong (status : PongStatus)
  deriving DecidableEq

/-- The number of a segment. -/
def ServerEvent.segmentId : ServerEvent → Option Nat
  | .serverMessageChunk segmentId .. => some segmentId
  | .serverMessage _ | .ack | .pong _ => none

/-- An event for a client, with its number. -/
structure ServerEnvelope where
  event : ServerEvent
  clientId : ClientId
  streamId : StreamId
  seqId : Nat
  deriving DecidableEq

/-- The stream of an envelope. -/
def ServerEnvelope.key (e : ServerEnvelope) : ClientKey := (e.clientId, e.streamId)

/-- An event that has no sequence number yet. -/
structure QueuedServerEnvelope where
  event : ServerEvent
  clientId : ClientId
  streamId : StreamId

/-- The stream of an envelope in the queue. -/
def QueuedServerEnvelope.key (e : QueuedServerEnvelope) : ClientKey := (e.clientId, e.streamId)

end RemoteControl
