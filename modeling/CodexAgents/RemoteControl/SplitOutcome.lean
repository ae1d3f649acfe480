import CodexAgents.RemoteControl.Segment

/-!
# What a message is cut into

`split_server_envelope_for_transport` returns for every envelope: `splitLoop` ends, since the
segments get smaller.  `SplitOutcome` has a case for each thing that it gives: the envelope, the
error that answers a response, nothing, or segments that make up the message (`split_outcome`).
-/

namespace RemoteControl

open Text Outcome Slice List

/-- **What an envelope becomes.** -/
inductive SplitOutcome (serde : Serde) (e : ServerEnvelope) : List ServerEnvelope → Prop
  /-- It is sent as it is.  A message fits then. -/
  | whole (h : ∀ message, e.event = .serverMessage message →
      ∃ size ≤ remoteControlSegmentMaxBytes, serializedLen serde e = .ok size) :
      SplitOutcome serde e [e]
  /-- A response that cannot be serialised is replaced by an error. -/
  | answered {id : RequestId} {result err : Str}
      (hevent : e.event = .serverMessage (.response id result))
      (hlen : serializedLen serde e = .error err) :
      SplitOutcome serde e [{ e with event := .serverMessage (responseSerializationError id err) }]
  /-- A message is dropped if it is larger than what is put together again, if its first byte does
  not fit into a segment, or if the segments fit in none of the rounds. -/
  | dropped {message : OutgoingMessage} {raw : Bytes} (hevent : e.event = .serverMessage message)
      (hraw : serde.message message = .ok raw)
      (h : remoteControlReassembledMaxBytes < raw.length ∨
        (∃ size, serializedChunkLen serde e 0 (min (max raw.length 1) remoteControlSegmentCountMax)
          raw.length (raw.take 1) = .ok size ∧ remoteControlSegmentMaxBytes < size) ∨
        ¬ SomeCutFits serde e raw (max 2 (raw.length ⌈/⌉ remoteControlSegmentTargetBytes))) :
      SplitOutcome serde e []
  /-- The parts of the message are sent in their order, each with its number, how many they are, and
  the size of the message. -/
  | segments {message : OutgoingMessage} {raw : Bytes} {parts : List Bytes}
      (hevent : e.event = .serverMessage message) (hraw : serde.message message = .ok raw)
      (hparts : parts.flatten = raw) (htwo : 2 ≤ raw.length → 2 ≤ parts.length)
      (hmax : parts.length ≤ remoteControlSegmentCountMax)
      (hfit : ∀ e' ∈ parts.zipIdx.map fun (chunk, segmentId) =>
          chunkEnvelope serde e segmentId parts.length raw.length chunk,
        ∃ size ≤ remoteControlSegmentMaxBytes, serializedLen serde e' = .ok size) :
      SplitOutcome serde e (parts.zipIdx.map fun (chunk, segmentId) =>
        chunkEnvelope serde e segmentId parts.length raw.length chunk)

variable {serde : Serde} {e : ServerEnvelope} {raw : Bytes} {envelopes : List ServerEnvelope}

/-- Segments that could be built are not too many. -/
lemma length_le_of_buildSegments {segmentCount chunkSize : Nat} (hraw : raw ≠ [])
    (h : buildSegments serde e raw segmentCount chunkSize = .ok envelopes) :
    segmentCount ≤ remoteControlSegmentCountMax := by
  obtain ⟨chunk, parts, hchunks⟩ := exists_cons_of_ne_nil (chunks_ne_nil chunkSize hraw)
  rw [buildSegments, hchunks, zipIdx_cons, mapM_cons] at h
  obtain ⟨e', hbuild, -⟩ := bind_eq_ok_iff.mp h
  by_contra hlt
  have herror : buildChunkEnvelope serde e 0 segmentCount raw.length chunk =
      .error segmentCountError := if_pos (Nat.lt_of_not_le hlt)
  cases herror.symm.trans hbuild

lemma SplitOutcome.of_splitMessage {message : OutgoingMessage}
    (hevent : e.event = .serverMessage message) (hraw : serde.message message = .ok raw)
    (h : splitMessage serde e raw = .ok envelopes) : SplitOutcome serde e envelopes := by
  obtain ⟨rfl, hdropped⟩ | ⟨-, chunkSize, hchunk, hbuild⟩ := splitMessage_cases h
  · exact .dropped hevent hraw hdropped
  · have hlength := length_chunks hchunk.pos raw
    have hfit := fun e' (he' : e' ∈ envelopes) =>
      serializedLen_of_buildSegments hchunk.fit hbuild he'
    have hmax : (chunks chunkSize raw).length ≤ remoteControlSegmentCountMax := by
      obtain rfl | hne := eq_or_ne raw []
      · exact Nat.zero_le _
      · exact hlength ▸ length_le_of_buildSegments hne hbuild
    have htwo : 2 ≤ raw.length → 2 ≤ (chunks chunkSize raw).length := by
      intro hsize
      by_contra hlt
      have hle := (ceilDiv_le_iff_le_mul hchunk.pos).mp (hlength ▸ Nat.le_of_not_lt hlt)
      have := hchunk.lt hsize
      omega
    rw [eq_of_buildSegments hbuild, ← hlength] at hfit ⊢
    exact .segments hevent hraw (chunks_flatten hchunk.pos raw) htwo hmax hfit

/-- **The envelope, an error in place of a response, nothing, or the segments of the message.** -/
theorem split_outcome (h : splitServerEnvelopeForTransport serde e = .ok envelopes) :
    SplitOutcome serde e envelopes := by
  rw [splitServerEnvelopeForTransport] at h
  split at h
  · rename_i message hevent
    split at h
    · rename_i err hlen
      split at h
      · cases h
        exact .answered hevent hlen
      · cases h
    · rename_i size hlen
      split_ifs at h with hle
      · cases h
        exact .whole fun _ _ => ⟨size, hle, hlen⟩
      · obtain ⟨raw, hraw, h⟩ := bind_eq_ok_iff.mp h
        exact .of_splitMessage hevent hraw h
  · rename_i hevent
    cases h
    exact .whole fun message hmessage => absurd hmessage (hevent message)

/-- Responses cannot be serialised. -/
def responselessSerde : Serde where
  message _ := .ok [0x7b, 0x7d]
  envelope e := match e.event with
    | .serverMessage (.response ..) => .error "key must be a string"
    | _ => .ok [0x7b, 0x7d]
  base64 _ := []

/-- A message to a client. -/
def envelopeOf (message : OutgoingMessage) : ServerEnvelope where
  event := .serverMessage message
  clientId := ⟨"client"⟩
  streamId := ⟨"stream"⟩
  seqId := 1

/-- Only segments fit. -/
def largeSerde : Serde where
  message _ := .ok [0x7b, 0x7d]
  envelope e := match e.event with
    | .serverMessage _ => .ok (replicate (remoteControlSegmentMaxBytes + 1) 0)
    | _ => .ok [0x7b, 0x7d]
  base64 chunk := chunk.map fun byte => Char.ofNat byte.toNat

/-- An envelope that is sent as it is, and one that is cut into two segments. -/
theorem split_outcome_cut :
    SplitOutcome responselessSerde (envelopeOf (.request [])) [envelopeOf (.request [])] ∧
      SplitOutcome largeSerde (envelopeOf (.request []))
        [{ envelopeOf (.request []) with event := .serverMessageChunk 0 2 2 ['\x7b'] },
          { envelopeOf (.request []) with event := .serverMessageChunk 1 2 2 ['\x7d'] }] := by
  refine ⟨split_outcome rfl, split_outcome ?_⟩
  have hlen : serializedLen largeSerde (envelopeOf (.request [])) =
      .ok (remoteControlSegmentMaxBytes + 1) :=
    congrArg Except.ok length_replicate
  have hsplit : splitServerEnvelopeForTransport largeSerde (envelopeOf (.request [])) =
      splitMessage largeSerde (envelopeOf (.request [])) [0x7b, 0x7d] := by
    rw [splitServerEnvelopeForTransport, hlen]
    exact if_neg (Nat.not_succ_le_self _)
  have hminimal : serializedChunkLen largeSerde (envelopeOf (.request [])) 0 2 2 [0x7b] = .ok 2 :=
    rfl
  rw [hsplit, splitMessage, if_neg (by decide)]
  refine (congrArg (Except.bind · _) hminimal).trans ?_
  dsimp only [Except.bind]
  rw [if_neg (by decide), splitLoop, if_pos (by decide)]
  decide

/-- **A response that cannot be serialised** is not sent, but an error in its place. -/
theorem response_answered_by_error :
    splitServerEnvelopeForTransport responselessSerde (envelopeOf (.response (.integer 7) [])) =
        .ok [envelopeOf (responseSerializationError (.integer 7) "key must be a string")] ∧
      envelopeOf (responseSerializationError (.integer 7) "key must be a string") ≠
        envelopeOf (.response (.integer 7) []) :=
  ⟨rfl, by decide⟩

end RemoteControl
