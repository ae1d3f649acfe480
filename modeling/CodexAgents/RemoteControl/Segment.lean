import CodexAgents.Lib.Chunks
import CodexAgents.Lib.Outcome
import CodexAgents.RemoteControl.Protocol

/-!
# Large messages in segments

`app-server-transport/src/transport/remote_control/segment.rs`: how an envelope of the server is cut
for the wire.  A message that is too large for one envelope is sent in segments, each an envelope of
its own with the sequence number of the message; a message that is too large altogether, or whose
segments cannot be made to fit, is dropped.

The number of segments is found by trial.  The loop ends since the size of the segments gets smaller
in every round, although the number of segments, from which it is computed, may go down.
-/

namespace RemoteControl

open Text Outcome Slice List

/-- What is sent. -/
abbrev Bytes := List UInt8

/-- Longer messages are split. -/
def remoteControlSegmentTargetBytes : Nat := 100 * 1024

/-- How long a segment can be. -/
def remoteControlSegmentMaxBytes : Nat := 150 * 1024

/-- How long a message can be. -/
def remoteControlReassembledMaxBytes : Nat := 100 * 1024 * 1024

/-- How many segments there can be. -/
def remoteControlSegmentCountMax : Nat := 1024

/-- The code of an internal error. -/
def internalErrorCode : Int := -32603

/-- What `serde_json` makes of messages and of envelopes, or its error; and `base64`. -/
structure Serde where
  message : OutgoingMessage → Except Str Bytes
  envelope : ServerEnvelope → Except Str Bytes
  base64 : Bytes → Str

/-- What is sent in place of a response that cannot be. -/
def responseSerializationError (requestId : RequestId) (err : Str) : OutgoingMessage :=
  .error requestId
    { code := internalErrorCode
      message := "failed to serialize response: " ++ err }

variable (serde : Serde) (e : ServerEnvelope)

/-- The length of an envelope. -/
def serializedLen : Except Str Nat := (serde.envelope e).map List.length

def segmentCountError : Str := "remote-control segment count exceeds maximum"

variable (segmentId segmentCount messageSizeBytes : Nat)

/-- One segment of the message of an envelope. -/
def chunkEnvelope (chunk : Bytes) : ServerEnvelope :=
  { e with
    event := .serverMessageChunk segmentId segmentCount messageSizeBytes (serde.base64 chunk) }

/-- The envelope of a segment, unless there are too many. -/
def buildChunkEnvelope (chunk : Bytes) : Except Str ServerEnvelope :=
  if remoteControlSegmentCountMax < segmentCount then .error segmentCountError
  else .ok (chunkEnvelope serde e segmentId segmentCount messageSizeBytes chunk)

/-- The length of this envelope. -/
def serializedChunkLen (chunk : Bytes) : Except Str Nat :=
  (buildChunkEnvelope serde e segmentId segmentCount messageSizeBytes chunk).bind
    (serializedLen serde)

/-! ## The loop -/

section

variable (e : ServerEnvelope) (raw : Bytes)

/-- The segments can be built and none is too large. -/
def segmentsFit (segmentCount chunkSize : Nat) : Bool :=
  (chunks chunkSize raw).zipIdx.all fun (chunk, segmentId) =>
    match serializedChunkLen serde e segmentId segmentCount raw.length chunk with
    | .ok size => size ≤ remoteControlSegmentMaxBytes
    | .error _ => false

/-- The segments of one size. -/
def buildSegments (segmentCount chunkSize : Nat) : Except Str (List ServerEnvelope) :=
  (chunks chunkSize raw).zipIdx.mapM fun (chunk, segmentId) =>
    buildChunkEnvelope serde e segmentId segmentCount raw.length chunk

/-- The size of the segments, by their number. -/
def chunkSizeFor (messageSizeBytes segmentCount : Nat) : Nat :=
  max 1 (messageSizeBytes ⌈/⌉ segmentCount)

/-- The number of segments to try next. -/
def nextSegmentCount (messageSizeBytes chunkSize : Nat) : Nat :=
  let next := messageSizeBytes ⌈/⌉ chunkSize + 1
  if chunkSizeFor messageSizeBytes next = chunkSize then messageSizeBytes else next

/-- **The segments get smaller**, unless they have only one byte. -/
theorem chunkSizeFor_nextSegmentCount_lt (messageSizeBytes : Nat) {chunkSize}
    (h : 1 < chunkSize) :
    chunkSizeFor messageSizeBytes (nextSegmentCount messageSizeBytes chunkSize) < chunkSize := by
  rw [nextSegmentCount]
  split_ifs with hne
  · -- One byte for each segment.
    have hone : messageSizeBytes ⌈/⌉ messageSizeBytes ≤ 1 := by
      obtain hzero | hpos := Nat.eq_zero_or_pos messageSizeBytes
      · rw [hzero, zero_ceilDiv]
        exact Nat.zero_le 1
      · exact (ceilDiv_le_iff_le_mul hpos).mpr (Nat.le_of_eq (mul_one _).symm)
    rw [chunkSizeFor, max_eq_left hone]
    exact h
  · refine lt_of_le_of_ne (Nat.max_le.mpr ⟨le_of_lt h, ?_⟩) hne
    rw [ceilDiv_le_iff_le_mul (Nat.succ_pos _)]
    calc messageSizeBytes ≤ chunkSize * (messageSizeBytes ⌈/⌉ chunkSize) :=
          le_smul_ceilDiv (Nat.lt_of_succ_lt h)
      _ ≤ (messageSizeBytes ⌈/⌉ chunkSize + 1) * chunkSize := by
          rw [mul_comm]
          exact Nat.mul_le_mul_right chunkSize (Nat.le_succ _)

/-- The rounds of the loop, by the number of segments that is tried. -/
def splitLoop (segmentCount : Nat) : Except Str (List ServerEnvelope) :=
  let chunkSize := chunkSizeFor raw.length segmentCount
  if segmentsFit serde e raw (raw.length ⌈/⌉ chunkSize) chunkSize then
    buildSegments serde e raw (raw.length ⌈/⌉ chunkSize) chunkSize
  else if chunkSize = 1 then .ok []
  else splitLoop (nextSegmentCount raw.length chunkSize)
termination_by chunkSizeFor raw.length segmentCount
decreasing_by
  rename_i _ hne
  refine chunkSizeFor_nextSegmentCount_lt raw.length ?_
  exact lt_of_le_of_ne (le_max_left _ _) (Ne.symm hne)

/-- A message that is too large is dropped, and so is one of which not even a segment of one byte
fits. -/
def splitMessage : Except Str (List ServerEnvelope) :=
  if remoteControlReassembledMaxBytes < raw.length then .ok []
  else
    let minimalSegmentCount := min (max raw.length 1) remoteControlSegmentCountMax
    (serializedChunkLen serde e 0 minimalSegmentCount raw.length (raw.take 1)).bind fun size =>
      if remoteControlSegmentMaxBytes < size then .ok []
      else splitLoop serde e raw (max 2 (raw.length ⌈/⌉ remoteControlSegmentTargetBytes))

end

/-- A response that cannot be serialised is answered for by an error. -/
def splitServerEnvelopeForTransport (e : ServerEnvelope) : Except Str (List ServerEnvelope) :=
  match e.event with
  | .serverMessage message =>
    match serializedLen serde e with
    | .error err =>
      match message with
      | .response id _ =>
        .ok [{ e with event := .serverMessage (responseSerializationError id err) }]
      | _ => .error err
    | .ok size =>
      if size ≤ remoteControlSegmentMaxBytes then .ok [e]
      else (serde.message message).bind (splitMessage serde e)
  | _ => .ok [e]

/-! ## What it gives -/

/-- **The envelopes of one message**: a single one, or segments in their order; there may be none of
them.  All are of the same stream and have the number of the message. -/
structure SplitOf (e : ServerEnvelope) (envelopes : List ServerEnvelope) : Prop where
  key : ∀ e' ∈ envelopes, e'.key = e.key
  seqId : ∀ e' ∈ envelopes, e'.seqId = e.seqId
  segments : (∃ e', envelopes = [e'] ∧ (e'.event.segmentId = none ∨ e' = e)) ∨
    ∃ n ≤ remoteControlReassembledMaxBytes,
      envelopes.map (·.event.segmentId) = (List.range n).map some

variable {serde} {e : ServerEnvelope} {raw : Bytes} {envelopes : List ServerEnvelope}
  {segmentCount chunkSize : Nat}

lemma splitOf_nil : SplitOf e [] :=
  ⟨fun _ h => (nomatch h), fun _ h => (nomatch h), .inr ⟨0, Nat.zero_le _, rfl⟩⟩

lemma splitOf_singleton {event} (h : event.segmentId = none ∨ event = e.event) :
    SplitOf e [{ e with event }] := by
  refine ⟨fun _ h => mem_singleton.mp h ▸ rfl, fun _ h => mem_singleton.mp h ▸ rfl,
    .inl ⟨_, rfl, h.imp id ?_⟩⟩
  rintro rfl
  rfl

/-! ### Segments -/

variable {size : Nat}

lemma isOk_of_serializedLen (h : serializedLen serde e = .ok size) : (serde.envelope e).isOk := by
  rw [serializedLen] at h
  revert h
  cases serde.envelope e with
  | error err => exact fun h => (nomatch h)
  | ok bytes => exact fun _ => rfl

variable {e' : ServerEnvelope} {messageSizeBytes : Nat}

lemma eq_of_buildChunkEnvelope {segmentId chunk}
    (h : buildChunkEnvelope serde e segmentId segmentCount messageSizeBytes chunk = .ok e') :
    e' = chunkEnvelope serde e segmentId segmentCount messageSizeBytes chunk := by
  rw [buildChunkEnvelope] at h
  split at h
  · cases h
  · exact (Except.ok.inj h).symm

lemma eq_of_buildSegments (h : buildSegments serde e raw segmentCount chunkSize = .ok envelopes) :
    envelopes = (chunks chunkSize raw).zipIdx.map fun c =>
      chunkEnvelope serde e c.2 segmentCount raw.length c.1 :=
  eq_map_of_mapM_eq_ok (fun _ _ => eq_of_buildChunkEnvelope) h

lemma splitOf_buildSegments (hsize : raw.length ≤ remoteControlReassembledMaxBytes)
    (h : buildSegments serde e raw segmentCount chunkSize = .ok envelopes) :
    SplitOf e envelopes := by
  rw [eq_of_buildSegments h]
  refine ⟨fun e' he' => ?_, fun e' he' => ?_,
    .inr ⟨_, (length_chunks_le chunkSize raw).trans hsize, ?_⟩⟩
  · obtain ⟨_, _, rfl⟩ := mem_map.mp he'
    rfl
  · obtain ⟨_, _, rfl⟩ := mem_map.mp he'
    rfl
  · rw [map_map, range_eq_range', ← zipIdx_map_snd, map_map]
    rfl

section

variable (hfit : segmentsFit serde e raw segmentCount chunkSize)
  (h : buildSegments serde e raw segmentCount chunkSize = .ok envelopes) (he' : e' ∈ envelopes)
include hfit h he'

/-- Segments whose size was measured are not too large. -/
lemma serializedLen_of_buildSegments :
    ∃ size ≤ remoteControlSegmentMaxBytes, serializedLen serde e' = .ok size := by
  rw [eq_of_buildSegments h] at he'
  obtain ⟨c, hc, rfl⟩ := mem_map.mp he'
  have hsize := all_eq_true.mp hfit c hc
  dsimp only at hsize
  split at hsize
  · rename_i size hlen
    obtain ⟨e'', hbuild, hlen⟩ := bind_eq_ok_iff.mp hlen
    rw [eq_of_buildChunkEnvelope hbuild] at hlen
    exact ⟨size, of_decide_eq_true hsize, hlen⟩
  · cases hsize

lemma isOk_of_buildSegments : (serde.envelope e').isOk := by
  obtain ⟨_, -, hlen⟩ := serializedLen_of_buildSegments hfit h he'
  exact isOk_of_serializedLen hlen

end

/-! ### The whole function -/

lemma chunkSizeFor_lt (hsize : 2 ≤ messageSizeBytes) (hcount : 2 ≤ segmentCount) :
    chunkSizeFor messageSizeBytes segmentCount < messageSizeBytes := by
  have hdiv : messageSizeBytes ⌈/⌉ segmentCount ≤ messageSizeBytes - 1 := by
    rw [ceilDiv_le_iff_le_mul (by omega)]
    have hmul := Nat.mul_le_mul_right (messageSizeBytes - 1) hcount
    omega
  exact Nat.max_lt.mpr ⟨hsize, by omega⟩

lemma two_le_nextSegmentCount (hsize : 2 ≤ messageSizeBytes) (hchunk : 0 < chunkSize) :
    2 ≤ nextSegmentCount messageSizeBytes chunkSize := by
  rw [nextSegmentCount]
  split
  · exact hsize
  · have hpos : messageSizeBytes ⌈/⌉ chunkSize ≠ 0 := by
      intro hzero
      have hle : messageSizeBytes ≤ chunkSize * (messageSizeBytes ⌈/⌉ chunkSize) :=
        le_smul_ceilDiv hchunk
      rw [hzero] at hle
      omega
    omega

/-- In one of the rounds the segments fit. -/
inductive SomeCutFits (serde : Serde) (e : ServerEnvelope) (raw : Bytes) : Nat → Prop
  | here {segmentCount : Nat}
      (h : segmentsFit serde e raw (raw.length ⌈/⌉ chunkSizeFor raw.length segmentCount)
        (chunkSizeFor raw.length segmentCount) = true) : SomeCutFits serde e raw segmentCount
  | later {segmentCount : Nat} (h : chunkSizeFor raw.length segmentCount ≠ 1)
      (hlater : SomeCutFits serde e raw
        (nextSegmentCount raw.length (chunkSizeFor raw.length segmentCount))) :
      SomeCutFits serde e raw segmentCount

/-- The size of segments that fit: it is of at least one byte, and of less than the message has. -/
structure FittingSize (serde : Serde) (e : ServerEnvelope) (raw : Bytes) (chunkSize : Nat) :
    Prop where
  pos : 0 < chunkSize
  lt : 2 ≤ raw.length → chunkSize < raw.length
  fit : segmentsFit serde e raw (raw.length ⌈/⌉ chunkSize) chunkSize = true

/-- The loop gives segments that fit, or nothing if in no round they do. -/
lemma splitLoop_cases (segmentCount : Nat) (hcount : 2 ≤ raw.length → 2 ≤ segmentCount)
    (h : splitLoop serde e raw segmentCount = .ok envelopes) :
    envelopes = [] ∧ ¬ SomeCutFits serde e raw segmentCount ∨
      ∃ chunkSize, FittingSize serde e raw chunkSize ∧
        buildSegments serde e raw (raw.length ⌈/⌉ chunkSize) chunkSize = .ok envelopes := by
  induction segmentCount using splitLoop.induct serde e raw with
  | case1 segmentCount chunkSize hfit =>
    rw [splitLoop, if_pos hfit] at h
    have hlt := fun hsize => chunkSizeFor_lt hsize (hcount hsize)
    exact .inr ⟨_, ⟨Nat.le_max_left _ _, hlt, hfit⟩, h⟩
  | case2 segmentCount chunkSize hfit hone =>
    rw [splitLoop, if_neg hfit, if_pos hone] at h
    cases h
    refine .inl ⟨rfl, fun hcut => ?_⟩
    obtain hhere | ⟨hne, -⟩ := hcut
    · exact hfit hhere
    · exact hne hone
  | case3 segmentCount chunkSize hfit hone ih =>
    rw [splitLoop, if_neg hfit, if_neg hone] at h
    have hnext : 2 ≤ raw.length → 2 ≤ nextSegmentCount raw.length chunkSize :=
      fun hsize => two_le_nextSegmentCount hsize (Nat.le_max_left _ _)
    refine (ih hnext h).imp_left fun hnone => ⟨hnone.1, fun hcut => ?_⟩
    obtain hhere | ⟨-, hlater⟩ := hcut
    · exact hfit hhere
    · exact hnone.2 hlater

/-- A message is dropped if it is too large, if its first byte does not fit, or if no cut does. -/
lemma splitMessage_cases (h : splitMessage serde e raw = .ok envelopes) :
    envelopes = [] ∧ (remoteControlReassembledMaxBytes < raw.length ∨
        (∃ size, serializedChunkLen serde e 0 (min (max raw.length 1) remoteControlSegmentCountMax)
          raw.length (raw.take 1) = .ok size ∧ remoteControlSegmentMaxBytes < size) ∨
        ¬ SomeCutFits serde e raw (max 2 (raw.length ⌈/⌉ remoteControlSegmentTargetBytes))) ∨
      raw.length ≤ remoteControlReassembledMaxBytes ∧
        ∃ chunkSize, FittingSize serde e raw chunkSize ∧
          buildSegments serde e raw (raw.length ⌈/⌉ chunkSize) chunkSize = .ok envelopes := by
  rw [splitMessage] at h
  split_ifs at h with hsize
  · cases h
    exact .inl ⟨rfl, .inl hsize⟩
  · obtain ⟨size, hminimal, h⟩ := bind_eq_ok_iff.mp h
    split_ifs at h with hlarge
    · cases h
      exact .inl ⟨rfl, .inr (.inl ⟨size, hminimal, hlarge⟩)⟩
    · obtain ⟨hnil, hnone⟩ | hsegments := splitLoop_cases _ (fun _ => le_max_left _ _) h
      · exact .inl ⟨hnil, .inr (.inr hnone)⟩
      · exact .inr ⟨Nat.le_of_not_lt hsize, hsegments⟩

section

variable (h : splitServerEnvelopeForTransport serde e = .ok envelopes)
include h

/-- One envelope, or what a large message is cut into. -/
lemma splitServerEnvelopeForTransport_cases :
    (∃ event : ServerEvent, envelopes = [{ e with event }] ∧
      (event.segmentId = none ∨ event = e.event)) ∨
    ∃ raw, splitMessage serde e raw = .ok envelopes := by
  rw [splitServerEnvelopeForTransport] at h
  split at h
  · split at h
    · split at h
      · cases h
        exact .inl ⟨_, rfl, .inl rfl⟩
      · cases h
    · split at h
      · cases h
        exact .inl ⟨_, rfl, .inr rfl⟩
      · obtain ⟨raw, _, h⟩ := bind_eq_ok_iff.mp h
        exact .inr ⟨raw, h⟩
  · cases h
    exact .inl ⟨_, rfl, .inr rfl⟩

/-- **What a message is cut into**, of which the envelopes that cannot be serialised are left
out. -/
theorem splitOf_filter_isOk : SplitOf e (envelopes.filter fun e' => (serde.envelope e').isOk) := by
  obtain ⟨event, rfl, hevent⟩ | ⟨raw, h⟩ := splitServerEnvelopeForTransport_cases h
  · rw [filter_singleton]
    cases (serde.envelope { e with event }).isOk with
    | true => exact splitOf_singleton hevent
    | false => exact splitOf_nil
  · obtain ⟨rfl, -⟩ | ⟨hsize, chunkSize, hchunk, h⟩ := splitMessage_cases h
    · exact splitOf_nil
    · rw [filter_eq_self.mpr fun e' he' => isOk_of_buildSegments hchunk.fit h he']
      exact splitOf_buildSegments hsize h

end

/-! ## Messages that are not dropped -/

/-- A large message can be sent in segments: it is not larger than what a client puts together, and
it can be cut so that they fit. -/
structure FitsInSegments (serde : Serde) (e : ServerEnvelope) (raw : Bytes) : Prop where
  ne_nil : raw ≠ []
  length_le : raw.length ≤ remoteControlReassembledMaxBytes
  minimal : ∀ size, serializedChunkLen serde e 0
    (min (max raw.length 1) remoteControlSegmentCountMax) raw.length (raw.take 1) = .ok size →
    size ≤ remoteControlSegmentMaxBytes
  cut : SomeCutFits serde e raw (max 2 (raw.length ⌈/⌉ remoteControlSegmentTargetBytes))

/-- **The event of an envelope can be sent**: it can be serialised, and it fits into one envelope or
into segments.  Of a message that cannot be serialised this is asked of the error that is sent in
place of a response; of other ones nothing is sent. -/
def Sendable (serde : Serde) (e : ServerEnvelope) : Prop :=
  match e.event with
  | .serverMessage message =>
    match serializedLen serde e with
    | .error err => ∀ id result, message = .response id result → (serde.envelope { e with
        event := .serverMessage (responseSerializationError id err) }).isOk = true
    | .ok size => remoteControlSegmentMaxBytes < size →
      ∀ raw, serde.message message = .ok raw → FitsInSegments serde e raw
  | _ => (serde.envelope e).isOk = true

lemma buildSegments_ne_nil (hraw : raw ≠ [])
    (h : buildSegments serde e raw segmentCount chunkSize = .ok envelopes) : envelopes ≠ [] := by
  rw [eq_of_buildSegments h, Ne, map_eq_nil_iff, zipIdx_eq_nil_iff]
  exact chunks_ne_nil chunkSize hraw

lemma splitLoop_ne_nil {n} (hcut : SomeCutFits serde e raw n) (hraw : raw ≠ [])
    (h : splitLoop serde e raw n = .ok envelopes) : envelopes ≠ [] := by
  induction hcut with
  | here hfit =>
    rw [splitLoop, if_pos hfit] at h
    exact buildSegments_ne_nil hraw h
  | later hone _ ih =>
    rw [splitLoop] at h
    split at h
    · exact buildSegments_ne_nil hraw h
    · exact ih h

lemma splitMessage_ne_nil (hfits : FitsInSegments serde e raw)
    (h : splitMessage serde e raw = .ok envelopes) : envelopes ≠ [] := by
  rw [splitMessage, if_neg (Nat.not_lt.mpr hfits.length_le)] at h
  obtain ⟨size, hsize, h⟩ := bind_eq_ok_iff.mp h
  rw [if_neg (Nat.not_lt.mpr (hfits.minimal size hsize))] at h
  exact splitLoop_ne_nil hfits.cut hfits.ne_nil h

lemma filter_isOk_singleton_ne_nil (h : (serde.envelope e').isOk) :
    [e'].filter (fun e' => (serde.envelope e').isOk) ≠ [] := by
  rw [filter_singleton, h]
  exact cons_ne_nil e' []

/-- **What can be sent is not dropped.** -/
theorem filter_isOk_ne_nil (hsend : Sendable serde e)
    (h : splitServerEnvelopeForTransport serde e = .ok envelopes) :
    envelopes.filter (fun e' => (serde.envelope e').isOk) ≠ [] := by
  rw [splitServerEnvelopeForTransport] at h
  rw [Sendable] at hsend
  split at h
  · rename_i message hevent
    rw [hevent] at hsend
    dsimp only at hsend
    split at h
    · rename_i err hlen
      rw [hlen] at hsend
      split at h
      · rename_i id result
        cases h
        exact filter_isOk_singleton_ne_nil (hsend id result rfl)
      · cases h
    · rename_i size hlen
      rw [hlen] at hsend
      split_ifs at h with hlarge
      · cases h
        exact filter_isOk_singleton_ne_nil (isOk_of_serializedLen hlen)
      · obtain ⟨raw, hraw, h⟩ := bind_eq_ok_iff.mp h
        have hne := splitMessage_ne_nil (hsend (Nat.lt_of_not_le hlarge) raw hraw) h
        obtain ⟨rfl, -⟩ | ⟨_, chunkSize, hchunk, hbuild⟩ := splitMessage_cases h
        · exact absurd rfl hne
        · rw [filter_eq_self.mpr fun e' he' => isOk_of_buildSegments hchunk.fit hbuild he']
          exact hne
  · rename_i hevent
    cases h
    split at hsend
    · rename_i message hmessage
      exact absurd hmessage (hevent message)
    · exact filter_isOk_singleton_ne_nil hsend

/-- **A message that is too large is dropped.** -/
theorem splitServerEnvelopeForTransport_of_lt {message}
    (hevent : e.event = .serverMessage message) (hlen : serializedLen serde e = .ok size)
    (hsize : remoteControlSegmentMaxBytes < size) (hraw : serde.message message = .ok raw)
    (h : remoteControlReassembledMaxBytes < raw.length) :
    splitServerEnvelopeForTransport serde e = .ok [] := by
  rw [splitServerEnvelopeForTransport, hevent]
  dsimp only
  rw [hlen]
  dsimp only
  rw [if_neg (Nat.not_le.mpr hsize), hraw, Except.bind, splitMessage, if_pos h]

end RemoteControl
