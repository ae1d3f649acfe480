import CodexAgents.Lib.Chunks
import CodexAgents.Lib.Outcome
import CodexAgents.NoiseRelay.OrderedCiphertext

/-!
# Messages in a stream of records

`exec-server/src/noise_relay/message_framing.rs`.  A message is sent as its length in four bytes and
its text.  This is cut into records of bounded size, and the receiver puts the messages together
again, whatever the records have to do with them: a record can end several messages, and a message
can go over several records.

How a message is written and read is a parameter (`Serde`), of which it is assumed that what is
written is read back.  `decode_records` says that the records of some messages, in their order, give
these messages and leave nothing over.
-/

namespace NoiseRelay

open Text List

/-! ## Numbers in four bytes -/

/-- `u32::to_be_bytes`. -/
def toBeBytes (n : Nat) : Bytes :=
  [UInt8.ofNat (n / 2 ^ 24), UInt8.ofNat (n / 2 ^ 16), UInt8.ofNat (n / 2 ^ 8), UInt8.ofNat n]

/-- `u32::from_be_bytes`. -/
def fromBeBytes (b0 b1 b2 b3 : UInt8) : Nat :=
  b0.toNat * 2 ^ 24 + b1.toNat * 2 ^ 16 + b2.toNat * 2 ^ 8 + b3.toNat

lemma fromBeBytes_toBeBytes {n} (h : n < 2 ^ 32) :
    fromBeBytes (UInt8.ofNat (n / 2 ^ 24)) (UInt8.ofNat (n / 2 ^ 16)) (UInt8.ofNat (n / 2 ^ 8))
      (UInt8.ofNat n) = n := by
  simp only [fromBeBytes, UInt8.toNat_ofNat']
  omega

/-! ## Frames -/

/-- The length of a message is written in so many bytes. -/
def lengthPrefixBytes : Nat := 4

/-- How long a message can be. -/
def maxNoiseJsonrpcMessageLen : Nat := 64 * 1024 * 1024

/-- How long a record can be. -/
def noiseRecordPlaintextLen : Nat := 60 * 1024

/-- `serde_json`, for messages. -/
structure Serde (Msg : Type) where
  toVec : Msg → Bytes
  fromSlice : Bytes → Option Msg
  fromSlice_toVec : ∀ message, fromSlice (toVec message) = some message

variable {Msg : Type} (serde : Serde Msg)

def messageTooLongError : Str := "Noise relay JSON-RPC message exceeds maximum length"

def recordTooLongError : Str := "Noise relay plaintext record exceeds maximum length"

def invalidLengthError : Str := "Noise relay JSON-RPC message has invalid length"

def reassemblyError : Str :=
  "Noise relay JSON-RPC reassembly buffer exceeds maximum length"

/-- The message of `serde_json::Error`, of which nothing is said here. -/
def parseError : Str := "serde_json"

variable (message : Msg)

/-- A message with its length in front, unless it is too long. -/
def frameJsonrpcMessage : Except Str Bytes :=
  let body := serde.toVec message
  if maxNoiseJsonrpcMessageLen < body.length then .error messageTooLongError
  else .ok (toBeBytes body.length ++ body)

/-! ## The decoder -/

/-- The loop over the complete messages of the buffer.  Every round takes at least a length off. -/
def decodeLoop : Nat → Bytes → List Msg → Except Str (List Msg × Bytes)
  | rounds + 1, b0 :: b1 :: b2 :: b3 :: rest, messages =>
    let messageLen := fromBeBytes b0 b1 b2 b3
    if messageLen = 0 ∨ maxNoiseJsonrpcMessageLen < messageLen then .error invalidLengthError
    else if rest.length < messageLen then .ok (messages, b0 :: b1 :: b2 :: b3 :: rest)
    else
      match serde.fromSlice (rest.take messageLen) with
      | none => .error parseError
      | some message => decodeLoop rounds (rest.drop messageLen) (messages ++ [message])
  | _, buffered, messages => .ok (messages, buffered)

/-- `JsonRpcMessageDecoder::push`: the complete messages, and what is buffered afterwards. -/
def decoderPush (buffered : Bytes) (plaintextRecord : Bytes) : Except Str (List Msg × Bytes) :=
  if noiseRecordPlaintextLen < plaintextRecord.length then .error recordTooLongError
  else
    let buffered := buffered ++ plaintextRecord
    match decodeLoop serde buffered.length buffered [] with
    | .error e => .error e
    | .ok (messages, buffered) =>
      if lengthPrefixBytes + maxNoiseJsonrpcMessageLen < buffered.length then .error reassemblyError
      else .ok (messages, buffered)

/-! ## Reading what has been framed -/

/-- A message that can be sent: its text is not empty, and not too long. -/
def Sendable : Prop :=
  1 ≤ (serde.toVec message).length ∧ (serde.toVec message).length ≤ maxNoiseJsonrpcMessageLen

/-- The same, without the check. -/
def frame : Bytes := toBeBytes (serde.toVec message).length ++ serde.toVec message

/-- Several messages. -/
def frames (messages : List Msg) : Bytes := messages.flatMap (frame serde)

variable {serde}

lemma frameJsonrpcMessage_eq {message} (h : Sendable serde message) :
    frameJsonrpcMessage serde message = .ok (frame serde message) :=
  if_neg (Nat.not_lt.mpr h.2)

lemma length_frame (message : Msg) :
    (frame serde message).length = lengthPrefixBytes + (serde.toVec message).length := by
  rw [frame, length_append]
  rfl

/-- The buffer does not have a whole message of those that are still to come. -/
def Incomplete (serde : Serde Msg) (buffered : Bytes) : List Msg → Prop
  | [] => buffered = []
  | message :: _ => buffered.length < (frame serde message).length

/-- Two ways to cut a list in two, the first cut not before the second. -/
lemma split_of_le {a b c d : Bytes} (h : a ++ b = c ++ d) (hle : c.length ≤ a.length) :
    ∃ rest, a = c ++ rest ∧ rest ++ b = d := by
  obtain ⟨rest, hc, hb⟩ | ⟨rest, ha, hd⟩ := append_eq_append_iff.mp h
  · have hrest : rest = [] := by
      have hlength := congrArg length hc
      rw [length_append] at hlength
      exact eq_nil_of_length_eq_zero (by omega)
    subst hrest
    exact ⟨[], by rw [hc, append_nil, append_nil], hb⟩
  · exact ⟨rest, ha, hd.symm⟩

variable {buffered : Bytes}

lemma decodeLoop_short (rounds : Nat) (h : buffered.length < lengthPrefixBytes)
    (done : List Msg) : decodeLoop serde rounds buffered done = .ok (done, buffered) := by
  match rounds, buffered, h with
  | 0, _, _ => rfl
  | _ + 1, [], _ => rfl
  | _ + 1, [_], _ => rfl
  | _ + 1, [_, _], _ => rfl
  | _ + 1, [_, _, _], _ => rfl
  | _ + 1, _ :: _ :: _ :: _ :: _, h =>
    simp only [lengthPrefixBytes, length_cons] at h
    omega

/-- One round, for a buffer that begins with the length of a message. -/
lemma decodeLoop_round {message} (h : Sendable serde message) (rounds : Nat)
    (rest : Bytes) (done : List Msg) :
    decodeLoop serde (rounds + 1) (toBeBytes (serde.toVec message).length ++ rest) done =
      if rest.length < (serde.toVec message).length then
        .ok (done, toBeBytes (serde.toVec message).length ++ rest)
      else
        match serde.fromSlice (rest.take (serde.toVec message).length) with
        | none => .error parseError
        | some m =>
          decodeLoop serde rounds (rest.drop (serde.toVec message).length) (done ++ [m]) := by
  obtain ⟨hpos, hmax⟩ := h
  have hlt : (serde.toVec message).length < 2 ^ 32 := lt_of_le_of_lt hmax (by decide)
  simp only [toBeBytes, cons_append, nil_append, decodeLoop, fromBeBytes_toBeBytes hlt]
  rw [if_neg (by omega)]

variable {messages : List Msg}

section

variable (hsend : ∀ m ∈ messages, Sendable serde m)
include hsend

/-- **The loop** takes the messages that the buffer has as a whole. -/
theorem decodeLoop_spec {later}
    (hframes : buffered ++ later = frames serde messages) (rounds : Nat)
    (hrounds : buffered.length ≤ rounds) (done : List Msg) :
    ∃ n buffered', decodeLoop serde rounds buffered done =
        .ok (done ++ messages.take n, buffered') ∧
      buffered' ++ later = frames serde (messages.drop n) ∧
      Incomplete serde buffered' (messages.drop n) := by
  induction messages generalizing buffered rounds done with
  | nil =>
    obtain ⟨rfl, rfl⟩ := append_eq_nil_iff.mp hframes
    refine ⟨0, [], ?_, rfl, rfl⟩
    rw [decodeLoop_short rounds (by decide)]
    simp
  | cons message messages ih =>
    have hm : Sendable serde message := hsend message (mem_cons_self ..)
    rw [frames, flatMap_cons, frame, append_assoc] at hframes
    -- the buffer may not even have the length of the message, or not all of its text
    have hstop : decodeLoop serde rounds buffered done = .ok (done, buffered) →
        buffered.length < (frame serde message).length →
        ∃ n buffered', decodeLoop serde rounds buffered done =
            .ok (done ++ (message :: messages).take n, buffered') ∧
          buffered' ++ later = frames serde ((message :: messages).drop n) ∧
          Incomplete serde buffered' ((message :: messages).drop n) := by
      intro hloop hshort
      refine ⟨0, buffered, by rw [hloop, take_zero, append_nil], ?_, hshort⟩
      rw [hframes, drop_zero, frames, flatMap_cons, frame, append_assoc]
    obtain hshort | hlong := lt_or_ge buffered.length lengthPrefixBytes
    · exact hstop (decodeLoop_short rounds hshort done) (by rw [length_frame]; omega)
    · obtain ⟨rest, rfl, hrest⟩ := split_of_le hframes hlong
      rw [length_append] at hrounds
      obtain ⟨rounds, rfl⟩ : ∃ r, rounds = r + 1 := ⟨rounds - 1, by
        have : (toBeBytes (serde.toVec message).length).length = 4 := rfl
        omega⟩
      have hround := decodeLoop_round hm rounds rest done
      obtain hpart | hwhole := lt_or_ge rest.length (serde.toVec message).length
      · rw [if_pos hpart] at hround
        refine hstop hround ?_
        rw [frame, length_append, length_append]
        omega
      · obtain ⟨rest', rfl, hrest'⟩ := split_of_le hrest hwhole
        rw [if_neg (by omega), take_left, drop_left, serde.fromSlice_toVec] at hround
        rw [length_append] at hrounds
        obtain ⟨n, buffered', hloop, hrem, hinc⟩ :=
          ih (fun m hmem => hsend m (mem_cons_of_mem _ hmem)) hrest' rounds
            (by have : (toBeBytes (serde.toVec message).length).length = 4 := rfl; omega)
            (done ++ [message])
        refine ⟨n + 1, buffered', ?_, hrem, hinc⟩
        rw [hround, take_succ_cons]
        rwa [append_assoc] at hloop

lemma Incomplete.length_le (h : Incomplete serde buffered messages) :
    buffered.length ≤ lengthPrefixBytes + maxNoiseJsonrpcMessageLen := by
  cases messages with
  | nil => rw [show buffered = [] from h]; exact Nat.zero_le _
  | cons message messages =>
    have hlt : buffered.length < (frame serde message).length := h
    have hm := (hsend message (mem_cons_self ..)).2
    rw [length_frame] at hlt
    omega

/-- **One record** of a stream of frames. -/
theorem decoderPush_spec {record later}
    (hframes : buffered ++ (record ++ later) = frames serde messages)
    (hrecord : record.length ≤ noiseRecordPlaintextLen) :
    ∃ n buffered', decoderPush serde buffered record = .ok (messages.take n, buffered') ∧
      buffered' ++ later = frames serde (messages.drop n) ∧
      Incomplete serde buffered' (messages.drop n) := by
  rw [← append_assoc] at hframes
  obtain ⟨n, buffered', hloop, hrem, hinc⟩ :=
    decodeLoop_spec hsend hframes (buffered ++ record).length (le_refl _) []
  refine ⟨n, buffered', ?_, hrem, hinc⟩
  have hle := hinc.length_le fun m hm => hsend m (mem_of_mem_drop hm)
  rw [decoderPush, if_neg (Nat.not_lt.mpr hrecord)]
  simp only [hloop, nil_append]
  rw [if_neg (Nat.not_lt.mpr hle)]

end

/-! ## Records one after the other -/

/-- A record, with the messages that have been read before. -/
def decodeRecord (serde : Serde Msg) (acc : List Msg × Bytes) (record : Bytes) :
    Except Str (List Msg × Bytes) :=
  match decoderPush serde acc.2 record with
  | .error e => .error e
  | .ok (messages, buffered) => .ok (acc.1 ++ messages, buffered)

/-- **The records of some messages** give these messages, and leave nothing over. -/
theorem decode_records (hsend : ∀ m ∈ messages, Sendable serde m) {records : List Bytes}
    (hrecords : ∀ r ∈ records, r.length ≤ noiseRecordPlaintextLen) {done}
    (hframes : buffered ++ records.flatten = frames serde messages)
    (hinc : Incomplete serde buffered messages) :
    records.foldlM (decodeRecord serde) (done, buffered) = .ok (done ++ messages, []) := by
  induction records generalizing messages done buffered with
  | nil =>
    -- nothing more comes, so the buffer has whatever is still to be read
    rw [flatten_nil, append_nil] at hframes
    cases messages with
    | nil =>
      obtain rfl : buffered = [] := hinc
      rw [append_nil]
      rfl
    | cons message messages =>
      have hlt : buffered.length < (frame serde message).length := hinc
      rw [hframes, frames, flatMap_cons, length_append] at hlt
      omega
  | cons record records ih =>
    rw [flatten_cons] at hframes
    obtain ⟨n, buffered', hpush, hrem, hinc'⟩ :=
      decoderPush_spec hsend hframes (hrecords record (mem_cons_self ..))
    have hrest : records.foldlM (decodeRecord serde) (done ++ messages.take n, buffered') =
        .ok (done ++ messages.take n ++ messages.drop n, []) :=
      ih (fun m hm => hsend m (mem_of_mem_drop hm))
        (fun r hr => hrecords r (mem_cons_of_mem _ hr)) hrem hinc'
    rw [append_assoc, take_append_drop] at hrest
    rw [foldlM_cons, decodeRecord, hpush]
    exact hrest

end NoiseRelay
