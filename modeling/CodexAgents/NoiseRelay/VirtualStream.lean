import CodexAgents.NoiseRelay.MessageFraming

/-!
# A stream of messages over a relay

`exec-server/src/noise_relay/executor_stream.rs`.  A writer frames messages, cuts them into records,
numbers and encrypts these.  At the other end they are put in order, decrypted and put together to
messages again.  The relay between may deliver the records in any order and more than once, as long
as none comes too early for the window and the buffer of the receiver (`Delivers`).

`delivery_exact` says that the receiver then gets just the messages that were sent.  Of the
encryption it is assumed that what is encrypted can be decrypted at the other end in the same order
(`Cipher`).
-/

namespace NoiseRelay

open Text Reorder Slice OrderedCiphertextFrames List Outcome

variable {Msg σ ρ : Type}

/-- A record on the wire. -/
structure RelayData where
  seq : Nat
  payload : Bytes
  deriving DecidableEq

open RelayData

/-- `NoiseTransport`: the states of the half that sends and of the half that receives. -/
structure Cipher (σ ρ : Type) where
  encrypt : σ → Bytes → Except Str (Bytes × σ)
  decrypt : ρ → Bytes → Except Str (Bytes × ρ)
  /-- As many records have been decrypted as were encrypted. -/
  InStep : σ → ρ → Prop
  decrypt_encrypt : ∀ {s r plaintext ciphertext s'}, InStep s r →
    encrypt s plaintext = .ok (ciphertext, s') →
    ∃ r', decrypt r ciphertext = .ok (plaintext, r') ∧ InStep s' r'

/-! ## The writer -/

/-- The sending end. -/
structure Writer (σ : Type) where
  transport : σ
  nextSeq : Nat := 0

/-- The next number, as long as there are any. -/
def takeNextSequence (nextSeq : Nat) : Except Str (Nat × Nat) :=
  if nextSeq < u32Max then .ok (nextSeq, nextSeq + 1) else .error sequenceExhaustedError

variable (serde : Serde Msg) (cipher : Cipher σ ρ)

/-- A record is numbered and encrypted. -/
def sendRecord (w : Writer σ) (plaintextRecord : Bytes) : Except Str (RelayData × Writer σ) :=
  (takeNextSequence w.nextSeq).bind fun (seq, nextSeq) =>
    (cipher.encrypt w.transport plaintextRecord).bind fun (ciphertext, transport) =>
      .ok (⟨seq, ciphertext⟩, ⟨transport, nextSeq⟩)

/-- The records one after the other. -/
def sendRecords (w : Writer σ) : List Bytes → Except Str (List RelayData × Writer σ)
  | [] => .ok ([], w)
  | plaintextRecord :: later =>
    (sendRecord cipher w plaintextRecord).bind fun (record, w) =>
      (sendRecords w later).bind fun (records, w) => .ok (record :: records, w)

/-- The loop of the writer, over the messages that it is given. -/
def sendMessages (w : Writer σ) : List Msg → Except Str (List RelayData × Writer σ)
  | [] => .ok ([], w)
  | message :: later =>
    (frameJsonrpcMessage serde message).bind fun framed =>
      (sendRecords cipher w (chunks noiseRecordPlaintextLen framed)).bind fun (records, w) =>
        (sendMessages w later).bind fun (records', w) => .ok (records ++ records', w)

/-! ## The receiver -/

/-- The receiving end. -/
structure NoiseVirtualStream (ρ : Type) where
  inboundCiphertexts : OrderedCiphertextFrames := {}
  transport : ρ
  inboundDecoder : Bytes := []

/-- One ciphertext that is next in order.  The messages so far are those put into the queue. -/
def receiveCiphertext (acc : List Msg × ρ × Bytes) (ciphertext : Bytes) :
    Except Str (List Msg × ρ × Bytes) :=
  match cipher.decrypt acc.2.1 ciphertext with
  | .error e => .error ("Noise relay decryption failed: " ++ e)
  | .ok (plaintext, transport) =>
    match decoderPush serde acc.2.2 plaintext with
    | .error e => .error e
    | .ok (messages, buffered) => .ok (acc.1 ++ messages, transport, buffered)

/-- What a record releases is decrypted and decoded. -/
def receiveData (acc : List Msg × NoiseVirtualStream ρ) (data : RelayData) :
    Except Str (List Msg × NoiseVirtualStream ρ) :=
  match acc.2.inboundCiphertexts.push data.seq data.payload with
  | (.error e, _) => .error e
  | (.ok ready, frames) =>
    (ready.foldlM (receiveCiphertext serde cipher)
      (acc.1, acc.2.transport, acc.2.inboundDecoder)).bind fun (messages, transport, buffered) =>
        .ok (messages, ⟨frames, transport, buffered⟩)

/-- The messages of a stream, and the state in which it is left. -/
def receiveAll (transport : ρ) (deliveries : List RelayData) :
    Except Str (List Msg × NoiseVirtualStream ρ) :=
  deliveries.foldlM (receiveData serde cipher) ([], { transport := transport })

/-! ## The relay -/

/-- The records as they arrive. -/
def arrivals (deliveries : List RelayData) : List (Nat × Bytes) :=
  deliveries.map fun d => (d.seq, d.payload)

/-- After the deliveries `before`, a record is not too far ahead of the first that is missing, and
if it is new and has to wait, there is room for it. -/
def InLimits (before : List RelayData) (d : RelayData) : Prop :=
  let missing := firstMissing (numbers (arrivals before))
  d.seq ≤ missing + maxReorderDistance ∧ (d.seq ∉ numbers (arrivals before) → missing < d.seq →
      waitingBytes (arrivals before) missing + d.payload.length ≤ maxPendingBytes)

instance (before : List RelayData) (d : RelayData) : Decidable (InLimits before d) :=
  inferInstanceAs (Decidable (_ ∧ _))

/-- Each record is in the limits when it arrives. -/
def AllInLimits : List RelayData → List RelayData → Prop
  | _, [] => True
  | before, d :: later => InLimits before d ∧ AllInLimits (before ++ [d]) later

instance decidableAllInLimits : ∀ before later, Decidable (AllInLimits before later)
  | _, [] => isTrue trivial
  | before, d :: later =>
    have := decidableAllInLimits (before ++ [d]) later
    inferInstanceAs (Decidable (_ ∧ _))

/-- **What a relay may do**: it delivers every record at least once and nothing else, within the
limits. -/
structure Delivers (records deliveries : List RelayData) : Prop where
  genuine : ∀ d ∈ deliveries, d ∈ records
  complete : ∀ r ∈ records, r ∈ deliveries
  inLimits : AllInLimits [] deliveries

/-! ## What is sent -/

variable {records : List RelayData}

section

variable {serde} {cipher} {w w' : Writer σ} {plaintext : Bytes}

lemma sendRecord_eq_ok {record} (h : sendRecord cipher w plaintext = .ok (record, w')) :
    w.nextSeq < u32Max ∧ record.seq = w.nextSeq ∧ w'.nextSeq = w.nextSeq + 1 ∧
      cipher.encrypt w.transport plaintext = .ok (record.payload, w'.transport) := by
  rw [sendRecord, bind_eq_ok_iff] at h
  obtain ⟨⟨seq, nextSeq⟩, hseq, h⟩ := h
  obtain ⟨⟨ciphertext, transport⟩, hencrypt, h⟩ := bind_eq_ok_iff.mp h
  rw [takeNextSequence] at hseq
  split at hseq
  · rename_i hlt
    cases hseq
    cases h
    exact ⟨hlt, rfl, rfl, hencrypt⟩
  · cases hseq

lemma sendRecords_cons_eq_ok {later}
    (h : sendRecords cipher w (plaintext :: later) = .ok (records, w')) :
    ∃ record records' w₁, records = record :: records' ∧
      sendRecord cipher w plaintext = .ok (record, w₁) ∧
      sendRecords cipher w₁ later = .ok (records', w') := by
  rw [sendRecords, bind_eq_ok_iff] at h
  obtain ⟨⟨record, w₁⟩, hrecord, h⟩ := h
  obtain ⟨⟨records', w₂⟩, hrecords, h⟩ := bind_eq_ok_iff.mp h
  cases h
  exact ⟨record, records', w₁, rfl, hrecord, hrecords⟩

lemma sendRecords_append {a b w₁}
    (ha : sendRecords cipher w a = .ok (records, w₁)) :
    sendRecords cipher w (a ++ b) =
      (sendRecords cipher w₁ b).bind fun (records', w') => .ok (records ++ records', w') := by
  induction a generalizing w records with
  | nil =>
    cases ha
    rw [nil_append]
    cases sendRecords cipher w₁ b <;> rfl
  | cons plaintext a ih =>
    obtain ⟨record, records', w₂, rfl, hrecord, hrest⟩ := sendRecords_cons_eq_ok ha
    rw [cons_append, sendRecords, hrecord]
    show (sendRecords cipher w₂ (a ++ b)).bind _ = _
    rw [ih hrest]
    cases sendRecords cipher w₁ b <;> rfl

variable {messages : List Msg}

/-- The writer numbers and encrypts the chunks of the frames. -/
lemma sendMessages_eq_ok (hsend : ∀ m ∈ messages, Sendable serde m)
    (h : sendMessages serde cipher w messages = .ok (records, w')) :
    sendRecords cipher w
      (messages.flatMap fun m => chunks noiseRecordPlaintextLen (frame serde m)) =
        .ok (records, w') := by
  induction messages generalizing w records with
  | nil =>
    cases h
    rfl
  | cons message messages ih =>
    rw [sendMessages, bind_eq_ok_iff] at h
    obtain ⟨framed, hframed, h⟩ := h
    rw [frameJsonrpcMessage_eq (hsend message (mem_cons_self ..))] at hframed
    cases hframed
    obtain ⟨⟨first, w₁⟩, hfirst, h⟩ := bind_eq_ok_iff.mp h
    obtain ⟨⟨later, w₂⟩, hlater, h⟩ := bind_eq_ok_iff.mp h
    cases h
    rw [flatMap_cons, sendRecords_append hfirst,
      ih (fun m hm => hsend m (mem_cons_of_mem _ hm)) hlater]
    rfl

variable {plaintexts : List Bytes}

/-- The numbers of the records are consecutive, and none is the last one there is. -/
lemma sendRecords_seq (h : sendRecords cipher w plaintexts = .ok (records, w')) :
    records.map seq = range' w.nextSeq records.length ∧
      ∀ r ∈ records, r.seq < u32Max := by
  induction plaintexts generalizing w records with
  | nil =>
    cases h
    exact ⟨rfl, fun r hr => (nomatch hr)⟩
  | cons plaintext plaintexts ih =>
    obtain ⟨record, records', w₁, rfl, hrecord, hrest⟩ := sendRecords_cons_eq_ok h
    obtain ⟨hlt, hseq, hnext, -⟩ := sendRecord_eq_ok hrecord
    obtain ⟨hnumbers, hmax⟩ := ih hrest
    refine ⟨?_, fun r hr => ?_⟩
    · rw [map_cons, length_cons, range'_succ, hseq, hnumbers, hnext]
    · obtain rfl | hr := mem_cons.mp hr
      · rw [hseq]; exact hlt
      · exact hmax r hr

variable {r : ρ}

/-- **In order, decryption is no obstacle**: the ciphertexts are read as the plaintexts are. -/
theorem receive_sendRecords (h : sendRecords cipher w plaintexts = .ok (records, w'))
    (hstep : cipher.InStep w.transport r) {acc result}
    (hdecode : plaintexts.foldlM (decodeRecord serde) acc = .ok result) :
    ∃ r', (records.map payload).foldlM (receiveCiphertext serde cipher)
      (acc.1, r, acc.2) = .ok (result.1, r', result.2) := by
  induction plaintexts generalizing w records r acc with
  | nil =>
    cases h
    cases hdecode
    exact ⟨r, rfl⟩
  | cons plaintext plaintexts ih =>
    obtain ⟨record, records', w₁, rfl, hrecord, hrest⟩ := sendRecords_cons_eq_ok h
    obtain ⟨-, -, -, hencrypt⟩ := sendRecord_eq_ok hrecord
    obtain ⟨r₁, hdecrypt, hstep₁⟩ := cipher.decrypt_encrypt hstep hencrypt
    rw [foldlM_cons] at hdecode
    obtain ⟨acc₁, hfirst, hdecode⟩ := bind_eq_ok_iff.mp hdecode
    obtain ⟨r', hr'⟩ := ih hrest hstep₁ hdecode
    refine ⟨r', ?_⟩
    have hone : receiveCiphertext serde cipher (acc.1, r, acc.2) record.payload =
        .ok (acc₁.1, r₁, acc₁.2) := by
      rw [decodeRecord] at hfirst
      rcases hpush : decoderPush serde acc.2 plaintext with e | ⟨messages, buffered⟩
      · rw [hpush] at hfirst
        cases hfirst
      · rw [hpush] at hfirst
        cases hfirst
        simp [receiveCiphertext, hdecrypt, hpush]
    rw [map_cons, foldlM_cons, hone]
    exact hr'

/-- All that the receiver has to know of what is sent. -/
lemma sendMessages_spec (hsend : ∀ m ∈ messages, Sendable serde m) {s}
    (h : sendMessages serde cipher { transport := s } messages = .ok (records, w'))
    (hstep : cipher.InStep s r) :
    records.map seq = range records.length ∧ (∀ d ∈ records, d.seq < u32Max) ∧
      ∃ r', (records.map payload).foldlM (receiveCiphertext serde cipher)
        ([], r, []) = .ok (messages, r', []) := by
  have hrecords := sendMessages_eq_ok hsend h
  obtain ⟨hseq, hmax⟩ := sendRecords_seq hrecords
  rw [← range_eq_range'] at hseq
  refine ⟨hseq, hmax, ?_⟩
  have hflatten : (messages.flatMap fun m =>
      chunks noiseRecordPlaintextLen (frame serde m)).flatten = frames serde messages := by
    rw [frames, flatMap_def, flatten_flatten, map_map, flatMap_def]
    congr 1
    exact map_congr_left fun m _ => chunks_flatten (by decide) (frame serde m)
  have hlength : ∀ p ∈ messages.flatMap fun m => chunks noiseRecordPlaintextLen (frame serde m),
      p.length ≤ noiseRecordPlaintextLen := by
    intro p hp
    obtain ⟨m, -, hp⟩ := mem_flatMap.mp hp
    exact chunksRounds_length_le hp
  have hinc : Incomplete serde [] messages := by
    cases messages with
    | nil => rfl
    | cons m messages =>
      show 0 < (frame serde m).length
      rw [length_frame]
      exact Nat.add_pos_left (by decide) _
  have hframes : [] ++ (messages.flatMap fun m =>
      chunks noiseRecordPlaintextLen (frame serde m)).flatten = frames serde messages := by
    rw [nil_append]
    exact hflatten
  exact receive_sendRecords hrecords hstep (decode_records hsend hlength hframes hinc)

end

/-! ## What is received -/

variable {records : List RelayData}

section

variable (hseq : records.map RelayData.seq = List.range records.length)

include hseq

lemma payload_of_seq
    {d} (hd : d ∈ records) :
    (records.map payload)[d.seq]? = some d.payload := by
  obtain ⟨i, hi, rfl⟩ := mem_iff_getElem.mp hd
  have hi' : (records.map seq)[i]? = some i := by
    rw [hseq, getElem?_range hi]
  have hnumber : records[i].seq = i := by simpa [hi] using hi'
  simp [hnumber, hi]

/-- The records that have come, up to the first that is missing, are the first ones. -/
lemma upTo_arrivals {before}
    (hgenuine : ∀ d ∈ before, d ∈ records) {e}
    (hbelow : ∀ k < e, k ∈ numbers (arrivals before)) :
    upTo (arrivals before) e = (records.map payload).take e := by
  induction e with
  | zero => rfl
  | succ e ih =>
    obtain ⟨payload, hseen⟩ :=
      Option.isSome_iff_exists.mp (firstSeen_isSome_iff.mpr (hbelow e (Nat.lt_succ_self e)))
    obtain ⟨d, hd, heq⟩ := mem_map.mp (mem_of_firstSeen hseen)
    obtain ⟨rfl, rfl⟩ := Prod.mk.inj heq
    rw [upTo_add, ih fun k hk => hbelow k (Nat.lt_succ_of_lt hk), take_add_one,
      payload_of_seq hseq (hgenuine d hd), range'_one, filterMap_cons_some hseen]
    rfl

end

lemma mem_numbers_arrivals {deliveries k} :
    k ∈ numbers (arrivals deliveries) ↔ ∃ d ∈ deliveries, d.seq = k := by
  rw [numbers, arrivals, map_map, mem_map]
  rfl

lemma arrivals_concat (before : List RelayData) (d : RelayData) :
    arrivals (before ++ [d]) = arrivals before ++ [(d.seq, d.payload)] := by
  rw [arrivals, map_append]
  rfl

/-- What a stream has taken in: the ciphertexts before the first that is missing have been read. -/
structure Received (records : List RelayData) (transport : ρ) (before : List RelayData)
    (acc : List Msg × NoiseVirtualStream ρ) : Prop where
  settled : Settled (arrivals before) acc.2.inboundCiphertexts
  read : ((records.map RelayData.payload).take acc.2.inboundCiphertexts.nextSeq).foldlM
    (receiveCiphertext serde cipher) ([], transport, []) =
      .ok (acc.1, acc.2.transport, acc.2.inboundDecoder)

section

variable {serde} {cipher} {transport : ρ} {result : List Msg × ρ × Bytes}
  (hseq : records.map RelayData.seq = List.range records.length)
  (hmax : ∀ d ∈ records, d.seq < u32Max)
  (hread : (records.map RelayData.payload).foldlM (receiveCiphertext serde cipher)
    ([], transport, []) = .ok result)

include hseq hmax hread

variable {before : List RelayData} {acc : List Msg × NoiseVirtualStream ρ}

section

variable (h : Received serde cipher records transport before acc)

include h

/-- **One delivery** within the limits. -/
theorem Received.deliver
    (hgenuine : ∀ d ∈ before, d ∈ records) {d} (hd : d ∈ records)
    (hlimits : InLimits before d) :
    ∃ acc', receiveData serde cipher acc d = .ok acc' ∧
      Received serde cipher records transport (before ++ [d]) acc' := by
  have hgenuine' : ∀ d' ∈ before ++ [d], d' ∈ records :=
    forall_mem_append.mpr ⟨hgenuine, forall_mem_singleton.mpr hd⟩
  have hmissing := h.settled.nextSeq_eq
  obtain ⟨hwindow, hbytes⟩ := hlimits
  rw [hmissing] at hwindow hbytes
  have hnumbers : ∀ k ∈ numbers (arrivals before ++ [(d.seq, d.payload)]), k < u32Max := by
    rw [← arrivals_concat]
    intro k hk
    obtain ⟨p, hp, rfl⟩ := mem_map.mp hk
    obtain ⟨d', hd', rfl⟩ := mem_map.mp hp
    exact hmax d' (hgenuine' d' hd')
  obtain ⟨n, frames, hpush, hnext, hsettled⟩ := push_spec h.settled hnumbers hwindow hbytes
  rw [← arrivals_concat] at hpush hsettled
  -- what is given out are the ciphertexts that come next
  have hbefore : upTo (arrivals (before ++ [d])) acc.2.inboundCiphertexts.nextSeq =
      (records.map payload).take acc.2.inboundCiphertexts.nextSeq :=
    upTo_arrivals hseq hgenuine' fun k hk =>
      hsettled.below k (by rw [hnext]; exact Nat.lt_add_right n hk)
  have hafter := upTo_arrivals hseq hgenuine' hsettled.below
  rw [hnext, upTo_add, hbefore] at hafter
  -- they can be read, since all of them can
  have hall := hread
  rw [← take_append_drop frames.nextSeq (records.map payload), foldlM_append] at hall
  obtain ⟨⟨messages, transport', buffered⟩, hpre, -⟩ := bind_eq_ok_iff.mp hall
  have hrun := hpre
  rw [hnext, ← hafter, foldlM_append, h.read] at hrun
  refine ⟨(messages, ⟨frames, transport', buffered⟩), ?_, hsettled, hpre⟩
  simp only [receiveData, hpush]
  exact bind_eq_ok_iff.mpr ⟨_, hrun, rfl⟩

lemma Received.deliverAll {later}
    (hgenuine : ∀ d ∈ before ++ later, d ∈ records) (hlimits : AllInLimits before later) :
    ∃ acc', later.foldlM (receiveData serde cipher) acc = .ok acc' ∧
      Received serde cipher records transport (before ++ later) acc' := by
  induction later generalizing before acc with
  | nil => exact ⟨acc, rfl, by rw [append_nil]; exact h⟩
  | cons d later ih =>
    obtain ⟨hfirst, hrest⟩ := hlimits
    obtain ⟨acc₁, hone, h₁⟩ := h.deliver hseq hmax hread
      (fun d' hd' => hgenuine d' (mem_append_left _ hd'))
      (hgenuine d (mem_append_right _ (mem_cons_self ..))) hfirst
    obtain ⟨acc', hall, h'⟩ := ih h₁ (by rw [← append_cons]; exact hgenuine) hrest
    refine ⟨acc', ?_, by rw [← append_cons] at h'; exact h'⟩
    rw [foldlM_cons, hone]
    exact hall

end

end

/-- **Delivery is exact.**  Whatever the relay does within the limits, the receiver gets the
messages that were sent, in their order and without an error. -/
theorem delivery_exact (messages : List Msg) (hsend : ∀ m ∈ messages, Sendable serde m)
    (s : σ) (r : ρ) (hstep : cipher.InStep s r) (records : List RelayData) (w' : Writer σ)
    (hrecords : sendMessages serde cipher { transport := s } messages = .ok (records, w'))
    (deliveries : List RelayData) (hdeliver : Delivers records deliveries) :
    ∃ stream, receiveAll serde cipher r deliveries = .ok (messages, stream) := by
  obtain ⟨hseq, hmax, r', hread⟩ := sendMessages_spec hsend hrecords hstep
  have hinit : Received serde cipher records r [] ([], { transport := r }) := ⟨settled_nil, by rfl⟩
  have hgenuine : ∀ d ∈ [] ++ deliveries, d ∈ records := hdeliver.genuine
  obtain ⟨⟨got, stream⟩, hall, h⟩ := hinit.deliverAll hseq hmax hread hgenuine hdeliver.inLimits
  refine ⟨stream, ?_⟩
  -- no record is missing at the end
  have hcount : stream.inboundCiphertexts.nextSeq = records.length := by
    rw [← h.settled.nextSeq_eq]
    refine firstMissing_eq (fun k hk => ?_) fun hmem => ?_
    · rw [← mem_range, ← hseq] at hk
      obtain ⟨d, hd, rfl⟩ := mem_map.mp hk
      exact mem_numbers_arrivals.mpr ⟨d, hdeliver.complete d hd, rfl⟩
    · obtain ⟨d, hd, hnumber⟩ := mem_numbers_arrivals.mp hmem
      have hlast : d.seq ∈ records.map seq := mem_map_of_mem (hdeliver.genuine d hd)
      rw [hseq, mem_range, hnumber] at hlast
      exact lt_irrefl _ hlast
  have hgot := h.read
  rw [hcount, ← length_map payload, take_length, hread] at hgot
  obtain rfl : messages = got := congrArg Prod.fst (Except.ok.inj hgot)
  exact hall

/-- Messages of one byte. -/
def byteSerde : Serde UInt8 where
  toVec b := [b]
  fromSlice bytes := bytes.head?
  fromSlice_toVec _ := rfl

/-- The number of the record is put in front of it, and has to be the expected one. -/
def countingCipher : Cipher Nat Nat where
  encrypt n plaintext := .ok (UInt8.ofNat n :: plaintext, n + 1)
  decrypt n ciphertext :=
    if ciphertext.head? = some (UInt8.ofNat n) then .ok (ciphertext.tail, n + 1)
    else .error "out of order"
  InStep s r := s = r
  decrypt_encrypt := by
    rintro s r plaintext ciphertext s' rfl hencrypt
    cases hencrypt
    exact ⟨s + 1, by simp, rfl⟩

/-- Two messages, each in a record. -/
def twoRecords : List RelayData := [⟨0, [0, 0, 0, 0, 1, 7]⟩, ⟨1, [1, 0, 0, 0, 1, 8]⟩]

/-- The second record comes first, and then again. -/
def twoRecordsShuffled : List RelayData :=
  [⟨1, [1, 0, 0, 0, 1, 8]⟩, ⟨0, [0, 0, 0, 0, 1, 7]⟩, ⟨1, [1, 0, 0, 0, 1, 8]⟩]

theorem delivery_exact_shuffled :
    ∃ stream, receiveAll byteSerde countingCipher 0 twoRecordsShuffled = .ok ([7, 8], stream) :=
  delivery_exact byteSerde countingCipher [7, 8]
    (fun m hm => ⟨le_refl 1, by show 1 ≤ maxNoiseJsonrpcMessageLen; decide⟩) 0 0 rfl twoRecords
    ⟨2, 2⟩ rfl twoRecordsShuffled ⟨by decide, by decide, by decide⟩

end NoiseRelay
