import CodexAgents.Lib.Resend
import CodexAgents.RemoteControl.Outbound

/-!
# Nothing that is sent to a remote client is lost

The envelopes of a stream are put on the wire in the order of their numbers, and after the
connection has broken, those that have not been acknowledged are put on the wire again.

Some of this holds always (`Sound`): the counter of the buffer is right, the envelopes of a message
are its segments in their order, and a new writer starts with what is in the buffer.  That the
numbers on the wire have no gaps and that the buffer has just the envelopes that are not
acknowledged (`Ordered`) is so in a run that is `Fair`: no message is too large to be sent, and no
acknowledgement covers what has not been put on the wire yet.  A message that is dropped for its
size takes its number along.
-/

namespace RemoteControl

open Resend List HashMap Outbound WebsocketState

/-! ## Acknowledgements -/

/-- The segment of an envelope; a message that is not cut counts as segment 0. -/
def ServerEnvelope.segment (e : ServerEnvelope) : Nat := e.event.segmentId.getD 0

/-- **An acknowledgement covers** the messages with smaller numbers and of the message with its
number the segments up to its own, or all if it does not name one. -/
def Ack.Covers (a : Ack) (e : ServerEnvelope) : Prop :=
  e.key = a.key ∧ (e.seqId < a.seqId ∨ e.seqId = a.seqId ∧ ∀ n ∈ a.segmentId, e.segment ≤ n)

instance (a : Ack) (e : ServerEnvelope) : Decidable (a.Covers e) :=
  inferInstanceAs (Decidable (_ ∧ _))

lemma cursorLe_iff (a b c d : Nat) : cursorLe (a, b) (c, d) ↔ a < c ∨ a = c ∧ b ≤ d := by
  simp [cursorLe]

variable {e : ServerEnvelope} {a : Ack}

/-- The comparison of the buffer says this, as segment ids are of type `usize`. -/
lemma cursorLe_iff_covers (hkey : e.key = a.key) (hsegment : e.segment ≤ usizeMax) :
    cursorLe (envelopeCursor e) (a.seqId, a.segmentId.getD usizeMax) ↔ a.Covers e := by
  have hlast : e.segment ≤ a.segmentId.getD usizeMax ↔ ∀ n ∈ a.segmentId, e.segment ≤ n := by
    cases a.segmentId with
    | none => exact iff_of_true hsegment fun n hn => (nomatch hn)
    | some n =>
      constructor
      · intro h n' hn'
        cases hn'
        exact h
      · exact fun h => h n rfl
  rw [envelopeCursor, cursorLe_iff, Ack.Covers, and_iff_right hkey]
  exact or_congr_right (and_congr_right fun _ => hlast)

/-- An acknowledgement that came in covers the envelope. -/
def Outbound.covered (o : Outbound) (e : ServerEnvelope) : Bool := ∃ a ∈ o.acks, a.Covers e

/-! ## The buffer -/

variable {key : ClientKey}

section

variable {b : BoundedOutboundBuffer}

lemma values_foldl_insert {key envelopes}
    (hkey : ∀ e ∈ envelopes, e.key = key) (key' : ClientKey) :
    values (envelopes.foldl BoundedOutboundBuffer.insert b).bufferByStream key' =
      values b.bufferByStream key' ++ if key = key' then envelopes else [] := by
  induction envelopes generalizing b with
  | nil =>
    rw [ite_self, append_nil]
    rfl
  | cons e envelopes ih =>
    have he : e.key = key := hkey e mem_cons_self
    rw [foldl_cons, ih fun e' he' => hkey e' (mem_cons_of_mem e he'),
      BoundedOutboundBuffer.insert, values_push, he]
    by_cases h : key = key'
    · rw [if_pos h.symm, if_pos h, if_pos h, append_assoc, singleton_append, h]
    · rw [if_neg (Ne.symm h), if_neg h, if_neg h]

lemma used_foldl_insert (h : b.used = size b.bufferByStream) (envelopes : List ServerEnvelope) :
    (envelopes.foldl BoundedOutboundBuffer.insert b).used =
      size (envelopes.foldl BoundedOutboundBuffer.insert b).bufferByStream := by
  induction envelopes generalizing b with
  | nil => exact h
  | cons e envelopes ih =>
    refine ih ?_
    rw [BoundedOutboundBuffer.insert, size_push, h]

variable {buffer : List ServerEnvelope} (seqId : Nat) (segmentId : Option Nat)

lemma ack_of_get_none (hget : get b.bufferByStream key = none) : b.ack key seqId segmentId = b := by
  rw [BoundedOutboundBuffer.ack, hget]

lemma bufferByStream_ack_of_get_some (hget : get b.bufferByStream key = some buffer) :
    (b.ack key seqId segmentId).bufferByStream =
      if (retained seqId segmentId buffer).isEmpty then b.bufferByStream.erase key
      else b.bufferByStream.insert key (retained seqId segmentId buffer) := by
  rw [BoundedOutboundBuffer.ack, hget]

/-- Only one stream changes. -/
lemma values_ack (key key' : ClientKey) : values (b.ack key seqId segmentId).bufferByStream key' =
      if key' = key then retained seqId segmentId (values b.bufferByStream key')
      else values b.bufferByStream key' := by
  cases hget : get b.bufferByStream key with
  | none =>
    rw [ack_of_get_none seqId segmentId hget]
    split_ifs with heq
    · rw [heq, values, hget]
      rfl
    · rfl
  | some buffer =>
    rw [bufferByStream_ack_of_get_some seqId segmentId hget]
    by_cases hempty : (retained seqId segmentId buffer).isEmpty = true
    · rw [if_pos hempty, values_erase]
      split_ifs with heq
      · rw [heq, values, hget, Option.getD_some, isEmpty_iff.mp hempty]
      · rfl
    · rw [if_neg hempty, values_insert]
      split_ifs with heq
      · rw [heq, values, hget, Option.getD_some]
      · rfl

lemma used_ack (h : b.used = size b.bufferByStream) (key : ClientKey) :
    (b.ack key seqId segmentId).used = size (b.ack key seqId segmentId).bufferByStream := by
  cases hget : get b.bufferByStream key with
  | none =>
    rw [ack_of_get_none seqId segmentId hget]
    exact h
  | some buffer =>
    have hused : (b.ack key seqId segmentId).used =
        b.used - (buffer.length - (retained seqId segmentId buffer).length) := by
      rw [BoundedOutboundBuffer.ack, hget]
    have hsize : size (b.ack key seqId segmentId).bufferByStream =
        (retained seqId segmentId buffer).length + size (b.bufferByStream.erase key) := by
      rw [bufferByStream_ack_of_get_some seqId segmentId hget]
      by_cases hempty : (retained seqId segmentId buffer).isEmpty = true
      · rw [if_pos hempty, isEmpty_iff.mp hempty, length_nil, zero_add]
      · rw [if_neg hempty, size_insert]
    have hvalues : values b.bufferByStream key = buffer := by
      rw [values, hget, Option.getD_some]
    have hsize' := size_eq b.bufferByStream key
    have hlength : (retained seqId segmentId buffer).length ≤ buffer.length := length_filter_le _ _
    rw [hvalues] at hsize'
    rw [hused, hsize, h]
    omega

end

/-! ## Steps -/

/-- **What a step can do.** -/
inductive Moves (serde : Serde) (o : Outbound) : OutboundStep → Outbound → Prop
  | idle (s : OutboundStep) : Moves serde o s o
  | connect (iteration : HashMap.Order (ClientKey × List ServerEnvelope)) (h : o.writer = none) :
      Moves serde o (.connect iteration)
        { o with
          writer := some ((o.state.outboundBuffer.serverEnvelopes iteration).filter fun e =>
            (serde.envelope e).isOk) }
  | send {e : ServerEnvelope} {pending : List ServerEnvelope} (h : o.writer = some (e :: pending)) :
      Moves serde o .send { o with writer := some pending, wire := o.wire ++ [e] }
  | disconnect (reached : Bool) {pending : List ServerEnvelope} (h : o.writer = some pending) :
      Moves serde o (.disconnect reached)
        { o with writer := none, wire := o.wire ++ if reached then pending.take 1 else [] }
  /-- The event cannot be cut. -/
  | refuse (q : QueuedServerEnvelope) (hq : ∀ n ∈ q.event.segmentId, n ≤ usizeMax)
      (h : o.writer = some []) :
      Moves serde o (.receive q hq)
        { o with
          state.nextSeqIdByStream :=
            o.state.nextSeqIdByStream.insert q.key (o.state.nextSeqId q.key) }
  | number (q : QueuedServerEnvelope) (hq : ∀ n ∈ q.event.segmentId, n ≤ usizeMax)
      (hready : o.ready = true) (h : o.writer = some []) {envelopes : List ServerEnvelope}
      (hsplit : splitServerEnvelopeForTransport serde (q.number (o.state.nextSeqId q.key)) =
        .ok envelopes) :
      Moves serde o (.receive q hq)
        { o with
          state :=
            { outboundBuffer := (envelopes.filter fun e => (serde.envelope e).isOk).foldl
                BoundedOutboundBuffer.insert o.state.outboundBuffer
              nextSeqIdByStream := o.state.nextSeqIdByStream.insert q.key
                (min (o.state.nextSeqId q.key + 1) u64Max) }
          writer := some (envelopes.filter fun e => (serde.envelope e).isOk)
          numbered := o.numbered ++ [⟨q, o.state.nextSeqId q.key,
            envelopes.filter fun e => (serde.envelope e).isOk⟩] }
  | acknowledge (e : ClientEnvelope) {a : Ack} (h : e.ack? = some a) : Moves serde o (.delivered e)
        { o with
          state.outboundBuffer := o.state.outboundBuffer.ack a.key a.seqId a.segmentId
          acks := o.acks ++ [a] }

variable {envelopes : List ServerEnvelope}

lemma number_of_split {serde} {s : WebsocketState} {q}
    (h : splitServerEnvelopeForTransport serde (q.number (s.nextSeqId q.key)) = .ok envelopes) :
    s.number serde q =
      ({ outboundBuffer := (envelopes.filter fun e => (serde.envelope e).isOk).foldl
           BoundedOutboundBuffer.insert s.outboundBuffer
         nextSeqIdByStream := s.nextSeqIdByStream.insert q.key
           (min (s.nextSeqId q.key + 1) u64Max) },
        some ⟨q, s.nextSeqId q.key, envelopes.filter fun e => (serde.envelope e).isOk⟩) := by
  simp [number, h]

lemma moves_step (serde : Serde) (o : Outbound) (s : OutboundStep) :
    Moves serde o s (o.step serde s) := by
  cases s with
  | connect iteration =>
    rw [step]
    split
    · rename_i h
      exact .connect iteration h
    · exact .idle _
  | send =>
    rw [step]
    split
    · rename_i h
      exact .send h
    · exact .idle _
  | disconnect reached =>
    rw [step]
    split
    · exact .idle _
    · rename_i h
      exact .disconnect reached h
  | receive q hq =>
    rw [step]
    split_ifs with hready
    · have hwriter : o.writer = some [] := of_decide_eq_true (Bool.and_eq_true_iff.mp hready).1
      cases hsplit : splitServerEnvelopeForTransport serde (q.number (o.state.nextSeqId q.key)) with
      | error err =>
        simp only [number, hsplit, Option.elim_none, Option.toList_none, append_nil]
        rw [← hwriter]
        exact .refuse q hq hwriter
      | ok envelopes =>
        rw [number_of_split hsplit]
        exact .number q hq hready hwriter hsplit
    · exact .idle _
  | delivered e =>
    rw [step, recordClientMessageDelivery]
    cases h : e.ack? with
    | none =>
      dsimp only [Option.toList_none]
      rw [append_nil]
      exact .idle _
    | some a => exact .acknowledge e h

/-! ## What holds always -/

variable {e' : ServerEnvelope}

lemma SplitOf.segment_le (h : SplitOf e envelopes) (he : ∀ n ∈ e.event.segmentId, n ≤ usizeMax)
    (he' : e' ∈ envelopes) : e'.segment ≤ usizeMax := by
  have hnone : ∀ o : Option Nat, (∀ n ∈ o, n ≤ usizeMax) → o.getD 0 ≤ usizeMax := by
    intro o ho
    cases o with
    | none => exact Nat.zero_le _
    | some n => exact ho n rfl
  refine hnone _ fun n hn => ?_
  obtain ⟨e'', rfl, hsegment⟩ | ⟨k, hk, hsegments⟩ := h.segments
  · rw [mem_singleton.mp he'] at hn
    obtain hsegment | rfl := hsegment
    · rw [hsegment] at hn
      cases hn
    · exact he n hn
  · have hmem : e'.event.segmentId ∈ (range k).map some :=
      hsegments ▸ mem_map_of_mem he'
    obtain ⟨n', hn', heq⟩ := mem_map.mp hmem
    rw [← heq] at hn
    cases hn
    have hsmall : remoteControlReassembledMaxBytes ≤ usizeMax := by decide
    exact (le_of_lt (mem_range.mp hn')).trans (hk.trans hsmall)

/-- **What every run keeps.** -/
structure Sound (serde : Serde) (o : Outbound) : Prop where
  used : o.state.outboundBuffer.used = size o.state.outboundBuffer.bufferByStream
  messages : ∀ m ∈ o.numbered, SplitOf (m.queued.number m.seqId) m.envelopes
  serializable : ∀ m ∈ o.numbered, ∀ e ∈ m.envelopes, (serde.envelope e).isOk = true
  segment_le : ∀ m ∈ o.numbered, ∀ e ∈ m.envelopes, e.segment ≤ usizeMax
  buffered : ∀ key, ∀ e ∈ o.buffered key, e ∈ o.log key

lemma mem_log {o : Outbound} {key} :
    e ∈ o.log key ↔ ∃ m ∈ o.numbered, m.queued.key = key ∧ e ∈ m.envelopes := by
  simp only [log, mem_flatMap, mem_filter, decide_eq_true_eq, and_assoc]

lemma log_concat {o o' : Outbound} (m : Numbered) (h : o'.numbered = o.numbered ++ [m])
    (key : ClientKey) :
    o'.log key = o.log key ++ if m.queued.key = key then m.envelopes else [] := by
  rw [log, h, filter_append, flatMap_append, filter_singleton]
  by_cases hkey : m.queued.key = key
  · rw [if_pos hkey, decide_eq_true hkey, cond_true, flatMap_singleton]
    rfl
  · rw [if_neg hkey, decide_eq_false hkey, cond_false, flatMap_nil]
    rfl

variable {serde : Serde} {o o' : Outbound} {pending : List ServerEnvelope}

section

variable {s : OutboundStep}

lemma sound_empty : Sound serde {} where
  used := rfl
  messages _ h := nomatch h
  serializable _ h := nomatch h
  segment_le _ h := nomatch h
  buffered _ _ h := nomatch h

variable {e : ServerEnvelope}

section

variable (h : Sound serde o)
include h

lemma Sound.key_eq (he : e ∈ o.log key) : e.key = key := by
  obtain ⟨m, hm, rfl, hem⟩ := mem_log.mp he
  exact (h.messages m hm).key e hem

lemma Sound.isOk (he : e ∈ o.log key) : (serde.envelope e).isOk := by
  obtain ⟨m, hm, -, hem⟩ := mem_log.mp he
  exact h.serializable m hm e hem

lemma Sound.segment_le_usizeMax (he : e ∈ o.log key) : e.segment ≤ usizeMax := by
  obtain ⟨m, hm, -, hem⟩ := mem_log.mp he
  exact h.segment_le m hm e hem

lemma sound_moves (hmove : Moves serde o s o') : Sound serde o' := by
  cases hmove with
  | idle => exact h
  | connect | send | disconnect | refuse =>
    exact ⟨h.used, h.messages, h.serializable, h.segment_le, h.buffered⟩
  | @number q hq _ _ envelopes hsplit =>
    have hsplitOf := splitOf_filter_isOk hsplit
    refine ⟨used_foldl_insert h.used _, forall_mem_append.mpr ⟨h.messages, ?_⟩,
      forall_mem_append.mpr ⟨h.serializable, ?_⟩, forall_mem_append.mpr ⟨h.segment_le, ?_⟩,
      fun key e he => ?_⟩
    · exact forall_mem_singleton.mpr hsplitOf
    · exact forall_mem_singleton.mpr fun e he => (mem_filter.mp he).2
    · exact forall_mem_singleton.mpr fun e he => hsplitOf.segment_le hq he
    · rw [log_concat _ rfl]
      rw [buffered, values_foldl_insert hsplitOf.key] at he
      obtain he | he := mem_append.mp he
      · exact mem_append_left _ (h.buffered key e he)
      · exact mem_append_right _ he
  | @acknowledge _ a _ =>
    refine ⟨used_ack a.seqId a.segmentId h.used a.key, h.messages, h.serializable, h.segment_le,
      fun key e he => h.buffered key e ?_⟩
    rw [buffered, values_ack] at he
    split at he
    · exact (mem_filter.mp he).1
    · exact he

lemma sound_run (steps : List OutboundStep) : Sound serde (o.run serde steps) := by
  induction steps generalizing o with
  | nil => exact h
  | cons s steps ih => exact ih (sound_moves h (moves_step serde o s))

/-! ### A new connection -/

/-- **A new writer starts with what is in the buffer**, and with the envelopes of each stream in
their order. -/
theorem Sound.filter_serverEnvelopes
    (iteration : HashMap.Order (ClientKey × List ServerEnvelope)) (key : ClientKey) :
    ((o.state.outboundBuffer.serverEnvelopes iteration).filter fun e =>
      (serde.envelope e).isOk).filter (·.key = key) = o.buffered key := by
  have hok : ∀ e ∈ o.state.outboundBuffer.serverEnvelopes iteration, (serde.envelope e).isOk := by
    intro e he
    obtain ⟨⟨key', buffer⟩, hentry, he⟩ := mem_flatMap.mp he
    have hget := mem_pairs.mp (iteration.mem_arrange.mp hentry)
    refine h.isOk (h.buffered key' e ?_)
    rw [Outbound.buffered, values, hget]
    exact he
  rw [filter_eq_self.mpr hok]
  exact filter_flatMap_arrange iteration _
    (fun key' e he => h.key_eq (h.buffered key' e he)) key

end

/-- What the writer has to send is sent in its order, and what is numbered behind it. -/
def Continues (o : Outbound) (pending : List ServerEnvelope) (o' : Outbound) : Prop :=
  ∃ sent pending' new, o'.wire = o.wire ++ sent ∧ o'.writer = some pending' ∧
    o'.numbered = o.numbered ++ new ∧ sent ++ pending' = pending ++ new.flatMap (·.envelopes)

lemma continues_self (hwriter : o'.writer = some pending) (hwire : o'.wire = o.wire)
    (hnumbered : o'.numbered = o.numbered) : Continues o pending o' :=
  ⟨[], pending, [], by simp [hwire], hwriter, by simp [hnumbered], by simp⟩

/-- As long as the connection lasts, the writer goes on. -/
lemma moves_connected (hmove : Moves serde o s o') (hs : ∀ reached, s ≠ .disconnect reached)
    (hwriter : o.writer = some pending) : Continues o pending o' := by
  cases hmove with
  | idle | refuse | acknowledge => exact continues_self hwriter rfl rfl
  | connect iteration h => cases hwriter.symm.trans h
  | @send e pending' h =>
    cases hwriter.symm.trans h
    exact ⟨[e], pending', [], rfl, rfl, (append_nil _).symm, (append_nil _).symm⟩
  | disconnect reached h => exact absurd rfl (hs reached)
  | number q hq hready h hsplit =>
    cases hwriter.symm.trans h
    exact ⟨[], _, [_], (append_nil _).symm, rfl, rfl, (flatMap_singleton _ _).symm⟩

lemma run_connected {steps}
    (hsteps : ∀ s ∈ steps, ∀ reached, s ≠ .disconnect reached) (hwriter : o.writer = some pending) :
    Continues o pending (o.run serde steps) := by
  induction steps generalizing o pending with
  | nil => exact continues_self hwriter rfl rfl
  | cons s steps ih =>
    obtain ⟨sent₁, pending₁, new₁, hwire₁, hwriter₁, hnumbered₁, hsent₁⟩ :=
      moves_connected (moves_step serde o s) (hsteps s mem_cons_self) hwriter
    obtain ⟨sent₂, pending₂, new₂, hwire₂, hwriter₂, hnumbered₂, hsent₂⟩ :=
      ih (fun s' hs' => hsteps s' (mem_cons_of_mem s hs')) hwriter₁
    refine ⟨sent₁ ++ sent₂, pending₂, new₁ ++ new₂, ?_, hwriter₂, ?_, ?_⟩
    · rw [← append_assoc, ← hwire₁]
      exact hwire₂
    · rw [← append_assoc, ← hnumbered₁]
      exact hnumbered₂
    · rw [append_assoc, hsent₂, ← append_assoc, hsent₁, flatMap_append, append_assoc]

end

/-! ## What holds in a fair run -/

/-- **A step is fair** if the event it numbers can be sent, and the acknowledgement it brings in
covers only what has been put on the wire.  There are also fewer messages on a stream than numbers
of 64 bits. -/
def Fair (serde : Serde) (o : Outbound) : OutboundStep → Prop
  | .receive q _ => o.ready = true → o.state.nextSeqId q.key < u64Max ∧
    Sendable serde (q.number (o.state.nextSeqId q.key))
  | .delivered e => ∀ a ∈ e.ack?, a.seqId < o.state.nextSeqId a.key ∧
    ∀ e' ∈ o.log a.key, a.Covers e' → e' ∈ o.wire
  | _ => True

/-- Every step is fair. -/
def FairRun (serde : Serde) : Outbound → List OutboundStep → Prop
  | _, [] => True
  | o, s :: steps => Fair serde o s ∧ FairRun serde (o.step serde s) steps

/-- The order of the envelopes of a stream. -/
def Before (e e' : ServerEnvelope) : Prop :=
  e.seqId < e'.seqId ∨ e.seqId = e'.seqId ∧ e.segment < e'.segment

lemma Ack.Covers.of_before (h : a.Covers e') (hkey : e.key = e'.key) (hbefore : Before e e') :
    a.Covers e := by
  refine ⟨hkey.trans h.1, ?_⟩
  rcases h.2 with hlt | ⟨heq, hsegment⟩ <;> rcases hbefore with hlt' | ⟨heq', hsegment'⟩
  · exact .inl (hlt'.trans hlt)
  · exact .inl (heq' ▸ hlt)
  · exact .inl (heq ▸ hlt')
  · exact .inr ⟨heq'.trans heq, fun n hn => (le_of_lt hsegment').trans (hsegment n hn)⟩

lemma Before.ne (h : Before e e') : e ≠ e' := by
  rintro rfl
  obtain h | ⟨-, h⟩ := h
  · exact lt_irrefl _ h
  · exact lt_irrefl _ h

lemma SplitOf.pairwise_before (h : SplitOf e envelopes) : envelopes.Pairwise Before := by
  obtain ⟨e', rfl, -⟩ | ⟨n, -, hsegments⟩ := h.segments
  · exact pairwise_singleton _ _
  · have hsorted : (envelopes.map (·.event.segmentId)).Pairwise fun a b => a.getD 0 < b.getD 0 := by
      rw [hsegments, pairwise_map]
      exact pairwise_lt_range
    rw [pairwise_map] at hsorted
    exact hsorted.imp_of_mem fun ha hb hlt =>
      .inr ⟨(h.seqId _ ha).trans (h.seqId _ hb).symm, hlt⟩

/-- **What every fair run keeps.** -/
structure Ordered (o : Outbound) : Prop where
  nextSeqId_pos : ∀ key, 1 ≤ o.state.nextSeqId key
  seqId_lt : ∀ key, ∀ e ∈ o.log key, e.seqId < o.state.nextSeqId key
  numbers : ∀ key, ((o.log key).map (·.seqId)).eraseDups = List.range' 1 (o.state.nextSeqId key - 1)
  before : ∀ key, (o.log key).Pairwise Before
  buffer : ∀ key, o.buffered key = (o.log key).filter fun e => !o.covered e
  acked : ∀ a ∈ o.acks, a.seqId < o.state.nextSeqId a.key ∧
    ∀ e ∈ o.log a.key, a.Covers e → e ∈ o.wire
  inOrder : ∀ key, InOrder (o.log key) (o.wire.filter (·.key = key))
  sending : ∀ pending, o.writer = some pending → ∀ key,
    Sending (o.log key) (o.wire.filter (·.key = key)) (pending.filter (·.key = key))

section

lemma ordered_empty : Ordered {} where
  nextSeqId_pos _ := le_refl 1
  seqId_lt _ _ h := nomatch h
  numbers _ := rfl
  before _ := List.Pairwise.nil
  buffer _ := rfl
  acked _ h := nomatch h
  inOrder _ := prefix_refl _
  sending _ h := nomatch h

section

variable (h : Ordered o)

include h

lemma Ordered.nodup (key : ClientKey) : (o.log key).Nodup :=
  (h.before key).imp Before.ne

lemma Ordered.connect (hsound : Sound serde o)
    (iteration : HashMap.Order (ClientKey × List ServerEnvelope)) :
    Ordered { o with
      writer := some ((o.state.outboundBuffer.serverEnvelopes iteration).filter fun e =>
        (serde.envelope e).isOk) } := by
  refine ⟨h.nextSeqId_pos, h.seqId_lt, h.numbers, h.before, h.buffer, h.acked, h.inOrder,
    fun pending hpending key => ?_⟩
  cases hpending
  rw [hsound.filter_serverEnvelopes iteration key, h.buffer key]
  refine sending_restart (h.inOrder key) ?_ fun e he hcovered => ?_
  · refine (h.before key).imp_of_mem fun he he' hbefore hcovered => ?_
    obtain ⟨a, ha, hcovers⟩ := of_decide_eq_true hcovered
    have hkey := (hsound.key_eq he).trans (hsound.key_eq he').symm
    exact decide_eq_true ⟨a, ha, hcovers.of_before hkey hbefore⟩
  · obtain ⟨a, ha, hcovers⟩ := of_decide_eq_true hcovered
    have hkey : key = a.key := (hsound.key_eq he).symm.trans hcovers.1
    exact mem_filter.mpr ⟨(h.acked a ha).2 e (hkey ▸ he) hcovers, decide_eq_true (hsound.key_eq he)⟩

/-- The envelope goes to its own stream. -/
lemma Ordered.send {e} (hwriter : o.writer = some (e :: pending)) :
    Ordered { o with writer := some pending, wire := o.wire ++ [e] } := by
  have hsending : ∀ key, Sending (o.log key) ((o.wire ++ [e]).filter (·.key = key))
      (pending.filter (·.key = key)) := by
    intro key
    have hold := h.sending _ hwriter key
    rw [filter_append, filter_singleton]
    rw [filter_cons] at hold
    by_cases hkey : e.key = key
    · rw [if_pos (decide_eq_true hkey)] at hold
      rw [decide_eq_true hkey]
      exact hold.send (h.nodup key)
    · rw [if_neg (fun h => hkey (of_decide_eq_true h))] at hold
      rw [decide_eq_false hkey, cond_false, append_nil]
      exact hold
  refine ⟨h.nextSeqId_pos, h.seqId_lt, h.numbers, h.before, h.buffer, fun a ha => ?_,
    fun key => (hsending key).inOrder, fun pending' hpending' key => ?_⟩
  · exact ⟨(h.acked a ha).1, fun e' he' hcovers =>
      mem_append_left _ ((h.acked a ha).2 e' he' hcovers)⟩
  · cases hpending'
    exact hsending key

lemma Ordered.hangUp : Ordered { o with writer := none } :=
  ⟨h.nextSeqId_pos, h.seqId_lt, h.numbers, h.before, h.buffer, h.acked, h.inOrder,
    fun _ hpending => (nomatch hpending)⟩

lemma Ordered.disconnect (reached : Bool) (hwriter : o.writer = some pending) :
    Ordered { o with
      writer := none, wire := o.wire ++ if reached then pending.take 1 else [] } := by
  have hnothing : Ordered { o with writer := none, wire := o.wire ++ [] } := by
    rw [append_nil]
    exact h.hangUp
  cases reached with
  | false => exact hnothing
  | true =>
    cases pending with
    | nil => exact hnothing
    | cons e pending => exact (h.send hwriter).hangUp

end

lemma nextSeqId_insert (s : WebsocketState) (buffer : BoundedOutboundBuffer) (key : ClientKey)
    (n : Nat) (key' : ClientKey) :
    (mk buffer (s.nextSeqIdByStream.insert key n)).nextSeqId key' =
      if key = key' then n else s.nextSeqId key' := by
  rw [nextSeqId, get_insert]
  split
  · rename_i heq
    rw [heq, Function.update_self, Option.getD_some]
  · rename_i hne
    rw [Function.update_of_ne (Ne.symm hne), nextSeqId]

/-- An event that cannot be cut leaves the numbers as they are. -/
lemma Ordered.refuse (h : Ordered o) (key : ClientKey) : Ordered { o with
      state.nextSeqIdByStream :=
        o.state.nextSeqIdByStream.insert key (o.state.nextSeqId key) } := by
  have hnext : (WebsocketState.mk o.state.outboundBuffer
      (o.state.nextSeqIdByStream.insert key (o.state.nextSeqId key))).nextSeqId =
        o.state.nextSeqId := by
    funext key'
    rw [nextSeqId_insert]
    split_ifs with heq
    · rw [heq]
    · rfl
  constructor
  all_goals simp only [hnext]
  exacts [h.nextSeqId_pos, h.seqId_lt, h.numbers, h.before, h.buffer, h.acked, h.inOrder, h.sending]

variable {q : QueuedServerEnvelope} {a : Ack}

/-- The new envelopes of a message are not covered by any acknowledgement that came before. -/
lemma Ordered.not_covers (h : Ordered o) {envelopes}
    (hsplit : SplitOf (q.number (o.state.nextSeqId q.key)) envelopes) {e}
    (he : e ∈ envelopes) (ha : a ∈ o.acks) : ¬a.Covers e := by
  intro hcovers
  have hkey : q.key = a.key := (hsplit.key e he).symm.trans hcovers.1
  have hseqId : e.seqId = o.state.nextSeqId q.key := hsplit.seqId e he
  have hlt := (h.acked a ha).1
  rw [← hkey, ← hseqId] at hlt
  rcases hcovers.2 with hle | ⟨heq, -⟩ <;> omega

/-- The numbers of a log, with envelopes that have the next one. -/
lemma eraseDups_numbers_append {log envelopes : List ServerEnvelope} {next}
    (hpos : 1 ≤ next) (hlt : ∀ e ∈ log, e.seqId < next)
    (hlog : (log.map (·.seqId)).eraseDups = range' 1 (next - 1)) (hne : envelopes ≠ [])
    (hnext : ∀ e ∈ envelopes, e.seqId = next) :
    ((log ++ envelopes).map (·.seqId)).eraseDups = range' 1 next := by
  have hnew : ∀ x ∈ envelopes.map (·.seqId), x = next := by
    intro x hx
    obtain ⟨e, he, rfl⟩ := mem_map.mp hx
    exact hnext e he
  have hfresh : next ∉ log.map (·.seqId) := by
    intro hmem
    obtain ⟨e, he, heq⟩ := mem_map.mp hmem
    exact lt_irrefl _ (heq ▸ hlt e he)
  obtain ⟨n, rfl⟩ := Nat.exists_eq_add_of_le hpos
  rw [map_append, eraseDups_append_const (fun hnil => hne (map_eq_nil_iff.mp hnil)) hnew hfresh,
    hlog, Nat.add_sub_cancel_left, Nat.add_comm 1 n, range'_1_concat, Nat.add_comm n 1]

section

variable (h : Ordered o)

include h

/-- **A message is numbered, cut and buffered.**  Only its own stream changes. -/
theorem Ordered.number {envelopes}
    (hsplit : SplitOf (q.number (o.state.nextSeqId q.key)) envelopes) (hne : envelopes ≠ [])
    (hnext : ∀ key, o'.state.nextSeqId key =
      if q.key = key then o.state.nextSeqId q.key + 1 else o.state.nextSeqId key)
    (hlog : ∀ key, o'.log key = o.log key ++ if q.key = key then envelopes else [])
    (hbuffered : ∀ key, o'.buffered key = o.buffered key ++ if q.key = key then envelopes else [])
    (hwire : o'.wire = o.wire) (hacks : o'.acks = o.acks) (hwriter : o.writer = some [])
    (hwriter' : o'.writer = some envelopes) : Ordered o' := by
  have hseqId : ∀ e ∈ envelopes, e.seqId = o.state.nextSeqId q.key := hsplit.seqId
  have hsent : ∀ key, Sending (o.log key) (o.wire.filter (·.key = key)) [] := h.sending [] hwriter
  refine ⟨fun key => ?_, fun key e he => ?_, fun key => ?_, fun key => ?_, fun key => ?_,
    fun a ha => ?_, fun key => ?_, fun pending hpending key => ?_⟩
  · rw [hnext key]
    split
    · exact Nat.succ_pos _
    · exact h.nextSeqId_pos key
  · rw [hlog key] at he
    rw [hnext key]
    by_cases hkey : q.key = key
    · subst hkey
      rw [if_pos rfl] at he ⊢
      obtain he | he := mem_append.mp he
      · exact Nat.lt_succ_of_lt (h.seqId_lt _ e he)
      · rw [hseqId e he]
        exact Nat.lt_succ_self _
    · rw [if_neg hkey] at he ⊢
      rw [append_nil] at he
      exact h.seqId_lt key e he
  · rw [hlog key, hnext key]
    by_cases hkey : q.key = key
    · subst hkey
      rw [if_pos rfl, if_pos rfl, Nat.add_sub_cancel]
      exact eraseDups_numbers_append (h.nextSeqId_pos _) (h.seqId_lt _) (h.numbers _) hne hseqId
    · rw [if_neg hkey, if_neg hkey, append_nil]
      exact h.numbers key
  · rw [hlog key]
    split_ifs with hkey
    · subst hkey
      refine pairwise_append.mpr ⟨h.before _, hsplit.pairwise_before, fun e he e' he' => ?_⟩
      exact .inl (hseqId e' he' ▸ h.seqId_lt _ e he)
    · rw [append_nil]
      exact h.before key
  · have hcovered : o'.covered = o.covered := by
      funext e
      rw [covered, covered, hacks]
    rw [hlog key, hbuffered key, h.buffer key, filter_append, hcovered]
    split
    · refine congrArg _ (filter_eq_self.mpr fun e he => ?_).symm
      rw [covered, decide_eq_false fun ⟨a, ha, hcovers⟩ => h.not_covers hsplit he ha hcovers]
      rfl
    · rfl
  · rw [hacks] at ha
    obtain ⟨hlt, hcovered⟩ := h.acked a ha
    rw [hnext a.key, hlog a.key, hwire]
    refine ⟨?_, fun e he hcovers => ?_⟩
    · split_ifs with hkey
      · exact Nat.lt_succ_of_lt (hkey ▸ hlt)
      · exact hlt
    · obtain he | he := mem_append.mp he
      · exact hcovered e he hcovers
      · split at he
        · exact absurd hcovers (h.not_covers hsplit he ha)
        · cases he
  · rw [hlog key, hwire]
    exact (h.inOrder key).extend _
  · rw [hwriter'] at hpending
    cases hpending
    have hfilter : envelopes.filter (·.key = key) = if q.key = key then envelopes else [] := by
      split_ifs with hkey
      · exact filter_eq_self.mpr fun e he => decide_eq_true ((hsplit.key e he).trans hkey)
      · exact filter_eq_nil_iff.mpr fun e he heq =>
          hkey ((hsplit.key e he).symm.trans (of_decide_eq_true heq))
    rw [hlog key, hwire, hfilter]
    exact (hsent key).extend _

/-- **An acknowledgement of what has been on the wire.** -/
theorem Ordered.acknowledge (hsound : Sound serde o)
    (hfair : a.seqId < o.state.nextSeqId a.key ∧ ∀ e ∈ o.log a.key, a.Covers e → e ∈ o.wire) :
    Ordered { o with
      state.outboundBuffer := o.state.outboundBuffer.ack a.key a.seqId a.segmentId
      acks := o.acks ++ [a] } := by
  generalize ho' : { o with
    state.outboundBuffer := o.state.outboundBuffer.ack a.key a.seqId a.segmentId
    acks := o.acks ++ [a] } = o'
  have hcovered : ∀ e, o'.covered e = (o.covered e || decide (a.Covers e)) := by
    intro e
    rw [← ho', covered, covered, ← Bool.decide_or]
    refine decide_eq_decide.mpr ?_
    simp
  -- The stream of the acknowledgement loses what is covered; the others have nothing of it.
  have hleft : ∀ key, o'.buffered key = (o.buffered key).filter fun e => !decide (a.Covers e) := by
    intro key
    rw [← ho', buffered, values_ack]
    split_ifs with hkey
    · refine filter_congr fun e he => congrArg Bool.not ?_
      have hmem := hsound.buffered key e he
      have hcursor := cursorLe_iff_covers ((hsound.key_eq hmem).trans hkey)
        (hsound.segment_le_usizeMax hmem)
      exact Bool.eq_iff_iff.mpr (hcursor.trans (decide_eq_true_iff).symm)
    · refine (filter_eq_self.mpr fun e he => ?_).symm
      have hmem := hsound.buffered key e he
      rw [decide_eq_false fun hcovers => hkey ((hsound.key_eq hmem).symm.trans hcovers.1)]
      rfl
  subst ho'
  refine ⟨h.nextSeqId_pos, h.seqId_lt, h.numbers, h.before, fun key => ?_,
    forall_mem_append.mpr ⟨h.acked, forall_mem_singleton.mpr hfair⟩, h.inOrder, h.sending⟩
  rw [hleft, h.buffer key, filter_filter]
  refine filter_congr fun e _ => ?_
  rw [hcovered, Bool.not_or, Bool.and_comm]

lemma ordered_moves {s} (hsound : Sound serde o)
    (hfair : Fair serde o s) (hmove : Moves serde o s o') : Ordered o' := by
  cases hmove with
  | idle => exact h
  | connect iteration _ => exact h.connect hsound iteration
  | send hwriter => exact h.send hwriter
  | disconnect reached hwriter => exact h.disconnect reached hwriter
  | refuse q hq _ => exact h.refuse q.key
  | number q hq hready hwriter hsplit =>
    obtain ⟨hmax, hsendable⟩ := hfair hready
    have hsplitOf := splitOf_filter_isOk hsplit
    refine h.number hsplitOf (filter_isOk_ne_nil hsendable hsplit) (fun key => ?_)
      (log_concat ⟨q, _, _⟩ rfl) (fun key => values_foldl_insert hsplitOf.key key) rfl
      rfl hwriter rfl
    rw [nextSeqId_insert, min_eq_left hmax]
  | acknowledge e hack => exact h.acknowledge hsound (hfair _ hack)

lemma ordered_run (hsound : Sound serde o) {steps}
    (hfair : FairRun serde o steps) : Ordered (o.run serde steps) := by
  induction steps generalizing o with
  | nil => exact h
  | cons s steps ih =>
    have hmove := moves_step serde o s
    exact ih (ordered_moves h hsound hfair.1 hmove) (sound_moves hsound hmove) hfair.2

end

end

/-! ## Delivery -/

/-- **Outbound delivery.**  The numbers that are put on the wire for the first time are 1, 2, 3, …;
the envelopes of a message have its number and are put on the wire in the order of their segments;
the buffer holds the envelopes that no acknowledgement covers, and its counter is their number; and
on a new connection these are sent first, those of a stream in their order. -/
structure Delivery (serde : Serde) (o : Outbound) : Prop where
  numbers : ∀ key, ∃ n, ((o.firstSent key).map (·.seqId)).eraseDups = List.range' 1 n
  messages : ∀ m ∈ o.numbered, SplitOf (m.queued.number m.seqId) m.envelopes
  inOrder : ∀ key, o.firstSent key <+: o.log key
  buffer : ∀ key, o.buffered key = (o.log key).filter fun e => ∀ a ∈ o.acks, ¬a.Covers e
  used : o.state.outboundBuffer.used = size o.state.outboundBuffer.bufferByStream
  reconnect : o.writer = none → ∀ iteration, ∃ resent : List ServerEnvelope,
    (∀ key, resent.filter (·.key = key) = o.buffered key) ∧
    ∀ steps : List OutboundStep, (∀ s ∈ steps, ∀ reached, s ≠ .disconnect reached) →
      ∃ sent pending new, ((o.step serde (.connect iteration)).run serde steps).wire =
          o.wire ++ sent ∧
        ((o.step serde (.connect iteration)).run serde steps).writer = some pending ∧
        ((o.step serde (.connect iteration)).run serde steps).numbered = o.numbered ++ new ∧
        sent ++ pending = resent ++ new.flatMap (·.envelopes)

section

/-- The numbers on the wire are the first ones of the log. -/
lemma Ordered.numbers_firstSent {o} (h : Ordered o) (key : ClientKey) :
    ∃ n, ((o.firstSent key).map (·.seqId)).eraseDups = range' 1 n := by
  have hpre : ((o.firstSent key).map (·.seqId)).eraseDups <+:
      range' 1 (o.state.nextSeqId key - 1) := by
    rw [← h.numbers key]
    exact eraseDups_prefix ((h.inOrder key).map _)
  obtain ⟨t, ht⟩ := hpre
  obtain ⟨n, -, hn, -⟩ := range'_eq_append_iff.mp ht.symm
  exact ⟨n, hn⟩

lemma Sound.reconnect {o} (h : Sound serde o) (hwriter : o.writer = none)
    (iteration : HashMap.Order (ClientKey × List ServerEnvelope)) :
    ∃ resent : List ServerEnvelope, (∀ key, resent.filter (·.key = key) = o.buffered key) ∧
      ∀ steps, (∀ s ∈ steps, ∀ reached, s ≠ .disconnect reached) →
        Continues o resent ((o.step serde (.connect iteration)).run serde steps) := by
  have hstep : o.step serde (.connect iteration) = { o with
      writer := some ((o.state.outboundBuffer.serverEnvelopes iteration).filter fun e =>
        (serde.envelope e).isOk) } := by
    rw [step, hwriter]
  refine ⟨_, h.filter_serverEnvelopes iteration, fun steps hsteps => ?_⟩
  have hgoes := @run_connected serde _ _ _ hsteps (congrArg writer hstep)
  rw [hstep] at hgoes ⊢
  exact hgoes

end

/-- **Delivery to remote clients**, for every fair run: however events, acknowledgements and breaks
of the connection are interleaved. -/
theorem outbound_delivery (serde : Serde) (steps : List OutboundStep)
    (hfair : FairRun serde {} steps) : Delivery serde (run serde {} steps) := by
  have hsound : Sound serde (run serde {} steps) := sound_run sound_empty steps
  have hordered := ordered_run ordered_empty sound_empty hfair
  refine ⟨hordered.numbers_firstSent, hsound.messages, hordered.inOrder, fun key => ?_, hsound.used,
    hsound.reconnect⟩
  rw [hordered.buffer key]
  refine filter_congr fun e _ => ?_
  rw [covered, ← decide_not]
  refine decide_eq_decide.mpr ?_
  push Not
  rfl

/-- **What any run keeps**, fair or not, and what a new connection sends first. -/
theorem outbound_resends (serde : Serde) (steps : List OutboundStep) :
    let o : Outbound := run serde {} steps
    Sound serde o ∧ (o.writer = none → ∀ iteration, ∃ resent,
      (∀ key, resent.filter (·.key = key) = o.buffered key) ∧
      ∀ later, (∀ s ∈ later, ∀ reached, s ≠ .disconnect reached) →
        Continues o resent ((o.step serde (.connect iteration)).run serde later)) := by
  have hsound : Sound serde (run serde {} steps) := sound_run sound_empty steps
  exact ⟨hsound, hsound.reconnect⟩

/-! ## Two runs -/

section

open Text

variable (text : Str)

/-- A text in ASCII, as bytes. -/
def textBytes : Bytes := text.map fun c => UInt8.ofNat c.toNat

/-- A serialiser that writes texts as they are, with nothing around them. -/
def plainMessage : OutgoingMessage → Bytes
  | .request body | .appServerNotification body | .response _ body => textBytes body
  | .error _ err => textBytes err.message

/-- A serializer that writes the text. -/
def plainSerde : Serde where
  message m := .ok (plainMessage m)
  envelope e :=
    match e.event with
    | .serverMessage message => .ok (plainMessage message)
    | .serverMessageChunk _ _ _ chunk => .ok (textBytes chunk)
    | .ack | .pong _ => .ok []
  base64 bytes := bytes.map fun b => Char.ofNat b.toNat

/-- A client and its stream. -/
def notificationKey : ClientKey := (⟨['c']⟩, ⟨['s']⟩)

/-- A notification for this client. -/
def notification : QueuedServerEnvelope :=
  ⟨.serverMessage (.appServerNotification text), notificationKey.1, notificationKey.2⟩

/-- The notification is queued. -/
def receiveNotification : OutboundStep := .receive (notification text) fun _ h => (nomatch h)

/-- The connection breaks before the second message is sent.  The first one is acknowledged, and the
second is sent on the next connection. -/
def resumedRun : List OutboundStep :=
  [.connect (.kept _), receiveNotification ['a'], .send, receiveNotification ['b'],
    .disconnect false, .delivered
      ⟨.ack none, notificationKey.1, some notificationKey.2, some 1, none⟩,
    .connect (.kept _), .send]

theorem outbound_delivery_resumed : FairRun plainSerde {} resumedRun ∧
    Delivery plainSerde (run plainSerde {} resumedRun) := by
  have hfair : FairRun plainSerde {} resumedRun := by
    refine ⟨trivial, fun _ => ⟨by decide, fun h => ?_⟩, trivial, fun _ => ⟨by decide, fun h => ?_⟩,
      trivial, ?_, trivial, trivial, trivial⟩
    · exact absurd h (by decide)
    · exact absurd h (by decide)
    · intro a ha
      cases ha
      exact ⟨by decide, by decide⟩
  exact ⟨hfair, outbound_delivery plainSerde resumedRun hfair⟩

/-- A message of more than 100 MiB. -/
def oversizedText : Str := List.replicate (remoteControlReassembledMaxBytes + 1) 'a'

/-- The message takes the number 1, and nothing is sent. -/
lemma step_receive_oversized {text} (h : remoteControlReassembledMaxBytes < text.length) :
    step plainSerde { writer := some [] } (receiveNotification text) =
      { state.nextSeqIdByStream := (∅ : HashMap ClientKey Nat).insert notificationKey 2
        writer := some []
        numbered := [⟨notification text, 1, []⟩] } := by
  have hmax : remoteControlSegmentMaxBytes ≤ remoteControlReassembledMaxBytes := by decide
  have hlength : (textBytes text).length = text.length := length_map _
  have hsplit : splitServerEnvelopeForTransport plainSerde ((notification text).number 1) =
      .ok [] :=
    splitServerEnvelopeForTransport_of_lt rfl rfl (hlength ▸ lt_of_le_of_lt hmax h) rfl
      (hlength ▸ h)
  have hnumber := number_of_split (s := {}) (q := notification text) hsplit
  have hready : ready { writer := some [] } := rfl
  rw [receiveNotification, step, if_pos hready]
  simp only [hnumber]
  rfl

/-- **A dropped message leaves a gap.**  The message is too large and is not sent, but the next one
has the number 2. -/
theorem dropped_message_leaves_gap : ¬Delivery plainSerde (run plainSerde {}
    [.connect (.kept _), receiveNotification oversizedText, receiveNotification ['b'], .send]) := by
  have hlength : remoteControlReassembledMaxBytes < oversizedText.length := by
    rw [oversizedText, length_replicate]
    exact Nat.lt_succ_self _
  have hwire : (run plainSerde {} [.connect (.kept _), receiveNotification oversizedText,
      receiveNotification ['b'], .send]).wire = [(notification ['b']).number 2] := by
    rw [run, foldl_cons, foldl_cons]
    have hconnect : step plainSerde {} (.connect (.kept _)) = { writer := some [] } := rfl
    rw [hconnect, step_receive_oversized hlength]
    rfl
  intro h
  obtain ⟨n, hn⟩ := h.numbers notificationKey
  rw [firstSent, hwire] at hn
  have hn : [2] = range' 1 n := hn
  cases n with
  | zero => cases hn
  | succ n => cases (cons.inj hn).1

end

end RemoteControl
