import CodexAgents.ExecServer.Published

/-!
# The reorder buffer

A session under any notifications, answers to reads and failures (`Call`).  The events published are
numbered from one without a gap, the buffered bytes are counted exactly, and what is buffered, apart
from the next event, is within both limits (`Held`).

Between calls the next event should not be buffered, and nothing should follow the close.  This is
so if the events that come in are numbered in one way, with a number for the exit and the last one
for the close (`Numbering`), and not in general (`output_after_close`): `publish_ready` does not
stop at the close, and `recover_events` can fail after it has buffered the close as the next event,
exempt from the limits.
-/

namespace ExecServer

open Text Outcome List SessionState

/-- Only events with a number are notified. -/
inductive Call where
  | notify (event : { e : ExecProcessEvent // e.seq.isSome })
  | answer (response : ReadResponse)
  | fail (message : Str)

/-- A notification that fails is handled by `finish_process_event`. -/
def SessionState.call (s : SessionState) : Call → SessionState
  | .notify event =>
    match s.publishOrderedEvent event.1 with
    | .ok (_, t) => t
    | .error message => s.setFailure message
  | .answer response => stateAfter (recoverEvents response) s
  | .fail message => s.setFailure message

/-! ## What is buffered -/

/-- The size of events in the buffer. -/
def bufferedBytes (pending : List (Nat × ExecProcessEvent)) : Nat :=
  (pending.map fun p => pendingProcessEventBytes p.2).sum

/-- The events in the buffer, apart from the next one. -/
def SessionState.ahead (s : SessionState) : List (Nat × ExecProcessEvent) :=
  s.pending.filter fun p => p.1 ≠ s.lastPublishedSeq + 1

/-- A session, at any time. -/
structure Held (s : SessionState) : Prop where
  sorted : s.pending.Pairwise fun a b => a.1 < b.1
  key : ∀ p ∈ s.pending, p.2.seq = some p.1 ∧ s.lastPublishedSeq < p.1
  bytes : s.pendingBytes = bufferedBytes s.pending
  entries : s.ahead.length ≤ maxPendingProcessEvents
  size : bufferedBytes s.ahead ≤ maxPendingProcessEventBytes
  numbers : s.sequenced.map (·.seq) = (range' 1 s.lastPublishedSeq).map some

variable {pending : List (Nat × ExecProcessEvent)}

lemma bufferedBytes_filter_le (f : Nat × ExecProcessEvent → Bool) :
    bufferedBytes (pending.filter f) ≤ bufferedBytes pending :=
  (filter_sublist.map _).sum_le_sum fun _ _ => Nat.zero_le _

namespace Held

variable {s t : SessionState} {event : ExecProcessEvent} {seq : Nat} (h : Held s)
include h

lemma pending_eq (hevent : s.pending.lookup (s.lastPublishedSeq + 1) = some event) :
    s.pending = (s.lastPublishedSeq + 1, event) :: s.ahead := by
  have hmem := mem_of_lookup hevent
  have hsorted := h.sorted
  have hkey := h.key
  rw [ahead]
  rcases hpending : s.pending with _ | ⟨p, pending⟩
  · rw [hpending] at hmem
    cases hmem
  rw [hpending] at hmem hsorted hkey
  obtain ⟨hp, -⟩ := pairwise_cons.mp hsorted
  have hfirst : p = (s.lastPublishedSeq + 1, event) := by
    obtain heq | hmem := mem_cons.mp hmem
    · exact heq.symm
    · have hlt : p.1 < s.lastPublishedSeq + 1 := hp _ hmem
      have := (hkey p mem_cons_self).2
      omega
  subst hfirst
  rw [filter_cons_of_neg (by simp), filter_eq_self.mpr]
  exact fun q hq => decide_eq_true (hp q hq).ne'

lemma publishEvent (hevent : s.pending.lookup (s.lastPublishedSeq + 1) = some event) :
    Held (s.publishEvent event) := by
  have hseq := (h.key _ (mem_of_lookup hevent)).1
  refine ⟨h.sorted.filter _, fun p hp => ?_, ?_, (length_filter_le _ _).trans h.entries,
    (bufferedBytes_filter_le _).trans h.size, ?_⟩
  · obtain ⟨hp, hne⟩ := mem_filter.mp hp
    obtain ⟨hpseq, hlt⟩ := h.key p hp
    exact ⟨hpseq, lt_of_le_of_ne hlt (Ne.symm (of_decide_eq_true hne))⟩
  · show s.pendingBytes - _ = bufferedBytes s.ahead
    rw [h.bytes, h.pending_eq hevent]
    exact Nat.add_sub_cancel_left _ _
  · show ((s.events ++ [event]).filter _).map _ = (range' 1 (s.lastPublishedSeq + 1)).map some
    rw [filter_append, map_append, ← sequenced, h.numbers, range'_concat, map_append,
      filter_singleton, hseq, one_mul, add_comm 1]
    exact congrArg _ (congrArg (· :: []) hseq)

lemma insertPending (hseq : event.seq = some seq) (hlt : s.lastPublishedSeq < seq)
    (ht : s.insertPending event = .ok t) : Held t := by
  obtain ⟨-, rfl⟩ | ⟨hnot, rfl, hlimits⟩ := insertPending_cases hseq ht
  · exact h
  have hperm := perm_orderedInsert (fun a b : Nat × ExecProcessEvent => a.1 ≤ b.1) (seq, event)
    s.pending
  have hsum : ∀ {l l'}, l ~ l' → bufferedBytes l = bufferedBytes l' := fun h => (h.map _).sum_eq
  have hahead := hperm.filter fun p => p.1 ≠ s.lastPublishedSeq + 1
  refine ⟨pairwise_orderedInsert h.sorted hnot, fun p hp => ?_, ?_, ?_, ?_, h.numbers⟩
  · obtain rfl | hp := mem_cons.mp (hperm.mem_iff.mp hp)
    · exact ⟨hseq, hlt⟩
    · exact h.key p hp
  · show s.pendingBytes + _ = _
    rw [hsum hperm, h.bytes, add_comm]
    rfl
  · refine hahead.length_eq.trans_le ?_
    obtain rfl | ⟨hroom, -⟩ := hlimits
    · rw [filter_cons_of_neg (by simp)]
      exact h.entries
    · exact (length_filter_le _ _).trans hroom
  · refine (hsum hahead).trans_le ?_
    obtain rfl | ⟨-, hroom⟩ := hlimits
    · rw [filter_cons_of_neg (by simp)]
      exact h.size
    · refine (bufferedBytes_filter_le _).trans ?_
      rwa [h.bytes, Nat.add_comm] at hroom

lemma setFailure (message : Str) : Held (s.setFailure message) := by
  unfold SessionState.setFailure
  split
  · exact h
  · refine ⟨.nil, forall_mem_nil _, rfl, Nat.zero_le _, Nat.zero_le _, ?_⟩
    rw [sequenced, filter_append]
    exact (congrArg (map _) (append_nil _)).trans h.numbers

end Held

/-! ## Numbers -/

/-- The number of the exit, and the number of the close, which is the last one. -/
structure Numbering where
  exit : Nat
  close : Nat
  exit_pos : 0 < exit
  exit_lt : exit < close

/-- The event may have the number. -/
structure Numbering.Fits (n : Numbering) (seq : Nat) (event : ExecProcessEvent) : Prop where
  le : seq ≤ n.close
  closed : event.isClosed ↔ seq = n.close
  exited : seq = n.exit → event.isExited

/-- An exit may have any number below the close. -/
lemma Numbering.fits_exited {n : Numbering} {seq : Nat} (h : seq < n.close) (exitCode : Int)
    (denied : Option Bool) : n.Fits seq (.exited seq exitCode denied) :=
  ⟨h.le, iff_of_false Bool.false_ne_true h.ne, fun _ => rfl⟩

/-- **The call keeps to the numbers.**  An answer goes up to the close just if it has it. -/
def Call.KeepsTo (n : Numbering) : Call → Prop
  | .notify event => ∀ seq, event.1.seq = some seq → n.Fits seq event.1
  | .answer r => (∀ chunk ∈ r.chunks, n.Fits chunk.seq (.output chunk)) ∧
      r.nextSeq - 1 ≤ n.close ∧ (r.closed ↔ r.nextSeq - 1 = n.close)
  | .fail _ => True

/-- A session that has only seen events with their numbers, at any time. -/
structure Numbered (n : Numbering) (s : SessionState) : Prop extends Held s where
  fits : ∀ p ∈ s.pending, n.Fits p.1 p.2
  exited : n.exit ≤ s.lastPublishedSeq → s.exitPublished
  closed : s.closedPublished = false ↔ s.lastPublishedSeq < n.close
  opened : s.lastPublishedSeq < n.close → ∀ event ∈ s.sequenced, ¬ event.isClosed
  last : s.sequenced.Pairwise fun event _ => ¬ event.isClosed

variable {n : Numbering} {r : ReadResponse} {s t : SessionState} {event : ExecProcessEvent}
  {seq : Nat}

lemma mem_keys_orderedInsert {pending : List (Nat × ExecProcessEvent)} {p} {j : Nat} :
    j ∈ (pending.orderedInsert (fun a b => a.1 ≤ b.1) p).map Prod.fst ↔
      j = p.1 ∨ j ∈ pending.map Prod.fst :=
  ((perm_orderedInsert _ _ _).map Prod.fst).mem_iff.trans mem_cons

namespace Numbered

variable (h : Numbered n s)
include h

lemma publishEvent (hevent : s.pending.lookup (s.lastPublishedSeq + 1) = some event) :
    Numbered n (s.publishEvent event) := by
  have hfits := h.fits _ (mem_of_lookup hevent)
  have hopen := h.opened hfits.le
  have hsequenced : (s.publishEvent event).sequenced =
      s.sequenced ++ [event].filter (·.seq.isSome) :=
    filter_append ..
  refine ⟨h.toHeld.publishEvent hevent, fun p hp => h.fits p (mem_filter.mp hp).1, fun hle => ?_,
    ?_, fun hlt => ?_, ?_⟩
  · obtain heq | hlt := hle.eq_or_lt
    · exact Bool.or_eq_true_iff.mpr (.inr (hfits.exited heq.symm))
    · exact Bool.or_eq_true_iff.mpr (.inl (h.exited (Nat.le_of_lt_succ hlt)))
  · show (s.closedPublished || event.isClosed) = false ↔ s.lastPublishedSeq + 1 < n.close
    rw [Bool.or_eq_false_iff, h.closed, ← Bool.not_eq_true, hfits.closed]
    have := hfits.le
    omega
  · rw [hsequenced, forall_mem_append]
    refine ⟨hopen, fun e he => ?_⟩
    rw [mem_singleton.mp (mem_filter.mp he).1, hfits.closed]
    exact hlt.ne
  · rw [hsequenced, pairwise_append]
    exact ⟨h.last, (pairwise_singleton _ _).filter _, fun e he _ _ => hopen e he⟩

lemma publishReady : Numbered n s.publishReady.2 ∧ s.publishReady.2.Ready :=
  publishReadyFrom_rule publishEvent h le_rfl false

lemma insertPending (hseq : event.seq = some seq) (hlt : s.lastPublishedSeq < seq)
    (hfits : n.Fits seq event) (ht : s.insertPending event = .ok t) : Numbered n t := by
  have hheld := h.toHeld.insertPending hseq hlt ht
  obtain ⟨-, rfl⟩ | ⟨-, rfl, -⟩ := insertPending_cases hseq ht
  · exact h
  refine ⟨hheld, fun p hp => ?_, h.exited, h.closed, h.opened, h.last⟩
  obtain rfl | hp := (mem_orderedInsert _).mp hp
  · exact hfits
  · exact h.fits p hp

lemma setFailure (message : Str) : Numbered n (s.setFailure message) := by
  by_cases hended : (s.failure.isSome || s.closedPublished) = true
  · rw [SessionState.setFailure, if_pos hended]
    exact h
  · have hheld := h.toHeld.setFailure message
    rw [SessionState.setFailure, if_neg hended] at hheld ⊢
    have hsequenced : (s.events ++ [ExecProcessEvent.failed message]).filter (·.seq.isSome) =
        s.sequenced := by
      rw [filter_append]
      exact append_nil _
    refine ⟨hheld, forall_mem_nil _, h.exited, h.closed, ?_, ?_⟩
    · rw [sequenced, hsequenced]
      exact h.opened
    · rw [sequenced, hsequenced]
      exact h.last

end Numbered

/-! ## Recovering -/

lemma ensures_insert {E Q : SessionState → Prop} (h : E s)
    (hQ : ∀ t, s.insertPending event = .ok t → Q t) :
    Ensures (insertPending event) s (fun _ => Q) fun _ => E := by
  unfold Ensures insertPending
  rcases hinsert : s.insertPending event with message | t
  · exact h
  · exact hQ t hinsert

lemma ensures_insertExit {E Q : SessionState → Prop} (h : E s) (hQ : ∀ exitCode denied t,
    s.insertPending (.exited seq exitCode denied) = .ok t → Q t) :
    Ensures (insertExit r seq) s (fun _ => Q) fun _ => E := by
  rw [insertExit]
  obtain _ | exitCode := r.exitCode
  · exact h
  · exact ensures_insert h (hQ exitCode _)

/-- While an answer is recovered.  An exit that is not known has not been seen. -/
structure Recovering (n : Numbering) (r : ReadResponse) (known : Bool) (s : SessionState) : Prop
    extends Numbered n s where
  unknown : r.closed → known = false →
    s.exitPublished = false ∧ ∀ p ∈ s.pending, p.2.isExited = false

/-- What a call leaves behind. -/
def Settled (n : Numbering) (s : SessionState) : Prop := Numbered n s ∧ s.Ready

namespace Recovering

variable {known known' : Bool}

lemma publishReady (h : Recovering n r known s) :
    Recovering n r known s.publishReady.2 ∧ s.publishReady.2.Ready := by
  refine publishReadyFrom_rule ?_ h le_rfl false
  intro s event h hevent
  refine ⟨h.toNumbered.publishEvent hevent, fun hclosed hnot => ?_⟩
  obtain ⟨hpublished, hpending⟩ := h.unknown hclosed hnot
  exact ⟨Bool.or_eq_false_iff.mpr ⟨hpublished, hpending _ (mem_of_lookup hevent)⟩,
    fun p hp => hpending p (mem_filter.mp hp).1⟩

lemma insertPending (h : Recovering n r known s) (hseq : event.seq = some seq)
    (hlt : s.lastPublishedSeq < seq) (hfits : n.Fits seq event)
    (hknown : known' = false → known = false ∧ event.isExited = false)
    (ht : s.insertPending event = .ok t) : Recovering n r known' t := by
  refine ⟨h.toNumbered.insertPending hseq hlt hfits ht, fun hclosed hnot => ?_⟩
  obtain ⟨hnot, hexit⟩ := hknown hnot
  obtain ⟨-, rfl⟩ | ⟨-, rfl, -⟩ := insertPending_cases hseq ht
  · exact h.unknown hclosed hnot
  refine ⟨(h.unknown hclosed hnot).1, fun p hp => ?_⟩
  obtain rfl | hp := (mem_orderedInsert _).mp hp
  · exact hexit
  · exact (h.unknown hclosed hnot).2 p hp

lemma ensures_recoverChunks {chunks} (hchunks : ∀ chunk ∈ chunks, n.Fits chunk.seq (.output chunk))
    (h : Recovering n r known s) (hready : s.Ready) (targetSeq : Nat) :
    Ensures (recoverChunks r targetSeq chunks known) s
      (fun result t => Recovering n r result.1 t ∧ t.Ready) fun _ => Settled n := by
  induction chunks generalizing s known with
  | nil => exact ⟨h, hready⟩
  | cons chunk chunks ih =>
    obtain ⟨hfits, hchunks⟩ := forall_mem_cons.mp hchunks
    rw [recoverChunks]
    split_ifs with hbeyond
    · exact ⟨h.toNumbered, hready⟩
    refine Ensures.bind (Q := fun result t => Recovering n r result.1 t ∧ t.Ready) ?_
      fun known t ht => ?_
    · refine ensures_get_bind ?_
      split_ifs with hguess
      · refine (ensures_insertExit (Q := Recovering n r true) ⟨h.toNumbered, hready⟩
          fun _ _ t ht => ?_).bind fun _ t ht => ht.publishReady
        exact h.insertPending rfl (Nat.lt_succ_self _)
          (Numbering.fits_exited (hguess.2.2.trans_le hfits.le) _ _)
          (fun hnot => absurd hnot Bool.false_ne_true.symm) ht
      · exact ⟨h, hready⟩
    refine Ensures.bind (Q := fun _ t => Recovering n r known.1 t ∧ t.Ready) ?_ fun _ u hu => ?_
    · refine ensures_get_bind ?_
      split_ifs with hnew
      · refine (ensures_insert (Q := Recovering n r known.1) ⟨ht.1.toNumbered, ht.2⟩
          fun u hu => ?_).bind fun _ u hu => hu.publishReady
        exact ht.1.insertPending rfl hnew hfits (fun hnot => ⟨hnot, rfl⟩) hu
      · exact ht
    exact (ih hchunks hu.1 hu.2).bind fun _ _ h => h

/-- The close of the answer is there, and nothing but it may be the next event. -/
structure Closed (n : Numbering) (r : ReadResponse) (known : Bool) (s : SessionState) : Prop
    extends Recovering n r known s where
  next : s.lastPublishedSeq + 1 ∈ s.keys → r.closed ∧ s.lastPublishedSeq + 1 = n.close
  placed : r.closed → s.closedPublished = false → n.close ∈ s.keys

lemma ensures_recoverClosed (h : Recovering n r known s) (hready : s.Ready)
    (hclose : r.closed ↔ r.nextSeq - 1 = n.close) :
    Ensures (recoverClosed r (r.nextSeq - 1)) s (fun _ => Closed n r known)
      fun _ => Settled n := by
  refine ensures_get_bind ?_
  split_ifs with hinsert
  · obtain ⟨hclosed, hopen, -⟩ := hinsert
    have heq := hclose.mp hclosed
    have hlt := h.closed.mp hopen
    rw [heq]
    refine ensures_insert ⟨h.toNumbered, hready⟩ fun t ht => ?_
    have hrecovering : Recovering n r known t := h.insertPending rfl hlt
      ⟨le_rfl, iff_of_true rfl rfl, fun hexit => absurd hexit n.exit_lt.ne'⟩
      (fun hnot => ⟨hnot, rfl⟩) ht
    obtain ⟨hmem, rfl⟩ | ⟨-, rfl, -⟩ := insertPending_cases rfl ht
    · exact ⟨hrecovering, fun hnext => absurd hnext hready, fun _ _ => hmem⟩
    refine ⟨hrecovering, fun hnext => ⟨hclosed, ?_⟩,
      fun _ _ => mem_keys_orderedInsert.mpr (.inl rfl)⟩
    exact (mem_keys_orderedInsert.mp hnext).resolve_right hready
  · refine ⟨h, fun hnext => absurd hnext hready, fun hclosed hopen => ?_⟩
    -- it is in the buffer already
    have hany := not_not.mp fun hnot => hinsert ⟨hclosed, hopen, hnot⟩
    rw [← hclose.mp hclosed, ← lookup_isSome_iff]
    exact Option.isSome_of_any hany

lemma firstMissingSeq_of_ready (h : s.Ready) (targetSeq : Nat) :
    firstMissingSeq s targetSeq = s.lastPublishedSeq + 1 := by
  rw [firstMissingSeq]
  rcases hseqs : retainedSeqs s targetSeq with _ | ⟨seq, seqs⟩
  · rfl
  · refine if_neg fun heq => h ?_
    have hmem : seq ∈ retainedSeqs s targetSeq := hseqs ▸ mem_cons_self
    exact heq ▸ (mem_filter.mp hmem).1

/-- What is missing up to the target is the exit, and its number is the next one. -/
lemma Closed.ensures_recoverExit (h : Closed n r known s) (hle : r.nextSeq - 1 ≤ n.close)
    (hclose : r.closed ↔ r.nextSeq - 1 = n.close) :
    Ensures (recoverExit r (r.nextSeq - 1) known) s (fun _ => Numbered n) fun _ => Settled n := by
  -- if the close is the next event, then nothing is missing
  have hready : r.nextSeq - 1 - s.lastPublishedSeq - (retainedSeqs s (r.nextSeq - 1)).length ≠ 0 →
      s.Ready := by
    intro hmissing hmem
    obtain ⟨hclosed, hnext⟩ := h.next hmem
    have htarget := hclose.mp hclosed
    have hpos : 0 < (retainedSeqs s (r.nextSeq - 1)).length :=
      length_pos_of_mem (mem_filter.mpr ⟨hmem, decide_eq_true ⟨le_rfl, by omega⟩⟩)
    omega
  refine ensures_get_bind ?_
  dsimp only
  split_ifs with hexit hcount hcount
  · refine ⟨h.toNumbered, fun hmem => ?_⟩
    obtain ⟨hclosed, hnext⟩ := h.next hmem
    have hpublished := h.exited (Nat.le_of_lt_succ (n.exit_lt.trans_eq hnext.symm))
    exact Bool.false_ne_true ((h.unknown hclosed hexit.2).1.symm.trans hpublished)
  · have hone := hready (by omega)
    have hlast : s.lastPublishedSeq + 1 ≠ n.close := by
      intro hnext
      have hclosed := hclose.mpr (by omega)
      exact hone (hnext ▸ h.placed hclosed (h.closed.mpr (by omega)))
    refine ensures_insertExit ⟨h.toNumbered, hone⟩ fun _ _ t ht => ?_
    rw [firstMissingSeq_of_ready hone] at ht
    exact h.toNumbered.insertPending rfl (Nat.lt_succ_self _)
      (Numbering.fits_exited (lt_of_le_of_ne (by omega) hlast) _ _) ht
  · exact ⟨h.toNumbered, hready hcount⟩
  · exact h.toNumbered

end Recovering

/-- What the invariants depend on. -/
def entry (p : Nat × ExecProcessEvent) : Nat × Option Nat × Nat × Bool × Bool :=
  (p.1, p.2.seq, pendingProcessEventBytes p.2, p.2.isClosed, p.2.isExited)

/-- What is noted in a pending exit changes none of this. -/
lemma map_amendExit (targetSeq : Nat) (denied : Bool) (pending : List (Nat × ExecProcessEvent)) :
    (amendExit targetSeq denied pending).map entry = pending.map entry := by
  fun_induction amendExit with
  | case1 => rfl
  | case2 key seq exitCode pendingDenied pending _ ih | case3 p pending _ ih =>
    rw [map_cons, ih, map_cons]
  | case4 => rfl

section

variable {pending : List (Nat × ExecProcessEvent)} (heq : pending.map entry = s.pending.map entry)
include heq

lemma exists_of_map_entry {p} (hp : p ∈ pending) : ∃ q ∈ s.pending, q.1 = p.1 ∧
    q.2.seq = p.2.seq ∧ q.2.isClosed = p.2.isClosed ∧ q.2.isExited = p.2.isExited := by
  obtain ⟨q, hq, hqp⟩ := mem_map.mp (heq ▸ mem_map_of_mem hp)
  simp only [entry, Prod.mk.injEq] at hqp
  exact ⟨q, hq, hqp.1, hqp.2.1, hqp.2.2.2⟩

lemma keys_of_map_entry : pending.map Prod.fst = s.keys := by
  have hkeys := congrArg (map Prod.fst) heq
  rwa [map_map, map_map] at hkeys

lemma Held.of_map_entry (h : Held s) : Held { s with pending } := by
  have hbytes : ∀ l, bufferedBytes l = ((l.map entry).map (·.2.2.1)).sum := by
    intro l
    rw [map_map]
    rfl
  have hahead : (pending.filter fun p => p.1 ≠ s.lastPublishedSeq + 1).map entry =
      s.ahead.map entry := by
    have := congrArg (filter fun e => e.1 ≠ s.lastPublishedSeq + 1) heq
    rwa [filter_map, filter_map] at this
  refine ⟨?_, fun p hp => ?_, ?_, ?_, ?_, h.numbers⟩
  · have hsorted : s.keys.Pairwise (· < ·) := pairwise_map.mpr h.sorted
    exact pairwise_map.mp (keys_of_map_entry heq ▸ hsorted)
  · obtain ⟨q, hq, hkey, hseq, -⟩ := exists_of_map_entry heq hp
    rw [← hkey, ← hseq]
    exact h.key q hq
  · rw [hbytes, heq, ← hbytes]
    exact h.bytes
  · have := congrArg length hahead
    rw [length_map, length_map] at this
    exact this.trans_le h.entries
  · refine le_of_eq_of_le ?_ h.size
    rw [hbytes, hbytes, ← hahead]
    rfl

lemma Numbered.of_map_entry (h : Numbered n s) : Numbered n { s with pending } := by
  refine ⟨h.toHeld.of_map_entry heq, fun p hp => ?_, h.exited, h.closed, h.opened, h.last⟩
  obtain ⟨q, hq, hkey, -, hclosed, hexited⟩ := exists_of_map_entry heq hp
  have hfits := h.fits q hq
  exact ⟨hkey ▸ hfits.le, by rw [← hclosed, ← hkey, hfits.closed],
    fun hexit => hexited ▸ hfits.exited (hkey.trans hexit)⟩

end

lemma Numbered.ensures_recoverEvents (h : Numbered n s) (hready : s.Ready)
    (hr : (Call.answer r).KeepsTo n) :
    Ensures (recoverEvents r) s (fun _ => Settled n) fun _ => Settled n := by
  obtain ⟨hchunks, hle, hclose⟩ := hr
  unfold recoverEvents
  obtain _ | message := r.failure
  · refine ensures_get_bind ?_
    dsimp only
    split_ifs with hnew
    · exact ⟨h, hready⟩
    refine ensures_get_bind (ensures_set_bind ?_)
    have heq := map_amendExit (r.nextSeq - 1) r.sandboxDenied s.pending
    have ha := h.of_map_entry heq
    have hready' : SessionState.Ready { s with
        pending := amendExit (r.nextSeq - 1) r.sandboxDenied s.pending } := by
      rw [SessionState.Ready, SessionState.keys, keys_of_map_entry heq]
      exact hready
    split_ifs with hconflict
    · exact ⟨ha, hready'⟩
    have hrecovering : Recovering n r (exitKnown s r) { s with
        pending := amendExit (r.nextSeq - 1) r.sandboxDenied s.pending } := by
      refine ⟨ha, fun hclosed hnot => ?_⟩
      obtain ⟨hpublished, hpending⟩ := Bool.or_eq_false_iff.mp hnot
      refine ⟨hpublished, fun p hp => ?_⟩
      obtain ⟨q, hq, hkey, -, -, hexited⟩ := exists_of_map_entry heq hp
      have hnone := any_eq_false.mp hpending q hq
      rw [← hexited]
      rwa [decide_eq_true (hclose.mp hclosed ▸ (h.fits q hq).le), Bool.true_and,
        Bool.not_eq_true] at hnone
    refine (hrecovering.ensures_recoverChunks hchunks hready' _).bind ?_
    rintro ⟨known, _⟩ t ⟨ht, hready⟩
    refine (ht.ensures_recoverClosed hready hclose).bind fun _ u hu => ?_
    exact (hu.ensures_recoverExit hle hclose).bind fun _ v hv => hv.publishReady
  · exact ⟨h, hready⟩

/-! ## Calls -/

lemma call_of_failure (hfailure : s.failure.isSome) (c : Call) : s.call c = s := by
  obtain ⟨event, hseq⟩ | r | message := c
  · obtain ⟨seq, hseq⟩ := Option.isSome_iff_exists.mp hseq
    simp [call, publishOrderedEvent, hseq, hfailure]
  · refine stateAfter_of_ensures (P := (· = s)) ?_
    unfold recoverEvents
    obtain _ | message := r.failure
    · refine ensures_get_bind ?_
      dsimp only
      rw [hfailure, Bool.true_or, Bool.true_or, if_pos rfl]
      rfl
    · rfl
  · rw [call, setFailure, hfailure, Bool.true_or, if_pos rfl]

lemma Settled.setFailure (h : Settled n s) (message : Str) : Settled n (s.setFailure message) := by
  refine ⟨h.1.setFailure message, ?_⟩
  unfold SessionState.setFailure
  split
  · exact h.2
  · exact not_mem_nil

lemma Settled.call {c} (h : Settled n s) (hc : c.KeepsTo n) : Settled n (s.call c) := by
  obtain ⟨event, hseq⟩ | r | message := c
  · obtain ⟨seq, hseq⟩ := Option.isSome_iff_exists.mp hseq
    rw [SessionState.call, publishOrderedEvent, hseq]
    dsimp only
    split_ifs with hold
    · exact h
    simp only [Bool.or_eq_true, decide_eq_true_iff, not_or, not_le] at hold
    rcases hinsert : s.insertPending event with message | t
    · exact h.setFailure message
    · exact (h.1.insertPending hseq hold.2 (hc seq hseq) hinsert).publishReady
  · exact stateAfter_of_ensures (h.1.ensures_recoverEvents h.2 hc)
  · exact h.setFailure message

/-- **The buffer is within its limits and its bytes are counted, what was published is in order and
ends with the close, and a session that has failed does not publish any more.** -/
structure Bounded (s : SessionState) : Prop where
  keys : ∀ p ∈ s.pending, s.lastPublishedSeq + 1 < p.1
  bytes : s.pendingBytes = bufferedBytes s.pending
  entries : s.pending.length ≤ maxPendingProcessEvents
  size : s.pendingBytes ≤ maxPendingProcessEventBytes
  numbers : s.sequenced.map (·.seq) = (range' 1 s.lastPublishedSeq).map some
  closed : s.sequenced.Pairwise fun event _ => ¬ event.isClosed
  failed : s.failure.isSome → ∀ c, s.call c = s

lemma Settled.bounded (h : Settled n s) : Bounded s := by
  obtain ⟨h, hready⟩ := h
  have hne : ∀ p ∈ s.pending, p.1 ≠ s.lastPublishedSeq + 1 :=
    fun p hp heq => hready (heq ▸ mem_map_of_mem hp)
  have hahead : s.ahead = s.pending := filter_eq_self.mpr fun p hp => decide_eq_true (hne p hp)
  refine ⟨fun p hp => ?_, h.bytes, hahead ▸ h.entries, ?_, h.numbers, h.last, call_of_failure⟩
  · exact lt_of_le_of_ne (h.key p hp).2 (hne p hp).symm
  · rw [h.bytes, ← hahead]
    exact h.size

end ExecServer
