import CodexAgents.ExecServer.Process

/-!
# Writes to the standard input of a process

`exec_write` of `exec-server/src/local_process.rs`.  A client that loses its connection sends a
write again, with the same id.  The server remembers the ids of the last writes that it has
accepted, and answers such a write without sending its bytes to the child once more.

Handlers of several writes run at the same time.  Between two awaits a handler is not interrupted,
so a run is a list of such parts (`Move`).  At an await a handler can also be dropped.
-/

namespace ExecServer

open Text List

/-! ## The ids that are remembered -/

/-- How many ids are remembered. -/
@[irreducible] def retainedStdinWriteIdsPerProcess : Nat := 4096

/-- The ids of accepted writes, and their order. -/
structure AcceptedStdinWriteIds where
  ids : Finset Str := ∅
  order : List Str := []

namespace AcceptedStdinWriteIds

/-- The loop that forgets the oldest ids. -/
def evict (ids : Finset Str) : List Str → AcceptedStdinWriteIds
  | [] => ⟨ids, []⟩
  | evicted :: order =>
    if retainedStdinWriteIdsPerProcess < (evicted :: order).length then
      evict (ids.erase evicted) order
    else ⟨ids, evicted :: order⟩

/-- One more id; the oldest are forgotten. -/
def remember (accepted : AcceptedStdinWriteIds) (writeId : Str) : AcceptedStdinWriteIds :=
  if writeId ∈ accepted.ids then accepted
  else evict (insert writeId accepted.ids) (accepted.order ++ [writeId])

lemma evict_spec {order} (h : order.Nodup) :
    let kept := order.drop (order.length - retainedStdinWriteIdsPerProcess)
    evict order.toFinset order = ⟨kept.toFinset, kept⟩ := by
  induction order with
  | nil => simp [evict]
  | cons evicted order ih =>
    obtain ⟨hnot, h⟩ := nodup_cons.mp h
    rw [evict]
    split
    case isTrue hlt =>
      rw [toFinset_cons, Finset.erase_insert (by simpa using hnot), ih h, length_cons,
        Nat.succ_sub (Nat.lt_succ_iff.mp hlt), drop_succ_cons]
    case isFalse hle => rw [Nat.sub_eq_zero_of_le (Nat.not_lt.mp hle), drop_zero]

end AcceptedStdinWriteIds

/-! ## The handlers -/

/-- The answer to a write. -/
inductive WriteStatus where
  | accepted
  | unknownProcess
  | starting
  | stdinClosed

/-- What a handler waits for: the ids, room in the channel, or the ids again. -/
inductive Awaits where
  | firstLook
  | permit
  | secondLook

/-- The writes, and what has become of them. -/
structure Stdin where
  accepted : AcceptedStdinWriteIds := {}
  handlers : List (Str × Awaits) := []
  /-- What the child has been sent, with the ids of the writes. -/
  sent : List (Str × Bytes) := []
  responses : List (Str × WriteStatus) := []

/-- What there is under the id of the process.  The flag is for a terminal or a pipe. -/
inductive Found where
  | nothing
  | starting
  | running (takesInput : Bool)

namespace Stdin

/-- What happens next. -/
inductive Move where
  | call (writeId : Str) (found : Found)
  /-- A handler goes on.  The flag says whether the channel is still open. -/
  | resume (handler : Nat) (isOpen : Bool)
  | cancel (handler : Nat)

-- the bytes of a write, which are the same if it is sent again
variable (chunk : Str → Bytes) (s : Stdin)

/-- A write is answered. -/
def respond (writeId : Str) (status : WriteStatus) : Stdin :=
  { s with responses := s.responses ++ [(writeId, status)] }

/-- A handler is done. -/
def finish (handler : Nat) : Stdin := { s with handlers := s.handlers.eraseIdx handler }

/-- A move of the system. -/
def step : Move → Stdin
  | .call writeId found =>
    if writeId = [] then s
    else
      match found with
      | .nothing => s.respond writeId .unknownProcess
      | .starting => s.respond writeId .starting
      | .running false => s.respond writeId .stdinClosed
      | .running true => { s with handlers := s.handlers ++ [(writeId, .firstLook)] }
  | .resume handler isOpen =>
    match s.handlers[handler]? with
    | none => s
    | some (writeId, .firstLook) =>
      if writeId ∈ s.accepted.ids then (s.respond writeId .accepted).finish handler
      else { s with handlers := s.handlers.set handler (writeId, .permit) }
    | some (writeId, .permit) =>
      if isOpen then { s with handlers := s.handlers.set handler (writeId, .secondLook) }
      else s.finish handler
    | some (writeId, .secondLook) =>
      if writeId ∈ s.accepted.ids then (s.respond writeId .accepted).finish handler
      else
        let s :=
          { s with
            sent := s.sent ++ [(writeId, chunk writeId)]
            accepted := s.accepted.remember writeId }
        (s.respond writeId .accepted).finish handler
  | .cancel handler => s.finish handler

/-- The ids of what was sent. -/
def sentIds : List Str := s.sent.map Prod.fst

/-- Between two sends of an id there are sends of as many others as are remembered. -/
def Spaced (ids : List Str) : Prop :=
  ∀ before id between after, ids = before ++ id :: between ++ id :: after →
    ∃ others, others <:+ between ∧ others.Nodup ∧ id ∉ others ∧
      others.length = retainedStdinWriteIdsPerProcess

/-- What holds all the time. -/
structure Inv (s : Stdin) : Prop where
  ids : s.accepted.ids = s.accepted.order.toFinset
  nodup : s.accepted.order.Nodup
  last : s.accepted.order <:+ s.sentIds
  length : s.accepted.order.length = min retainedStdinWriteIdsPerProcess s.sentIds.length
  spaced : Spaced s.sentIds
  sent : ∀ id ∈ s.sentIds, (id, chunk id) ∈ s.sent
  responses : ∀ id, (id, .accepted) ∈ s.responses → id ∈ s.sentIds

variable {chunk} {s : Stdin}

lemma Spaced.concat {ids order id} (h : Spaced ids) (hlast : order <:+ ids)
    (hlen : order.length = min retainedStdinWriteIdsPerProcess ids.length) (hnodup : order.Nodup)
    (hnot : id ∉ order) : Spaced (ids ++ [id]) := by
  intro before id' between after heq
  obtain rfl | ⟨after, last, rfl⟩ := after.eq_nil_or_concat
  · obtain ⟨rfl, hid⟩ := append_inj' heq rfl
    obtain rfl : id = id' := by simpa using hid
    -- what is remembered does not go back to the first of the two
    have hshort : order.length ≤ between.length := by
      by_contra hlong
      have htail : id :: between <:+ order :=
        suffix_of_suffix_length_le (suffix_append _ _) hlast (by simpa using hlong)
      exact hnot (htail.subset mem_cons_self)
    have hbetween : order <:+ between :=
      suffix_of_suffix_length_le hlast ((suffix_cons _ _).trans (suffix_append _ _)) hshort
    refine ⟨order, hbetween, hnodup, hnot, ?_⟩
    simp only [length_append, length_cons] at hlen
    omega
  · have hids : ids ++ [id] = (before ++ id' :: between ++ id' :: after) ++ [last] := by
      simpa using heq
    exact h before id' between after (append_inj' hids rfl).1

namespace Inv

variable (h : Inv chunk s)

include h

lemma with_handlers (handlers : List (Str × Awaits)) : Inv chunk { s with handlers } :=
  ⟨h.ids, h.nodup, h.last, h.length, h.spaced, h.sent, h.responses⟩

lemma respond {id status}
    (hid : status = .accepted → id ∈ s.sentIds) : Inv chunk (s.respond id status) := by
  refine ⟨h.ids, h.nodup, h.last, h.length, h.spaced, h.sent, fun id' hmem => ?_⟩
  obtain hmem | hmem := mem_append.mp hmem
  · exact h.responses id' hmem
  · obtain ⟨rfl, rfl⟩ := Prod.mk.inj (mem_singleton.mp hmem)
    exact hid rfl

lemma mem_sentIds {id} (hid : id ∈ s.accepted.ids) : id ∈ s.sentIds := by
  rw [h.ids, mem_toFinset] at hid
  exact h.last.subset hid

lemma send {id} (hid : id ∉ s.accepted.ids) :
    Inv chunk { s with
      sent := s.sent ++ [(id, chunk id)]
      accepted := s.accepted.remember id } := by
  have hnot : id ∉ s.accepted.order := by simpa [h.ids] using hid
  have hnodup : (s.accepted.order ++ [id]).Nodup :=
    h.nodup.append (nodup_singleton id) (by simpa using hnot)
  have hset : insert id s.accepted.ids = (s.accepted.order ++ [id]).toFinset := by
    rw [h.ids, toFinset_append, Finset.union_comm]
    rfl
  have hsent : (s.sent ++ [(id, chunk id)]).map Prod.fst = s.sentIds ++ [id] := by
    simp [sentIds]
  rw [AcceptedStdinWriteIds.remember, if_neg hid, hset, AcceptedStdinWriteIds.evict_spec hnodup]
  refine ⟨rfl, hnodup.sublist (drop_sublist _ _), ?_, ?_, ?_, ?_, ?_⟩
  · obtain ⟨older, holder⟩ := h.last
    rw [sentIds, hsent, ← holder, append_assoc]
    exact (drop_suffix _ _).trans (suffix_append _ _)
  · have := h.length
    rw [sentIds, hsent]
    simp only [length_drop, length_append, length_singleton]
    omega
  · rw [sentIds, hsent]
    exact h.spaced.concat h.last h.length h.nodup hnot
  · intro id' hid'
    rw [sentIds, hsent] at hid'
    obtain hid' | hid' := mem_append.mp hid'
    · exact mem_append_left _ (h.sent id' hid')
    · rw [mem_singleton.mp hid']
      exact mem_append_right _ (mem_singleton_self _)
  · intro id' hid'
    rw [sentIds, hsent]
    exact mem_append_left _ (h.responses id' hid')

end Inv

/-- Every move keeps the invariant. -/
lemma Inv.step (h : Inv chunk s) (move : Move) : Inv chunk (s.step chunk move) := by
  cases move with
  | call writeId found =>
    simp only [Stdin.step]
    split
    · exact h
    · split
      · exact h.respond (by simp)
      · exact h.respond (by simp)
      · exact h.respond (by simp)
      · exact h.with_handlers _
  | resume handler isOpen =>
    simp only [Stdin.step]
    split
    · exact h
    · split
      · exact (h.respond fun _ => h.mem_sentIds ‹_›).with_handlers _
      · exact h.with_handlers _
    · split <;> exact h.with_handlers _
    · split
      · exact (h.respond fun _ => h.mem_sentIds ‹_›).with_handlers _
      · exact ((h.send ‹_›).respond fun _ => by simp [sentIds]).with_handlers _
  | cancel handler => exact h.with_handlers _

lemma inv_run (moves : List Move) : Inv chunk (moves.foldl (Stdin.step chunk) {}) := by
  refine foldlRecOn moves _ ?_ fun s h move _ => h.step move
  refine ⟨rfl, nodup_nil, suffix_rfl, by simp [sentIds],
    fun before id between after h => ?_, ?_, ?_⟩
  · simp [sentIds] at h
  · simp [sentIds]
  · simp

/-- **A write that is sent again is applied once**, as long as its id is remembered. -/
theorem writes_applied_once (chunk : Str → Bytes) (moves : List Move) :
    let s := moves.foldl (Stdin.step chunk) {}
    (∀ id, (id, .accepted) ∈ s.responses → (id, chunk id) ∈ s.sent) ∧
    Spaced s.sentIds ∧
    (∀ id, id ∈ s.accepted.ids ↔ id ∈ s.accepted.order) ∧ s.accepted.order.Nodup ∧
    s.accepted.order.length ≤ retainedStdinWriteIdsPerProcess := by
  have h := @inv_run chunk moves
  refine ⟨fun id hid => h.sent id (h.responses id hid), h.spaced, fun id => ?_, h.nodup, ?_⟩
  · rw [h.ids, mem_toFinset]
  · exact h.length.trans_le (min_le_left _ _)

end Stdin

end ExecServer
