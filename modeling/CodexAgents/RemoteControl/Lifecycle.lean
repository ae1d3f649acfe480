import CodexAgents.RemoteControl.ClientTracker

/-!
# The life of a connection

What the tracker forwards for one connection is its `history`: the connection is opened, messages
come in, and at most once it is closed (`Lifecycle`).  The tracker does not look at what it has
forwarded.  It knows by its clients which connections are open, and by the tasks it has spawned
which of them are about to be closed; `Inv` says that these agree with the histories, and that the
sequence id a client has on record is that of a message that was forwarded, and no forwarded one is
larger.

Every change of the tracker keeps `Inv` (one lemma for each, from `Inv.land` to
`Inv.closeLater`), and so does every program, wherever it stops.
-/

namespace RemoteControl

open Outcome List HashMap Function Option ClientTracker

/-! ## Histories -/

/-- What has been forwarded for one connection. -/
def ClientTracker.history (t : ClientTracker) (id : ConnectionId) : List Forwarded :=
  t.transportEventTx.filter (·.event.connectionId = id)

/-- **One `ConnectionOpened`, then messages, then at most one `ConnectionClosed`**, or nothing at
all. -/
inductive Lifecycle (id : ConnectionId) : List TransportEvent → Prop
  | unused : Lifecycle id []
  | opened (messages : List JSONRPCMessage) :
      Lifecycle id (.connectionOpened id :: messages.map (.incomingMessage id))
  | closed (messages : List JSONRPCMessage) : Lifecycle id
        (.connectionOpened id :: messages.map (.incomingMessage id) ++ [.connectionClosed id])

/-- The sequence id of a message other than `initialize`. -/
def Forwarded.countedSeqId (f : Forwarded) : Option Nat :=
  match f.event with
  | .incomingMessage _ message =>
    if remoteControlMessageStartsConnection message then none else f.seqId
  | _ => none

lemma countedSeqId_incomingMessage (id : ConnectionId) (message : JSONRPCMessage)
    (seqId : Option Nat) : (Forwarded.mk (.incomingMessage id message) seqId).countedSeqId =
      if remoteControlMessageStartsConnection message then none else seqId := rfl

/-- The numbers of messages that were delivered. -/
def deliveredSeqIds (history : List Forwarded) : List Nat :=
  history.filterMap Forwarded.countedSeqId

/-- The connection has been opened and not been closed. -/
def IsOpen (id : ConnectionId) (history : List Forwarded) : Prop :=
  ∃ messages : List JSONRPCMessage,
    history.map (·.event) = .connectionOpened id :: messages.map (.incomingMessage id)

lemma history_push (t : ClientTracker) (f : Forwarded) (id : ConnectionId) : (t.push f).history id =
      if f.event.connectionId = id then t.history id ++ [f] else t.history id := by
  rw [ClientTracker.history, ClientTracker.push, filter_append, filter_singleton]
  by_cases h : f.event.connectionId = id
  · rw [if_pos h, decide_eq_true h]
    rfl
  · rw [if_neg h, decide_eq_false h]
    exact append_nil _

variable {t : ClientTracker} {f : Forwarded} {id : ConnectionId}

lemma history_push_self (h : f.event.connectionId = id) :
    (t.push f).history id = t.history id ++ [f] := by
  rw [history_push, if_pos h]

lemma history_push_of_ne (h : f.event.connectionId ≠ id) :
    (t.push f).history id = t.history id := by
  rw [history_push, if_neg h]

lemma deliveredSeqIds_concat (history : List Forwarded) (f : Forwarded) :
    deliveredSeqIds (history ++ [f]) = deliveredSeqIds history ++ f.countedSeqId.toList := by
  rw [deliveredSeqIds, filterMap_append]
  cases h : f.countedSeqId <;> simp only [filterMap_cons, h, filterMap_nil] <;> rfl

variable {id : ConnectionId} {f : Forwarded}

section

variable {history : List Forwarded}

section

variable (h : IsOpen id history)

include h

lemma IsOpen.lifecycle : Lifecycle id (history.map (·.event)) := by
  obtain ⟨messages, h⟩ := h
  rw [h]
  exact .opened messages

lemma IsOpen.ne_nil : history ≠ [] := by
  rintro rfl
  obtain ⟨messages, h⟩ := h
  cases h

lemma IsOpen.message {message}
    (hf : f.event = .incomingMessage id message) : IsOpen id (history ++ [f]) := by
  obtain ⟨messages, h⟩ := h
  refine ⟨messages ++ [message], ?_⟩
  rw [map_append, h, map_append, map_singleton, map_singleton, hf, cons_append]

lemma IsOpen.close (hf : f.event = .connectionClosed id) :
    Lifecycle id ((history ++ [f]).map (·.event)) := by
  obtain ⟨messages, h⟩ := h
  rw [map_append, h, map_singleton, hf]
  exact .closed messages

end

lemma isOpen_opened : IsOpen id [⟨.connectionOpened id, none⟩] := ⟨[], rfl⟩

end

/-! ## The invariant -/

/-- The id on record is that of a message that was forwarded, and it is the largest. -/
structure Recorded (client : ClientState) (history : List Forwarded) : Prop where
  bound : ∀ n ∈ deliveredSeqIds history, ∃ last, client.lastInboundSeqId = some last ∧ n ≤ last
  forwarded : ∀ n, client.lastInboundSeqId = some n → ∃ f ∈ history, f.seqId = some n ∧
      ∃ message, f.event = .incomingMessage client.connectionId message

/-- What the tracker has to do with a client's connection. -/
structure Live (history : ConnectionId → List Forwarded) (closing : List ConnectionId)
    (client : ClientState) : Prop where
  isOpen : IsOpen client.connectionId (history client.connectionId)
  notClosing : client.connectionId ∉ closing
  recorded : Recorded client (history client.connectionId)

/-- What holds of all the histories. -/
structure Orderly (t : ClientTracker) : Prop where
  unused : ∀ id, t.connectionIdCounter ≤ id → t.history id = []
  lifecycle : ∀ id, Lifecycle id ((t.history id).map (·.event))
  ordered : ∀ id, (deliveredSeqIds (t.history id)).Pairwise (· < ·)

/-- What holds between steps. -/
structure Inv (t : ClientTracker) : Prop extends Orderly t where
  live : ∀ key client, get t.clients key = some client → Live t.history t.closing client
  own : ∀ key key' client client', get t.clients key = some client →
    get t.clients key' = some client' →
    client.connectionId = client'.connectionId → key = key'
  closing : ∀ id ∈ t.closing, IsOpen id (t.history id)
  nodup : t.closing.Nodup
  legacy : ∀ clientId streamId, get t.legacyStreamIds clientId = some streamId →
    (get t.clients (clientId, streamId)).isSome

lemma Orderly.lt_counter (h : Orderly t) (hne : t.history id ≠ []) : id < t.connectionIdCounter :=
  Nat.lt_of_not_le fun hle => hne (h.unused id hle)

lemma Orderly.push (h : Orderly t) (hf : f.event.connectionId = id)
    (hid : id < t.connectionIdCounter)
    (hlifecycle : Lifecycle id ((t.history id ++ [f]).map (·.event)))
    (hordered : (deliveredSeqIds (t.history id ++ [f])).Pairwise (· < ·)) :
    Orderly (t.push f) := by
  refine ⟨fun id' hle => ?_, fun id' => ?_, fun id' => ?_⟩ <;> rcases eq_or_ne id id' with rfl | hne
  · exact absurd hid (Nat.not_lt.mpr hle)
  · exact (history_push_of_ne (hf.trans_ne hne)).trans (h.unused id' hle)
  · exact (history_push_self hf).symm ▸ hlifecycle
  · exact (history_push_of_ne (hf.trans_ne hne)).symm ▸ h.lifecycle id'
  · exact (history_push_self hf).symm ▸ hordered
  · exact (history_push_of_ne (hf.trans_ne hne)).symm ▸ h.ordered id'

/-- An event of another connection does not matter. -/
lemma Live.push {client} (h : Live t.history t.closing client)
    (hne : f.event.connectionId ≠ client.connectionId) :
    Live (t.push f).history t.closing client := by
  have hsame : (t.push f).history client.connectionId = t.history client.connectionId :=
    history_push_of_ne hne
  exact ⟨hsame ▸ h.isOpen, h.notClosing, hsame ▸ h.recorded⟩

lemma inv_empty : Inv {} where
  unused _ _ := rfl
  lifecycle _ := .unused
  ordered _ := List.Pairwise.nil
  live _ _ h := nomatch h
  own _ _ _ _ h := nomatch h
  closing _ h := nomatch h
  nodup := nodup_nil
  legacy _ _ h := nomatch h

variable {t : ClientTracker} {key : ClientKey} {client : ClientState}

section

variable (h : Inv t)
include h

/-- An event of a connection that is not a client's and not about to be closed. -/
lemma Inv.push (horderly : Orderly (t.push f))
    (hlive : ∀ key client, get t.clients key = some client →
      f.event.connectionId ≠ client.connectionId)
    (hclosing : ∀ id ∈ t.closing, f.event.connectionId ≠ id) : Inv (t.push f) where
  toOrderly := horderly
  live key client hget := (h.live key client hget).push (hlive key client hget)
  own := h.own
  closing id hid := (history_push_of_ne (hclosing id hid)).symm ▸ h.closing id hid
  nodup := h.nodup
  legacy := h.legacy

/-! ### Connections that are about to be closed -/

lemma Inv.giveUpClosing (id : ConnectionId) : Inv (t.giveUpClosing id) where
  unused := h.unused
  lifecycle := h.lifecycle
  ordered := h.ordered
  live key client hget :=
    ⟨(h.live key client hget).isOpen,
      fun hmem => (h.live key client hget).notClosing (mem_of_mem_erase hmem),
      (h.live key client hget).recorded⟩
  own := h.own
  closing id' hid' := h.closing id' (mem_of_mem_erase hid')
  nodup := h.nodup.erase id
  legacy := h.legacy

lemma Inv.land (id : ConnectionId) : Inv (t.land id) := by
  rw [ClientTracker.land]
  split
  swap
  · exact h
  rename_i hmem
  have hopen := h.closing id hmem
  have hordered : (deliveredSeqIds (t.history id ++ [⟨.connectionClosed id, none⟩])).Pairwise
      (· < ·) := by
    rw [deliveredSeqIds_concat]
    exact (append_nil _).symm ▸ h.ordered id
  have hrest := h.giveUpClosing id
  refine hrest.push
    (hrest.toOrderly.push rfl (h.lt_counter hopen.ne_nil) (hopen.close rfl) hordered)
    (fun key client hget heq => (h.live key client hget).notClosing (heq ▸ hmem))
    fun id' hid' heq => ?_
  exact h.nodup.not_mem_erase (heq ▸ hid')

lemma Inv.landAll (ids : List ConnectionId) : Inv (t.landAll ids) := by
  induction ids generalizing t with
  | nil => exact h
  | cons id ids ih => exact ih (h.land id)

/-- A client is gone, and the legacy entry that names its stream. -/
lemma legacy_withoutClient (key : ClientKey) {clientId streamId}
    (hlegacy : get (t.withoutClient key).legacyStreamIds clientId = some streamId) :
    (get (t.withoutClient key).clients (clientId, streamId)).isSome := by
  have hkept : get t.legacyStreamIds clientId = some streamId ∧ (clientId, streamId) ≠ key := by
    rw [withoutClient] at hlegacy
    split_ifs at hlegacy with hnot
    · obtain ⟨hne, hlegacy⟩ := get_erase_eq_some.mp hlegacy
      exact ⟨hlegacy, fun heq => hne (congrArg Prod.fst heq)⟩
    · refine ⟨hlegacy, ?_⟩
      rintro rfl
      exact hnot hlegacy
  obtain ⟨client, hget⟩ := isSome_iff_exists.mp (h.legacy clientId streamId hkept.1)
  exact isSome_of_eq_some (get_erase_eq_some.mpr ⟨hkept.2, hget⟩)

/-- The task is spawned that closes the connection of a client, and the client is gone. -/
lemma Inv.closeLater (hget : get t.clients key = some client) :
    Inv ((t.withoutClient key).spawnConnectionClosed client.connectionId) := by
  have hstay : ∀ key' client', get (t.withoutClient key).clients key' = some client' →
      key' ≠ key ∧ get t.clients key' = some client' :=
    fun key' client' => get_erase_eq_some.mp
  have hlive := h.live key client hget
  refine ⟨⟨h.unused, h.lifecycle, h.ordered⟩, fun key' client' hget' => ?_,
    fun key₁ key₂ client₁ client₂ h₁ h₂ => h.own key₁ key₂ client₁ client₂ (hstay _ _ h₁).2
      (hstay _ _ h₂).2, ?_, ?_, fun _ _ => legacy_withoutClient h key⟩
  · obtain ⟨hne, hget'⟩ := hstay key' client' hget'
    have hl := h.live key' client' hget'
    refine ⟨hl.isOpen, fun hmem => ?_, hl.recorded⟩
    obtain hmem | hmem := mem_append.mp hmem
    · exact hl.notClosing hmem
    · exact hne (h.own key' key client' client hget' hget (mem_singleton.mp hmem))
  · exact forall_mem_append.mpr ⟨h.closing, forall_mem_singleton.mpr hlive.isOpen⟩
  · refine nodup_append.mpr ⟨h.nodup, nodup_singleton _, fun a ha b hb heq => ?_⟩
    exact hlive.notClosing (mem_singleton.mp hb ▸ heq ▸ ha)

/-! ### Messages and new clients -/

lemma Inv.nextConnectionId : Inv { t with connectionIdCounter := t.connectionIdCounter + 1 } :=
  { h with unused := fun id hid => h.unused id (Nat.le_of_succ_le hid) }

lemma Inv.eraseLegacy (clientId : ClientId) :
    Inv { t with legacyStreamIds := t.legacyStreamIds.erase clientId } :=
  { h with
    legacy := fun clientId' streamId hlegacy =>
      h.legacy clientId' streamId (get_erase_eq_some.mp hlegacy).2 }

end

lemma isSome_get_insert (key : ClientKey) (client' : ClientState) {key'}
    (h : (get t.clients key').isSome) :
    (get (t.clients.insert key client') key').isSome := by
  obtain ⟨client, hget⟩ := isSome_iff_exists.mp h
  obtain heq | hne := eq_or_ne key' key
  · exact isSome_of_eq_some (get_insert_eq_some.mpr (.inl ⟨heq, rfl⟩))
  · exact isSome_of_eq_some (get_insert_eq_some.mpr (.inr ⟨hne, hget⟩))

section

variable (h : Inv t)

include h

/-- A client whose connection no other client has. -/
lemma Inv.insert (key : ClientKey) (hlive : Live t.history t.closing client)
    (hown : ∀ key' client', get t.clients key' = some client' →
      client'.connectionId = client.connectionId → key' = key) :
    Inv { t with clients := t.clients.insert key client } := by
  refine ⟨⟨h.unused, h.lifecycle, h.ordered⟩, fun key' client' hget' => ?_,
    fun key₁ key₂ client₁ client₂ h₁ h₂ heq => ?_, h.closing, h.nodup,
    fun clientId streamId hlegacy => isSome_get_insert key client (h.legacy _ _ hlegacy)⟩
  · obtain ⟨_, rfl⟩ | ⟨_, hget'⟩ := get_insert_eq_some.mp hget'
    · exact hlive
    · exact h.live key' client' hget'
  · rcases get_insert_eq_some.mp h₁ with ⟨rfl, rfl⟩ | ⟨_, hget₁⟩ <;>
      obtain ⟨rfl, rfl⟩ | ⟨_, hget₂⟩ := get_insert_eq_some.mp h₂
    · rfl
    · exact (hown key₂ client₂ hget₂ heq.symm).symm
    · exact hown key₁ client₁ hget₁ heq
    · exact h.own key₁ key₂ client₁ client₂ hget₁ hget₂ heq

lemma Inv.touch (hget : get t.clients key = some client) (now : Nat) :
    Inv (t.touch key client now) := by
  have hlive := h.live key client hget
  exact h.insert key
    ⟨hlive.isOpen, hlive.notClosing, ⟨hlive.recorded.bound, hlive.recorded.forwarded⟩⟩
      fun key' client' hget' => h.own key' key client' client hget' hget

lemma Inv.insertLegacy (hkey : (get t.clients key).isSome) :
    Inv { t with legacyStreamIds := t.legacyStreamIds.insert key.1 key.2 } := by
  refine ⟨⟨h.unused, h.lifecycle, h.ordered⟩, h.live, h.own, h.closing, h.nodup,
    fun clientId streamId hlegacy => ?_⟩
  obtain ⟨rfl, rfl⟩ | ⟨_, hlegacy⟩ := get_insert_eq_some.mp hlegacy
  · exact hkey
  · exact h.legacy clientId streamId hlegacy

/-- A new connection is opened for a client that is not there. -/
lemma Inv.opened (hid : id < t.connectionIdCounter) (hunused : t.history id = [])
    (key : ClientKey) (now : Nat) (isLegacyStreamId : Bool) :
    Inv ((t.push ⟨.connectionOpened id, none⟩).insertClient key id now isLegacyStreamId) := by
  have hconnection : (Forwarded.mk (.connectionOpened id) none).event.connectionId = id := rfl
  have hself : (t.push ⟨.connectionOpened id, none⟩).history id =
      [⟨.connectionOpened id, none⟩] := by
    rw [history_push_self hconnection, hunused, nil_append]
  -- The connections of the others have a history.
  have hothers : ∀ key' client, get t.clients key' = some client → id ≠ client.connectionId :=
    fun key' client hget heq => (h.live key' client hget).isOpen.ne_nil (heq ▸ hunused)
  have hclosing : ∀ id' ∈ t.closing, id ≠ id' :=
    fun id' hid' heq => (h.closing id' hid').ne_nil (heq ▸ hunused)
  have horderly : Orderly (t.push ⟨.connectionOpened id, none⟩) := by
    refine h.toOrderly.push hconnection hid ?_ ?_ <;> rw [hunused]
    · exact isOpen_opened.lifecycle
    · exact List.Pairwise.nil
  have hlive : Live (t.push ⟨.connectionOpened id, none⟩).history t.closing ⟨id, now, none⟩ := by
    refine ⟨?_, fun hmem => hclosing id hmem rfl, ?_⟩ <;> rw [hself]
    · exact isOpen_opened
    · exact ⟨fun n hn => (nomatch hn), fun n hn => (nomatch hn)⟩
  have hinsert := (h.push horderly hothers hclosing).insert key hlive fun key' client' hget heq =>
    absurd heq.symm (hothers key' client' hget)
  cases isLegacyStreamId with
  | false =>
    exact ⟨⟨hinsert.unused, hinsert.lifecycle, hinsert.ordered⟩, hinsert.live, hinsert.own,
      hinsert.closing, hinsert.nodup, hinsert.legacy⟩
  | true =>
    have hkey : (get (t.clients.insert key ⟨id, now, none⟩) key).isSome :=
      isSome_of_eq_some (get_insert_eq_some.mpr (.inl ⟨rfl, rfl⟩))
    have hlegacy := hinsert.insertLegacy hkey
    exact ⟨⟨hinsert.unused, hinsert.lifecycle, hinsert.ordered⟩, hlegacy.live, hlegacy.own,
      hlegacy.closing, hlegacy.nodup, hlegacy.legacy⟩

/-- A message is forwarded; what is on record for the client may change. -/
lemma Inv.message {t' : ClientTracker} {message}
    (client' : ClientState) (hget : get t.clients key = some client)
    (hf : f.event = .incomingMessage client.connectionId message)
    (hid : client'.connectionId = client.connectionId)
    (hordered : (deliveredSeqIds (t.history client.connectionId ++ [f])).Pairwise (· < ·))
    (hrecorded : Recorded client' (t.history client.connectionId ++ [f]))
    (hclients : get t'.clients = update (get t.clients) key (some client'))
    (hrest : t' = { t.push f with clients := t'.clients }) : Inv t' := by
  have hconnection : f.event.connectionId = client.connectionId := by
    rw [hf]
    rfl
  have hself := history_push_self (t := t) hconnection
  have hlive := h.live key client hget
  have horderly : Orderly (t.push f) :=
    h.toOrderly.push hconnection (h.lt_counter hlive.isOpen.ne_nil)
      (hlive.isOpen.message hf).lifecycle hordered
  have hcases : ∀ key' client'', get t'.clients key' = some client'' →
      (key' = key ∧ client'' = client') ∨ (key' ≠ key ∧ get t.clients key' = some client'') := by
    intro key' client'' hget'
    rw [hclients, ← get_insert] at hget'
    exact get_insert_eq_some.mp hget'
  rw [hrest]
  refine ⟨⟨horderly.unused, horderly.lifecycle, horderly.ordered⟩, fun key' client'' hget' => ?_,
    fun key₁ key₂ client₁ client₂ h₁ h₂ heq => ?_, fun id' hid' => ?_, h.nodup,
    fun clientId streamId hlegacy => ?_⟩
  · obtain ⟨rfl, rfl⟩ | ⟨hne, hget'⟩ := hcases key' client'' hget'
    · refine ⟨?_, hid ▸ hlive.notClosing, ?_⟩ <;> rw [hid]
      · exact hself.symm ▸ hlive.isOpen.message hf
      · exact hself.symm ▸ hrecorded
    · refine (h.live key' client'' hget').push fun heq => hne ?_
      exact h.own key' key client'' client hget' hget (heq.symm.trans hconnection)
  · rcases hcases key₁ client₁ h₁ with ⟨rfl, rfl⟩ | ⟨_, hget₁⟩ <;>
      obtain ⟨rfl, rfl⟩ | ⟨_, hget₂⟩ := hcases key₂ client₂ h₂
    · rfl
    · exact h.own key₁ key₂ client client₂ hget hget₂ (hid ▸ heq)
    · exact h.own key₁ key₂ client₁ client hget₁ hget (hid ▸ heq)
    · exact h.own key₁ key₂ client₁ client₂ hget₁ hget₂ heq
  · have hne : f.event.connectionId ≠ id' :=
      fun heq => hlive.notClosing (hconnection ▸ heq ▸ hid')
    exact (history_push_of_ne hne).symm ▸ h.closing id' hid'
  · have hkept := isSome_get_insert key client' (h.legacy clientId streamId hlegacy)
    rwa [get_insert, ← hclients] at hkept

/-- A message that is not counted is forwarded, and nothing is put on record. -/
lemma Inv.message_uncounted {message}
    (hget : get t.clients key = some client)
    (hf : f.event = .incomingMessage client.connectionId message) (hcount : f.countedSeqId = none) :
    Inv (t.push f) := by
  have hsame : deliveredSeqIds (t.history client.connectionId ++ [f]) =
      deliveredSeqIds (t.history client.connectionId) := by
    rw [deliveredSeqIds_concat, hcount]
    exact append_nil _
  have hrecorded := (h.live key client hget).recorded
  refine h.message client hget hf rfl ?_ ⟨?_, fun n hn => ?_⟩ ?_ rfl
  · rw [hsame]
    exact h.ordered client.connectionId
  · rw [hsame]
    exact hrecorded.bound
  · obtain ⟨g, hg, hseq⟩ := hrecorded.forwarded n hn
    exact ⟨g, mem_append_left [f] hg, hseq⟩
  · rw [← hget, update_eq_self]
    rfl

end

lemma recordInboundMessageDelivery_of_get (hget : get t.clients key = some client)
    (n : Nat) : t.recordInboundMessageDelivery key (some n) =
      { t with clients := t.clients.insert key { client with lastInboundSeqId := some n } } := by
  simp [recordInboundMessageDelivery, hget]

/-- A message is forwarded and its sequence id put on record. -/
lemma Inv.delivered {seqId} (h : Inv t)
    (hget : get t.clients key = some client) (message : JSONRPCMessage)
    (hnew : ∀ n, seqId = some n → ∀ last, client.lastInboundSeqId = some last → last < n) :
    Inv ((t.push ⟨.incomingMessage client.connectionId message, seqId⟩).recordInboundMessageDelivery
      key seqId) := by
  cases seqId with
  | none =>
    refine h.message_uncounted hget rfl ?_
    rw [countedSeqId_incomingMessage, ite_self]
  | some n =>
    rw [recordInboundMessageDelivery_of_get
      (t := t.push ⟨.incomingMessage client.connectionId message, some n⟩) hget]
    have hrecorded := (h.live key client hget).recorded
    -- Every id that was forwarded is below the new one.
    have hbelow : ∀ m ∈ deliveredSeqIds (t.history client.connectionId), m < n := by
      intro m hm
      obtain ⟨last, hlast, hle⟩ := hrecorded.bound m hm
      exact lt_of_le_of_lt hle (hnew n rfl last hlast)
    have hcounted : ∀ m ∈ (Forwarded.mk (.incomingMessage client.connectionId message)
        (some n)).countedSeqId.toList, m = n := by
      intro m hm
      rw [countedSeqId_incomingMessage] at hm
      split at hm
      · cases hm
      · exact mem_singleton.mp hm
    refine h.message { client with lastInboundSeqId := some n } hget rfl rfl ?_
      ⟨fun m hm => ⟨n, rfl, ?_⟩, fun m hm => ?_⟩ ?_ rfl
    · rw [deliveredSeqIds_concat]
      refine pairwise_append.mpr ⟨h.ordered client.connectionId, ?_, fun m hm m' hm' => ?_⟩
      · cases Forwarded.countedSeqId _
        · exact List.Pairwise.nil
        · exact pairwise_singleton _ _
      · rw [hcounted m' hm']
        exact hbelow m hm
    · rw [deliveredSeqIds_concat] at hm
      obtain hm | hm := mem_append.mp hm
      · exact le_of_lt (hbelow m hm)
      · exact Nat.le_of_eq (hcounted m hm)
    · cases hm
      exact ⟨_, mem_append_right _ (mem_singleton_self _), rfl, message, rfl⟩
    · exact get_insert ..

/-! ## The programs -/

section

variable {env : Env}

@[simp] lemma clients_landAll (t : ClientTracker) (ids : List ConnectionId) :
    (t.landAll ids).clients = t.clients := by
  induction ids generalizing t with
  | nil => rfl
  | cons id ids ih =>
    refine (ih (t.land id)).trans ?_
    rw [land]
    split <;> rfl

@[simp] lemma connectionIdCounter_landAll (t : ClientTracker) (ids : List ConnectionId) :
    (t.landAll ids).connectionIdCounter = t.connectionIdCounter := by
  induction ids generalizing t with
  | nil => rfl
  | cons id ids ih =>
    refine (ih (t.land id)).trans ?_
    rw [land]
    split <;> rfl

/-- Only connections that are about to be closed are. -/
lemma history_landAll_of_notMem {id} (h : id ∉ t.closing)
    (ids : List ConnectionId) : (t.landAll ids).history id = t.history id := by
  induction ids generalizing t with
  | nil => rfl
  | cons id' ids ih =>
    have hland : id ∉ (t.land id').closing ∧ (t.land id').history id = t.history id := by
      rw [land]
      split_ifs with hmem
      · have hne : (TransportEvent.connectionClosed id').connectionId ≠ id :=
          fun heq => h (heq ▸ hmem)
        exact ⟨fun hmem' => h (mem_of_mem_erase hmem'), history_push_of_ne hne⟩
      · exact ⟨h, rfl⟩
    exact (ih hland.1).trans hland.2

/-- **What comes of an event that is sent**: it is forwarded, or nothing happens but that
connections are closed. -/
theorem ensures_sendWithTimeout {seqId event Q E}
    (hQ : ∀ ids, Q () ((t.landAll ids).push ⟨event, seqId⟩))
    (hE : ∀ halt ids, E halt (t.landAll ids)) :
    Ensures (sendWithTimeout env seqId event) t Q E := by
  rw [sendWithTimeout, ensures_bind, ensures_modify]
  cases env.fate event with
  | delivered => exact hQ _
  | stopped => exact hE .stopped _
  | aborted => exact hE .aborted _

lemma ensures_sendConnectionClosed {id} (h : Inv (t.spawnConnectionClosed id)) :
    Ensures (sendConnectionClosed env id) t (fun _ t' => Inv t' ∧ t'.clients = t.clients)
      fun _ t' => Inv t' := by
  have hland := h.landAll (env.landing (.connectionClosed id))
  have hclients := clients_landAll (t.spawnConnectionClosed id) (env.landing (.connectionClosed id))
  rw [sendConnectionClosed, ensures_bind, ensures_modify, ensures_bind, ensures_modify]
  cases env.fate (.connectionClosed id) with
  | delivered => exact ⟨hland.land id, (clients_landAll _ [id]).trans hclients⟩
  | stopped => exact hland.giveUpClosing id
  | aborted => exact hland

lemma ensures_closeClient (h : Inv t) (key : ClientKey) : Ensures (closeClient env key) t
      (fun _ t' => Inv t' ∧ get t'.clients key = none) fun _ t' => Inv t' := by
  cases hget : get t.clients key with
  | none =>
    have hclose : closeClient env key t = .ok () t := by
      rw [closeClient, removeClient, hget]
      rfl
    rw [Ensures, hclose]
    exact ⟨h, hget⟩
  | some client =>
    have hclose : closeClient env key t =
        sendConnectionClosed env client.connectionId (t.withoutClient key) := by
      rw [closeClient, removeClient, hget]
      rfl
    rw [Ensures, hclose]
    refine (ensures_sendConnectionClosed (h.closeLater hget)).mono (fun _ t' ht' => ⟨ht'.1, ?_⟩)
      fun _ _ => id
    rw [ht'.2]
    exact (congrFun (get_erase t.clients key) key).trans (update_self ..)

/-- A program keeps the invariant, also if it stops. -/
def Keeps (m : Program) : Prop := ∀ t, Inv t → Ensures m t (fun _ t' => Inv t') fun _ t' => Inv t'

lemma keeps_closeClient (key : ClientKey) : Keeps (closeClient env key) := fun _ h =>
  (ensures_closeClient h key).mono (fun _ _ ht => ht.1) fun _ _ => id

lemma keeps_closeExpiredClients : Keeps (closeExpiredClients env) := fun _ h =>
  ensures_forM h fun e _ => keeps_closeClient e.1

lemma inv_abandonClient (h : Inv t) (hget : get t.clients key = some client) :
    Inv (t.abandonClient key) := by
  have habandon : t.abandonClient key =
      (t.withoutClient key).spawnConnectionClosed client.connectionId := by
    rw [abandonClient, removeClient, hget]
    rfl
  exact habandon ▸ h.closeLater hget

variable {message : JSONRPCMessage} (isLegacyStreamId : Bool) (seqId : Option Nat)

lemma keeps_forwardInitialize (h : Inv t)
    (hget : get t.clients key = some client) (hlast : client.lastInboundSeqId = none)
    (hmessage : remoteControlMessageStartsConnection message) :
    Ensures (forwardInitialize env isLegacyStreamId seqId key client.connectionId message) t
      (fun _ t' => Inv t') fun _ t' => Inv t' := by
  have hget' : ∀ ids, get (t.landAll ids).clients key = some client := by
    intro ids
    rw [clients_landAll]
    exact hget
  refine ensures_bind.mpr (ensures_attempt.mpr (ensures_sendWithTimeout (fun ids => ?_)
    fun halt ids => ?_))
  · cases isLegacyStreamId with
    | true =>
      refine (h.landAll ids).message_uncounted (hget' ids) rfl ?_
      rw [countedSeqId_incomingMessage, if_pos hmessage]
    | false =>
      refine (h.landAll ids).delivered (hget' ids) message fun n _ last hlast' => ?_
      rw [hlast] at hlast'
      cases hlast'
  · cases halt with
    | stopped => exact inv_abandonClient (h.landAll ids) (hget' ids)
    | aborted => exact h.landAll ids

lemma get_insertClient (t : ClientTracker) (key : ClientKey) (id : ConnectionId) (now : Nat)
    (isLegacyStreamId : Bool) :
    get (t.insertClient key id now isLegacyStreamId).clients key = some ⟨id, now, none⟩ :=
  get_insert_eq_some.mpr (.inl ⟨rfl, rfl⟩)

lemma keeps_openClient (key : ClientKey) (hmessage : remoteControlMessageStartsConnection message) :
    Keeps (openClient env isLegacyStreamId seqId key message) := by
  intro t h
  have hnext := h.nextConnectionId
  have hunused := h.unused t.connectionIdCounter le_rfl
  have hnotClosing : t.connectionIdCounter ∉ t.closing :=
    fun hmem => (h.closing _ hmem).ne_nil hunused
  refine ensures_bind.mpr (ensures_bind.mpr (ensures_sendWithTimeout (fun ids => ?_)
    fun halt ids => hnext.landAll ids))
  have hcounter := connectionIdCounter_landAll
    { t with connectionIdCounter := t.connectionIdCounter + 1 } ids
  have hunused' := history_landAll_of_notMem
    (t := { t with connectionIdCounter := t.connectionIdCounter + 1 }) hnotClosing ids
  have hopened := (hnext.landAll ids).opened (hcounter ▸ Nat.lt_succ_self _)
    (hunused'.trans hunused) key env.now isLegacyStreamId
  exact ensures_bind.mpr (ensures_modify.mpr
    (keeps_forwardInitialize isLegacyStreamId seqId hopened (get_insertClient ..) rfl hmessage))

lemma keeps_forwardOrOpen {isInitialize : Bool} {seqId} (isLegacyStreamId : Bool)
    (h : Inv t)
    (hstart : isInitialize → remoteControlMessageStartsConnection message)
    (hnew : ∀ client, get t.clients key = some client →
      ∀ n, seqId = some n → ∀ last, client.lastInboundSeqId = some last → last < n) :
    Ensures (forwardOrOpen env isLegacyStreamId isInitialize seqId key message) t
      (fun _ t' => Inv t') fun _ t' => Inv t' := by
  rw [Ensures, forwardOrOpen]
  cases hget : get t.clients key with
  | some client =>
    have htouch := h.touch hget env.now
    have hget' : ∀ ids, get ((t.touch key client env.now).landAll ids).clients key =
        some { client with lastActivityAt := env.now } := by
      intro ids
      rw [clients_landAll]
      exact get_insert_eq_some.mpr (.inl ⟨rfl, rfl⟩)
    refine ensures_bind.mpr (ensures_bind.mpr (ensures_sendWithTimeout (fun ids => ?_)
      fun halt ids => htouch.landAll ids))
    exact (htouch.landAll ids).delivered (hget' ids) message (hnew client hget)
  | none =>
    cases isInitialize with
    | true => exact keeps_openClient isLegacyStreamId seqId key (hstart rfl) t h
    | false => exact h

/-- What is not a duplicate has a larger sequence id than the one on record. -/
lemma lt_of_alreadyDelivered {n last} (hdelivered : t.alreadyDelivered key (some n) = false)
    (hget : get t.clients key = some client) (hlast : client.lastInboundSeqId = some last) :
    last < n := by
  simp only [alreadyDelivered, hget, hlast, any_some] at hdelivered
  exact Nat.lt_of_not_le (of_decide_eq_false hdelivered)

lemma keeps_handleClientMessage (key : ClientKey) (message : JSONRPCMessage) :
    Keeps (handleClientMessage env isLegacyStreamId seqId key message) := by
  intro t h
  rw [Ensures, handleClientMessage]
  cases hstart : remoteControlMessageStartsConnection message with
  | true =>
    -- Whoever was there is not any more.
    have hgone : Ensures (closeBeforeReopening env true key) t
        (fun _ t' => Inv t' ∧ get t'.clients key = none) fun _ t' => Inv t' := by
      rw [Ensures, closeBeforeReopening]
      cases hget : get t.clients key with
      | none => exact ⟨h, hget⟩
      | some client => exact ensures_closeClient h key
    rw [Bool.not_true, Bool.and_false]
    refine hgone.bind fun _ t' ht' => keeps_forwardOrOpen isLegacyStreamId ht'.1
      (fun _ => hstart) fun client hget => ?_
    rw [ht'.2] at hget
    cases hget
  | false =>
    cases hdelivered : t.alreadyDelivered key seqId with
    | true => exact h
    | false =>
      refine ensures_bind.mpr (keeps_forwardOrOpen isLegacyStreamId h
        (by simp) fun client hget n hn last hlast => ?_)
      rw [hn] at hdelivered
      exact lt_of_alreadyDelivered hdelivered hget hlast

lemma keeps_handlePing (key : ClientKey) : Keeps (handlePing env key) := by
  intro t h
  rw [Ensures, handlePing]
  cases hget : get t.clients key with
  | some client => exact h.touch hget env.now
  | none => exact ⟨⟨h.unused, h.lifecycle, h.ordered⟩, h.live, h.own, h.closing, h.nodup, h.legacy⟩

lemma keeps_handleEvent (e : ClientEnvelope) (key : ClientKey) : Keeps (handleEvent env e key) := by
  rw [handleEvent]
  cases e.event with
  | clientMessage message => exact keeps_handleClientMessage _ _ key message
  | clientMessageChunk | ack => exact fun _ => id
  | ping => exact keeps_handlePing key
  | clientClosed => exact keeps_closeClient key

lemma inv_resolveStreamId (env : Env) (h : Inv t) (e : ClientEnvelope) :
    Inv (resolveStreamId env e t).2 := by
  rw [resolveStreamId]
  cases e.streamId with
  | some streamId => exact h
  | none =>
    dsimp only
    split
    · exact h.eraseLegacy e.clientId
    · exact h

lemma keeps_handleMessage (e : ClientEnvelope) : Keeps (handleMessage env e) := by
  intro t h
  have hresolve := inv_resolveStreamId env h e
  rw [Ensures, handleMessage]
  dsimp only
  by_cases hempty : (resolveStreamId env e t).1.value.isEmpty
  · rw [if_pos hempty]
    exact hresolve
  · rw [if_neg hempty]
    exact keeps_handleEvent e _ _ hresolve

lemma keeps_outboundTaskDone (key : ClientKey) : Keeps (outboundTaskDone env key) := by
  intro t h
  rw [Ensures, outboundTaskDone]
  by_cases hmem : key ∈ t.joinSet
  · rw [if_pos hmem]
    exact keeps_closeClient key { t with joinSet := t.joinSet.erase key }
      ⟨⟨h.unused, h.lifecycle, h.ordered⟩, h.live, h.own, h.closing, h.nodup, h.legacy⟩
  · rw [if_neg hmem]
    exact h

lemma keeps_shutdownLoop (fuel : Nat) : Keeps (shutdownLoop env fuel) := by
  induction fuel with
  | zero => exact fun _ => id
  | succ fuel ih =>
    intro t h
    rw [Ensures, shutdownLoop]
    dsimp only
    cases env.iteration.arrange (pairs t.clients) with
    | nil => exact h
    | cons e later =>
      refine ensures_bind.mpr (ensures_attempt.mpr
        ((keeps_closeClient e.1 t h).mono (fun _ => ih) fun halt t ht => ?_))
      cases halt with
      | stopped => exact ih t ht
      | aborted => exact ht

lemma keeps_perform (s : Step) : Keeps (perform env s) := by
  cases s with
  | handleMessage e => exact keeps_handleMessage e
  | closeExpiredClients => exact keeps_closeExpiredClients
  | outboundTaskDone key => exact keeps_outboundTaskDone key
  | shutdown => exact fun t => keeps_shutdownLoop _ t
  | connectionClosedLands id => exact fun t h => h.land id
  | connectionElsewhere => exact fun t h => h.nextConnectionId

/-! ## Runs -/

lemma inv_stateAfter {m} (hm : Keeps m) (h : Inv t) : Inv (stateAfter m t) := by
  have hensures := hm t h
  rw [Ensures] at hensures
  rw [stateAfter]
  split <;> rename_i hresult <;> rw [hresult] at hensures <;> exact hensures

lemma inv_run (h : Inv t) (steps : List (Env × Step)) : Inv (t.run steps) := by
  induction steps generalizing t with
  | nil => exact h
  | cons s steps ih => exact ih (inv_stateAfter (keeps_perform s.2) h)

end

/-- **The connections of remote clients.**  After any run of the tracker, whatever has become of the
events it sent: what was forwarded for a connection is one `ConnectionOpened`, then messages, then
at most one `ConnectionClosed`; the sequence ids of its messages other than `initialize` increase;
the id that is on record for a client is that of a message that was forwarded for it; and every
legacy entry names a client that is there. -/
theorem remote_client_lifecycle (steps : List (Env × Step)) :
    (∀ id, Lifecycle id (((run {} steps).history id).map (·.event))) ∧
    (∀ id, (deliveredSeqIds ((run {} steps).history id)).Pairwise (· < ·)) ∧
    (∀ key client n, get (run {} steps).clients key = some client →
      client.lastInboundSeqId = some n →
      ∃ f ∈ (run {} steps).history client.connectionId, f.seqId = some n ∧
        ∃ message, f.event = .incomingMessage client.connectionId message) ∧
    ∀ clientId streamId, get (run {} steps).legacyStreamIds clientId = some streamId →
      (get (run {} steps).clients (clientId, streamId)).isSome := by
  have h := inv_run inv_empty steps
  exact ⟨h.lifecycle, h.ordered,
    fun key client n hget hn => (h.live key client hget).recorded.forwarded n hn, h.legacy⟩

end RemoteControl
