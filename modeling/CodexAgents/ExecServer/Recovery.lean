import CodexAgents.ExecServer.Session
import CodexAgents.Lib.Run

/-!
# Recovering with the right exit

The client against a log of events (`WellFormed`): what it has published is the beginning of the
log, and what is pending is of the log as well (`Tracks`).  Publishing keeps this.  So does
recovering from an answer that is so in the log (`Answers`), as long as the exit is placed right
(`GapIsExit`): it is placed in the first gap that a chunk of the answer comes after, or else in the
only gap there is up to the number that the answer ends with.  In the second case it is the exit, as
the exit is missing and nothing else is (`firstMissingSeq_eq`).  In the first case the gap may as
well be a chunk that the server no longer has.
-/

namespace ExecServer

open Text Outcome List Nat

/-! ## Logs and answers -/

/-- The events of a process: numbered from one, with at most one exit, and nothing after the
close. -/
structure WellFormed (log : List ExecProcessEvent) : Prop where
  numbered : ∀ i (h : i < log.length), log[i].seq = some (i + 1)
  oneExit : ∀ e ∈ log, ∀ e' ∈ log, e.isExited = true → e'.isExited = true → e = e'
  closedLast : ∀ seq, .closed seq ∈ log → seq = log.length

variable {log : List ExecProcessEvent} {event : ExecProcessEvent} {seq : Nat}
  (hlog : WellFormed log)

namespace WellFormed

variable (hmem : event ∈ log)

include hlog hmem

section

variable (hseq : event.seq = some seq)

include hseq

lemma getElem?_of_seq : 0 < seq ∧ log[seq - 1]? = some event := by
  obtain ⟨i, hi, rfl⟩ := mem_iff_getElem.mp hmem
  obtain rfl := Option.some.inj ((hlog.numbered i hi).symm.trans hseq)
  exact ⟨succ_pos i, getElem?_eq_getElem hi⟩

lemma seq_le_length : seq ≤ log.length := by
  obtain ⟨hpos, hget⟩ := hlog.getElem?_of_seq hmem hseq
  have := (List.getElem?_eq_some_iff.mp hget).1
  omega

/-- An event is among the first `n` if its number is. -/
lemma mem_take_iff {n} : event ∈ log.take n ↔ seq ≤ n := by
  obtain ⟨hpos, hget⟩ := hlog.getElem?_of_seq hmem hseq
  constructor
  · intro htake
    obtain ⟨i, hi, hi'⟩ := mem_iff_getElem.mp htake
    rw [getElem_take] at hi'
    have hlen : i < log.length := by
      rw [length_take] at hi
      omega
    have := (hlog.numbered i hlen).symm.trans (hi' ▸ hseq)
    rw [length_take] at hi
    have := Option.some.inj this
    omega
  · intro hle
    refine mem_of_getElem? (i := seq - 1) ?_
    rw [getElem?_take_of_lt (by omega)]
    exact hget

end

end WellFormed

/-- What the answer to a read says is so in the log, up to the number that it ends with. -/
structure Answers (log : List ExecProcessEvent) (r : ReadResponse) : Prop where
  failure : r.failure = none
  bound : r.nextSeq ≤ log.length + 1
  chunks : ∀ chunk ∈ r.chunks, .output chunk ∈ log ∧ chunk.seq < r.nextSeq
  ascending : r.chunks.Pairwise fun a b => a.seq < b.seq
  size : ∀ chunk ∈ r.chunks, chunk.chunk.length ≤ maxPendingProcessEventBytes
  exited : r.exited = true → ∃ seq exitCode, r.exitCode = some exitCode ∧ seq < r.nextSeq ∧
    .exited seq exitCode (some r.sandboxDenied) ∈ log
  exit : ∀ seq exitCode denied, .exited seq exitCode denied ∈ log → seq < r.nextSeq →
    r.exited = true ∧ denied = some r.sandboxDenied
  closed : r.closed = true → .closed (r.nextSeq - 1) ∈ log

/-! ## The state of the client -/

/-- The events published are the first of the log, and what is pending is of the log as well. -/
structure Tracks (log : List ExecProcessEvent) (s : SessionState) : Prop where
  published : s.events.filter (·.seq.isSome) = log.take s.lastPublishedSeq
  bound : s.lastPublishedSeq ≤ log.length
  pending : ∀ p ∈ s.pending, p.2 ∈ log ∧ p.2.seq = some p.1 ∧ s.lastPublishedSeq < p.1
  sorted : s.pending.Pairwise fun a b => a.1 < b.1
  exitPublished : s.exitPublished = (log.take s.lastPublishedSeq).any ExecProcessEvent.isExited
  closedPublished : s.closedPublished = (log.take s.lastPublishedSeq).any ExecProcessEvent.isClosed

variable {s : SessionState}

namespace SessionState

/-- The numbers of the events that are pending. -/
abbrev keys (s : SessionState) : List Nat := s.pending.map Prod.fst

/-- The event was published, or it is pending. -/
def Has (s : SessionState) (seq : Nat) : Prop := seq ≤ s.lastPublishedSeq ∨ seq ∈ s.keys

/-- The next event is not pending: all that can be published is. -/
def Ready (s : SessionState) : Prop := s.lastPublishedSeq + 1 ∉ s.keys

lemma Ready.not_has (h : s.Ready) : ¬ s.Has (s.lastPublishedSeq + 1) := by
  rintro (hle | hmem)
  · exact absurd hle (not_succ_le_self _)
  · exact h hmem

lemma lookup_isSome_iff : (s.pending.lookup seq).isSome ↔ seq ∈ s.keys := by
  rw [List.lookup_isSome_iff, keys, List.mem_map]
  constructor
  · rintro ⟨p, hp, hkey⟩
    exact ⟨p, hp, (beq_iff_eq.mp hkey).symm⟩
  · rintro ⟨p, hp, rfl⟩
    exact ⟨p, hp, beq_self_eq_true _⟩

lemma mem_of_lookup (h : s.pending.lookup seq = some event) : (seq, event) ∈ s.pending := by
  obtain ⟨l₁, l₂, hsplit, -⟩ := lookup_eq_some_iff.mp h
  rw [hsplit]
  exact mem_append_right _ mem_cons_self

/-- An event is there already, or it is put into its place: it is the next one, or there is room. -/
lemma insertPending_cases (hseq : event.seq = some seq) {s'}
    (h : s.insertPending event = .ok s') :
    seq ∈ s.keys ∧ s' = s ∨ seq ∉ s.keys ∧ s' = { s with
      pending := s.pending.orderedInsert (fun a b => a.1 ≤ b.1) (seq, event)
      pendingBytes := s.pendingBytes + pendingProcessEventBytes event } ∧
      (seq = s.lastPublishedSeq + 1 ∨ s.pending.length < maxPendingProcessEvents ∧
        s.pendingBytes + pendingProcessEventBytes event ≤ maxPendingProcessEventBytes) := by
  unfold insertPending at h
  rw [hseq] at h
  dsimp only at h
  by_cases hold : (s.pending.lookup seq).isSome
  · rw [if_pos hold] at h
    exact .inl ⟨lookup_isSome_iff.mp hold, (Except.ok.inj h).symm⟩
  · rw [if_neg hold] at h
    split_ifs at h with hfull _ hlarge
    refine .inr ⟨mt lookup_isSome_iff.mpr hold, (Except.ok.inj h).symm, ?_⟩
    by_cases hgap : seq = s.lastPublishedSeq + 1
    · exact .inl hgap
    · rw [decide_eq_false hgap, not_and, not_le] at hfull
      rw [decide_eq_false hgap, not_and, not_lt] at hlarge
      exact .inr ⟨hfull rfl, hlarge rfl⟩

/-- What holds before an event is published and after it holds after all of them are.  The loop has
a turn for each event that is pending. -/
lemma publishReadyFrom_rule {P : SessionState → Prop}
    (hP : ∀ {s event}, P s → s.pending.lookup (s.lastPublishedSeq + 1) = some event →
      P (s.publishEvent event)) {turns} (h : P s) (hturns : s.pending.length ≤ turns)
    (publishedClosed : Bool) :
    P (publishReadyFrom turns s publishedClosed).2 ∧
      (publishReadyFrom turns s publishedClosed).2.Ready := by
  induction turns generalizing s publishedClosed with
  | zero =>
    refine ⟨h, ?_⟩
    show _ ∉ s.pending.map Prod.fst
    rw [eq_nil_of_length_eq_zero (le_zero.mp hturns)]
    exact not_mem_nil
  | succ turns ih =>
    rw [publishReadyFrom]
    rcases hnext : s.pending.lookup (s.lastPublishedSeq + 1) with _ | event
    · refine ⟨h, fun hmem => ?_⟩
      have := lookup_isSome_iff.mpr hmem
      rw [hnext] at this
      cases this
    · have hless : (s.publishEvent event).pending.length < s.pending.length := by
        refine length_filter_lt_length_iff_exists.mpr ⟨_, mem_of_lookup hnext, ?_⟩
        simp
      exact ih (hP h hnext) (by omega) _

end SessionState

/-- Inserting a number that is not there keeps the order. -/
lemma pairwise_orderedInsert {pending : List (Nat × ExecProcessEvent)}
    (h : pending.Pairwise fun a b => a.1 < b.1) {p}
    (hp : p.1 ∉ pending.map Prod.fst) :
    (pending.orderedInsert (fun a b => a.1 ≤ b.1) p).Pairwise fun a b => a.1 < b.1 := by
  induction pending with
  | nil => exact pairwise_singleton _ _
  | cons q pending ih =>
    obtain ⟨hq, h⟩ := pairwise_cons.mp h
    obtain ⟨hpq, hp⟩ := not_or.mp (mt mem_cons.mpr hp)
    rw [orderedInsert_cons]
    split
    · have hlt : p.1 < q.1 := lt_of_le_of_ne ‹_› hpq
      refine pairwise_cons.mpr ⟨fun b hb => ?_, pairwise_cons.mpr ⟨hq, h⟩⟩
      obtain rfl | hb := mem_cons.mp hb
      · exact hlt
      · exact hlt.trans (hq b hb)
    · refine pairwise_cons.mpr ⟨fun b hb => ?_, ih h hp⟩
      obtain rfl | hb := (mem_orderedInsert _).mp hb
      · exact not_le.mp ‹_›
      · exact hq b hb

namespace Tracks

/-! ## Publishing -/

lemma event_eq (hlog : WellFormed log) (h : Tracks log s) {p}
    (hp : p ∈ s.pending) (hmem : event ∈ log) (hseq : event.seq = some p.1) : p.2 = event := by
  obtain ⟨hplog, hpseq, -⟩ := h.pending p hp
  exact Option.some.inj ((hlog.getElem?_of_seq hplog hpseq).2.symm.trans
    (hlog.getElem?_of_seq hmem hseq).2)

variable {s' : SessionState}

lemma insertPending (h : Tracks log s) (hmem : event ∈ log) (hseq : event.seq = some seq)
    (hnew : s.lastPublishedSeq < seq) (hs' : s.insertPending event = .ok s') :
    Tracks log s' ∧ s'.lastPublishedSeq = s.lastPublishedSeq ∧
      ∀ j, j ∈ s'.keys ↔ j ∈ s.keys ∨ j = seq := by
  obtain ⟨hold, rfl⟩ | ⟨hnot, rfl, -⟩ := SessionState.insertPending_cases hseq hs'
  · refine ⟨h, rfl, fun j => ⟨.inl, ?_⟩⟩
    rintro (hj | rfl)
    · exact hj
    · exact hold
  · refine ⟨⟨h.published, h.bound, fun p hp => ?_, pairwise_orderedInsert h.sorted hnot,
      h.exitPublished, h.closedPublished⟩, rfl, fun j => ?_⟩
    · obtain rfl | hp := (mem_orderedInsert _).mp hp
      · exact ⟨hmem, hseq, hnew⟩
      · exact h.pending p hp
    · show j ∈ (s.pending.orderedInsert _ _).map Prod.fst ↔ _
      rw [((perm_orderedInsert _ _ _).map Prod.fst).mem_iff, map_cons, mem_cons, or_comm]

lemma publishEvent (hlog : WellFormed log) (h : Tracks log s)
    (hevent : s.pending.lookup (s.lastPublishedSeq + 1) = some event) :
    Tracks log (s.publishEvent event) := by
  obtain ⟨hmem, hseq, -⟩ := h.pending _ (SessionState.mem_of_lookup hevent)
  have hget : log[s.lastPublishedSeq]? = some event := (hlog.getElem?_of_seq hmem hseq).2
  have htake : log.take (s.lastPublishedSeq + 1) = log.take s.lastPublishedSeq ++ [event] := by
    rw [take_add_one, hget, Option.toList_some]
  constructor
  · show (s.events ++ [event]).filter _ = log.take (s.lastPublishedSeq + 1)
    rw [filter_append, h.published, htake, filter_singleton, hseq]
    rfl
  · exact (List.getElem?_eq_some_iff.mp hget).1
  · intro p hp
    obtain ⟨hp, hne⟩ := mem_filter.mp hp
    obtain ⟨hplog, hpseq, hlt⟩ := h.pending p hp
    exact ⟨hplog, hpseq, lt_of_le_of_ne hlt (Ne.symm (of_decide_eq_true hne))⟩
  · exact h.sorted.filter _
  · show (s.exitPublished || event.isExited) = (log.take (s.lastPublishedSeq + 1)).any _
    rw [htake, any_append, h.exitPublished, any_cons, any_nil, Bool.or_false]
  · show (s.closedPublished || event.isClosed) = (log.take (s.lastPublishedSeq + 1)).any _
    rw [htake, any_append, h.closedPublished, any_cons, any_nil, Bool.or_false]

lemma has_publishEvent (s : SessionState)
    (hevent : s.pending.lookup (s.lastPublishedSeq + 1) = some event) (j : Nat) :
    (s.publishEvent event).Has j ↔ s.Has j := by
  have hkey : s.lastPublishedSeq + 1 ∈ s.keys := mem_map_of_mem (SessionState.mem_of_lookup hevent)
  show j ≤ s.lastPublishedSeq + 1 ∨ j ∈ (s.pending.filter _).map Prod.fst ↔ _
  constructor
  · rintro (hle | hmem)
    · obtain hle | rfl := le_succ_iff.mp hle
      · exact .inl hle
      · exact .inr hkey
    · obtain ⟨p, hp, rfl⟩ := mem_map.mp hmem
      exact .inr (mem_map_of_mem (mem_filter.mp hp).1)
  · rintro (hle | hmem)
    · exact .inl (le_succ_of_le hle)
    · by_cases hj : j = s.lastPublishedSeq + 1
      · exact .inl hj.le
      · obtain ⟨p, hp, rfl⟩ := mem_map.mp hmem
        exact .inr (mem_map_of_mem (mem_filter.mpr ⟨hp, decide_eq_true hj⟩))

lemma publishReady (hlog : WellFormed log) (h : Tracks log s) :
    Tracks log s.publishReady.2 ∧ s.publishReady.2.Ready ∧
      ∀ j, s.publishReady.2.Has j ↔ s.Has j := by
  obtain ⟨⟨ht, hhas⟩, hready⟩ := SessionState.publishReadyFrom_rule
    (P := fun t => Tracks log t ∧ ∀ j, t.Has j ↔ s.Has j) (fun h hnext =>
      ⟨h.1.publishEvent hlog hnext, fun j => (has_publishEvent _ hnext j).trans (h.2 j)⟩)
    ⟨h, fun _ => Iff.rfl⟩ le_rfl false
  exact ⟨ht, hready, hhas⟩

lemma has_insertPending (hlast : s'.lastPublishedSeq = s.lastPublishedSeq)
    (hkeys : ∀ j, j ∈ s'.keys ↔ j ∈ s.keys ∨ j = seq) (j : Nat) :
    s'.Has j ↔ s.Has j ∨ j = seq := by
  rw [SessionState.Has, SessionState.Has, hlast, hkeys, or_assoc]

end Tracks

/-! ## The first gap -/

/-- The first event that the client does not have and that the answer does not bring. -/
structure FirstLacking (s : SessionState) (r : ReadResponse) (seq : Nat) : Prop where
  below : ∀ j < seq, s.Has j ∨ ∃ chunk ∈ r.chunks, chunk.seq = j
  notHas : ¬ s.Has seq
  notChunk : ∀ chunk ∈ r.chunks, chunk.seq ≠ seq

/-- The exit was published, or it is pending. -/
def exitKnown (s : SessionState) (r : ReadResponse) : Bool :=
  s.exitPublished || exitPending s (r.nextSeq - 1)

/-- **The guess is right**: if a chunk of the answer comes after the first gap, the gap is the
exit. -/
def GapIsExit (log : List ExecProcessEvent) (s : SessionState) (r : ReadResponse) : Prop :=
  ∀ seq, FirstLacking s r seq → (∃ chunk ∈ r.chunks, seq < chunk.seq) →
    ∃ event ∈ log, event.seq = some seq ∧ event.isExited = true

/-- There is something to recover, and an exit to be placed. -/
def PlacesExit (s : SessionState) (r : ReadResponse) : Prop :=
  s.failure = none ∧ s.closedPublished = false ∧ s.lastPublishedSeq < r.nextSeq - 1 ∧
    r.exited = true ∧ exitKnown s r = false

variable {r : ReadResponse} {s₀ s : SessionState}

section

/-- What holds between two chunks: as long as no exit was placed, the client has what it had, and
the chunks so far. -/
structure Between (log : List ExecProcessEvent) (r : ReadResponse) (s₀ : SessionState)
    (before : List ProcessOutputChunk) (known : Bool) (s : SessionState) : Prop where
  tracks : Tracks log s
  ready : s.Ready
  has : r.exited = true → known = false → ∀ j, s.Has j ↔ s₀.Has j ∨ ∃ chunk ∈ before, chunk.seq = j

variable {E : Str → SessionState → Prop}

lemma ensures_get_bind {α : Type} {f} {Q : α → SessionState → Prop}
    (h : Ensures (f s) s Q E) :
    Ensures (get >>= f) s Q E := h

/-- An event of the log is inserted, or there is no room for it. -/
lemma ensures_insertPending (h : Tracks log s) (hmem : event ∈ log)
    (hseq : event.seq = some seq) (hnew : s.lastPublishedSeq < seq) :
    Ensures (insertPending event) s
      (fun _ t => Tracks log t ∧ t.lastPublishedSeq = s.lastPublishedSeq ∧
        ∀ j, j ∈ t.keys ↔ j ∈ s.keys ∨ j = seq)
      fun _ t => t = s := by
  unfold Ensures insertPending
  rcases hinsert : s.insertPending event with message | s'
  · rfl
  · exact h.insertPending hmem hseq hnew hinsert

lemma ensures_publishReady (hlog : WellFormed log) (h : Tracks log s) :
    Ensures publishReady s (fun _ t => Tracks log t ∧ t.Ready ∧ ∀ j, t.Has j ↔ s.Has j) E :=
  h.publishReady hlog

/-- An event of the log is inserted and published, if nothing before it is missing. -/
lemma ensures_insert_publish (hlog : WellFormed log) (h : Tracks log s) (hready : s.Ready)
    (hmem : event ∈ log) (hseq : event.seq = some seq) (hnew : s.lastPublishedSeq < seq) :
    Ensures (insertPending event >>= fun _ => publishReady) s
      (fun _ t => Tracks log t ∧ t.Ready ∧ ∀ j, t.Has j ↔ s.Has j ∨ j = seq)
      fun _ t => Tracks log t ∧ t.Ready := by
  refine ((ensures_insertPending h hmem hseq hnew).mono (fun _ _ => id) ?_).bind ?_
  · rintro _ t rfl
    exact ⟨h, hready⟩
  · rintro _ t ⟨ht, hlast, hkeys⟩
    refine (ensures_publishReady hlog ht).mono ?_ (fun _ _ => id)
    rintro _ u ⟨hu, hready, hhas⟩
    exact ⟨hu, hready, fun j => (hhas j).trans (Tracks.has_insertPending hlast hkeys j)⟩

/-- Placed at its number, the exit of the answer is that of the log. -/
lemma insertExit_eq (hlog : WellFormed log) (ha : Answers log r) (hexited : r.exited)
    (hmem : event ∈ log) (hseq : event.seq = some seq) (hexit : event.isExited) :
    insertExit r seq = insertPending event := by
  obtain ⟨seq', exitCode, hcode, -, hmem'⟩ := ha.exited hexited
  obtain rfl := hlog.oneExit _ hmem _ hmem' hexit rfl
  obtain rfl := Option.some.inj hseq
  rw [insertExit, hcode]

variable {known : Bool}

/-- Where a chunk is ahead of the next number, that number is the first gap: nothing before it is
missing, and the chunks to come are beyond it. -/
lemma Between.firstLacking {chunk before} (ha : Answers log r) {after}
    (hchunks : r.chunks = before ++ chunk :: after) (hb : Between log r s₀ before known s)
    (hexited : r.exited) (hknown : known = false)
    (hahead : s.lastPublishedSeq + 1 < chunk.seq) :
    FirstLacking s₀ r (s.lastPublishedSeq + 1) := by
  have hhas := hb.has hexited hknown
  have hnot := mt (hhas _).mpr hb.ready.not_has
  refine ⟨fun j hj => ?_, fun h => hnot (.inl h), fun c hc hseq => ?_⟩
  · obtain h | ⟨c, hc, hseq⟩ := (hhas j).mp (.inl (le_of_lt_succ hj))
    · exact .inl h
    · exact .inr ⟨c, hchunks ▸ mem_append_left _ hc, hseq⟩
  · have hascending := ha.ascending
    rw [hchunks] at hc hascending
    obtain hc | hc := mem_append.mp hc
    · exact hnot (.inr ⟨c, hc, hseq⟩)
    · obtain rfl | hc := mem_cons.mp hc
      · exact absurd hseq hahead.ne'
      · have hafter := (pairwise_cons.mp (pairwise_append.mp hascending).2.1).1 c hc
        omega

section

variable (hlog : WellFormed log) (ha : Answers log r)
include hlog ha

lemma ensures_guessExit {after} (hchunks : r.chunks = before ++ chunk :: after)
    (hb : Between log r s₀ before known s) (hgap : r.exited → known = false → GapIsExit log s₀ r) :
    Ensures (guessExit r chunk known) s
      (fun k t => Between log r s₀ before k.1 t ∧ (k.1 = false → known = false))
      fun _ t => Tracks log t ∧ t.Ready := by
  unfold guessExit
  refine ensures_get_bind ?_
  split
  · obtain ⟨hexited, hknown, hahead⟩ : r.exited = true ∧ known = false ∧
      s.lastPublishedSeq + 1 < chunk.seq := ‹_›
    have hlacking := hb.firstLacking ha hchunks hexited hknown hahead
    have hmem : chunk ∈ r.chunks := hchunks ▸ mem_append_right _ mem_cons_self
    obtain ⟨event, hevent, hseq, hexit⟩ := hgap hexited hknown _ hlacking ⟨chunk, hmem, hahead⟩
    rw [insertExit_eq hlog ha hexited hevent hseq hexit]
    refine (ensures_insertPending hb.tracks hevent hseq (lt_succ_self _)).mono
      (fun _ _ => id) ?_ |>.bind ?_
    · rintro _ t rfl
      exact ⟨hb.tracks, hb.ready⟩
    · rintro _ t ⟨ht, -, -⟩
      refine (ensures_publishReady hlog ht).bind ?_
      rintro _ u ⟨hu, hready, -⟩
      exact ⟨⟨hu, hready, by simp⟩,
        by simp⟩
  · exact ⟨hb, id⟩

lemma ensures_recoverChunk {before} (hmem : chunk ∈ r.chunks)
    (hb : Between log r s₀ before known s) :
    Ensures (recoverChunk chunk) s (fun _ t => Between log r s₀ (before ++ [chunk]) known t)
      fun _ t => Tracks log t ∧ t.Ready := by
  -- The client has the chunk now, and what it had.
  have hnext : ∀ t : SessionState, Tracks log t → t.Ready →
      (∀ j, t.Has j ↔ s.Has j ∨ j = chunk.seq) → Between log r s₀ (before ++ [chunk]) known t := by
    intro t ht hready hhas
    refine ⟨ht, hready, fun hexited hknown j => ?_⟩
    rw [hhas, hb.has hexited hknown, or_assoc, eq_comm (a := j)]
    simp
  unfold recoverChunk
  refine ensures_get_bind ?_
  split
  · refine (ensures_insert_publish hlog hb.tracks hb.ready (ha.chunks chunk hmem).1 rfl ‹_›).mono
      ?_ fun _ _ => id
    rintro _ t ⟨ht, hready, hhas⟩
    exact hnext t ht hready hhas
  · refine hnext s hb.tracks hb.ready fun j => ⟨.inl, ?_⟩
    rintro (h | rfl)
    · exact h
    · exact .inl (not_lt.mp ‹_›)

lemma ensures_recoverChunks {before after} (hchunks : r.chunks = before ++ after)
    (hb : Between log r s₀ before known s) (hgap : r.exited → known = false → GapIsExit log s₀ r) :
    Ensures (recoverChunks r (r.nextSeq - 1) after known) s
      (fun k t => Between log r s₀ r.chunks k.1 t ∧ (k.1 = false → known = false))
      fun _ t => Tracks log t ∧ t.Ready := by
  induction after generalizing before known s with
  | nil =>
    rw [append_nil] at hchunks
    exact ⟨hchunks ▸ hb, id⟩
  | cons chunk after ih =>
    have hmem : chunk ∈ r.chunks := hchunks ▸ mem_append_right _ mem_cons_self
    rw [recoverChunks]
    split
    · exact ⟨hb.tracks, hb.ready⟩
    · refine (ensures_guessExit hlog ha hchunks hb hgap).bind ?_
      rintro ⟨k, _⟩ t ⟨ht, hk⟩
      refine (ensures_recoverChunk hlog ha hmem ht).bind ?_
      intro _ u hu
      refine (ih (by rw [hchunks, append_assoc]; rfl) hu
        fun hexited hfalse => hgap hexited (hk hfalse)).bind ?_
      rintro ⟨k', _⟩ v ⟨hv, hk'⟩
      exact ⟨hv, fun h => hk (hk' h)⟩

/-! ## The exit, if it was not placed yet -/

/-- The exit is not among what the client has, if the client does not know it. -/
lemma Between.not_has_exit (h₀ : Tracks log s₀)
    (hb : Between log r s₀ r.chunks known s) (hexited : r.exited) (hknown : known = false)
    (hunknown : exitKnown s₀ r = false) (hmem : event ∈ log) (hseq : event.seq = some seq)
    (hexit : event.isExited) (hlt : seq < r.nextSeq) : ¬ s.Has seq := by
  obtain ⟨hpublished, hpending⟩ := Bool.or_eq_false_iff.mp hunknown
  rw [hb.has hexited hknown]
  rintro ((hle | hkey) | ⟨chunk, hchunk, rfl⟩)
  · rw [h₀.exitPublished] at hpublished
    have hany : (log.take s₀.lastPublishedSeq).any ExecProcessEvent.isExited :=
      any_eq_true.mpr ⟨event, (hlog.mem_take_iff hmem hseq).mpr hle, hexit⟩
    cases hany.symm.trans hpublished
  · obtain ⟨p, hp, rfl⟩ := mem_map.mp hkey
    have hany : exitPending s₀ (r.nextSeq - 1) := by
      refine any_eq_true.mpr ⟨p, hp, ?_⟩
      rw [h₀.event_eq hlog hp hmem hseq, hexit, Bool.and_true]
      exact decide_eq_true (le_sub_one_of_lt hlt)
    cases hany.symm.trans hpending
  · have hsame := (hlog.getElem?_of_seq (ha.chunks chunk hchunk).1 rfl).2.symm.trans
      (hlog.getElem?_of_seq hmem hseq).2
    rw [← Option.some.inj hsame] at hexit
    cases hexit

end

/-- Before the exit is placed: at most the close was inserted. -/
structure BeforeExit (log : List ExecProcessEvent) (r : ReadResponse) (known : Bool)
    (s : SessionState) : Prop where
  tracks : Tracks log s
  ready : s.lastPublishedSeq + 1 ∈ s.keys → s.lastPublishedSeq + 1 = r.nextSeq - 1
  exit : r.exited = true → known = false → ∃ event ∈ log, ∃ seq, event.seq = some seq ∧
    event.isExited = true ∧ seq < r.nextSeq ∧ ¬ s.Has seq

lemma ensures_recoverClosed (hlog : WellFormed log) (ha : Answers log r) (h₀ : Tracks log s₀)
    (hb : Between log r s₀ r.chunks known s) (hunknown : known = false → exitKnown s₀ r = false) :
    Ensures (recoverClosed r (r.nextSeq - 1)) s (fun _ t => BeforeExit log r known t)
      fun _ t => Tracks log t ∧ t.Ready := by
  have hexit : r.exited → known = false → ∃ event ∈ log, ∃ seq, event.seq = some seq ∧
      event.isExited ∧ seq < r.nextSeq ∧ ¬ s.Has seq := by
    intro hexited hknown
    obtain ⟨seq, exitCode, -, hlt, hmem⟩ := ha.exited hexited
    exact ⟨_, hmem, seq, rfl, rfl, hlt,
      hb.not_has_exit hlog ha h₀ hexited hknown (hunknown hknown) hmem rfl rfl hlt⟩
  unfold recoverClosed
  refine ensures_get_bind ?_
  split
  · obtain ⟨hclosed, hnot, -⟩ : r.closed = true ∧ s.closedPublished = false ∧ _ := ‹_›
    have hmem := ha.closed hclosed
    have hnew : s.lastPublishedSeq < r.nextSeq - 1 := by
      by_contra hle
      rw [hb.tracks.closedPublished] at hnot
      have hany : (log.take s.lastPublishedSeq).any ExecProcessEvent.isClosed :=
        any_eq_true.mpr ⟨_, (hlog.mem_take_iff hmem rfl).mpr (not_lt.mp hle), rfl⟩
      cases hany.symm.trans hnot
    refine (ensures_insertPending hb.tracks hmem rfl hnew).mono ?_ ?_
    · rintro _ t ⟨ht, hlast, hkeys⟩
      refine ⟨ht, fun hnext => ?_, fun hexited hknown => ?_⟩
      · rw [hlast] at hnext ⊢
        exact ((hkeys _).mp hnext).resolve_left hb.ready
      · obtain ⟨event, hevent, seq, hseq, hisExited, hlt, hhas⟩ := hexit hexited hknown
        refine ⟨event, hevent, seq, hseq, hisExited, hlt, ?_⟩
        rw [Tracks.has_insertPending hlast hkeys]
        rintro (h | rfl)
        · exact hhas h
        · have hsame := (hlog.getElem?_of_seq hmem rfl).2.symm.trans
            (hlog.getElem?_of_seq hevent hseq).2
          rw [← Option.some.inj hsame] at hisExited
          cases hisExited
    · rintro _ t rfl
      exact ⟨hb.tracks, hb.ready⟩
  · exact ⟨hb.tracks, fun h => absurd h hb.ready, hexit⟩

end

variable {l : List Nat}

/-- Numbers of an interval, as many as it has, are all of them. -/
lemma mem_of_length (hnodup : l.Nodup) {a b} (hl : ∀ j ∈ l, a ≤ j ∧ j ≤ b)
    (hlength : b + 1 - a ≤ l.length) {j} (haj : a ≤ j) (hjb : j ≤ b) : j ∈ l := by
  have hsub : l.toFinset ⊆ Finset.Icc a b := fun j hj =>
    Finset.mem_Icc.mpr (hl j (mem_toFinset.mp hj))
  have heq : l.toFinset = Finset.Icc a b := by
    refine Finset.eq_of_subset_of_card_le hsub ?_
    rw [card_Icc, toFinset_card_of_nodup hnodup]
    exact hlength
  rw [← mem_toFinset, heq]
  exact Finset.mem_Icc.mpr ⟨haj, hjb⟩

lemma le_firstMissingFrom (a : Nat) (l : List Nat) : a ≤ firstMissingFrom a l := by
  induction l generalizing a with
  | nil => exact le_rfl
  | cons x l ih =>
    rw [firstMissingFrom]
    split
    · exact (le_succ a).trans (ih (a + 1))
    · exact le_rfl

lemma firstMissingFrom_spec (hsorted : l.Pairwise (· < ·)) {a} (hl : ∀ j ∈ l, a ≤ j) :
    firstMissingFrom a l ∉ l ∧ ∀ j, a ≤ j → j < firstMissingFrom a l → j ∈ l := by
  induction l generalizing a with
  | nil =>
    refine ⟨not_mem_nil, fun j haj hj => ?_⟩
    exact absurd (haj.trans_lt hj) (lt_irrefl _)
  | cons x l ih =>
    obtain ⟨hx, hsorted'⟩ := pairwise_cons.mp hsorted
    rw [firstMissingFrom]
    split
    · subst x
      obtain ⟨hnot, hbelow⟩ := ih hsorted' hx
      refine ⟨fun hmem => ?_, fun j haj hj => ?_⟩
      · obtain h | h := mem_cons.mp hmem
        · exact absurd (le_firstMissingFrom (a + 1) l) (by omega)
        · exact hnot h
      · obtain rfl | hlt := eq_or_lt_of_le haj
        · exact mem_cons_self
        · exact mem_cons_of_mem _ (hbelow j hlt hj)
    · have hax : a < x := lt_of_le_of_ne (hl x mem_cons_self) (Ne.symm ‹_›)
      refine ⟨fun hmem => ?_, fun j haj hj => absurd (haj.trans_lt hj) (lt_irrefl _)⟩
      obtain h | h := mem_cons.mp hmem
      · omega
      · exact absurd (hx a h) (lt_asymm hax)

section

lemma mem_retainedSeqs {targetSeq j} :
    j ∈ retainedSeqs s targetSeq ↔ j ∈ s.keys ∧ s.lastPublishedSeq < j ∧ j ≤ targetSeq := by
  rw [retainedSeqs, mem_filter, decide_eq_true_iff, succ_le_iff]

lemma Tracks.sorted_retainedSeqs (h : Tracks log s) (targetSeq : Nat) :
    (retainedSeqs s targetSeq).Pairwise (· < ·) :=
  (pairwise_map.mpr h.sorted).filter _

/-- If only one event is missing, and the exit is, the exit is where the gap is. -/
lemma firstMissingSeq_eq (h : Tracks log s) {targetSeq seq} (hnot : ¬ s.Has seq)
    (hle : seq ≤ targetSeq)
    (hcount : targetSeq - s.lastPublishedSeq - (retainedSeqs s targetSeq).length = 1) :
    firstMissingSeq s targetSeq = seq ∧
      ∀ j, s.lastPublishedSeq < j → j ≤ targetSeq → j ≠ seq → j ∈ s.keys := by
  have hlast : s.lastPublishedSeq < seq := not_le.mp fun h => hnot (.inl h)
  have hsorted := h.sorted_retainedSeqs targetSeq
  have hseq : seq ∉ retainedSeqs s targetSeq := fun h => hnot (.inr (mem_retainedSeqs.mp h).1)
  have hall : ∀ j, s.lastPublishedSeq < j → j ≤ targetSeq →
      j = seq ∨ j ∈ retainedSeqs s targetSeq := by
    intro j hj hjt
    refine mem_cons.mp (mem_of_length (a := s.lastPublishedSeq + 1) (b := targetSeq)
      (nodup_cons.mpr ⟨hseq, hsorted.imp ne_of_lt⟩) ?_ ?_ hj hjt)
    · intro i hi
      obtain rfl | hi := mem_cons.mp hi
      · exact ⟨hlast, hle⟩
      · exact (mem_retainedSeqs.mp hi).2
    · rw [length_cons]
      omega
  obtain ⟨hmissing, hbelow⟩ := firstMissingFrom_spec hsorted fun j hj =>
    (mem_retainedSeqs.mp hj).2.1
  have hfirst : firstMissingSeq s targetSeq ≤ seq := by
    by_contra hgt
    exact hseq (hbelow seq hlast (not_le.mp hgt))
  refine ⟨?_, fun j hj hjt hne => ?_⟩
  · exact (hall _ (le_firstMissingFrom _ _) (hfirst.trans hle)).resolve_right hmissing
  · exact (mem_retainedSeqs.mp ((hall j hj hjt).resolve_left hne)).1

lemma ensures_recoverExit (hlog : WellFormed log) (ha : Answers log r) {known}
    (hb : BeforeExit log r known s) :
    Ensures (recoverExit r (r.nextSeq - 1) known) s
      (fun _ t => Tracks log t ∧ ∀ j < r.nextSeq, t.Has j)
      fun _ t => Tracks log t ∧ t.Ready := by
  unfold recoverExit
  refine ensures_get_bind ?_
  dsimp only
  by_cases hunknown : r.exited = true ∧ known = false
  · obtain ⟨event, hmem, seq, hseq, hexit, hlt, hnot⟩ := hb.exit hunknown.1 hunknown.2
    have hlast : s.lastPublishedSeq < seq := not_le.mp fun h => hnot (.inl h)
    have hready : s.Ready := by
      intro hnext
      have := hb.ready hnext
      obtain rfl : s.lastPublishedSeq + 1 = seq := by omega
      exact hnot (.inr hnext)
    rw [if_pos hunknown]
    split
    · exact ⟨hb.tracks, hready⟩
    · have hone := not_not.mp ‹¬ _ ≠ 1›
      obtain ⟨hfirst, hrest⟩ := firstMissingSeq_eq hb.tracks hnot (le_sub_one_of_lt hlt) hone
      rw [hfirst, insertExit_eq hlog ha hunknown.1 hmem hseq hexit]
      refine (ensures_insertPending hb.tracks hmem hseq hlast).mono ?_ ?_
      · rintro _ t ⟨ht, htlast, hkeys⟩
        refine ⟨ht, fun j hj => (Tracks.has_insertPending htlast hkeys j).mpr ?_⟩
        by_cases hjlast : j ≤ s.lastPublishedSeq
        · exact .inl (.inl hjlast)
        · by_cases hjseq : j = seq
          · exact .inr hjseq
          · exact .inl (.inr (hrest j (not_le.mp hjlast) (le_sub_one_of_lt hj) hjseq))
      · rintro _ t rfl
        exact ⟨hb.tracks, hready⟩
  · rw [if_neg hunknown]
    split
    · refine ⟨hb.tracks, fun hnext => ?_⟩
      have htarget := hb.ready hnext
      have hretained : r.nextSeq - 1 ∈ retainedSeqs s (r.nextSeq - 1) :=
        mem_retainedSeqs.mpr ⟨htarget ▸ hnext, by omega, le_rfl⟩
      have hpos := length_pos_of_mem hretained
      omega
    · refine ⟨hb.tracks, fun j hj => ?_⟩
      by_cases hjlast : j ≤ s.lastPublishedSeq
      · exact .inl hjlast
      · have hretained : j ∈ retainedSeqs s (r.nextSeq - 1) := by
          refine mem_of_length (a := s.lastPublishedSeq + 1) (b := r.nextSeq - 1)
            ((hb.tracks.sorted_retainedSeqs _).imp ne_of_lt)
            (fun i hi => (mem_retainedSeqs.mp hi).2) ?_ (not_le.mp hjlast)
            (le_sub_one_of_lt hj)
          omega
        exact .inr (mem_retainedSeqs.mp hretained).1

/-! ## Recovering -/

/-- An exit that is pending has the denial of the answer already. -/
lemma amendExit_eq_self (ha : Answers log r) {pending}
    (hpending : ∀ p ∈ pending, p.2 ∈ log ∧ p.2.seq = some p.1 ∧ 0 < p.1) :
    amendExit (r.nextSeq - 1) r.sandboxDenied pending = pending := by
  induction pending with
  | nil => rfl
  | cons p pending ih =>
    obtain ⟨hmem, hseq, hpos⟩ := hpending p mem_cons_self
    have hrest := ih fun q hq => hpending q (mem_cons_of_mem _ hq)
    obtain ⟨key, chunk | ⟨seq, exitCode, denied⟩ | seq | message⟩ := p
    · rw [amendExit, hrest]
      simp
    · obtain rfl := Option.some.inj hseq
      rw [amendExit, hrest]
      split
      · obtain ⟨-, rfl⟩ := ha.exit seq exitCode denied hmem (by omega)
        rw [Option.getD_some, Bool.or_self]
      · rfl
    · rw [amendExit, hrest]
      simp
    · rw [amendExit, hrest]
      simp

lemma Tracks.amend (ha : Answers log r) (h : Tracks log s) :
    { s with pending := amendExit (r.nextSeq - 1) r.sandboxDenied s.pending } = s := by
  rw [amendExit_eq_self ha fun p hp => ?_]
  obtain ⟨hmem, hseq, hlt⟩ := h.pending p hp
  exact ⟨hmem, hseq, zero_lt_of_lt hlt⟩

lemma Between.start (h : Tracks log s) (hready : s.Ready) :
    Between log r s [] (exitKnown s r) s := by
  refine ⟨h, hready, fun _ _ j => ⟨.inl, ?_⟩⟩
  rintro (hj | ⟨chunk, hchunk, -⟩)
  · exact hj
  · cases hchunk

lemma ensures_set_bind {α : Type} {f : PUnit → Recovery α} {t Q E} (h : Ensures (f ⟨⟩) t Q E) :
    Ensures (set t >>= f) s Q E := h

variable (ha : Answers log r) (h : Tracks log s) (hready : s.Ready)

include hlog ha h hready

lemma ensures_recoverMissing (hgap : r.exited → exitKnown s r = false → GapIsExit log s r) :
    Ensures (recoverMissing r (r.nextSeq - 1)) s
      (fun _ t => Tracks log t ∧ t.Ready ∧ r.nextSeq - 1 ≤ t.lastPublishedSeq)
      fun _ t => Tracks log t ∧ t.Ready := by
  unfold recoverMissing
  refine ensures_get_bind (ensures_set_bind ?_)
  rw [h.amend ha]
  split
  · exact ⟨h, hready⟩
  · refine (ensures_recoverChunks hlog ha (nil_append _).symm (.start h hready)
      hgap).bind ?_
    rintro ⟨known, _⟩ t ⟨ht, hknown⟩
    refine (ensures_recoverClosed hlog ha h ht hknown).bind ?_
    intro _ u hu
    refine (ensures_recoverExit hlog ha hu).bind ?_
    rintro _ v ⟨hv, hall⟩
    refine (ensures_publishReady hlog hv).bind ?_
    rintro _ w ⟨hw, hwready, hhas⟩
    refine ⟨hw, hwready, ?_⟩
    by_contra hless
    exact hwready.not_has ((hhas _).mpr (hall _ (by omega)))

/-- **Recovering keeps the invariant**, if the first gap before a chunk of the answer is the exit;
and if it does not fail, nothing up to the number of the answer is missing. -/
theorem ensures_recoverEvents (hgap : PlacesExit s r → GapIsExit log s r) :
    Ensures (recoverEvents r) s
      (fun _ t => Tracks log t ∧ t.Ready ∧ (s.failure = none → r.nextSeq - 1 ≤ t.lastPublishedSeq))
      fun _ t => Tracks log t ∧ t.Ready := by
  rw [recoverEvents, ha.failure]
  refine ensures_get_bind ?_
  dsimp only
  by_cases hdone : (s.failure.isSome || s.closedPublished ||
      decide (r.nextSeq - 1 ≤ s.lastPublishedSeq)) = true
  · rw [if_pos hdone]
    refine ⟨h, hready, fun hfailure => ?_⟩
    rw [hfailure, Option.isSome_none, Bool.false_or] at hdone
    obtain hclosed | hle := (Bool.or_eq_true _ _).mp hdone
    · rw [h.closedPublished] at hclosed
      obtain ⟨event, hmem, hisClosed⟩ := any_eq_true.mp hclosed
      obtain _ | _ | seq | _ := event
      all_goals try cases hisClosed
      have hlength := hlog.closedLast seq (mem_of_mem_take hmem)
      have hle := (hlog.mem_take_iff (mem_of_mem_take hmem) rfl).mp hmem
      have hbound := ha.bound
      omega
    · exact of_decide_eq_true hle
  · rw [if_neg hdone]
    simp only [Bool.or_eq_true, decide_eq_true_iff, not_or, Bool.not_eq_true, not_le,
      Option.isSome_eq_false_iff, Option.isNone_iff_eq_none] at hdone
    obtain ⟨⟨hfailure, hclosed⟩, hlt⟩ := hdone
    refine (ensures_recoverMissing hlog ha h hready fun hexited hunknown =>
      hgap ⟨hfailure, hclosed, hlt, hexited, hunknown⟩).mono ?_ fun _ _ => id
    rintro _ t ⟨ht, htready, hle⟩
    exact ⟨ht, htready, fun _ => hle⟩

end

end ExecServer
