import CodexAgents.ExecServer.Recovery

/-!
# Recovering with an exit in the wrong place

If the first gap that a chunk of the answer comes after is not the exit, then `recover_events` does
publish the exit there.  Whether the call fails later on does not matter: what was published stays
published (`Grows`).
-/

namespace ExecServer

open Text Outcome List SessionState

/-! ## Published events stay -/

/-- What was published stays published. -/
def Grows {α : Type} (m : Recovery α) : Prop :=
  ∀ s, Ensures m s (fun _ t => s.events <+: t.events) fun _ t => s.events <+: t.events

namespace Grows

variable {α β : Type} {m : Recovery α} {f : α → Recovery β}

lemma pure (a : α) : Grows (Pure.pure a : Recovery α) := fun _ => prefix_rfl

lemma throw (e : Str) : Grows (MonadExcept.throw e : Recovery α) := fun _ => prefix_rfl

lemma get_bind {f : SessionState → Recovery β} (h : ∀ s, Grows (f s)) : Grows (get >>= f) :=
  fun s => h s s

lemma bind (hm : Grows m) (hf : ∀ a, Grows (f a)) : Grows (m >>= f) := by
  intro s
  refine (hm s).bind fun a t ht => ?_
  exact (hf a t).mono (fun _ _ => ht.trans) fun _ _ => ht.trans

lemma ite {c : Prop} [Decidable c] {m'} (hm : Grows m) (hm' : Grows m') :
    Grows (if c then m else m') := by
  split
  · exact hm
  · exact hm'

end Grows

lemma grows_insertPending (event : ExecProcessEvent) : Grows (insertPending event) := by
  intro s
  unfold Ensures insertPending
  rcases h : s.insertPending event with message | s'
  · exact prefix_rfl
  · rcases hseq : event.seq with _ | seq
    · rw [SessionState.insertPending, hseq] at h
      cases h
    · rcases insertPending_cases hseq h with ⟨-, rfl⟩ | ⟨-, rfl, -⟩ <;>
        exact prefix_rfl

lemma prefix_publishReadyFrom (turns : Nat) (s : SessionState) (publishedClosed : Bool) :
    s.events <+: (publishReadyFrom turns s publishedClosed).2.events := by
  induction turns generalizing s publishedClosed with
  | zero => exact prefix_rfl
  | succ turns ih =>
    rw [publishReadyFrom]
    obtain _ | event := s.pending.lookup (s.lastPublishedSeq + 1)
    · exact prefix_rfl
    · exact (prefix_append s.events [event]).trans (ih (s.publishEvent event) _)

lemma grows_publishReady : Grows publishReady := fun s => prefix_publishReadyFrom _ s false

variable (r : ReadResponse)

lemma grows_insertExit (seq : Nat) : Grows (insertExit r seq) := by
  unfold insertExit
  obtain _ | exitCode := r.exitCode
  · exact .throw _
  · exact grows_insertPending _

lemma grows_guessExit (chunk : ProcessOutputChunk) (known : Bool) :
    Grows (guessExit r chunk known) :=
  .get_bind fun _ => .ite
    ((grows_insertExit _ _).bind fun _ => grows_publishReady.bind fun _ => .pure _) (.pure _)

lemma grows_recoverChunk (chunk : ProcessOutputChunk) : Grows (recoverChunk chunk) :=
  .get_bind fun _ => .ite ((grows_insertPending _).bind fun _ => grows_publishReady) (.pure _)

variable (targetSeq : Nat)

lemma grows_recoverChunks (chunks : List ProcessOutputChunk) (known : Bool) :
    Grows (recoverChunks r targetSeq chunks known) := by
  induction chunks generalizing known with
  | nil => exact .pure _
  | cons chunk chunks ih =>
    exact .ite (.throw _) ((grows_guessExit r chunk known).bind fun _ =>
      (grows_recoverChunk chunk).bind fun _ => (ih _).bind fun _ => .pure _)

lemma grows_recoverClosed : Grows (recoverClosed r targetSeq) :=
  .get_bind fun _ => .ite (grows_insertPending _) (.pure _)

lemma grows_recoverExit (known : Bool) : Grows (recoverExit r targetSeq known) :=
  .get_bind fun _ => .ite (.ite (.throw _) (grows_insertExit _ _)) (.ite (.throw _) (.pure _))

/-! ## The exit in place of another event -/

/-- The events published are not those of the log. -/
def Misplaced (log : List ExecProcessEvent) (s : SessionState) : Prop :=
  ¬ s.events.filter (·.seq.isSome) <+: log

section

variable {log : List ExecProcessEvent} {r : ReadResponse} {s₀ s : SessionState}

lemma Misplaced.mono {t} (h : Misplaced log s) (hevents : s.events <+: t.events) :
    Misplaced log t :=
  fun ht => h ((hevents.filter _).trans ht)

lemma Grows.misplaced {α : Type} {m : Recovery α} (hm : Grows m) (h : Misplaced log s) :
    Ensures m s (fun _ t => Misplaced log t) fun _ t => Misplaced log t :=
  (hm s).mono (fun _ _ => h.mono) fun _ _ => h.mono

/-- There is room for the next event, and it is published at once. -/
lemma ensures_next (h : Tracks log s) (hready : s.Ready) (event : ExecProcessEvent)
    (hseq : event.seq = some (s.lastPublishedSeq + 1))
    (hsize : pendingProcessEventBytes event ≤ maxPendingProcessEventBytes) :
    Ensures (insertPending event >>= fun _ => publishReady) s
      (fun _ t => s.events ++ [event] <+: t.events) fun _ _ => False := by
  have hlookup : ¬ (s.pending.lookup (s.lastPublishedSeq + 1)).isSome :=
    mt SessionState.lookup_isSome_iff.mp hready
  have hinsert : s.insertPending event = .ok { s with
      pending := s.pending.orderedInsert (fun a b => a.1 ≤ b.1) (s.lastPublishedSeq + 1, event)
      pendingBytes := s.pendingBytes + pendingProcessEventBytes event } := by
    simp [SessionState.insertPending, hseq, hlookup, Nat.not_lt.mpr hsize]
  have hfirst : s.pending.orderedInsert (fun a b => a.1 ≤ b.1) (s.lastPublishedSeq + 1, event) =
      (s.lastPublishedSeq + 1, event) :: s.pending := by
    rcases hpending : s.pending with _ | ⟨p, pending⟩
    · rfl
    · exact orderedInsert_cons_of_le _ _ (h.pending p (hpending ▸ mem_cons_self)).2.2
  rw [hfirst] at hinsert
  rw [ensures_bind, Ensures, insertPending, hinsert]
  show _ <+: (publishReadyFrom (s.pending.length + 1) _ false).2.events
  rw [publishReadyFrom, lookup_cons_self]
  dsimp only
  refine List.IsPrefix.trans ?_ (prefix_publishReadyFrom s.pending.length _ _)
  exact prefix_rfl

variable {chunk : ProcessOutputChunk}

/-- A chunk that is not ahead does not fail. -/
lemma ensures_recoverChunk_of_not_ahead {before} (hlog : WellFormed log) (ha : Answers log r)
    {known} (hmem : chunk ∈ r.chunks) (hb : Between log r s₀ before known s)
    (hahead : chunk.seq ≤ s.lastPublishedSeq + 1) :
    Ensures (recoverChunk chunk) s (fun _ t => Between log r s₀ (before ++ [chunk]) known t)
      fun _ _ => False := by
  have htotal : Ensures (recoverChunk chunk) s (fun _ _ => True) fun _ _ => False := by
    unfold recoverChunk
    refine ensures_get_bind ?_
    split
    · have hseq : chunk.seq = s.lastPublishedSeq + 1 := le_antisymm hahead ‹_›
      exact (ensures_next hb.tracks hb.ready (.output chunk) (congrArg some hseq)
        (ha.size chunk hmem)).mono (fun _ _ _ => trivial) fun _ _ => id
    · trivial
  exact ((ensures_recoverChunk hlog ha hmem hb).and htotal).mono (fun _ _ h => h.1) fun _ _ h => h.2

/-- A gap that is not the exit is given to the exit. -/
lemma ensures_guessExit_misplaced (ha : Answers log r) (hb : Tracks log s) (hready : s.Ready)
    (hexited : r.exited) (hahead : s.lastPublishedSeq + 1 < chunk.seq)
    (hnot : ¬ ∃ event ∈ log, event.seq = some (s.lastPublishedSeq + 1) ∧ event.isExited) :
    Ensures (guessExit r chunk false) s (fun _ t => Misplaced log t)
      fun _ t => Misplaced log t := by
  obtain ⟨_, exitCode, hcode, -, -⟩ := ha.exited hexited
  unfold guessExit
  refine ensures_get_bind ?_
  rw [if_pos ⟨hexited, rfl, hahead⟩, insertExit, hcode]
  have hnext := ensures_next hb hready
    (.exited (s.lastPublishedSeq + 1) exitCode (some r.sandboxDenied)) rfl (Nat.zero_le _)
  rw [← bind_assoc]
  refine (hnext.mono (fun _ _ => id) fun _ _ => False.elim).bind ?_
  intro _ t ht hlog
  refine hnot ⟨.exited (s.lastPublishedSeq + 1) exitCode (some r.sandboxDenied), ?_, rfl, rfl⟩
  refine hlog.subset (mem_filter.mpr ⟨ht.subset ?_, rfl⟩)
  exact mem_append_right _ mem_cons_self

lemma FirstLacking.unique {seq seq'} (h : FirstLacking s r seq)
    (h' : FirstLacking s r seq') : seq = seq' := by
  obtain hlt | heq | hlt := Nat.lt_trichotomy seq seq'
  · obtain hhas | ⟨chunk, hmem, hchunk⟩ := h'.below seq hlt
    · exact absurd hhas h.notHas
    · exact absurd hchunk (h.notChunk chunk hmem)
  · exact heq
  · obtain hhas | ⟨chunk, hmem, hchunk⟩ := h.below seq' hlt
    · exact absurd hhas h'.notHas
    · exact absurd hchunk (h'.notChunk chunk hmem)

variable (hlog : WellFormed log) (ha : Answers log r)
include hlog ha

lemma ensures_recoverChunks_misplaced {before} (hexited : r.exited) {seq}
    (hlacking : FirstLacking s₀ r seq)
    (hnot : ¬ ∃ event ∈ log, event.seq = some seq ∧ event.isExited)
    {after} (hchunks : r.chunks = before ++ after)
    (hb : Between log r s₀ before false s) (hbeyond : ∃ chunk ∈ after, seq < chunk.seq) :
    Ensures (recoverChunks r (r.nextSeq - 1) after false) s (fun _ t => Misplaced log t)
      fun _ t => Misplaced log t := by
  induction after generalizing before s with
  | nil =>
    obtain ⟨chunk, hmem, -⟩ := hbeyond
    cases hmem
  | cons chunk after ih =>
    have hmem : chunk ∈ r.chunks := hchunks ▸ mem_append_right _ mem_cons_self
    have hlt := (ha.chunks chunk hmem).2
    rw [recoverChunks, if_neg (by omega)]
    by_cases hahead : s.lastPublishedSeq + 1 < chunk.seq
    · obtain rfl := hlacking.unique (hb.firstLacking ha hchunks hexited rfl hahead)
      refine (ensures_guessExit_misplaced ha hb.tracks hb.ready hexited hahead hnot).bind ?_
      intro k t ht
      exact ((grows_recoverChunk chunk).bind fun _ =>
        (grows_recoverChunks _ _ _ _).bind fun _ => .pure _).misplaced ht
    · have hle := Nat.not_lt.mp hahead
      -- The gap is still ahead, and so is the chunk beyond it.
      have hseq : s.lastPublishedSeq < seq := by
        refine Nat.not_le.mp fun h => ?_
        obtain hhas | ⟨c, hc, hcseq⟩ := (hb.has hexited rfl seq).mp (.inl h)
        · exact hlacking.notHas hhas
        · exact hlacking.notChunk c (hchunks ▸ mem_append_left _ hc) hcseq
      have hbeyond' : ∃ chunk ∈ after, seq < chunk.seq := by
        obtain ⟨c, hc, hcseq⟩ := hbeyond
        obtain rfl | hc := mem_cons.mp hc
        · omega
        · exact ⟨c, hc, hcseq⟩
      have hguess : guessExit r chunk false s = .ok (false, false) s := by
        show (if _ then _ else pure (false, false) : Recovery (Bool × Bool)) s = _
        rw [if_neg fun h => hahead h.2.2]
        rfl
      refine ensures_bind.mpr ?_
      rw [Ensures, hguess]
      refine (ensures_recoverChunk_of_not_ahead hlog ha hmem hb hle).bind_total ?_
      intro _ t ht
      refine (ih (by rw [hchunks, append_assoc]; rfl) ht hbeyond').bind ?_
      exact fun _ _ h => h

lemma closeConflicts_eq_false (h : Tracks log s) : closeConflicts s r (r.nextSeq - 1) = false := by
  rcases hclosed : r.closed
  · rw [closeConflicts, hclosed, Bool.false_and]
  · have hmem := ha.closed hclosed
    rw [closeConflicts, Bool.and_eq_false_iff]
    refine .inr (Bool.or_eq_false_iff.mpr ⟨?_, ?_⟩)
    · rcases hlookup : s.pending.lookup (r.nextSeq - 1) with _ | event
      · rfl
      · obtain rfl : event = .closed (r.nextSeq - 1) :=
          h.event_eq hlog (mem_of_lookup hlookup) hmem rfl
        rfl
    · refine any_eq_false.mpr fun chunk hchunk hseq => ?_
      have hsame := (hlog.getElem?_of_seq (ha.chunks chunk hchunk).1 rfl).2
      rw [of_decide_eq_true hseq, (hlog.getElem?_of_seq hmem rfl).2] at hsame
      cases hsame

/-- **A gap that is not the exit**: the exit is published in its place, and what is published is
not the log any more. -/
theorem ensures_recoverEvents_misplaced
    (h : Tracks log s) (hready : s.Ready) (hplaces : PlacesExit s r)
    (hgap : ¬ GapIsExit log s r) :
    Ensures (recoverEvents r) s (fun _ t => Misplaced log t) fun _ t => Misplaced log t := by
  obtain ⟨hfailure, hclosed, hlt, hexited, hunknown⟩ := hplaces
  rw [GapIsExit] at hgap
  push Not at hgap
  obtain ⟨seq, hlacking, hbeyond, hnot⟩ := hgap
  have hnot' : ¬ ∃ event ∈ log, event.seq = some seq ∧ event.isExited := by
    rintro ⟨event, hmem, hseq, hexit⟩
    exact hnot event hmem hseq hexit
  rw [recoverEvents, ha.failure]
  refine ensures_get_bind ?_
  dsimp only
  rw [hfailure, hclosed, decide_eq_false (Nat.not_le.mpr hlt)]
  unfold recoverMissing
  refine ensures_get_bind (ensures_set_bind ?_)
  rw [h.amend ha, closeConflicts_eq_false hlog ha h]
  have hstart : Between log r s [] false s := hunknown ▸ Between.start h hready
  refine (show Ensures (recoverChunks r (r.nextSeq - 1) r.chunks (exitKnown s r)) s _ _ from
    hunknown ▸ ensures_recoverChunks_misplaced hlog ha hexited hlacking hnot'
      (nil_append _).symm hstart hbeyond).bind ?_
  intro k t ht
  exact ((grows_recoverClosed _ _).bind fun _ => (grows_recoverExit _ _ _).bind fun _ =>
    grows_publishReady.bind fun _ => .pure _).misplaced ht

end

end ExecServer
