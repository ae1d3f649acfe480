import CodexAgents.ExecServer.Misplaced

/-!
# What the client publishes along a run

A process on the server and a session on the client, over a connection that may lose, repeat and
reorder notifications.  The client may ask for what it missed at any time, and the answers may be
slow.

The events that the client publishes are at all times the first events of the server, just in case
no answer leads to a wrong guess: the first event that the client misses and that the answer does
not have is the exit, or no chunk of the answer comes after it (`published_iff`).  If instead it is
a chunk that the server has evicted, the exit is published in its place before `recover_events`
notices that events are missing (`evicted_chunk_becomes_exit`).
-/

namespace ExecServer

open Text Outcome List RunningProcess Nat Option

/-! ## The system -/

/-- The process, the session, and the reads between them. -/
structure System where
  process : RunningProcess := {}
  session : SessionState := {}
  /-- The reads that were sent, each with the number after which it asks for events. -/
  requests : List Nat := []
  /-- The answers that were given. -/
  answers : List ReadResponse := []

/-- What happens next. -/
inductive Move where
  | output (stream : ExecOutputStream) (chunk : Bytes)
  | exit (exitCode : Int)
  | finish
  | close
  /-- A notification of an event of the process arrives. -/
  | notify (index : Nat)
  | request
  | answer (index : Nat)
  /-- An answer arrives. -/
  | recover (index : Nat)
  | fail (message : Str)

/-- The state that a call leaves behind, whether it fails or not. -/
def stateAfter {α : Type} (m : Recovery α) (s : SessionState) : SessionState :=
  match m s with
  | .ok _ t => t
  | .error _ t => t

/-- A stream has output until it is finished, and there is one exit. -/
def System.step (env : Env) (s : System) : Move → System
  | .output stream chunk =>
    if s.process.openStreams = 0 then s
    else { s with process := s.process.streamOutput stream chunk }
  | .exit exitCode =>
    if s.process.exitCode.isSome then s else { s with process := s.process.watchExit env exitCode }
  | .finish => { s with process := s.process.finishOutputStream }
  | .close => { s with process := s.process.maybeEmitClosed }
  | .notify index =>
    match s.process.events[index]? with
    | some event =>
      match s.session.publishOrderedEvent event with
      | .ok (_, session) => { s with session }
      | .error _ => s
    | none => s
  | .request => { s with requests := s.requests ++ [s.session.lastPublishedSeq] }
  | .answer index =>
    match s.requests[index]? with
    | some afterSeq => { s with answers := s.answers ++ [s.process.execRead afterSeq none] }
    | none => s
  | .recover index =>
    match s.answers[index]? with
    | some response => { s with session := stateAfter (recoverEvents response) s.session }
    | none => s
  | .fail message => { s with session := s.session.setFailure message }

/-! ## The server -/

/-- The size of the output that is retained. -/
def outputBytes (output : List ProcessOutputChunk) : Nat :=
  (output.map fun chunk => chunk.chunk.length).sum

/-- **The invariant of the server.** -/
structure RunningProcess.Inv (p : RunningProcess) : Prop where
  wellFormed : WellFormed p.events
  next : p.nextSeq = p.events.length + 1
  output : ∀ chunk ∈ p.output, .output chunk ∈ p.events
  ascending : p.output.Pairwise fun a b => a.seq < b.seq
  bytes : p.retainedBytes = outputBytes p.output
  bounded : outputBytes p.output ≤ retainedOutputBytesPerProcess
  exited : ∀ exitCode, p.exitCode = some exitCode →
    ∃ seq, .exited seq exitCode (some p.sandboxDenied) ∈ p.events
  running : p.exitCode = none → ∀ event ∈ p.events, event.isExited = false
  closed : p.closed = true → p.openStreams = 0 ∧ p.exitCode.isSome ∧
    .closed p.events.length ∈ p.events
  opened : p.closed = false → ∀ event ∈ p.events, event.isClosed = false

lemma evict_spec (output : List ProcessOutputChunk) :
    (evict output (outputBytes output)).1 <:+ output ∧
      (evict output (outputBytes output)).2 = outputBytes (evict output (outputBytes output)).1 ∧
      outputBytes (evict output (outputBytes output)).1 ≤ retainedOutputBytesPerProcess := by
  induction output with
  | nil => exact ⟨suffix_rfl, rfl, zero_le _⟩
  | cons chunk output ih =>
    rw [evict]
    split
    · have hrest : outputBytes (chunk :: output) - chunk.chunk.length = outputBytes output := by
        rw [outputBytes, map_cons, sum_cons, Nat.add_sub_cancel_left]
        rfl
      rw [hrest]
      exact ⟨ih.1.trans (suffix_cons _ _), ih.2⟩
    · exact ⟨suffix_rfl, rfl, Nat.not_lt.mp (not_or.mp ‹_›).1⟩

/-- An event with the next number. -/
lemma WellFormed.concat {log} (hlog : WellFormed log)
    {event} (hseq : event.seq = some (log.length + 1))
    (hexit : event.isExited → ∀ e ∈ log, e.isExited = false)
    (hclosed : ∀ e ∈ log, e.isClosed = false) : WellFormed (log ++ [event]) := by
  refine ⟨fun i hi => ?_, fun e he e' he' hexited hexited' => ?_, fun seq hmem => ?_⟩
  · rw [length_append, length_singleton] at hi
    obtain hi | rfl := Nat.lt_succ_iff_lt_or_eq.mp hi
    · rw [getElem_append_left hi]
      exact hlog.numbered i hi
    · rw [getElem_concat_length rfl]
      exact hseq
  · rcases mem_append.mp he with hold | hnew <;>
      obtain hold' | hnew' := mem_append.mp he'
    · exact hlog.oneExit e hold e' hold' hexited hexited'
    · rw [mem_singleton.mp hnew'] at hexited'
      cases hexited.symm.trans (hexit hexited' e hold)
    · rw [mem_singleton.mp hnew] at hexited
      cases hexited'.symm.trans (hexit hexited e' hold')
    · rw [mem_singleton.mp hnew, mem_singleton.mp hnew']
  · obtain hmem | hmem := mem_append.mp hmem
    · cases hclosed _ hmem
    · obtain rfl := mem_singleton.mp hmem
      rw [length_append, length_singleton]
      exact some.inj hseq

namespace RunningProcess.Inv

variable {p : RunningProcess}

lemma not_closed (h : p.Inv) (hopen : ¬ p.openStreams = 0 ∨ p.exitCode = none) :
    p.closed = false := by
  by_contra hclosed
  obtain ⟨hstreams, hexit, -⟩ := h.closed (Bool.not_eq_false _ ▸ hclosed)
  obtain hopen | hopen := hopen
  · exact hopen hstreams
  · rw [hopen] at hexit
    cases hexit

variable {chunk : ProcessOutputChunk}

section

variable (h : p.Inv)

include h

lemma seq_le (hchunk : chunk ∈ p.output) : chunk.seq ≤ p.events.length :=
  h.wellFormed.seq_le_length (h.output chunk hchunk) rfl

lemma streamOutput (hopen : ¬ p.openStreams = 0) (stream : ExecOutputStream)
    (chunk : Bytes) : (p.streamOutput stream chunk).Inv := by
  have hnotClosed := h.not_closed (.inl hopen)
  set out : ProcessOutputChunk := ⟨p.nextSeq, stream, chunk⟩ with hout
  have hbytes : p.retainedBytes + chunk.length = outputBytes (p.output ++ [out]) := by
    rw [h.bytes, outputBytes, outputBytes, map_append, sum_append_nat, map_singleton,
      sum_singleton]
  obtain ⟨hsuffix, hretained, hbounded⟩ := evict_spec (p.output ++ [out])
  rw [← hbytes] at hsuffix hretained hbounded
  have hascending : (p.output ++ [out]).Pairwise fun a b => a.seq < b.seq := by
    refine pairwise_append.mpr ⟨h.ascending, pairwise_singleton _ _, fun a ha b hb => ?_⟩
    rw [mem_singleton.mp hb, hout, h.next]
    exact lt_succ_of_le (h.seq_le ha)
  constructor
  · exact h.wellFormed.concat (congrArg some h.next)
      (fun hexit => absurd hexit Bool.false_ne_true) (h.opened hnotClosed)
  · show p.nextSeq + 1 = (p.events ++ [_]).length + 1
    rw [length_append, length_singleton, h.next]
  · intro c hc
    obtain hc | hc := mem_append.mp (hsuffix.subset hc)
    · exact mem_append_left _ (h.output c hc)
    · rw [mem_singleton.mp hc]
      exact mem_append_right _ mem_cons_self
  · exact hascending.sublist hsuffix.sublist
  · exact hretained
  · exact hbounded
  · intro exitCode hexit
    obtain ⟨seq, hmem⟩ := h.exited exitCode hexit
    exact ⟨seq, mem_append_left _ hmem⟩
  · exact fun hexit => forall_mem_append.mpr ⟨h.running hexit, forall_mem_singleton.mpr rfl⟩
  · intro hclosed
    cases hclosed.symm.trans hnotClosed
  · exact fun _ => forall_mem_append.mpr ⟨h.opened hnotClosed, forall_mem_singleton.mpr rfl⟩

lemma watchExit (hrunning : p.exitCode = none) (env : Env) (exitCode : Int) :
    (p.watchExit env exitCode).Inv := by
  have hnotClosed := h.not_closed (.inr hrunning)
  constructor
  · exact h.wellFormed.concat (congrArg some h.next) (fun _ => h.running hrunning)
      (h.opened hnotClosed)
  · show p.nextSeq + 1 = (p.events ++ [_]).length + 1
    rw [length_append, length_singleton, h.next]
  · exact fun c hc => mem_append_left _ (h.output c hc)
  · exact h.ascending
  · exact h.bytes
  · exact h.bounded
  · intro exitCode' hexit
    obtain rfl := some.inj hexit
    exact ⟨p.nextSeq, mem_append_right _ mem_cons_self⟩
  · exact fun hexit => absurd hexit (some_ne_none _)
  · exact fun hclosed => absurd (hclosed.symm.trans hnotClosed) Bool.false_ne_true.symm
  · exact fun _ => forall_mem_append.mpr ⟨h.opened hnotClosed, forall_mem_singleton.mpr rfl⟩

lemma finishOutputStream : p.finishOutputStream.Inv := by
  unfold RunningProcess.finishOutputStream
  split
  · refine ⟨h.wellFormed, h.next, h.output, h.ascending, h.bytes, h.bounded, h.exited, h.running,
      fun hclosed => ?_, h.opened⟩
    have := (h.closed hclosed).1
    omega
  · exact h

lemma maybeEmitClosed : p.maybeEmitClosed.Inv := by
  unfold RunningProcess.maybeEmitClosed
  split
  · exact h
  · obtain ⟨hopen, hstreams, hexit⟩ := not_or.mp ‹_› |>.imp_right not_or.mp
    have hnotClosed : p.closed = false := Bool.not_eq_true _ ▸ hopen
    have hexited : p.exitCode.isSome := by
      rcases hcode : p.exitCode
      · exact absurd (hcode ▸ rfl) hexit
      · rfl
    have hmem : ExecProcessEvent.closed p.nextSeq ∈ p.events ++ [.closed p.nextSeq] :=
      mem_append_right _ mem_cons_self
    have hlength : (p.events ++ [ExecProcessEvent.closed p.nextSeq]).length = p.nextSeq := by
      rw [length_append, length_singleton, h.next]
    constructor
    · exact h.wellFormed.concat (congrArg some h.next)
        (fun hexit => absurd hexit Bool.false_ne_true) (h.opened hnotClosed)
    · exact congrArg (· + 1) hlength.symm
    · exact fun c hc => mem_append_left _ (h.output c hc)
    · exact h.ascending
    · exact h.bytes
    · exact h.bounded
    · intro exitCode hexit
      obtain ⟨seq, hmem⟩ := h.exited exitCode hexit
      exact ⟨seq, mem_append_left _ hmem⟩
    · intro hexit event hmem
      exact absurd hexited (by rw [hexit]; decide)
    · exact fun _ => ⟨not_not.mp hstreams, hexited, hlength.symm ▸ hmem⟩
    · exact fun hclosed => absurd hclosed Bool.false_ne_true.symm

end

/-! ## Reading -/

variable {output : List ProcessOutputChunk}

lemma readChunks_eq_self {maxBytes total} (h : total + outputBytes output < maxBytes)
    (first : Bool) :
    readChunks maxBytes first total output = output := by
  induction output generalizing first total with
  | nil => rfl
  | cons chunk output ih =>
    rw [outputBytes, map_cons, sum_cons] at h
    change total + (chunk.chunk.length + outputBytes output) < maxBytes at h
    rw [readChunks, if_neg (by omega), if_neg (by omega), ih (by omega)]

lemma outputBytes_filter_le (f : ProcessOutputChunk → Bool) (output : List ProcessOutputChunk) :
    outputBytes (output.filter f) ≤ outputBytes output :=
  (filter_sublist.map _).sum_le_sum fun _ _ => zero_le _

lemma length_le_outputBytes (h : chunk ∈ output) : chunk.chunk.length ≤ outputBytes output :=
  single_le_sum (fun _ _ => zero_le _) _ (mem_map_of_mem h)

/-- **A read without a limit says what is so.** -/
theorem answers_execRead (h : p.Inv) (afterSeq : Option Nat) :
    Answers p.events (p.execRead afterSeq none) := by
  have hchunks : (p.execRead afterSeq none).chunks =
      p.output.filter fun chunk => afterSeq.getD 0 < chunk.seq := by
    refine readChunks_eq_self ?_ true
    have hle := (outputBytes_filter_le (fun chunk => afterSeq.getD 0 < chunk.seq) p.output).trans
      h.bounded
    have hsmall : retainedOutputBytesPerProcess < usizeMax := by decide
    exact (zero_add _).trans_lt (hle.trans_lt hsmall)
  have hmem : ∀ chunk ∈ (p.execRead afterSeq none).chunks, chunk ∈ p.output := by
    rw [hchunks]
    exact fun chunk hchunk => (mem_filter.mp hchunk).1
  constructor
  · rfl
  · exact h.next.le
  · intro chunk hchunk
    refine ⟨h.output chunk (hmem chunk hchunk), ?_⟩
    show chunk.seq < p.nextSeq
    rw [h.next]
    exact lt_succ_of_le (h.seq_le (hmem chunk hchunk))
  · rw [hchunks]
    exact h.ascending.filter _
  · exact fun chunk hchunk => (length_le_outputBytes (hmem chunk hchunk)).trans h.bounded
  · intro hexited
    obtain ⟨exitCode, hcode⟩ := isSome_iff_exists.mp hexited
    obtain ⟨seq, hevent⟩ := h.exited exitCode hcode
    refine ⟨seq, exitCode, hcode, ?_, hevent⟩
    show seq < p.nextSeq
    rw [h.next]
    exact lt_succ_of_le (h.wellFormed.seq_le_length hevent rfl)
  · intro seq exitCode denied hevent _
    rcases hcode : p.exitCode with _ | code
    · cases h.running hcode _ hevent
    · obtain ⟨seq', hevent'⟩ := h.exited code hcode
      have hsame := h.wellFormed.oneExit _ hevent _ hevent' rfl rfl
      obtain ⟨-, -, rfl⟩ := ExecProcessEvent.exited.inj hsame
      exact ⟨congrArg isSome hcode, rfl⟩
  · intro hclosed
    have hevent := (h.closed hclosed).2.2
    show ExecProcessEvent.closed (p.nextSeq - 1) ∈ p.events
    rw [h.next]
    exact hevent

end RunningProcess.Inv

/-! ## A log that grows -/

variable {s : SessionState}

section

variable {log log' : List ExecProcessEvent} {r : ReadResponse}

lemma Tracks.grow (h : Tracks log s) (hlog : log <+: log') : Tracks log' s := by
  obtain ⟨more, rfl⟩ := hlog
  have htake : (log ++ more).take s.lastPublishedSeq = log.take s.lastPublishedSeq :=
    take_append_of_le_length h.bound
  refine ⟨h.published.trans htake.symm, ?_, fun p hp => ?_, h.sorted, ?_, ?_⟩
  · exact h.bound.trans (length_append ▸ le_add_right _ _)
  · obtain ⟨hmem, hrest⟩ := h.pending p hp
    exact ⟨mem_append_left _ hmem, hrest⟩
  · rw [htake, h.exitPublished]
  · rw [htake, h.closedPublished]

lemma Answers.grow (ha : Answers log r) (hlog : log <+: log') (hlog' : WellFormed log') :
    Answers log' r := by
  refine ⟨ha.failure, ?_, fun chunk hchunk => ?_, ha.ascending, ha.size, fun hexited => ?_,
    fun seq exitCode denied hmem hlt => ?_, fun hclosed => hlog.subset (ha.closed hclosed)⟩
  · exact ha.bound.trans (succ_le_succ hlog.length_le)
  · obtain ⟨hmem, hlt⟩ := ha.chunks chunk hchunk
    exact ⟨hlog.subset hmem, hlt⟩
  · obtain ⟨seq, exitCode, hcode, hlt, hmem⟩ := ha.exited hexited
    exact ⟨seq, exitCode, hcode, hlt, hlog.subset hmem⟩
  · obtain ⟨hpos, hget⟩ := hlog'.getElem?_of_seq hmem rfl
    have hbound := ha.bound
    refine ha.exit seq exitCode denied (mem_of_getElem? (i := seq - 1) ?_) hlt
    obtain ⟨more, rfl⟩ := hlog
    rwa [getElem?_append_left (by omega)] at hget

end

/-! ## Notifications and failures -/

section

variable {log : List ExecProcessEvent}

lemma Tracks.publishOrderedEvent (hlog : WellFormed log) (h : Tracks log s) (hready : s.Ready)
    {event} (hmem : event ∈ log) {closed t}
    (ht : s.publishOrderedEvent event = .ok (closed, t)) : Tracks log t ∧ t.Ready := by
  obtain ⟨i, hi, rfl⟩ := mem_iff_getElem.mp hmem
  have hseq := hlog.numbered i hi
  rw [SessionState.publishOrderedEvent, hseq] at ht
  dsimp only at ht
  split_ifs at ht with hnew
  · obtain ⟨-, rfl⟩ := Prod.mk.inj (Except.ok.inj ht)
    exact ⟨h, hready⟩
  · have hlt : s.lastPublishedSeq < i + 1 := by
      simp only [Bool.or_eq_true, decide_eq_true_iff, not_or, not_le] at hnew
      exact hnew.2
    rcases hinsert : s.insertPending log[i] with message | u
    · rw [hinsert] at ht
      cases ht
    · rw [hinsert] at ht
      obtain ⟨hu, -, -⟩ := h.insertPending hmem hseq hlt hinsert
      obtain ⟨hv, hvready, -⟩ := hu.publishReady hlog
      have heq : u.publishReady = (closed, t) := Except.ok.inj ht
      rw [heq] at hv hvready
      exact ⟨hv, hvready⟩

lemma Tracks.setFailure (h : Tracks log s) (hready : s.Ready) (message : Str) :
    Tracks log (s.setFailure message) ∧ (s.setFailure message).Ready := by
  unfold SessionState.setFailure
  split
  · exact ⟨h, hready⟩
  · refine ⟨⟨?_, h.bound, forall_mem_nil _, List.Pairwise.nil,
      h.exitPublished, h.closedPublished⟩, not_mem_nil⟩
    show (s.events ++ [ExecProcessEvent.failed message]).filter _ = _
    rw [filter_append, h.published, filter_singleton]
    exact append_nil _

end

/-! ## Runs -/

/-- The events published that have a number. -/
def SessionState.sequenced (s : SessionState) : List ExecProcessEvent :=
  s.events.filter (·.seq.isSome)

variable (s : System)

/-- **The events that the client has published are the first events of the process.** -/
def System.Prefixed : Prop := s.session.sequenced <+: s.process.events

/-- An answer that has an exit to be placed puts it where it is. -/
def System.PlacedRight : Move → Prop
  | .recover index => ∀ r, s.answers[index]? = some r → PlacesExit s.session r →
      GapIsExit s.process.events s.session r
  | _ => True

/-- If a session that has not failed recovers, it has published all that the answer is about. -/
def System.Recovers : Move → Prop
  | .recover index => ∀ r closed t, s.answers[index]? = some r → s.session.failure = none →
      recoverEvents r s.session = .ok closed t →
        s.process.events.take (r.nextSeq - 1) <+: t.sequenced
  | _ => True

/-- What holds all the time. -/
structure System.Inv (s : System) : Prop where
  process : s.process.Inv
  tracks : Tracks s.process.events s.session
  ready : s.session.Ready
  answers : ∀ r ∈ s.answers, Answers s.process.events r

lemma stateAfter_of_ensures {α : Type} {m : Recovery α} {s}
    {P : SessionState → Prop} (h : Ensures m s (fun _ t => P t) fun _ t => P t) :
    P (stateAfter m s) := by
  rcases hm : m s with ⟨a, t⟩ | ⟨e, t⟩
  · rw [stateAfter, hm]
    exact h.of_ok hm
  · rw [stateAfter, hm]
    exact h.of_error hm

namespace System.Inv

variable {s : System} {env : Env}

lemma initial : System.Inv {} := by
  refine ⟨⟨⟨fun i hi => absurd hi (not_lt_zero i), forall_mem_nil _,
    fun seq h => absurd h not_mem_nil⟩, rfl, forall_mem_nil _,
    List.Pairwise.nil, rfl, zero_le _, fun _ h => absurd h.symm (some_ne_none _),
    fun _ e he => absurd he not_mem_nil, fun h => absurd h Bool.false_ne_true,
    fun _ e he => absurd he not_mem_nil⟩, ⟨rfl, le_rfl, forall_mem_nil _,
    List.Pairwise.nil, rfl, rfl⟩, not_mem_nil, forall_mem_nil _⟩

/-- A step of the process. -/
lemma of_process (h : s.Inv) {p} (hp : p.Inv)
    (hgrow : s.process.events <+: p.events) : System.Inv { s with process := p } :=
  ⟨hp, h.tracks.grow hgrow, h.ready, fun r hr => (h.answers r hr).grow hgrow hp.wellFormed⟩

lemma prefixed (h : s.Inv) : s.Prefixed := by
  rw [System.Prefixed, SessionState.sequenced, h.tracks.published]
  exact take_prefix _ _

variable {move : Move}

lemma step (h : s.Inv) (hright : s.PlacedRight move) : (s.step env move).Inv := by
  obtain ⟨stream, chunk⟩ | exitCode | _ | _ | index | _ | index | index | message := move
  · rw [System.step]
    split
    · exact h
    · exact h.of_process (h.process.streamOutput ‹_› stream chunk) (prefix_append _ _)
  · rw [System.step]
    split
    · exact h
    · exact h.of_process (h.process.watchExit (not_isSome_iff_eq_none.mp ‹_›) env exitCode)
        (prefix_append _ _)
  · refine h.of_process h.process.finishOutputStream ?_
    unfold finishOutputStream
    split <;> exact prefix_rfl
  · refine h.of_process h.process.maybeEmitClosed ?_
    unfold maybeEmitClosed
    split
    · exact prefix_rfl
    · exact prefix_append _ _
  · rw [System.step]
    rcases hevent : s.process.events[index]? with _ | event
    · exact h
    · dsimp only
      rcases hpublish : s.session.publishOrderedEvent event with message | ⟨closed, t⟩
      · exact h
      · obtain ⟨ht, hready⟩ := h.tracks.publishOrderedEvent h.process.wellFormed h.ready
          (mem_of_getElem? hevent) hpublish
        exact ⟨h.process, ht, hready, h.answers⟩
  · exact ⟨h.process, h.tracks, h.ready, h.answers⟩
  · rw [System.step]
    obtain _ | afterSeq := s.requests[index]?
    · exact h
    · refine ⟨h.process, h.tracks, h.ready, forall_mem_append.mpr ⟨h.answers, ?_⟩⟩
      exact forall_mem_singleton.mpr (h.process.answers_execRead _)
  · rw [System.step]
    rcases hr : s.answers[index]? with _ | r
    · exact h
    · have hrecover := ensures_recoverEvents h.process.wellFormed
        (h.answers r (mem_of_getElem? hr)) h.tracks h.ready (hright r hr)
      have hboth : Ensures (recoverEvents r) s.session
          (fun _ t => Tracks s.process.events t ∧ t.Ready)
          fun _ t => Tracks s.process.events t ∧ t.Ready :=
        hrecover.mono (fun _ _ ht => ⟨ht.1, ht.2.1⟩) fun _ _ => id
      obtain ⟨ht, hready⟩ := stateAfter_of_ensures hboth
      exact ⟨h.process, ht, hready, h.answers⟩
  · obtain ⟨ht, hready⟩ := h.tracks.setFailure h.ready message
    exact ⟨h.process, ht, hready, h.answers⟩

lemma not_prefixed_step (h : s.Inv) (hwrong : ¬ s.PlacedRight move) :
    ¬ (s.step env move).Prefixed := by
  obtain ⟨stream, chunk⟩ | exitCode | _ | _ | index | _ | index | index | message := move
  all_goals try exact absurd trivial hwrong
  simp only [System.PlacedRight, not_forall] at hwrong
  obtain ⟨r, hr, hplaces, hgap⟩ := hwrong
  rw [System.step, hr]
  exact stateAfter_of_ensures (ensures_recoverEvents_misplaced h.process.wellFormed
    (h.answers r (mem_of_getElem? hr)) h.tracks h.ready hplaces hgap)

lemma recovers (h : s.Inv) (hright : s.PlacedRight move) : s.Recovers move := by
  obtain ⟨stream, chunk⟩ | exitCode | _ | _ | index | _ | index | index | message := move
  all_goals try trivial
  intro r closed t hr hfailure hok
  obtain ⟨ht, -, hle⟩ := (ensures_recoverEvents h.process.wellFormed
    (h.answers r (mem_of_getElem? hr)) h.tracks h.ready (hright r hr)).of_ok hok
  rw [SessionState.sequenced, ht.published]
  exact take_prefix_take_left (hle hfailure)

end System.Inv

/-- **The client publishes the events of the server, in order, just in case every exit that an
answer brings is placed right**; and then a session that recovers has published all events up to the
number of the answer. -/
theorem published_iff (env : Env) (moves : List Move) :
    (Run.Always (System.step env) System.Prefixed {} moves ↔
      Run.EachMove (System.step env) System.PlacedRight {} moves) ∧
    (Run.EachMove (System.step env) System.PlacedRight {} moves →
      Run.EachMove (System.step env) System.Recovers {} moves) := by
  have hstep : ∀ s move, System.Inv s → s.PlacedRight move → (s.step env move).Inv :=
    fun _ _ h => h.step
  refine ⟨Run.always_iff_of_invariant (fun _ => System.Inv.prefixed) hstep
    (fun _ _ h => h.not_prefixed_step) System.Inv.initial moves, fun hright made move hmade => ?_⟩
  have hinv := Run.EachMove.invariant hstep System.Inv.initial hright made
    ((prefix_append _ _).trans hmade)
  exact hinv.recovers (hright made move hmade)

/-- **What the server keeps**, whatever reaches the client. -/
theorem server_run (env : Env) (moves : List Move) :
    (moves.foldl (System.step env) {}).process.Inv := by
  refine foldlRecOn (motive := (·.process.Inv)) moves (System.step env)
    System.Inv.initial.process fun s h move _ => ?_
  obtain ⟨stream, chunk⟩ | exitCode | _ | _ | index | _ | index | index | message := move
  · rw [System.step]
    split
    · exact h
    · exact h.streamOutput ‹_› stream chunk
  · rw [System.step]
    split
    · exact h
    · exact h.watchExit (not_isSome_iff_eq_none.mp ‹_›) env exitCode
  · exact h.finishOutputStream
  · exact h.maybeEmitClosed
  -- the other moves leave the process alone
  all_goals
    rw [System.step]
    repeat' split
    all_goals exact h

/-! ## An evicted chunk -/

/-- A large chunk, one more, the exit, and a read of it all. -/
def evictingRun (large : Bytes) : List Move :=
  [.output .stdout large, .output .stdout [0], .exit 0, .request, .answer 0, .recover 0]

variable {large : Bytes}

lemma streamOutput_large (hlength : large.length = retainedOutputBytesPerProcess) :
    (({} : RunningProcess).streamOutput .stdout large).streamOutput .stdout [0] =
      { output := [⟨2, .stdout, [0]⟩], retainedBytes := 1, nextSeq := 3,
        events := [.output ⟨1, .stdout, large⟩, .output ⟨2, .stdout, [0]⟩] } := by
  have hfirst : evict [⟨1, .stdout, large⟩] (0 + large.length) =
      ([⟨1, .stdout, large⟩], 0 + large.length) := by
    rw [evict, if_neg]
    rw [hlength, Nat.zero_add, length_singleton]
    exact not_or.mpr ⟨Nat.lt_irrefl _, by decide⟩
  have hsecond : evict [⟨1, .stdout, large⟩, ⟨2, .stdout, [0]⟩] (0 + large.length + 1) =
      ([⟨2, .stdout, [0]⟩], 1) := by
    rw [evict, if_pos (.inl (by rw [hlength]; omega)), Nat.zero_add, Nat.add_sub_cancel_left, evict,
      if_neg (by decide)]
  simp only [streamOutput, nil_append, hfirst]
  simp only [cons_append, nil_append, length_singleton, hsecond]

/-- The answer to a read of it all: the first chunk is gone. -/
def evictedAnswer : ReadResponse where
  chunks := [⟨2, .stdout, [0]⟩]
  nextSeq := 4
  exited := true
  exitCode := some 0
  closed := false
  failure := none
  sandboxDenied := false

/-- The process after the exit. -/
def evictedProcess (large : Bytes) : RunningProcess where
  output := [⟨2, .stdout, [0]⟩]
  retainedBytes := 1
  nextSeq := 4
  exitCode := some 0
  events := [.output ⟨1, .stdout, large⟩, .output ⟨2, .stdout, [0]⟩, .exited 3 0 (some false)]

lemma execRead_evictedProcess (large : Bytes) :
    (evictedProcess large).execRead (some 0) none = evictedAnswer := by
  rw [execRead, RunningProcess.Inv.readChunks_eq_self]
  · rfl
  · exact (by decide : 0 + outputBytes [⟨2, .stdout, [0]⟩] < usizeMax)

lemma recoverEvents_evictedAnswer : (stateAfter (recoverEvents evictedAnswer) {}).events =
      [.exited 1 0 (some false), .output ⟨2, .stdout, [0]⟩] := by decide

variable {env : Env} {s : System}

lemma System.step_output (h : s.process.openStreams ≠ 0) (stream : ExecOutputStream)
    (chunk : Bytes) :
    s.step env (.output stream chunk) =
      { s with process := s.process.streamOutput stream chunk } := if_neg h

lemma System.step_recover {index r} (h : s.answers[index]? = some r) :
    s.step env (.recover index) = { s with session := stateAfter (recoverEvents r) s.session } := by
  rw [System.step, h]

lemma foldl_evictingRun (hlength : large.length = retainedOutputBytesPerProcess) (env : Env)
    (henv : env.sandboxed = false) :
    (evictingRun large).foldl (System.step env) {} =
      { process := evictedProcess large, requests := [0], answers := [evictedAnswer],
        session := stateAfter (recoverEvents evictedAnswer) {} } := by
  have hexit : System.step env
      { process := { output := [⟨2, .stdout, [0]⟩], retainedBytes := 1, nextSeq := 3,
                     events := [.output ⟨1, .stdout, large⟩, .output ⟨2, .stdout, [0]⟩] } }
      (.exit 0) = { process := evictedProcess large } := by
    simp [System.step, watchExit, henv, evictedProcess]
  have hrequest : System.step env { process := evictedProcess large } .request =
      { process := evictedProcess large, requests := [0] } := rfl
  have hanswer : System.step env { process := evictedProcess large, requests := [0] } (.answer 0) =
        { process := evictedProcess large, requests := [0], answers := [evictedAnswer] } :=
    congrArg (fun answer => System.mk _ _ _ [answer]) (execRead_evictedProcess large)
  rw [evictingRun, foldl_cons, foldl_cons, System.step_output (succ_ne_zero 1),
    System.step_output (succ_ne_zero 1), streamOutput_large hlength, foldl_cons, hexit,
    foldl_cons, hrequest, foldl_cons, hanswer, foldl_cons, foldl_nil,
    System.step_recover (r := evictedAnswer) rfl]

/-- **The exit in the place of an evicted chunk.**  The first event of the process is a chunk, and
the first that the client publishes is the exit. -/
theorem evicted_chunk_becomes_exit :
    ((evictingRun (List.replicate retainedOutputBytesPerProcess 0)).foldl
      (System.step ⟨false, fun _ _ => false⟩) {}).session.events =
        [.exited 1 0 (some false), .output ⟨2, .stdout, [0]⟩] ∧
    ((evictingRun (List.replicate retainedOutputBytesPerProcess 0)).foldl
      (System.step ⟨false, fun _ _ => false⟩) {}).process.events.head? =
        some (.output ⟨1, .stdout, List.replicate retainedOutputBytesPerProcess 0⟩) := by
  rw [foldl_evictingRun length_replicate _ rfl]
  exact ⟨recoverEvents_evictedAnswer, rfl⟩

end ExecServer
