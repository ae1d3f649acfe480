import CodexAgents.Session.Turns

/-!
# The history of a resumed thread

What the history of a rollout should be is plain: start with nothing and replay every item
(`forwardReplay`).  Resuming replays only the items after one compaction, on top of what that
compaction left.  The newest compaction that leaves a history decides what comes out of a replay
(`replay_newestCheckpoint`), so this is right as long as the base is that of this compaction, or the
items that are replayed go back beyond it.

Neither is the case if the compaction is in a turn that a rollback takes back, and no other turn has
one: the turn is skipped and there is no base, but the items to replay have been cut at the
compaction all the same.  `history_eq_forward_iff` says that this is the only case.
-/

namespace Session

open Text List Option Turns ContextManager

variable (env : RolloutEnv)

/-- All items, from the first. -/
def forwardReplay (items : List RolloutItem) : List Envelope := (replay env {} items).items

/-! ## The newest compaction that leaves a history -/

/-- The last replacement history, and what comes after it. -/
def newestCheckpoint : List RolloutItem → Option Checkpoint
  | [] => none
  | item :: newer => (newestCheckpoint newer).or (item.replacement?.map (·, newer))

variable {item : RolloutItem} {p : Checkpoint}

lemma newestCheckpoint_cons_of_some {newer} (h : newestCheckpoint newer = some p) :
    newestCheckpoint (item :: newer) = some p := by
  rw [newestCheckpoint, h, some_or]

lemma newestCheckpoint_cons_of_none (h : newestCheckpoint newer = none) :
    newestCheckpoint (item :: newer) = item.replacement?.map (·, newer) := by
  rw [newestCheckpoint, h, none_or]

lemma ContextManager.trimPreTurnContextUpdates_fst (env : Env) (snapshot : List Envelope)
    (first cut : Nat) (r r' : Option TurnContextItem) :
    (trimPreTurnContextUpdates env snapshot first cut r).1 =
      (trimPreTurnContextUpdates env snapshot first cut r').1 := by
  induction cut generalizing r r' with
  | zero => rfl
  | succ cut ih =>
    simp only [trimPreTurnContextUpdates]
    split
    · split
      · split
        · exact ih _ _
        · split
          · exact ih _ _
          · rfl
      · rfl
    · rfl

lemma ContextManager.dropLastNUserTurns_items (env : Env) {m m' : ContextManager}
    (h : m.items = m'.items) (numTurns : Nat) :
    (m.dropLastNUserTurns env numTurns).items = (m'.dropLastNUserTurns env numTurns).items := by
  simp only [dropLastNUserTurns, ← h]
  split
  · exact h
  · split
    · rfl
    · simp only [replaceAnnotated]
      rw [trimPreTurnContextUpdates_fst env _ _ _ m.referenceContextItem m'.referenceContextItem]

/-- The items after a step depend only on the items before it. -/
lemma replayItem_items {m m'} (h : m.items = m'.items) (item : RolloutItem) :
    (replayItem env m item).items = (replayItem env m' item).items := by
  cases item with
  | responseItem | interAgentCommunication =>
    simp only [replayItem, recordItem]
    split
    · rw [h]
    · exact h
  | compacted c =>
    simp only [replayItem]
    split
    · rfl
    · simp [replaceAnnotated, h]
  | eventMsg event =>
    cases event with
    | threadRolledBack numTurns => exact dropLastNUserTurns_items env.toEnv h numTurns
    | _ => exact h
  | _ => exact h

lemma replay_items {m m'} (h : m.items = m'.items) (items : List RolloutItem) :
    (replay env m items).items = (replay env m' items).items := by
  induction items generalizing m m' with
  | nil => exact h
  | cons item newer ih => exact ih (replayItem_items env h item)

variable {r : List Envelope}

lemma replayItem_of_replacement (h : item.replacement? = some r) (m : ContextManager) :
    (replayItem env m item).items = r := by
  cases item with
  | compacted c =>
    have hc : c.replacementHistory = some r := h
    rw [replayItem, hc]
    rfl
  | _ => cases h

variable {items : List RolloutItem}

/-- **Only the newest one counts.**  Whatever the history was before. -/
theorem replay_newestCheckpoint {after}
    (h : newestCheckpoint items = some (r, after)) (m : ContextManager) :
    (replay env m items).items = (replay env { items := r } after).items := by
  induction items generalizing m with
  | nil => cases h
  | cons item newer ih =>
    cases hn : newestCheckpoint newer with
    | some p =>
      rw [newestCheckpoint_cons_of_some hn] at h
      exact ih (hn.trans h) _
    | none =>
      rw [newestCheckpoint_cons_of_none hn, map_eq_some_iff] at h
      obtain ⟨r', hr, heq⟩ := h
      obtain ⟨rfl, rfl⟩ := Prod.mk.inj heq
      have hstep : (replayItem env m item).items = ({ items := r' } : ContextManager).items :=
        replayItem_of_replacement env hr m
      exact replay_items env hstep newer

/-! ## The checkpoints of the turns -/

/-- The newest checkpoint is that of the newest turn that has one, and those of the other turns have
it among the items after them. -/
lemma checkpoints_spec (items : List RolloutItem) :
    newestCheckpoint items = (turns env items).checkpoints.head? ∧
      ∀ p ∈ (turns env items).checkpoints.tail,
        newestCheckpoint p.2 = (turns env items).checkpoints.head? := by
  induction items with
  | nil => exact ⟨rfl, fun p hp => (nomatch hp)⟩
  | cons item newer ih =>
    obtain ⟨hhead, htail⟩ := ih
    rw [turns, checkpoints_read, newestCheckpoint, hhead]
    cases hopen : ((turns env newer).openTurn.getD {}).checkpoint with
    | some c =>
      -- the turn has one already, so there is a newest one
      obtain ⟨p, ps, hps⟩ : ∃ p ps, (turns env newer).checkpoints = p :: ps := by
        cases hps : (turns env newer).checkpoints with
        | nil =>
          rw [checkpoints_eq, hopen] at hps
          simp at hps
        | cons p ps => exact ⟨p, ps, rfl⟩
      rw [hps] at htail ⊢
      exact ⟨rfl, htail⟩
    | none =>
      cases hr : item.replacement? with
      | none => simpa using htail
      | some r =>
        cases hps : (turns env newer).checkpoints with
        | nil => simp
        | cons p ps =>
          rw [hps] at hhead htail
          exact ⟨rfl, forall_mem_append.mpr ⟨htail, forall_mem_singleton.mpr hhead⟩⟩

/-- The checkpoints of closed turns, newest first, and whether the turn stays. -/
def Turns.marked (m : Turns) : List (Checkpoint × Bool) :=
  m.closed.filterMap fun (turn, stays) => turn.checkpoint.map (·, stays)

variable {m : Turns}

lemma Turns.checkpoints_eq_marked (h : m.openTurn = none) :
    m.checkpoints = m.marked.map Prod.fst := by
  rw [checkpoints_eq, h, marked, map_filterMap, filterMap_map]
  simp [Function.comp_def]

lemma ReverseReplay.foldl_keep_base (segments : List ActiveReplaySegment) (s : ReverseReplay) :
    (segments.foldl keep s).baseReplacementHistory = s.baseReplacementHistory.or
        (segments.findSome? ActiveReplaySegment.baseReplacementHistory) := by
  induction segments generalizing s with
  | nil => simp
  | cons seg segments ih =>
    rw [foldl_cons, ih, findSome?_cons]
    simp only [keep, Option.or_assoc]
    cases seg.baseReplacementHistory <;> simp

/-- The base is that of the newest checkpoint in a turn that stays. -/
lemma Turns.found_base (hok : ∀ turn ∈ m.all, turn.Ok) :
    m.found.baseReplacementHistory = (m.marked.find? Prod.snd).map fun p => p.1.1 := by
  have hfound : m.found.baseReplacementHistory =
      m.kept.findSome? ActiveReplaySegment.baseReplacementHistory := by
    simp [found, ReverseReplay.foldl_keep_base]
  have hclosed : ∀ p ∈ m.closed, p.1.Ok := fun p hp =>
    hok p.1 (mem_append_left _ (mem_map_of_mem hp))
  rw [hfound, kept, marked]
  clear hfound hok
  generalize m.closed = closed at hclosed ⊢
  induction closed with
  | nil => rfl
  | cons p closed ih =>
    obtain ⟨turn, stays⟩ := p
    have hturn : turn.segment.baseReplacementHistory = turn.checkpoint.map Prod.fst :=
      hclosed (turn, stays) (mem_cons_self ..)
    have ih := ih fun p hp => hclosed p (mem_cons_of_mem _ hp)
    cases stays <;> cases hc : turn.checkpoint <;> simp_all

/-! ## The history -/

/-- One turn has compactions that leave a history, and it is taken back. -/
def LoneCheckpointTakenBack (items : List RolloutItem) : Prop :=
  (turns env items).finish.marked.map Prod.snd = [false]

instance (items : List RolloutItem) : Decidable (LoneCheckpointTakenBack env items) :=
  inferInstanceAs (Decidable (_ = _))

/-- What is replayed comes to the same without the history that the newest compaction has left. -/
def CheckpointIrrelevant (items : List RolloutItem) : Prop :=
  ∀ r after, newestCheckpoint items = some (r, after) →
    forwardReplay env after = (replay env { items := r } after).items

variable {s : ReverseReplay}

/-- What the second loop makes of a base and of items to replay. -/
lemma assemble_history (h : newestCheckpoint items = some p) {suffix}
    (hs : s.rolloutSuffix = some suffix) (hbase : newestCheckpoint suffix = some p ∨
      suffix = p.2 ∧ s.baseReplacementHistory = some p.1) :
    (assemble env items s).history = forwardReplay env items := by
  have hforward : forwardReplay env items = (replay env { items := p.1 } p.2).items :=
    replay_newestCheckpoint env h {}
  rw [hforward]
  obtain hn | ⟨rfl, hb⟩ := hbase
  · simp only [assemble, hs, getD_some]
    exact replay_newestCheckpoint env hn _
  · simp only [assemble, hs, hb, getD_some]
    have hitems : (({} : ContextManager).replaceAnnotated p.1).items =
        ({ items := p.1 } : ContextManager).items := rfl
    exact replay_items env hitems p.2

lemma history_scanningAll_iff (items : List RolloutItem) :
    (assemble env items (reverseScan env false items).finish).history = forwardReplay env items ↔
      (LoneCheckpointTakenBack env items → CheckpointIrrelevant env items) := by
  obtain ⟨hhead, htail⟩ := checkpoints_spec env items
  have hbase := found_base (m := (turns env items).finish)
    (by rw [all_finish]; exact turns_ok env items)
  have hreplayed : (turns env items).finish.found.rolloutSuffix =
      (turns env items).finish.checkpoints.getLast?.map Prod.snd := rfl
  rw [← checkpoints_finish, checkpoints_eq_marked (finish_openTurn _)] at hhead htail
  rw [checkpoints_eq_marked (finish_openTurn _)] at hreplayed
  rw [reverseScan_finish, LoneCheckpointTakenBack]
  generalize (turns env items).finish.found = s at hbase hreplayed ⊢
  cases hmarked : (turns env items).finish.marked with
  | nil =>
    rw [hmarked] at hbase hreplayed
    refine iff_of_true ?_ fun h => (nomatch h)
    have hs : s.rolloutSuffix = none := hreplayed
    have hb : s.baseReplacementHistory = none := hbase
    simp [assemble, hs, hb, forwardReplay]
  | cons first others =>
    obtain ⟨p, stays⟩ := first
    rw [hmarked] at hbase hreplayed hhead htail
    have hnew : newestCheckpoint items = some p := hhead
    cases others with
    | nil =>
      have hs : s.rolloutSuffix = some p.2 := hreplayed
      cases stays with
      | true =>
        exact iff_of_true (assemble_history env hnew hs (.inr ⟨rfl, hbase⟩)) fun h => (nomatch h)
      | false =>
        have hb : s.baseReplacementHistory = none := hbase
        have hhistory : (assemble env items s).history = forwardReplay env p.2 := by
          simp [assemble, hs, hb, forwardReplay]
        have hforward : forwardReplay env items = (replay env { items := p.1 } p.2).items :=
          replay_newestCheckpoint env hnew {}
        rw [hhistory, hforward]
        refine ⟨fun heq _ r after hra => ?_, fun h => h rfl p.1 p.2 hnew⟩
        obtain ⟨rfl, rfl⟩ := Prod.mk.inj (some_inj.mp (hnew.symm.trans hra))
        exact heq
    | cons second others =>
      -- the items that are replayed are those after an older checkpoint
      refine iff_of_true ?_ fun h => ?_
      · obtain ⟨q, hq⟩ : ∃ q, ((second :: others).map Prod.fst).getLast? = some q :=
          isSome_iff_exists.mp (by simp)
        have hs : s.rolloutSuffix = some q.2 := by
          rw [hreplayed, map_cons, map_cons, getLast?_cons_cons, ← map_cons, hq]
          rfl
        have hn : newestCheckpoint q.2 = some p := htail q (mem_of_getLast? hq)
        exact assemble_history env hnew hs (.inl hn)
      · simp at h

lemma newestCheckpoint_append {pre post} (h : newestCheckpoint post = some p) :
    newestCheckpoint (pre ++ post) = some p := by
  induction pre with
  | nil => exact h
  | cons item pre ih => exact newestCheckpoint_cons_of_some ih

/-- A base is found in a turn that stays. -/
lemma base_isSome (h : (reverseScan env false items).finish.baseReplacementHistory.isSome) :
    ¬ LoneCheckpointTakenBack env items ∧ (∃ p, newestCheckpoint items = some p) ∧
      ∃ suffix, (reverseScan env false items).finish.rolloutSuffix = some suffix := by
  rw [reverseScan_finish, found_base (by rw [all_finish]; exact turns_ok env items),
    isSome_map, isSome_iff_exists] at h
  obtain ⟨p, hp⟩ := h
  have hmem := mem_of_find?_eq_some hp
  have hstays : p.2 := find?_some hp
  have hcheckpoints := checkpoints_eq_marked (finish_openTurn (turns env items))
  have hne : (turns env items).finish.checkpoints ≠ [] := by
    rw [hcheckpoints]
    exact ne_nil_of_mem (mem_map_of_mem hmem)
  refine ⟨fun hlone => ?_, ?_, ?_⟩
  · have hfalse : p.2 ∈ (turns env items).finish.marked.map Prod.snd := mem_map_of_mem hmem
    rw [show _ = [false] from hlone, mem_singleton, hstays] at hfalse
    cases hfalse
  · rw [(checkpoints_spec env items).1, ← checkpoints_finish]
    exact isSome_iff_exists.mp (isSome_head?.mpr hne)
  · rw [reverseScan_finish]
    refine isSome_iff_exists.mp ?_
    simp only [found, replayed, isSome_map]
    exact getLast?_isSome.mpr hne

lemma ReverseReplay.base_finish (h : s.known) : s.finish.baseReplacementHistory.isSome := by
  cases hs : s.activeSegment with
  | none => rw [finish_of_none hs]; exact (known_iff.mp h).1
  | some seg =>
    rw [finish_of_some hs]
    exact (known_iff.mp
      (known_finalizeActiveSegment seg (s := { s with activeSegment := none }) h)).1

/-- **Resuming and replaying.**  The history of a resumed thread is that of a replay of all items,
unless the compactions that leave a history are all in one turn and that turn is taken back.  In
this case it is so just if the newest of them makes no difference for the items after it. -/
theorem history_eq_forward_iff (items : List RolloutItem) :
    (reconstructHistoryFromRollout env items).history = forwardReplay env items ↔
      (LoneCheckpointTakenBack env items → CheckpointIrrelevant env items) := by
  rw [reconstructHistoryFromRollout]
  obtain ⟨-, heq⟩ | ⟨pre, post, rfl, -, hfirst, heq⟩ := reverseScan_stops env items
  · rw [heq]
    exact history_scanningAll_iff env items
  · obtain ⟨hlone, ⟨p, hp⟩, suffix, hsuffix⟩ :=
      base_isSome env (ReverseReplay.base_finish hfirst.1)
    obtain ⟨hfull, -, -⟩ :=
      base_isSome env (ReverseReplay.base_finish (known_append env hfirst.1 pre))
    refine iff_of_true ?_ fun h => absurd h hfull
    have hpost := (history_scanningAll_iff env post).mpr fun h => absurd h hlone
    -- neither result depends on the older part
    have hforward : forwardReplay env (pre ++ post) = forwardReplay env post := by
      rw [forwardReplay, replay_newestCheckpoint env (newestCheckpoint_append hp),
        forwardReplay, replay_newestCheckpoint env hp]
    rw [heq, hforward, ← hpost]
    simp [assemble, hsuffix]

/-- Nothing is contextual, and nothing is truncated. -/
def plainEnv : RolloutEnv where
  isContextualUserMessageContent _ := false
  isContextualDevMessageContent _ := false
  hasNonContextualDevMessageContent _ := false
  isModelSwitchText _ := false
  isInterAgentText _ := false
  truncateOutputText text := text
  truncateOutputItems items := items
  userMessageText _ := none
  summaryHead := "Summary"
  approxTokenCount text := text.length
  truncateToTokens n text := text.take n
  parseUuidV7 id := some id
  restoreSnapshot state := some state
  applyMergePatch _ patch := some patch

/-- A message of the user. -/
def userEnvelope (text : Str) : Envelope :=
  { item := .message none "user" [.inputText text] none none }

/-- Two turns.  The second is compacted while it runs, and then taken back. -/
def compactedThenRolledBack : List RolloutItem :=
  [.eventMsg (.turnStarted "1"), .eventMsg (.userMessage "a"),
    .responseItem (userEnvelope "a"), .eventMsg (.turnComplete "1"),
    .eventMsg (.turnStarted "2"), .eventMsg (.userMessage "b"),
    .responseItem (userEnvelope "b"),
    .compacted ⟨[], some [userEnvelope "a", userEnvelope "b"], none, none, none, none⟩,
    .eventMsg (.turnComplete "2"), .eventMsg (.threadRolledBack 1)]

/-- The message of the first turn should still be there, and is not. -/
theorem rolled_back_compaction_loses_history :
    (reconstructHistoryFromRollout plainEnv compactedThenRolledBack).history = [] ∧
      forwardReplay plainEnv compactedThenRolledBack = [userEnvelope "a"] := by
  decide

end Session
