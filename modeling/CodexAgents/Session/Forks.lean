import CodexAgents.Session.Rollback

/-!
# Forking before a message of the user

`core/src/thread_rollout_truncation.rs`.  A fork keeps a part of a rollout.  A rollback takes turns
back and leaves their items in the rollout, so the places to cut at are found by a loop that follows
the rollbacks.

The turns that count are those that a replay leaves.  To the turns, a replay is a stack
(`turnsLeft`): a rollback takes the last of them off.  `userMessagePositionsInRollout` takes off a
message of the user for each turn that a rollback takes back, also if the turn is that of another
agent.
-/

namespace Session

open Text List ContextManager

/-! ## The loop -/

variable (env : RolloutEnv)

/-- `parse_turn_item` gives a `TurnItem::UserMessage`.  What it takes for a hook prompt has a
fragment that is contextual. -/
def isRealUserMessageBoundary : ResponseItem → Bool
  | .message _ role content _ _ => role = "user" && !env.isContextualUserMessageContent content
  | _ => false

/-- A message of the user, or a rollback. -/
def visitUser (positions : List Nat) : RolloutItem × Nat → List Nat
  | (.responseItem envelope, idx) =>
    if isRealUserMessageBoundary env envelope.item then positions ++ [idx] else positions
  | (.eventMsg (.threadRolledBack numTurns), _) => positions.take (positions.length - numTurns)
  | _ => positions

/-- Where the messages of the user are that are left. -/
def userMessagePositionsInRollout (items : List RolloutItem) : List Nat :=
  items.zipIdx.foldl (visitUser env) []

/-- The rollout up to a message of the user. -/
def truncateRolloutBeforeNthUserMessageFromStart (items : List RolloutItem) (nFromStart : Nat) :
    List RolloutItem :=
  if nFromStart = usizeMax then items
  else
    match (userMessagePositionsInRollout env items)[nFromStart]? with
    | none => items
    | some cutIdx => items.take cutIdx

/-! ## The turns that a replay leaves -/

section

variable (env : Env) (m : ContextManager)

/-- The instruction turns of a history. -/
def turnsIn (items : List Envelope) : List Envelope :=
  items.filter fun e => isUserTurnBoundary env e.item

lemma length_turnsIn (items : List Envelope) :
    (turnsIn env items).length = (userMessagePositions env items).length := by
  have hzip (k : Nat) : (items.zipIdx k).countP (fun x => isUserTurnBoundary env x.1.item) =
      items.countP fun e => isUserTurnBoundary env e.item := by
    nth_rw 2 [← zipIdx_map_fst k items]
    rw [countP_map]
    rfl
  rw [turnsIn, userMessagePositions, length_map, ← countP_eq_length_filter,
    ← countP_eq_length_filter, hzip]

/-- **A rollback takes the last turns off.** -/
theorem turnsIn_drop (n : Nat) : turnsIn env (m.dropLastNUserTurns env n).items =
      (turnsIn env m.items).take ((turnsIn env m.items).length - n) := by
  obtain _ | n := n
  · simp [dropLastNUserTurns]
  rw [length_turnsIn]
  rcases h : userMessagePositions env m.items with _ | ⟨first, others⟩
  · have hnone : turnsIn env m.items = [] := by
      rw [← length_eq_zero_iff, length_turnsIn, h, length_nil]
    rw [(drop_none env m h).1, hnone, take_nil]
  obtain hlt | hge := lt_or_ge n others.length
  · obtain ⟨before, p, after, rfl, rfl⟩ := exists_split hlt
    have hpositions := userMessagePositions_drop_some env m h rfl
    obtain ⟨-, -, hitems, -⟩ := drop_some env m h rfl
    have hlen : (turnsIn env (m.dropLastNUserTurns env (after.length + 1)).items).length =
        (first :: (before ++ p :: after)).length - (after.length + 1) := by
      rw [length_turnsIn, hpositions]
      simp
      omega
    rw [← hlen]
    refine prefix_iff_eq_take.mp ?_
    rw [hitems]
    exact IsPrefix.filter _ <| take_prefix _ _
  · have hall : turnsIn env (m.dropLastNUserTurns env (n + 1)).items = [] := by
      rw [← length_eq_zero_iff, length_turnsIn, (drop_all env m h hge).1,
        userMessagePositions_beforeFirst env h, length_nil]
    rw [hall, Nat.sub_eq_zero_of_le (by simpa using hge), take_zero]

/-- A turn is recorded as it is. -/
lemma turnsIn_record (e : Envelope) : turnsIn env (m.recordItem env e).items =
      turnsIn env m.items ++ if isUserTurnBoundary env e.item then [e] else [] := by
  obtain ⟨item, harness⟩ := e
  have happend (e : Envelope) : turnsIn env (m.items ++ [e]) =
      turnsIn env m.items ++ if isUserTurnBoundary env e.item then [e] else [] := by
    rw [turnsIn, filter_append, filter_singleton, cond_eq_ite, turnsIn]
  cases item with
  | message id role content phase metadata =>
    rw [recordItem]
    split
    case isTrue => exact happend _
    case isFalse hsystem =>
      have hrole : role = "system".toList := by simpa [ResponseItem.isApiMessage] using hsystem
      simp [isUserTurnBoundary, hrole]
  | compactionTrigger | other => exact (append_nil _).symm
  | _ => exact happend _

end

/-- A turn, or a rollback. -/
def visitTurn (turns : List (Nat × Envelope)) : RolloutItem × Nat → List (Nat × Envelope)
  | (.responseItem envelope, idx) =>
    turns ++ if isUserTurnBoundary env.toEnv envelope.item then [(idx, envelope)] else []
  | (.interAgentCommunication communication, idx) =>
    turns ++ [(idx, ⟨communication.toModelInputItem, none⟩)]
  | (.eventMsg (.threadRolledBack numTurns), _) => turns.take (turns.length - numTurns)
  | _ => turns

/-- The turns that are left, with their places in the rollout. -/
def turnsLeft (items : List RolloutItem) : List (Nat × Envelope) :=
  items.zipIdx.foldl (visitTurn env) []

variable {items : List RolloutItem}

lemma turnsLeft_concat (item : RolloutItem) :
    turnsLeft env (items ++ [item]) = visitTurn env (turnsLeft env items) (item, items.length) := by
  simp [turnsLeft, zipIdx_append]

/-- **They are the turns of the history**, if there is no compaction. -/
theorem map_snd_turnsLeft (h : ∀ item ∈ items, item.isCompacted = false) :
    (turnsLeft env items).map Prod.snd = turnsIn env.toEnv (forwardReplay env items) := by
  induction items using reverseRecOn with
  | nil => rfl
  | append_singleton items item ih =>
    have ih := ih fun x hx => h x (mem_append_left _ hx)
    have hitem := h item (by simp)
    rw [turnsLeft_concat, forwardReplay, replay, foldl_concat]
    rw [forwardReplay, replay] at ih
    generalize items.foldl (replayItem env) {} = m at ih ⊢
    cases item with
    | responseItem envelope =>
      rw [replayItem, turnsIn_record, ← ih, visitTurn, map_append]
      split <;> rfl
    | interAgentCommunication c =>
      rw [replayItem, turnsIn_record, ← ih, visitTurn, map_append]
      rfl
    | compacted c => cases hitem
    | eventMsg event =>
      cases event with
      | threadRolledBack n => rw [replayItem, turnsIn_drop, ← ih, visitTurn, map_take, length_map]
      | _ => exact ih
    | _ => exact ih

/-! ## Messages of the user -/

lemma isUserTurnBoundary_of_real {item : ResponseItem}
    (h : isRealUserMessageBoundary env item) : isUserTurnBoundary env.toEnv item := by
  cases item with
  | message => exact Bool.or_eq_true_iff.mpr (.inl h)
  | _ => cases h

/-- The turn was begun by the user. -/
def isUserMessage (turn : Nat × Envelope) : Bool := isRealUserMessageBoundary env turn.2.item

/-- The messages of the user among the turns that are left. -/
def survivingUserMessages (items : List RolloutItem) : List Nat :=
  ((turnsLeft env items).filter (isUserMessage env)).map (·.1)

/-- The last turns have as many messages of the user as are taken off the list of them. -/
def TakesUserMessages (turns : List (Nat × Envelope)) (numTurns : Nat) : Prop :=
  (turns.drop (turns.length - numTurns)).countP (isUserMessage env) =
    min numTurns (turns.countP (isUserMessage env))

lemma take_userMessages_iff (turns : List (Nat × Envelope)) (n : Nat) :
    let positions := (turns.filter (isUserMessage env)).map (·.1)
    positions.take (positions.length - n) =
      ((turns.take (turns.length - n)).filter (isUserMessage env)).map (·.1) ↔
    TakesUserMessages env turns n := by
  rw [TakesUserMessages]
  generalize hkept : turns.take (turns.length - n) = kept
  generalize hgone : turns.drop (turns.length - n) = gone
  obtain rfl : kept ++ gone = turns := by rw [← hkept, ← hgone, take_append_drop]
  -- both sides are the first of the same positions
  simp only [filter_append, map_append, length_append, countP_eq_length_filter]
  refine ⟨fun h => ?_, fun h => ?_⟩
  · have := congrArg length h
    simp only [length_take, length_append, length_map] at this
    omega
  · refine take_left' ?_
    simp only [length_map]
    omega

/-- One more item.  Only a rollback can make the two lists differ. -/
lemma userMessagePositionsInRollout_concat_iff
    (h : userMessagePositionsInRollout env items = survivingUserMessages env items)
    (item : RolloutItem) :
    userMessagePositionsInRollout env (items ++ [item]) =
        survivingUserMessages env (items ++ [item]) ↔
      ∀ n, item = .eventMsg (.threadRolledBack n) →
        TakesUserMessages env (turnsLeft env items) n := by
  have hvisit : userMessagePositionsInRollout env (items ++ [item]) =
      visitUser env (survivingUserMessages env items) (item, items.length) := by
    simp [← h, userMessagePositionsInRollout, zipIdx_append]
  rw [hvisit, survivingUserMessages, survivingUserMessages, turnsLeft_concat]
  cases item with
  | responseItem envelope =>
    obtain ⟨item, harness⟩ := envelope
    have hturn := @isUserTurnBoundary_of_real env item
    simp only [visitUser, visitTurn]
    split <;> split <;> simp_all [isUserMessage]
  | interAgentCommunication c =>
    simp [visitUser, visitTurn, isUserMessage, isRealUserMessageBoundary,
      InterAgentCommunication.toModelInputItem]
  | eventMsg event =>
    cases event with
    | threadRolledBack n =>
      refine (take_userMessages_iff env (turnsLeft env items) n).trans ?_
      refine ⟨fun h k hk => ?_, fun h => h n rfl⟩
      cases hk
      exact h
    | _ => simp [visitUser, visitTurn]
  | _ => simp [visitUser, visitTurn]

/-- **The messages of the user that are left** are found just in case every rollback takes back as
many of them as it takes turns, or all there are. -/
theorem userMessagePositionsInRollout_eq_iff
    (hcompacted : ∀ item ∈ items, item.isCompacted = false) :
    (turnsLeft env items).map Prod.snd = turnsIn env.toEnv (forwardReplay env items) ∧
    ((∀ older, older <+: items →
        userMessagePositionsInRollout env older = survivingUserMessages env older ∧
        ∀ n, truncateRolloutBeforeNthUserMessageFromStart env older n = if n = usizeMax then older
          else ((survivingUserMessages env older)[n]?).elim older older.take) ↔
      ∀ older n, older ++ [.eventMsg (.threadRolledBack n)] <+: items →
        TakesUserMessages env (turnsLeft env older) n) := by
  refine ⟨map_snd_turnsLeft env hcompacted, fun h older n hpre => ?_, fun h older hpre => ?_⟩
  · have hbefore := (h older ((prefix_append _ _).trans hpre)).1
    have hafter := (h _ hpre).1
    exact (userMessagePositionsInRollout_concat_iff env hbefore _).mp hafter n rfl
  · have heq : userMessagePositionsInRollout env older = survivingUserMessages env older := by
      induction older using reverseRecOn with
      | nil => rfl
      | append_singleton older item ih =>
        refine (userMessagePositionsInRollout_concat_iff env
          (ih ((prefix_append _ _).trans hpre)) item).mpr ?_
        rintro n rfl
        exact h older n hpre
    refine ⟨heq, fun n => ?_⟩
    rw [truncateRolloutBeforeNthUserMessageFromStart, heq]
    cases (survivingUserMessages env older)[n]? <;> rfl

/-- A message of the user, then one of another agent, and a rollback of one turn. -/
def answeredByAgent : List RolloutItem :=
  [.responseItem ⟨.message none "user" [] none none, none⟩,
    .interAgentCommunication ⟨none, [], [], [], none, none, true⟩, .eventMsg (.threadRolledBack 1)]

/-- The rollback takes back the message of the agent, and the loop that of the user. -/
theorem answeredByAgent_positions : survivingUserMessages plainEnv answeredByAgent = [0] ∧
      userMessagePositionsInRollout plainEnv answeredByAgent = [] := by
  decide

theorem answeredByAgent_not_taken :
    ¬ ∀ older n, older ++ [.eventMsg (.threadRolledBack n)] <+: answeredByAgent →
      TakesUserMessages plainEnv (turnsLeft plainEnv older) n := by
  intro h
  have heq := ((userMessagePositionsInRollout_eq_iff plainEnv (by decide)).2.mpr h _ prefix_rfl).1
  exact absurd heq (by decide)

end Session
