import CodexAgents.Session.Reconstruct

/-!
# The loop from the newest item

Two facts about `reverseScan`.  What it finds in a rollout that is cut at the start of a turn is
what it finds in the newer part, completed by what it finds in the older one (`reverseScan_append`):
the newer value wins, except for the items that the second loop goes over, where the older part has
the last word (`ReverseReplay.upon`).  And the loop that may end early is the loop over all items,
on the shortest final part of the rollout that tells enough (`reverseScan_stops`).
-/

namespace Session

open Text Option ReverseReplay TurnReferenceContextItem

variable (env : RolloutEnv)

lemma TurnReferenceContextItem.or_neverSet (r : TurnReferenceContextItem) : r.or .neverSet = r := by
  cases r <;> rfl

lemma TurnReferenceContextItem.or_assoc (a b c : TurnReferenceContextItem) :
    (a.or b).or c = a.or (b.or c) := by
  cases a <;> rfl

lemma TurnReferenceContextItem.or_ne_neverSet {a : TurnReferenceContextItem}
    (h : a ≠ .neverSet) (b : TurnReferenceContextItem) : a.or b = a := by
  cases a with
  | neverSet => exact absurd rfl h
  | cleared | latest => rfl

/-! ## The end of a turn -/

lemma finalizeActiveSegment_activeSegment (seg : ActiveReplaySegment) (s : ReverseReplay) :
    (finalizeActiveSegment seg s).activeSegment = s.activeSegment := by
  unfold finalizeActiveSegment
  split
  · split <;> rfl
  · rfl

lemma finalizeActiveSegment_rolloutSuffix (seg : ActiveReplaySegment) (s : ReverseReplay) :
    (finalizeActiveSegment seg s).rolloutSuffix = s.rolloutSuffix := by
  unfold finalizeActiveSegment
  split
  · split <;> rfl
  · rfl

variable {seg : ActiveReplaySegment} {s : ReverseReplay}

/-- A turn that is taken back only counts. -/
lemma finalizeActiveSegment_of_pending (h : 0 < s.pendingRollbackTurns) :
    finalizeActiveSegment seg s = { s with
        pendingRollbackTurns :=
          if seg.countsAsUserTurn then s.pendingRollbackTurns - 1
          else s.pendingRollbackTurns } := by
  rw [finalizeActiveSegment, if_pos h]
  split <;> rfl

/-- What a turn that stays adds. -/
def ReverseReplay.keep (s : ReverseReplay) (seg : ActiveReplaySegment) : ReverseReplay :=
  { s with
    worldStateReplay := s.worldStateReplay ++ seg.worldStateReplay
    baseReplacementHistory := s.baseReplacementHistory.or seg.baseReplacementHistory
    window := s.window.or seg.window
    previousTurnSettings :=
      if seg.countsAsUserTurn then s.previousTurnSettings.or seg.previousTurnSettings
      else s.previousTurnSettings
    referenceContextItem :=
      if seg.countsAsUserTurn = true ∨ seg.referenceContextItem = .cleared then
        s.referenceContextItem.or seg.referenceContextItem
      else s.referenceContextItem }

lemma finalizeActiveSegment_of_not_pending (h : s.pendingRollbackTurns = 0) :
    finalizeActiveSegment seg s = s.keep seg := by
  rw [finalizeActiveSegment, if_neg (by omega)]
  rfl

namespace ReverseReplay

variable {s : ReverseReplay}

lemma known_iff : s.known ↔ s.baseReplacementHistory.isSome ∧ s.previousTurnSettings.isSome ∧
      s.referenceContextItem ≠ .neverSet := by
  simp [known, and_assoc]

lemma finish_of_none (h : s.activeSegment = none) : s.finish = s := by
  rw [finish, h]

lemma finish_of_some {seg} (h : s.activeSegment = some seg) :
    s.finish = finalizeActiveSegment seg { s with activeSegment := none } := by
  rw [finish, h]

lemma finish_rolloutSuffix (s : ReverseReplay) : s.finish.rolloutSuffix = s.rolloutSuffix := by
  cases h : s.activeSegment with
  | none => rw [finish_of_none h]
  | some seg => rw [finish_of_some h, finalizeActiveSegment_rolloutSuffix]

end ReverseReplay

lemma known_finalizeActiveSegment (seg : ActiveReplaySegment) (h : s.known) :
    (finalizeActiveSegment seg s).known := by
  obtain ⟨hbase, hprev, href⟩ := known_iff.mp h
  obtain hp | hp := Nat.eq_zero_or_pos s.pendingRollbackTurns
  · rw [finalizeActiveSegment_of_not_pending hp]
    refine known_iff.mpr ⟨?_, ?_, ?_⟩
    · simp [keep, hbase]
    · simp only [keep]
      split
      · simp [hprev]
      · exact hprev
    · simp only [keep]
      split
      · rw [or_ne_neverSet href]
        exact href
      · exact href
  · rw [finalizeActiveSegment_of_pending hp]
    exact h

lemma finalizeActiveSegment_becomes_known (h : s.known = false)
    (hk : (finalizeActiveSegment seg s).known) :
    (finalizeActiveSegment seg s).pendingRollbackTurns = 0 := by
  obtain hp | hp := Nat.eq_zero_or_pos s.pendingRollbackTurns
  · rw [finalizeActiveSegment_of_not_pending hp]
    exact hp
  · rw [finalizeActiveSegment_of_pending hp] at hk
    rw [show s.known = true from hk] at h
    cases h

/-! ## The items -/

/-- The history that an item leaves. -/
def RolloutItem.replacement? : RolloutItem → Option (List Envelope)
  | compacted c => c.replacementHistory
  | _ => none

/-- What an item of a turn does to it.  An abort without an id is of no turn if none is open. -/
def RolloutItem.change (isOpen : Bool) :
    RolloutItem → Option (ActiveReplaySegment → ActiveReplaySegment)
  | compacted c => some (·.addCompacted env c)
  | eventMsg (.turnComplete turnId) => some (·.addTurnId (some turnId))
  | eventMsg (.turnAborted turnId) =>
    if isOpen || turnId.isSome then some (·.addTurnId turnId) else none
  | eventMsg (.userMessage _) => some (·.addUserTurn true)
  | turnContext ctx => some (·.addTurnContext ctx)
  | worldState w => some (·.addWorldState w)
  | responseItem envelope => some (·.addUserTurn (isUserTurnBoundary env.toEnv envelope.item))
  | interAgentCommunication _ => some (·.addUserTurn true)
  | _ => none

/-- The kinds of items: a rollback, the start of a turn, an item of a turn, any other. -/
inductive ItemView (isOpen : Bool) : RolloutItem → Prop
  | rollback (numTurns : Nat) : ItemView isOpen (.eventMsg (.threadRolledBack numTurns))
  | start (turnId : Str) : ItemView isOpen (.eventMsg (.turnStarted turnId))
  | change {item : RolloutItem} {f : ActiveReplaySegment → ActiveReplaySegment}
    (h : item.change env isOpen = some f) : ItemView isOpen item
  | skip {item : RolloutItem} (h : item.change env isOpen = none)
    (hr : ∀ numTurns, item ≠ .eventMsg (.threadRolledBack numTurns))
    (hs : ∀ turnId, item ≠ .eventMsg (.turnStarted turnId)) : ItemView isOpen item

lemma itemView (isOpen : Bool) (item : RolloutItem) : ItemView env isOpen item := by
  cases item with
  | eventMsg event =>
    cases event with
    | threadRolledBack numTurns => exact .rollback numTurns
    | turnStarted turnId => exact .start turnId
    | turnAborted turnId =>
      by_cases h : (isOpen || turnId.isSome) = true
      · exact .change (if_pos h)
      · exact .skip (if_neg h) (fun _ => nofun) fun _ => nofun
    | turnComplete | userMessage => exact .change rfl
    | other rest => exact .skip rfl (fun _ => nofun) fun _ => nofun
  | interAgentCommunicationMetadata | sessionMeta => exact .skip rfl (fun _ => nofun) fun _ => nofun
  | _ => exact .change rfl

/-- The item leaves a history, and is the newest of its turn to do so. -/
def ReverseReplay.adds (s : ReverseReplay) (item : RolloutItem) : Bool :=
  (s.activeSegment.getD {}).baseReplacementHistory.isNone && item.replacement?.isSome

variable {item : RolloutItem} {f : ActiveReplaySegment → ActiveReplaySegment}

lemma scanItem_of_change {newer} (h : item.change env s.activeSegment.isSome = some f) :
    scanItem env newer s item = { s.onActive f with
        rolloutSuffix := if s.adds item then some newer else s.rolloutSuffix } := by
  have hnot : ∀ item : RolloutItem, item.replacement? = none → s.adds item = false :=
    fun item hr => by rw [adds, hr, isSome_none, Bool.and_false]
  cases item with
  | compacted c =>
    obtain rfl := some_inj.mp h
    rfl
  | eventMsg event =>
    rw [hnot _ rfl]
    cases event with
    | turnAborted turnId =>
      by_cases hopen : (s.activeSegment.isSome || turnId.isSome) = true
      · obtain rfl := some_inj.mp ((if_pos hopen).symm.trans h)
        exact if_pos hopen
      · cases (if_neg hopen).symm.trans h
    | turnComplete | userMessage => obtain rfl := some_inj.mp h; rfl
    | _ => cases h
  | interAgentCommunicationMetadata | sessionMeta => cases h
  | _ =>
    obtain rfl := some_inj.mp h
    rw [hnot _ rfl]
    rfl

lemma scanItem_of_skip {newer} (h : item.change env s.activeSegment.isSome = none)
    (hr : ∀ numTurns, item ≠ .eventMsg (.threadRolledBack numTurns))
    (hs : ∀ turnId, item ≠ .eventMsg (.turnStarted turnId)) : scanItem env newer s item = s := by
  cases item with
  | eventMsg event =>
    cases event with
    | turnAborted turnId =>
      by_cases hopen : (s.activeSegment.isSome || turnId.isSome) = true
      · cases (if_pos hopen).symm.trans h
      · exact if_neg hopen
    | threadRolledBack numTurns => exact absurd rfl (hr numTurns)
    | turnStarted turnId => exact absurd rfl (hs turnId)
    | other rest => rfl
    | _ => cases h
  | interAgentCommunicationMetadata | sessionMeta => rfl
  | _ => cases h

variable {isOpen : Bool}

/-- An item that is of no turn leaves no history. -/
lemma replacement?_of_change_eq_none (h : item.change env isOpen = none) :
    item.replacement? = none := by
  cases item with
  | compacted c => cases h
  | _ => rfl

/-- The base of a turn is the newest of the histories that its items leave. -/
lemma change_base (h : item.change env isOpen = some f) (seg : ActiveReplaySegment) :
    (f seg).baseReplacementHistory = seg.baseReplacementHistory.or item.replacement? := by
  cases item with
  | compacted c => obtain rfl := some_inj.mp h; rfl
  | turnContext ctx =>
    obtain rfl := some_inj.mp h
    simp only [ActiveReplaySegment.addTurnContext, RolloutItem.replacement?, or_none]
    split <;> rfl
  | eventMsg event =>
    simp only [RolloutItem.replacement?, or_none]
    cases event with
    | turnAborted turnId =>
      by_cases hopen : (isOpen || turnId.isSome) = true
      · obtain rfl := some_inj.mp ((if_pos hopen).symm.trans h)
        rfl
      · cases (if_neg hopen).symm.trans h
    | turnComplete | userMessage => obtain rfl := some_inj.mp h; rfl
    | _ => cases h
  | interAgentCommunicationMetadata | sessionMeta => cases h
  | _ =>
    obtain rfl := some_inj.mp h
    simp only [RolloutItem.replacement?, or_none]
    rfl

lemma scanItem_turnStarted (newer : List RolloutItem) (s : ReverseReplay) (turnId : Str) :
    scanItem env newer s (.eventMsg (.turnStarted turnId)) = s ∨ ∃ seg, s.activeSegment = some seg ∧
        turnIdsAreCompatible seg.turnId (some turnId) ∧
        scanItem env newer s (.eventMsg (.turnStarted turnId)) =
          finalizeActiveSegment seg { s with activeSegment := none } := by
  simp only [scanItem]
  cases hseg : s.activeSegment with
  | none => exact .inl rfl
  | some seg =>
    dsimp only
    split_ifs with hc
    · exact .inr ⟨seg, rfl, hc, rfl⟩
    · exact .inl rfl

/-- What an item can do to the values that are known: nothing, unless it is the start of the turn
that is being read. -/
lemma scanItem_cases (newer : List RolloutItem) (s : ReverseReplay) (item : RolloutItem) :
    (scanItem env newer s item).known = s.known ∨ ∃ seg, s.activeSegment = some seg ∧
        scanItem env newer s item = finalizeActiveSegment seg { s with activeSegment := none } := by
  cases itemView env s.activeSegment.isSome item with
  | rollback numTurns => exact .inl rfl
  | start turnId =>
    obtain h | ⟨seg, hseg, -, h⟩ := scanItem_turnStarted env newer s turnId
    · exact .inl (by rw [h])
    · exact .inr ⟨seg, hseg, h⟩
  | change h => exact .inl (by rw [scanItem_of_change env h]; rfl)
  | skip h hr hs => exact .inl (by rw [scanItem_of_skip env h hr hs])

lemma known_scanItem (item : RolloutItem) (h : s.known) : (scanItem env newer s item).known := by
  obtain hk | ⟨seg, -, hk⟩ := scanItem_cases env newer s item
  · rw [hk, h]
  · rw [hk]
    exact known_finalizeActiveSegment seg h

/-- Enough becomes known at the start of a turn that is not taken back. -/
lemma scanItem_becomes_known (h : s.known = false) (hk : (scanItem env newer s item).known) :
    (scanItem env newer s item).activeSegment = none ∧
      (scanItem env newer s item).pendingRollbackTurns = 0 := by
  obtain hsame | ⟨seg, -, hfin⟩ := scanItem_cases env newer s item
  · rw [hsame, h] at hk
    cases hk
  · rw [hfin] at hk ⊢
    exact ⟨finalizeActiveSegment_activeSegment _ _, finalizeActiveSegment_becomes_known h hk⟩

/-! ## Two parts of a rollout -/

namespace ReverseReplay

/-- What has been found in an older part, on top of what the newer part `post` had. -/
def upon (t s : ReverseReplay) (post : List RolloutItem) : ReverseReplay where
  baseReplacementHistory := s.baseReplacementHistory.or t.baseReplacementHistory
  previousTurnSettings := s.previousTurnSettings.or t.previousTurnSettings
  referenceContextItem := s.referenceContextItem.or t.referenceContextItem
  worldStateReplay := s.worldStateReplay ++ t.worldStateReplay
  window := s.window.or t.window
  pendingRollbackTurns := t.pendingRollbackTurns
  rolloutSuffix := (t.rolloutSuffix.map (· ++ post)).or s.rolloutSuffix
  activeSegment := t.activeSegment

lemma init_upon {s} (post : List RolloutItem) (ha : s.activeSegment = none)
    (hp : s.pendingRollbackTurns = 0) : ({} : ReverseReplay).upon s post = s := by
  cases s
  simp_all [upon, or_neverSet]

end ReverseReplay

lemma ReverseReplay.keep_upon (seg : ActiveReplaySegment) (t s : ReverseReplay)
    (post : List RolloutItem) : (t.upon s post).keep seg = (t.keep seg).upon s post := by
  simp only [keep, upon, mk.injEq, Option.or_assoc, List.append_assoc, true_and, and_true]
  constructor
  · split <;> rfl
  · split
    · exact TurnReferenceContextItem.or_assoc ..
    · rfl

lemma finalizeActiveSegment_upon (seg : ActiveReplaySegment) (t s : ReverseReplay)
    (post : List RolloutItem) :
    finalizeActiveSegment seg (t.upon s post) = (finalizeActiveSegment seg t).upon s post := by
  obtain hp | hp := Nat.eq_zero_or_pos t.pendingRollbackTurns
  · rw [finalizeActiveSegment_of_not_pending hp,
      finalizeActiveSegment_of_not_pending (s := t.upon s post) hp, keep_upon]
  · rw [finalizeActiveSegment_of_pending hp,
      finalizeActiveSegment_of_pending (s := t.upon s post) hp]
    rfl

lemma scanItem_upon (newer post : List RolloutItem) (t s : ReverseReplay) (item : RolloutItem) :
    scanItem env (newer ++ post) (t.upon s post) item =
      (scanItem env newer t item).upon s post := by
  cases itemView env t.activeSegment.isSome item with
  | rollback numTurns => rfl
  | start turnId =>
    simp only [scanItem]
    cases hseg : t.activeSegment with
    | none =>
      have hover : (t.upon s post).activeSegment = none := hseg
      rw [hover]
    | some seg =>
      have hover : (t.upon s post).activeSegment = some seg := hseg
      rw [hover]
      dsimp only
      split
      · exact finalizeActiveSegment_upon seg { t with activeSegment := none } s post
      · rfl
  | change h =>
    have hadds : (t.upon s post).adds item = t.adds item := rfl
    rw [scanItem_of_change env h, scanItem_of_change env (s := t.upon s post) h, hadds]
    cases t.adds item <;> rfl
  | skip h hr hs =>
    rw [scanItem_of_skip env h hr hs, scanItem_of_skip env (s := t.upon s post) h hr hs]

lemma reverseScan_false_cons (item : RolloutItem) (newer : List RolloutItem) :
    reverseScan env false (item :: newer) = scanItem env newer (reverseScan env false newer) item :=
  rfl

variable {post : List RolloutItem} {pre : List RolloutItem}

/-- **The two parts of a rollout.**  The newer part has to begin with the start of a turn, and no
rollback of it may reach into the older part. -/
theorem reverseScan_append (ha : (reverseScan env false post).activeSegment = none)
    (hp : (reverseScan env false post).pendingRollbackTurns = 0) :
    reverseScan env false (pre ++ post) =
      (reverseScan env false pre).upon (reverseScan env false post) post := by
  induction pre with
  | nil => exact (init_upon post ha hp).symm
  | cons item newer ih =>
    rw [List.cons_append, reverseScan_false_cons, ih, scanItem_upon, reverseScan_false_cons]

lemma ReverseReplay.finish_upon (t s : ReverseReplay) (post : List RolloutItem) :
    (t.upon s post).finish = t.finish.upon s post := by
  cases h : t.activeSegment with
  | none =>
    have hover : (t.upon s post).activeSegment = none := h
    rw [finish_of_none h, finish_of_none hover]
  | some seg =>
    have hover : (t.upon s post).activeSegment = some seg := h
    rw [finish_of_some h, finish_of_some hover]
    exact finalizeActiveSegment_upon seg { t with activeSegment := none } s post

/-! ## The end of the loop -/

/-- The loop over all items knows enough after these, and did not before the last of them. -/
def FirstKnown (post : List RolloutItem) : Prop :=
  (reverseScan env false post).known = true ∧ (reverseScan env false post.tail).known = false

instance (post : List RolloutItem) : Decidable (FirstKnown env post) :=
  inferInstanceAs (Decidable (_ ∧ _))

lemma FirstKnown.at_start (h : FirstKnown env post) :
    (reverseScan env false post).activeSegment = none ∧
      (reverseScan env false post).pendingRollbackTurns = 0 := by
  obtain ⟨hk, ht⟩ := h
  cases post with
  | nil => cases hk
  | cons item newer => exact scanItem_becomes_known env ht hk

lemma known_append (h : (reverseScan env false post).known) (pre : List RolloutItem) :
    (reverseScan env false (pre ++ post)).known := by
  induction pre with
  | nil => exact h
  | cons item newer ih =>
    rw [List.cons_append, reverseScan_false_cons]
    exact known_scanItem env item ih

/-- **The end of the loop.**  Either all items are read, or the loop ends at the first point where
enough is known, and has then done what the loop over all items does to there. -/
theorem reverseScan_stops (items : List RolloutItem) :
    ((reverseScan env false items.tail).known = false ∧
        reverseScan env true items = reverseScan env false items) ∨
      ∃ pre post, items = pre ++ post ∧ pre ≠ [] ∧ FirstKnown env post ∧
        reverseScan env true items = reverseScan env false post := by
  induction items with
  | nil => exact .inl ⟨rfl, rfl⟩
  | cons item newer ih =>
    obtain ⟨htail, heq⟩ | ⟨pre, post, rfl, -, hfirst, heq⟩ := ih
    · cases hk : (reverseScan env false newer).known with
      | false =>
        refine .inl ⟨hk, ?_⟩
        simp only [reverseScan, heq, hk, Bool.and_false, Bool.false_eq_true, if_false]
      | true =>
        refine .inr ⟨[item], newer, rfl, List.cons_ne_nil _ _, ⟨hk, htail⟩, ?_⟩
        simp only [reverseScan, heq, hk, Bool.and_true, if_true]
    · refine .inr ⟨item :: pre, post, rfl, List.cons_ne_nil _ _, hfirst, ?_⟩
      rw [reverseScan, heq]
      simp only [hfirst.1, Bool.and_true, if_true]

/-- The point where the loop ends is the only one of its kind. -/
lemma reverseScan_of_firstKnown (h : FirstKnown env post) :
    reverseScan env true (pre ++ post) = reverseScan env false post := by
  induction pre with
  | nil =>
    obtain ⟨-, heq⟩ | ⟨pre', post', rfl, hne, hfirst, -⟩ := reverseScan_stops env post
    · exact heq
    · cases pre' with
      | nil => exact absurd rfl hne
      | cons item newer =>
        have hk := known_append env hfirst.1 newer
        rw [show newer ++ post' = (item :: newer ++ post').tail from rfl, h.2] at hk
        cases hk
  | cons item newer ih =>
    rw [List.cons_append, reverseScan, ih]
    simp only [h.1, Bool.and_true, if_true]

end Session
