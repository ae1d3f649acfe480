import CodexAgents.Session.Replay

/-!
# Ending the loop early

The loop from the newest item ends once it knows a base history, the settings of a turn and a
reference context.  More is returned than these, so what the older items would still have added has
to be looked at value by value.

* The settings and the reference context are the newest, and stay what they are.
* So does the world state: a base comes with a compaction, and this forgets older world states.
* The window is that of the newest compaction with a number, and this may be an older one than the
  compaction the base comes from.
* The items that are replayed go back further if there is an older compaction that leaves a history.
  If there is one among them that leaves none, the reference context is given up.

`early_exit_iff` says that the last two are all that can make a difference.
-/

namespace Session

open Text List Option ReverseReplay RolloutItem

variable (env : RolloutEnv)

/-- What would be returned if the loop always went to the first item. -/
def reconstructScanningAll (items : List RolloutItem) : RolloutReconstruction :=
  assemble env items (reverseScan env false items).finish

/-- Everything but the history is the same. -/
def RolloutReconstruction.SameState (a b : RolloutReconstruction) : Prop :=
  a.previousTurnSettings = b.previousTurnSettings ∧
    a.referenceContextItem = b.referenceContextItem ∧
    a.worldStateBaseline = b.worldStateBaseline ∧ a.window = b.window

instance (a b : RolloutReconstruction) : Decidable (a.SameState b) :=
  inferInstanceAs (Decidable (_ ∧ _))

/-! ## World states -/

variable {items : List RolloutItem}

lemma foldl_replayWorldState_of_compacted {c} (h : .compacted c ∈ items)
    (a b : Option WorldStateSnapshot) :
    items.foldl (replayWorldState env) a = items.foldl (replayWorldState env) b := by
  induction items generalizing a b with
  | nil => cases h
  | cons item items ih =>
    rw [foldl_cons, foldl_cons]
    obtain rfl | h := mem_cons.mp h
    · rfl
    · exact ih h _ _

variable {isOpen : Bool} {item : RolloutItem} {f : ActiveReplaySegment → ActiveReplaySegment}

/-- A turn keeps the compactions that it is given. -/
lemma change_worldStateReplay (h : item.change env isOpen = some f) (seg : ActiveReplaySegment) :
    seg.worldStateReplay ⊆ (f seg).worldStateReplay ∧
      ∀ c, item = .compacted c → .compacted c ∈ (f seg).worldStateReplay := by
  cases item with
  | compacted c =>
    obtain rfl := some_inj.mp h
    refine ⟨subset_append_left _ _, fun c' hc => ?_⟩
    rw [← hc]
    exact mem_append_right _ (mem_singleton_self _)
  | worldState w =>
    obtain rfl := some_inj.mp h
    exact ⟨subset_append_left _ _, fun _ => RolloutItem.noConfusion⟩
  | turnContext ctx =>
    obtain rfl := some_inj.mp h
    refine ⟨?_, fun _ => RolloutItem.noConfusion⟩
    simp only [ActiveReplaySegment.addTurnContext]
    split <;> exact fun _ hi => hi
  | eventMsg event =>
    refine ⟨?_, fun _ => RolloutItem.noConfusion⟩
    cases event with
    | turnAborted turnId =>
      by_cases hopen : (isOpen || turnId.isSome) = true
      · obtain rfl := some_inj.mp ((if_pos hopen).symm.trans h)
        exact fun _ hi => hi
      · cases (if_neg hopen).symm.trans h
    | turnComplete | userMessage => obtain rfl := some_inj.mp h; exact fun _ hi => hi
    | _ => cases h
  | responseItem | interAgentCommunication =>
    obtain rfl := some_inj.mp h
    exact ⟨fun _ hi => hi, fun _ => RolloutItem.noConfusion⟩
  | interAgentCommunicationMetadata | sessionMeta => cases h

/-- A base comes with a compaction among the items that make the world state. -/
def BaseIsCompacted (base : Option (List Envelope)) (worldStateReplay : List RolloutItem) : Prop :=
  base.isSome = true → ∃ c, .compacted c ∈ worldStateReplay

lemma BaseIsCompacted.change {seg}
    (h : BaseIsCompacted seg.baseReplacementHistory seg.worldStateReplay)
    (hf : item.change env isOpen = some f) :
    BaseIsCompacted (f seg).baseReplacementHistory (f seg).worldStateReplay := by
  obtain ⟨hsub, hitem⟩ := change_worldStateReplay env hf seg
  intro hb
  rw [change_base env hf, isSome_or, Bool.or_eq_true] at hb
  obtain hb | hb := hb
  · obtain ⟨c, hc⟩ := h hb
    exact ⟨c, hsub hc⟩
  · cases item with
    | compacted c => exact ⟨c, hitem c rfl⟩
    | _ => cases hb

/-- So it is for what has been found and for the turn that is being read. -/
structure ReverseReplay.BasesCompacted (s : ReverseReplay) : Prop where
  found : BaseIsCompacted s.baseReplacementHistory s.worldStateReplay
  active : ∀ seg, s.activeSegment = some seg →
    BaseIsCompacted seg.baseReplacementHistory seg.worldStateReplay

namespace ReverseReplay.BasesCompacted

variable {s : ReverseReplay}

lemma finalize (h : s.BasesCompacted) {seg}
    (hseg : s.activeSegment = some seg) :
    (finalizeActiveSegment seg { s with activeSegment := none }).BasesCompacted := by
  refine ⟨?_, fun seg' hseg' => ?_⟩
  · obtain hp | hp := Nat.eq_zero_or_pos s.pendingRollbackTurns
    · rw [finalizeActiveSegment_of_not_pending (s := { s with activeSegment := none }) hp]
      intro hb
      simp only [keep, isSome_or, Bool.or_eq_true] at hb ⊢
      obtain hb | hb := hb
      · obtain ⟨c, hc⟩ := h.found hb
        exact ⟨c, mem_append_left _ hc⟩
      · obtain ⟨c, hc⟩ := h.active seg hseg hb
        exact ⟨c, mem_append_right _ hc⟩
    · rw [finalizeActiveSegment_of_pending (s := { s with activeSegment := none }) hp]
      exact h.found
  · rw [finalizeActiveSegment_activeSegment] at hseg'
    cases hseg'

lemma scanItem (h : s.BasesCompacted) (newer : List RolloutItem) (item : RolloutItem) :
    (scanItem env newer s item).BasesCompacted := by
  cases itemView env s.activeSegment.isSome item with
  | rollback numTurns => exact ⟨h.found, h.active⟩
  | start turnId =>
    obtain hs | ⟨seg, hseg, -, hs⟩ := scanItem_turnStarted env newer s turnId
    · rw [hs]; exact h
    · rw [hs]; exact h.finalize hseg
  | change hf =>
    rw [scanItem_of_change env hf]
    refine ⟨h.found, fun seg hseg => ?_⟩
    obtain rfl := some_inj.mp hseg
    refine BaseIsCompacted.change env ?_ hf
    cases hs : s.activeSegment with
    | none => exact nofun
    | some seg => exact h.active seg hs
  | skip hf hr hs => rw [scanItem_of_skip env hf hr hs]; exact h

end ReverseReplay.BasesCompacted

lemma basesCompacted_reverseScan (items : List RolloutItem) :
    (reverseScan env false items).BasesCompacted := by
  induction items with
  | nil => exact ⟨nofun, fun _ h => (nomatch h)⟩
  | cons item newer ih => exact ih.scanItem env newer item

/-! ## What the older items add -/

variable (m : Turns)

/-- The window of the newest turn that stays and has one. -/
def Turns.window : Option ReconstructedWindow := m.kept.findSome? ActiveReplaySegment.window

/-- The reference context of the turns that stay. -/
def Turns.reference (m : Turns) : TurnReferenceContextItem :=
  m.kept.foldl (fun reference seg =>
    if seg.countsAsUserTurn = true ∨ seg.referenceContextItem = .cleared then
      reference.or seg.referenceContextItem
    else reference) .neverSet

lemma ReverseReplay.foldl_keep_window (segments : List ActiveReplaySegment) (s : ReverseReplay) :
    (segments.foldl keep s).window =
      s.window.or (segments.findSome? ActiveReplaySegment.window) := by
  induction segments generalizing s with
  | nil => simp
  | cons seg segments ih =>
    rw [foldl_cons, ih, findSome?_cons]
    simp only [keep, Option.or_assoc]
    cases seg.window <;> simp

lemma Turns.found_window : m.found.window = m.window := by
  simp [found, foldl_keep_window, window]

lemma Turns.found_reference : m.found.referenceContextItem = m.reference := by
  simp only [found, reference]
  generalize hs : ({} : ReverseReplay) = s
  rw [show TurnReferenceContextItem.neverSet = s.referenceContextItem from hs ▸ rfl]
  clear hs
  induction m.kept generalizing s with
  | nil => rfl
  | cons seg segments ih => exact ih (s.keep seg)

/-- The older part has no window, unless the newer one has, or it is the one taken by default. -/
def OlderWindowIrrelevant (pre post : List RolloutItem) : Prop :=
  (turns env post).window = none → ∀ w, (turns env pre).finish.window = some w →
      w = (initialWindow env (pre ++ post)).getD (fallbackWindow (pre ++ post))

/-- If there is a reference context, and no compaction without a history after the base of the newer
part, then there is none either after that of the older part. -/
def OlderCompactionsIrrelevant (pre post : List RolloutItem) : Prop :=
  ((turns env post).reference.toOption.isSome = true ∧
      ∀ suffix, (turns env post).replayed = some suffix → suffix.any isLegacyCompaction = false) →
    ∀ suffix, (turns env pre).replayed = some suffix →
      (suffix ++ post).any isLegacyCompaction = false

/-- The items that are replayed are the last ones. -/
lemma replayed_isSuffix {suffix}
    (h : (turns env items).replayed = some suffix) : suffix <:+ items := by
  induction items with
  | nil => cases h
  | cons item newer ih =>
    rw [turns, Turns.replayed_read] at h
    split at h
    · exact some_inj.mp h ▸ suffix_cons item newer
    · exact (ih h).trans (suffix_cons item newer)

lemma givenUp_eq_iff (reference : Option TurnContextItem) {stopped full : Bool}
    (h : stopped → full) :
    ((if stopped then none else reference) = if full then none else reference) ↔
      (reference.isSome ∧ stopped = false → full = false) := by
  cases reference with
  | none => simp
  | some ctx =>
    cases stopped with
    | true => simp [h rfl]
    | false => cases full <;> simp

section

variable {pre post : List RolloutItem} (h : FirstKnown env post)
include h

lemma FirstKnown.full_eq : (reverseScan env false (pre ++ post)).finish =
      (reverseScan env false pre).finish.upon (reverseScan env false post) post := by
  obtain ⟨ha, hp⟩ := h.at_start
  rw [reverseScan_append env ha hp, finish_upon]

lemma FirstKnown.stopped_eq :
    (reverseScan env true (pre ++ post)).finish = reverseScan env false post := by
  rw [reverseScan_of_firstKnown env h, finish_of_none h.at_start.1]

lemma FirstKnown.settings_eq :
    (reconstructHistoryFromRollout env (pre ++ post)).previousTurnSettings =
      (reconstructScanningAll env (pre ++ post)).previousTurnSettings := by
  obtain ⟨settings, hs⟩ := isSome_iff_exists.mp (known_iff.mp h.1).2.1
  rw [reconstructHistoryFromRollout, reconstructScanningAll, h.full_eq, h.stopped_eq]
  simp [assemble, upon, hs]

lemma FirstKnown.worldState_eq :
    (reconstructHistoryFromRollout env (pre ++ post)).worldStateBaseline =
      (reconstructScanningAll env (pre ++ post)).worldStateBaseline := by
  obtain ⟨c, hc⟩ := (basesCompacted_reverseScan env post).found (known_iff.mp h.1).1
  rw [reconstructHistoryFromRollout, reconstructScanningAll, h.full_eq, h.stopped_eq]
  simp only [assemble, upon, reverse_append, foldl_append]
  exact foldl_replayWorldState_of_compacted env (mem_reverse.mpr hc) _ _

lemma FirstKnown.window_eq_iff : (reconstructHistoryFromRollout env (pre ++ post)).window =
      (reconstructScanningAll env (pre ++ post)).window ↔ OlderWindowIrrelevant env pre post := by
  rw [reconstructHistoryFromRollout, reconstructScanningAll, h.full_eq, h.stopped_eq,
    reverseScan_finish, reverseScan_eq_found]
  simp only [assemble, upon, OlderWindowIrrelevant, Turns.found_window]
  cases (turns env post).window with
  | some w => simp
  | none =>
    cases (turns env pre).finish.window with
    | none => simp
    | some w => simp [eq_comm]

lemma FirstKnown.replayed_isSome : ∃ suffix, (turns env post).replayed = some suffix := by
  have hbase := base_finish h.1
  obtain ⟨-, -, suffix, hs⟩ := base_isSome env hbase
  rw [finish_rolloutSuffix, reverseScan_eq_found] at hs
  exact ⟨suffix, hs⟩

lemma FirstKnown.reference_eq_iff :
    (reconstructHistoryFromRollout env (pre ++ post)).referenceContextItem =
        (reconstructScanningAll env (pre ++ post)).referenceContextItem ↔
      OlderCompactionsIrrelevant env pre post := by
  obtain ⟨suffix, hs⟩ := h.replayed_isSome
  have hfound : (turns env post).found.rolloutSuffix = some suffix := hs
  have hpre : (turns env pre).finish.found.rolloutSuffix = (turns env pre).replayed := by
    rw [← reverseScan_finish, finish_rolloutSuffix, reverseScan_eq_found]
    rfl
  have href : (turns env post).reference ≠ .neverSet := by
    rw [← Turns.found_reference, ← reverseScan_eq_found]
    exact (known_iff.mp h.1).2.2
  rw [reconstructHistoryFromRollout, reconstructScanningAll, h.full_eq, h.stopped_eq,
    reverseScan_finish, reverseScan_eq_found]
  simp only [assemble, upon, hpre, hfound, Turns.found_reference,
    TurnReferenceContextItem.or_ne_neverSet href, OlderCompactionsIrrelevant, hs,
    getD_some]
  cases (turns env pre).replayed with
  | none => simp
  | some older =>
    -- what is replayed after the base is part of what would be replayed
    have hsub : suffix.any isLegacyCompaction → (older ++ post).any isLegacyCompaction := by
      intro hany
      obtain ⟨item, hmem, hitem⟩ := any_eq_true.mp hany
      have hpost := (replayed_isSuffix env hs).subset hmem
      exact any_eq_true.mpr ⟨item, mem_append_right _ hpost, hitem⟩
    simp only [map_some, some_or, getD_some, some.injEq, forall_eq']
    exact givenUp_eq_iff _ hsub

lemma FirstKnown.sameState_iff : (reconstructHistoryFromRollout env (pre ++ post)).SameState
        (reconstructScanningAll env (pre ++ post)) ↔
      OlderWindowIrrelevant env pre post ∧ OlderCompactionsIrrelevant env pre post := by
  rw [RolloutReconstruction.SameState, h.reference_eq_iff, h.window_eq_iff]
  exact ⟨fun ⟨_, hr, _, hw⟩ => ⟨hw, hr⟩, fun ⟨hw, hr⟩ => ⟨h.settings_eq, hr, h.worldState_eq, hw⟩⟩

end

/-- **Ending the loop early.**  All that is returned besides the history is the same as for a loop
over all items, unless the items before the end of the loop have a window and the others do not, or
have a compaction that would have made the reference context be given up. -/
theorem early_exit_iff (items : List RolloutItem) :
    (reconstructHistoryFromRollout env items).SameState (reconstructScanningAll env items) ↔
      ∀ pre post, items = pre ++ post → FirstKnown env post →
        OlderWindowIrrelevant env pre post ∧ OlderCompactionsIrrelevant env pre post := by
  constructor
  · rintro hsame pre post rfl hfirst
    exact hfirst.sameState_iff.mp hsame
  · intro hall
    obtain ⟨-, heq⟩ | ⟨pre, post, rfl, -, hfirst, -⟩ := reverseScan_stops env items
    · rw [reconstructHistoryFromRollout, heq]
      exact ⟨rfl, rfl, rfl, rfl⟩
    · exact hfirst.sameState_iff.mpr (hall pre post rfl hfirst)

/-- A turn with one user message that is compacted. -/
def compactedTurn (turnId : Str) (windowNumber : Option Nat) : List RolloutItem :=
  [.eventMsg (.turnStarted turnId), .eventMsg (.userMessage "a"),
    .turnContext ⟨some turnId, "model", none, none, []⟩,
    .compacted ⟨[], some [], windowNumber, none, none, none⟩, .eventMsg (.turnComplete turnId)]

/-- The compaction of the newer turn has no window number.  The number is then that of the older
one, unless the loop has ended. -/
theorem early_exit_misses_window : (reconstructHistoryFromRollout plainEnv
        (compactedTurn "1" (some 7) ++ compactedTurn "2" none)).window.number = 2 ∧
      (reconstructScanningAll plainEnv
        (compactedTurn "1" (some 7) ++ compactedTurn "2" none)).window.number = 7 := by
  decide

end Session
