import CodexAgents.Session.Scan

/-!
# The turns of a rollout

The loop from the newest item has two tasks: it cuts the rollout into turns, of which some are taken
back by later rollbacks, and it sums up what the others have to say.  Here is the first task alone
(`turns`), with every turn and whether it stays.  What the loop finds is a function of these
(`reverseScan_eq_found`): the sum over the turns that stay, and the items after a compaction of the
oldest turn that has one — whether it stays or not.
-/

namespace Session

open Text ReverseReplay

variable (env : RolloutEnv)

/-- The history that a compaction leaves, and the items after it. -/
abbrev Checkpoint := List Envelope × List RolloutItem

/-- A turn, and the newest of its compactions that leave a history. -/
structure Turn where
  segment : ActiveReplaySegment := {}
  checkpoint : Option Checkpoint := none

/-- One more item of a turn. -/
def Turn.add (turn : Turn) (newer : List RolloutItem) (item : RolloutItem)
    (change : ActiveReplaySegment → ActiveReplaySegment) : Turn where
  segment := change turn.segment
  checkpoint := turn.checkpoint.or (item.replacement?.map (·, newer))

/-- The turns of a rollout, from its end on. -/
structure Turns where
  /-- How many turns are still to be taken back. -/
  pending : Nat := 0
  /-- A turn of which the start has not been reached. -/
  openTurn : Option Turn := none
  /-- The others, newest first, and whether they stay. -/
  closed : List (Turn × Bool) := []

namespace Turns

variable (m : Turns)

/-- The start of a turn is reached. -/
def close (turn : Turn) : Turns :=
  if 0 < m.pending then
    { openTurn := none
      pending := if turn.segment.countsAsUserTurn then m.pending - 1 else m.pending
      closed := m.closed ++ [(turn, false)] }
  else { m with openTurn := none, closed := m.closed ++ [(turn, true)] }

/-- One more item. -/
def read (newer : List RolloutItem) (item : RolloutItem) : Turns :=
  match item with
  | .eventMsg (.threadRolledBack numTurns) =>
    { m with pending := min (m.pending + min numTurns usizeMax) usizeMax }
  | .eventMsg (.turnStarted turnId) =>
    match m.openTurn with
    | some turn =>
      if turnIdsAreCompatible turn.segment.turnId (some turnId) then m.close turn else m
    | none => m
  | item =>
    match item.change env m.openTurn.isSome with
    | some change => { m with openTurn := some ((m.openTurn.getD {}).add newer item change) }
    | none => m

/-- The oldest turn may be without a start. -/
def finish : Turns :=
  match m.openTurn with
  | some turn => m.close turn
  | none => m

/-- The turns that stay, newest first. -/
def kept : List ActiveReplaySegment := (m.closed.filter Prod.snd).map fun (turn, _) => turn.segment

/-- All turns. -/
def all : List Turn := m.closed.map Prod.fst ++ m.openTurn.toList

/-- One for each turn that has one, newest first. -/
def checkpoints : List Checkpoint := m.all.filterMap Turn.checkpoint

/-- The items after the checkpoint of the oldest turn that has one. -/
def replayed : Option (List RolloutItem) := m.checkpoints.getLast?.map Prod.snd

/-- The values that the loop finds. -/
def found : ReverseReplay :=
  { m.kept.foldl ReverseReplay.keep {} with
    pendingRollbackTurns := m.pending
    rolloutSuffix := m.replayed
    activeSegment := m.openTurn.map Turn.segment }

end Turns

/-- The turns of a rollout. -/
def turns : List RolloutItem → Turns
  | [] => {}
  | item :: newer => (turns newer).read env newer item

/-! ## Reading an item -/

variable {m : Turns}

namespace Turns

variable {newer : List RolloutItem} {item : RolloutItem}

lemma read_of_change {f}
    (h : item.change env m.openTurn.isSome = some f) :
    m.read env newer item =
      { m with openTurn := some ((m.openTurn.getD {}).add newer item f) } := by
  unfold read
  split
  · cases h
  · cases h
  · rw [h]

lemma read_of_skip (h : item.change env m.openTurn.isSome = none)
    (hr : ∀ numTurns, item ≠ .eventMsg (.threadRolledBack numTurns))
    (hs : ∀ turnId, item ≠ .eventMsg (.turnStarted turnId)) : m.read env newer item = m := by
  unfold read
  split
  · exact absurd rfl (hr _)
  · exact absurd rfl (hs _)
  · rw [h]

lemma read_start (m : Turns) (newer : List RolloutItem) (turnId : Str) :
    m.read env newer (.eventMsg (.turnStarted turnId)) = m ∨ ∃ turn, m.openTurn = some turn ∧
        m.read env newer (.eventMsg (.turnStarted turnId)) = m.close turn := by
  simp only [read]
  cases hopen : m.openTurn with
  | none => exact .inl rfl
  | some turn =>
    dsimp only
    split
    · exact .inr ⟨turn, rfl, rfl⟩
    · exact .inl rfl

lemma close_openTurn (m : Turns) (turn : Turn) : (m.close turn).openTurn = none := by
  unfold close
  split <;> rfl

lemma all_close {turn} (h : m.openTurn = some turn) : (m.close turn).all = m.all := by
  unfold close
  split <;> simp [all, h]

lemma finish_openTurn (m : Turns) : m.finish.openTurn = none := by
  cases h : m.openTurn with
  | none => simp [finish, h]
  | some turn => simp [finish, h, close_openTurn]

lemma all_finish (m : Turns) : m.finish.all = m.all := by
  cases h : m.openTurn with
  | none => simp [finish, h]
  | some turn => simp [finish, h, all_close h]

lemma checkpoints_finish (m : Turns) : m.finish.checkpoints = m.checkpoints := by
  rw [checkpoints, all_finish, checkpoints]

lemma checkpoints_eq (m : Turns) :
    m.checkpoints = (m.closed.map Prod.fst).filterMap Turn.checkpoint ++
      (m.openTurn.getD {}).checkpoint.toList := by
  rw [checkpoints, all, List.filterMap_append]
  cases hopen : m.openTurn with
  | none => rfl
  | some turn => cases hc : turn.checkpoint <;> simp [hc]

/-- A checkpoint is added by the first item of a turn, in the order of reading, that leaves a
history. -/
lemma checkpoints_read (m : Turns) (newer : List RolloutItem) (item : RolloutItem) :
    (m.read env newer item).checkpoints = if (m.openTurn.getD {}).checkpoint.isNone then
        m.checkpoints ++ (item.replacement?.map (·, newer)).toList
      else m.checkpoints := by
  have hsame : ∀ m' : Turns, m'.checkpoints = m.checkpoints → item.replacement? = none →
      m'.checkpoints = if (m.openTurn.getD {}).checkpoint.isNone then
          m.checkpoints ++ (item.replacement?.map (·, newer)).toList
        else m.checkpoints :=
    fun m' h hr => by rw [h, hr]; simp
  cases itemView env m.openTurn.isSome item with
  | rollback numTurns => exact hsame _ rfl rfl
  | start turnId =>
    obtain h | ⟨turn, hopen, h⟩ := read_start env m newer turnId
    · exact hsame _ (by rw [h]) rfl
    · refine hsame _ ?_ rfl
      rw [h, checkpoints, all_close hopen, checkpoints]
  | change h =>
    rw [read_of_change env h, checkpoints_eq, checkpoints_eq]
    simp only [Option.getD_some, Turn.add]
    cases (m.openTurn.getD {}).checkpoint with
    | none | some => simp
  | skip h hr hs =>
    rw [read_of_skip env h hr hs]
    exact hsame m rfl (replacement?_of_change_eq_none env h)

end Turns

/-- The base of a turn is that of its checkpoint. -/
def Turn.Ok (turn : Turn) : Prop :=
  turn.segment.baseReplacementHistory = turn.checkpoint.map Prod.fst

lemma Turn.Ok.add {turn : Turn} (h : turn.Ok) {isOpen item f} (hf : item.change env isOpen = some f)
    (newer : List RolloutItem) : (turn.add newer item f).Ok := by
  simp only [Ok, Turn.add, change_base env hf]
  rw [show turn.segment.baseReplacementHistory = _ from h]
  cases turn.checkpoint with
  | none => cases item.replacement? <;> rfl
  | some c => rfl

lemma Turns.ok_read {m : Turns} (h : ∀ turn ∈ m.all, turn.Ok) (newer : List RolloutItem)
    (item : RolloutItem) : ∀ turn ∈ (m.read env newer item).all, turn.Ok := by
  cases itemView env m.openTurn.isSome item with
  | rollback numTurns => exact h
  | start turnId =>
    obtain hr | ⟨turn, hopen, hr⟩ := read_start env m newer turnId
    · rw [hr]; exact h
    · rw [hr, all_close hopen]; exact h
  | change hf =>
    rw [read_of_change env hf]
    obtain ⟨hclosed, hopen⟩ := List.forall_mem_append.mp h
    refine List.forall_mem_append.mpr ⟨hclosed, List.forall_mem_singleton.mpr ?_⟩
    refine Turn.Ok.add env ?_ hf newer
    cases hm : m.openTurn with
    | none => rfl
    | some turn => exact hopen turn (by simp [hm])
  | skip hf hr hs => rw [read_of_skip env hf hr hs]; exact h

lemma turns_ok (items : List RolloutItem) : ∀ turn ∈ (turns env items).all, turn.Ok := by
  induction items with
  | nil => intro turn hturn; cases hturn
  | cons item newer ih => exact Turns.ok_read env ih newer item

/-! ## The loop and the turns -/

namespace Turns

lemma found_isSome (m : Turns) : m.found.activeSegment.isSome = m.openTurn.isSome :=
  Option.isSome_map

lemma found_getD (m : Turns) : m.found.activeSegment.getD {} = (m.openTurn.getD {}).segment := by
  simp only [found]
  cases m.openTurn <;> rfl

lemma kept_close_of_pending (h : 0 < m.pending) (turn : Turn) : (m.close turn).kept = m.kept := by
  simp [close, if_pos h, kept]

lemma kept_close_of_not_pending (h : m.pending = 0) (turn : Turn) :
    (m.close turn).kept = m.kept ++ [turn.segment] := by
  simp [close, h, kept]

lemma found_close {turn} (h : m.openTurn = some turn) :
    finalizeActiveSegment turn.segment { m.found with activeSegment := none } =
      (m.close turn).found := by
  have hreplayed : (m.close turn).replayed = m.replayed := by
    rw [replayed, checkpoints, all_close h, replayed, checkpoints]
  obtain hp | hp := Nat.eq_zero_or_pos m.pending
  · rw [finalizeActiveSegment_of_not_pending (s := { m.found with activeSegment := none }) hp,
      found, found, kept_close_of_not_pending hp, hreplayed, List.foldl_append]
    simp [close, hp, keep]
  · rw [finalizeActiveSegment_of_pending (s := { m.found with activeSegment := none }) hp, found,
      found, kept_close_of_pending hp, hreplayed]
    simp [close, if_pos hp]

lemma finish_found (m : Turns) : m.found.finish = m.finish.found := by
  cases h : m.openTurn with
  | none =>
    have hseg : m.found.activeSegment = none := by simp [found, h]
    rw [finish_of_none hseg, finish, h]
  | some turn =>
    have hseg : m.found.activeSegment = some turn.segment := by simp [found, h]
    rw [finish_of_some hseg, found_close h, finish, h]

lemma adds_found (hok : ∀ turn ∈ m.all, turn.Ok) (item : RolloutItem) : m.found.adds item =
      ((m.openTurn.getD {}).checkpoint.isNone && item.replacement?.isSome) := by
  have hopen : (m.openTurn.getD {}).Ok := by
    cases hm : m.openTurn with
    | none => rfl
    | some turn => exact hok turn (List.mem_append_right _ (by simp [hm]))
  rw [adds, found_getD, hopen, Option.isNone_map]

lemma replayed_read (m : Turns) (newer : List RolloutItem) (item : RolloutItem) :
    (m.read env newer item).replayed =
      if (m.openTurn.getD {}).checkpoint.isNone && item.replacement?.isSome then some newer
      else m.replayed := by
  rw [replayed, checkpoints_read, replayed]
  cases (m.openTurn.getD {}).checkpoint with
  | some c => simp
  | none => cases item.replacement? <;> simp

lemma scanItem_found (hok : ∀ turn ∈ m.all, turn.Ok) (newer : List RolloutItem)
    (item : RolloutItem) : scanItem env newer m.found item = (m.read env newer item).found := by
  cases itemView env m.openTurn.isSome item with
  | rollback numTurns => rfl
  | start turnId =>
    cases hopen : m.openTurn with
    | none => simp [scanItem, read, found, hopen]
    | some turn =>
      have hseg : m.found.activeSegment = some turn.segment := by simp [found, hopen]
      simp only [scanItem, read, hopen, hseg]
      split
      · exact found_close hopen
      · rfl
  | change h =>
    have hreplayed := replayed_read env m newer item
    rw [← adds_found hok, read_of_change env h] at hreplayed
    rw [scanItem_of_change env (by rw [found_isSome]; exact h), read_of_change env h,
      onActive, found_getD]
    simp only [found] at hreplayed ⊢
    rw [hreplayed]
    rfl
  | skip h hr hs =>
    rw [scanItem_of_skip env (by rw [found_isSome]; exact h) hr hs, read_of_skip env h hr hs]

end Turns

/-- **The loop and the turns.**  What a loop over all items finds is what the turns say. -/
theorem reverseScan_eq_found (items : List RolloutItem) :
    reverseScan env false items = (turns env items).found := by
  induction items with
  | nil => rfl
  | cons item newer ih =>
    rw [reverseScan_false_cons, ih, Turns.scanItem_found env (turns_ok env newer), turns]

lemma reverseScan_finish (items : List RolloutItem) :
    (reverseScan env false items).finish = (turns env items).finish.found := by
  rw [reverseScan_eq_found, Turns.finish_found]

end Session
