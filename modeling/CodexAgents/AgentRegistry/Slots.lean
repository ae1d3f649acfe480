import CodexAgents.AgentRegistry.Registry
import CodexAgents.Lib.Run

/-!
# Slots that are neither leaked nor counted twice

The count should be that of the live reservations and the registered agents other than the root, the
two tables should be inverse to each other, and a path without a thread should be that of a live
reservation (`SlotsExact`).  A commit for a thread that is registered already takes a slot and
registers nobody new, so that the slot is never given back (`resumed_thread_leaks_slot`).  The same
goes for a commit that takes the path of another agent.  `slots_exact_iff` says for each move when
it keeps the slots exact; with nothing else to it, no run loses a slot.
-/

namespace AgentRegistry

open Text Run List Option HashMap AgentMetadata Registry ActiveAgents

/-! ## Exact slots -/

/-- The caller holds a slot. -/
def Task.isReserved : Task → Bool
  | .reserved _ => true
  | _ => false

/-- The caller has yet to give it back. -/
def Task.isDecrementing : Task → Bool
  | .decrementing => true
  | _ => false

variable {ThreadId : Type}

section

/-- An agent of `live_agents`. -/
def AgentMetadata.counts (metadata : AgentMetadata ThreadId) : Bool :=
  metadata.agentId.isSome && !metadata.isRoot

variable (active : ActiveAgents ThreadId)

/-- How many agents other than the root are registered. -/
def ActiveAgents.registeredAgents : Nat := count counts active.agentTree

/-- The agent of a key is one that counts. -/
def ActiveAgents.CountsAt (key : Str) : Prop := (get active.agentTree key).any counts = true

/-- The key has been reserved, and has no thread yet. -/
def ActiveAgents.PlaceholderAt (key : Str) : Prop :=
  ∃ metadata, get active.agentTree key = some metadata ∧ metadata.agentId = none

namespace Registry

variable (s : Registry ThreadId)

/-- How many slots are held. -/
def liveReservations : Nat := s.tasks.countP Task.isReserved

/-- How many have yet to be given back. -/
def decrementsUnderWay : Nat := s.tasks.countP Task.isDecrementing

/-- The task holds a reservation with this path. -/
def Reserves (i : Nat) (key : Str) : Prop := s.tasks[i]? = some (.reserved ⟨some key⟩)

end Registry

variable [DecidableEq ThreadId]

/-- The tables are inverse to each other. -/
def ActiveAgents.Inverse (active : ActiveAgents ThreadId) : Prop :=
  ∀ threadId key, get active.threadPaths threadId = some key ↔
    ∃ metadata, get active.agentTree key = some metadata ∧ metadata.agentId = some threadId

/-- **Slots are neither leaked nor counted twice.**  A slot that is about to be given back is
counted until then; between operations there is none. -/
structure SlotsExact (s : Registry ThreadId) : Prop where
  count : s.totalCount.toNat = s.liveReservations + s.decrementsUnderWay + s.active.registeredAgents
  inverse : s.active.Inverse
  /-- No placeholder survives its reservation. -/
  placeholders : ∀ key, s.active.PlaceholderAt key → ∃ i, s.Reserves i key

end

/-! ## Counting tasks -/

/-- The task holds a slot of the count. -/
def Task.holds (task : Task) : Bool := task.isReserved || task.isDecrementing

lemma countP_holds {ThreadId : Type} (s : Registry ThreadId) :
    s.liveReservations + s.decrementsUnderWay = s.tasks.countP Task.holds := by
  rw [liveReservations, decrementsUnderWay]
  induction s.tasks with
  | nil => rfl
  | cons task tasks ih =>
    simp only [countP_cons]
    have htask : (if task.isReserved then 1 else 0) +
        (if task.isDecrementing then 1 else 0) = if task.holds then 1 else 0 := by
      cases task <;> rfl
    omega

lemma countP_set_add {α : Type} (p : α → Bool) {l : List α} {i a} (b : α)
    (h : l[i]? = some a) : (l.set i b).countP p + (p a).toNat = l.countP p + (p b).toNat := by
  induction l generalizing i with
  | nil => cases h
  | cons x l ih =>
    obtain _ | i := i
    · obtain rfl := some_inj.mp h
      simp only [set_cons_zero, countP_cons, Bool.toNat, Bool.cond_eq_ite]
      omega
    · have htail := ih h
      simp only [set_cons_succ, countP_cons]
      omega

lemma countP_concat {α : Type} (p : α → Bool) (l : List α) (a : α) :
    (l ++ [a]).countP p = l.countP p + (p a).toNat := by
  rw [countP_append, countP_singleton, Bool.toNat, Bool.cond_eq_ite]

/-! ## The tables -/

section

variable {metadata : AgentMetadata ThreadId}

lemma counts_of_agentId_eq_none (h : metadata.agentId = none) : metadata.counts = false := by
  rw [counts, h]
  rfl

/-- An entry that does not count comes and goes without notice. -/
lemma count_eq_of_not_counts (tree : HashMap Str (AgentMetadata ThreadId)) (key : Str)
    (h : (get tree key).any counts = false) :
    count counts tree = count counts (tree.erase key) := by
  rw [count_eq _ tree key, h, Bool.toNat_false, zero_add]

variable [DecidableEq ThreadId] {active : ActiveAgents ThreadId}

/-! ### Reserved paths -/

lemma reserveAgentPath_spec (h : active.Inverse) {path}
    (hfree : get active.agentTree path = none) :
    ∃ active', reserveAgentPath active path = .ok active' ∧ active'.Inverse ∧
      active'.registeredAgents = active.registeredAgents ∧
      ∀ key, active'.PlaceholderAt key ↔ key = path ∨ active.PlaceholderAt key := by
  refine ⟨_, by rw [reserveAgentPath, hfree], fun threadId key => ?_, ?_, fun key => ?_⟩
  · refine (h threadId key).trans ?_
    simp only [get_insert_eq_some]
    constructor
    · rintro ⟨metadata, hget, hid⟩
      refine ⟨metadata, .inr ⟨?_, hget⟩, hid⟩
      rintro rfl
      cases hfree.symm.trans hget
    · rintro ⟨metadata, ⟨-, rfl⟩ | ⟨-, hget⟩, hid⟩
      · cases hid
      · exact ⟨metadata, hget, hid⟩
  · rw [registeredAgents, HashMap.count_insert, registeredAgents,
      count_eq_of_not_counts active.agentTree path (by rw [hfree]; rfl)]
    exact zero_add _
  · simp only [ActiveAgents.PlaceholderAt, get_insert_eq_some]
    constructor
    · rintro ⟨metadata, ⟨rfl, -⟩ | ⟨-, hget⟩, hid⟩
      · exact .inl rfl
      · exact .inr ⟨metadata, hget, hid⟩
    · rintro (rfl | ⟨metadata, hget, hid⟩)
      · exact ⟨_, .inl ⟨rfl, rfl⟩, rfl⟩
      · refine ⟨metadata, .inr ⟨?_, hget⟩, hid⟩
        rintro rfl
        cases hfree.symm.trans hget

lemma releaseReservedAgentPath_spec (h : active.Inverse) (path : AgentPath) :
    (releaseReservedAgentPath active path).Inverse ∧
      (releaseReservedAgentPath active path).registeredAgents = active.registeredAgents ∧
      ∀ key, (releaseReservedAgentPath active path).PlaceholderAt key →
        key ≠ path ∧ active.PlaceholderAt key := by
  rw [releaseReservedAgentPath]
  split
  · rename_i hplaceholder
    obtain ⟨metadata, hget, hnone⟩ := (any_eq_true _ _).mp hplaceholder
    rw [isNone_iff_eq_none] at hnone
    refine ⟨fun threadId key => ?_, ?_, ?_⟩
    · refine (h threadId key).trans ?_
      simp only [get_erase_eq_some]
      constructor
      · rintro ⟨metadata', hget', hid⟩
        refine ⟨metadata', ⟨?_, hget'⟩, hid⟩
        rintro rfl
        rw [get_unique hget' hget, hnone] at hid
        cases hid
      · rintro ⟨metadata', ⟨-, hget'⟩, hid⟩
        exact ⟨metadata', hget', hid⟩
    · refine (count_eq_of_not_counts active.agentTree _ ?_).symm
      rw [hget, any_some, counts_of_agentId_eq_none hnone]
    · rintro key ⟨metadata', hget', hid⟩
      obtain ⟨hne, hget'⟩ := get_erase_eq_some.mp hget'
      exact ⟨hne, metadata', hget', hid⟩
  · rename_i hkept
    refine ⟨h, rfl, fun key hplaceholder => ⟨?_, hplaceholder⟩⟩
    rintro rfl
    obtain ⟨metadata, hget, hid⟩ := hplaceholder
    rw [hget, any_some, hid] at hkept
    exact hkept rfl

/-! ### Threads -/

lemma releaseSpawnedThread_spec (h : active.Inverse) (threadId : ThreadId) :
    (releaseSpawnedThread active threadId).2.Inverse ∧
      active.registeredAgents = (releaseSpawnedThread active threadId).1.toNat +
        (releaseSpawnedThread active threadId).2.registeredAgents ∧
      ∀ key, (releaseSpawnedThread active threadId).2.PlaceholderAt key →
        active.PlaceholderAt key := by
  rw [releaseSpawnedThread]
  rcases hpath : get active.threadPaths threadId with _ | key
  · exact ⟨h, (zero_add _).symm, fun _ => id⟩
  · obtain ⟨metadata, hget, hid⟩ := (h threadId key).mp hpath
    have hcounts : metadata.counts = !metadata.isRoot := by
      rw [counts, hid]
      rfl
    refine ⟨fun threadId' key' => ?_, ?_, ?_⟩
    · simp only [get_erase_eq_some]
      constructor
      · rintro ⟨hne, hpath'⟩
        obtain ⟨metadata', hget', hid'⟩ := (h threadId' key').mp hpath'
        refine ⟨metadata', ⟨?_, hget'⟩, hid'⟩
        rintro rfl
        rw [get_unique hget' hget, hid] at hid'
        exact hne (some_inj.mp hid').symm
      · rintro ⟨metadata', ⟨hne, hget'⟩, hid'⟩
        have hpath' := (h threadId' key').mpr ⟨metadata', hget', hid'⟩
        refine ⟨?_, hpath'⟩
        rintro rfl
        exact hne (get_unique hpath' hpath)
    · simp only [registeredAgents, hget, any_some]
      rw [count_eq _ active.agentTree key, hget, any_some, hcounts]
    · rintro key' ⟨metadata', hget', hid'⟩
      exact ⟨metadata', (get_erase_eq_some.mp hget').2, hid'⟩

/-- The root can be registered unless its thread has another path. -/
lemma registerRootThread_spec (h : active.Inverse) (threadId : ThreadId) :
    ((registerRootThread active threadId).Inverse ↔ (get active.agentTree rootPath = none →
          get active.threadPaths threadId = none)) ∧
      (registerRootThread active threadId).registeredAgents = active.registeredAgents ∧
      ∀ key, (registerRootThread active threadId).PlaceholderAt key → active.PlaceholderAt key := by
  rw [registerRootThread]
  rcases hroot : get active.agentTree rootPath with _ | root
  · refine ⟨⟨fun h' _ => ?_, fun hfree threadId' key => ?_⟩, ?_, ?_⟩
    · by_contra hne
      obtain ⟨key, hpath⟩ := ne_none_iff_exists'.mp hne
      obtain ⟨metadata, hget, hid⟩ := (h threadId key).mp hpath
      have hkey : key ≠ rootPath := by
        rintro rfl
        cases hroot.symm.trans hget
      have hpath' := (h' threadId key).mpr
        ⟨metadata, get_insert_eq_some.mpr (.inr ⟨hkey, hget⟩), hid⟩
      obtain ⟨-, heq⟩ | ⟨hne', -⟩ := get_insert_eq_some.mp hpath'
      · exact hkey heq
      · exact hne' rfl
    · simp only [get_insert_eq_some]
      constructor
      · rintro (⟨rfl, rfl⟩ | ⟨hne, hpath⟩)
        · exact ⟨_, .inl ⟨rfl, rfl⟩, rfl⟩
        · obtain ⟨metadata, hget, hid⟩ := (h threadId' key).mp hpath
          refine ⟨metadata, .inr ⟨?_, hget⟩, hid⟩
          rintro rfl
          cases hroot.symm.trans hget
      · rintro ⟨metadata, ⟨rfl, rfl⟩ | ⟨hne, hget⟩, hid⟩
        · exact .inl ⟨(some_inj.mp hid).symm, rfl⟩
        · have hpath := (h threadId' key).mpr ⟨metadata, hget, hid⟩
          refine .inr ⟨?_, hpath⟩
          rintro rfl
          cases (hfree rfl).symm.trans hpath
    · rw [registeredAgents, HashMap.count_insert, registeredAgents,
        count_eq_of_not_counts active.agentTree rootPath (by rw [hroot]; rfl)]
      exact zero_add _
    · rintro key ⟨metadata, hget, hid⟩
      obtain ⟨-, rfl⟩ | ⟨-, hget⟩ := get_insert_eq_some.mp hget
      · cases hid
      · exact ⟨metadata, hget, hid⟩
  · dsimp only
    rcases hid : root.agentId with _ | rootThreadId
    · exact ⟨iff_of_true h fun hnone => (some_ne_none root hnone).elim, rfl, fun _ => id⟩
    · refine ⟨iff_of_true (fun threadId' key => ?_) fun hnone =>
        (some_ne_none root hnone).elim, rfl, fun _ => id⟩
      have hpath := (h rootThreadId rootPath).mpr ⟨root, hroot, hid⟩
      rw [← h threadId' key]
      simp only [get_insert_eq_some]
      constructor
      · rintro (⟨rfl, rfl⟩ | ⟨-, hpath'⟩)
        · exact hpath
        · exact hpath'
      · intro hpath'
        obtain rfl | hne := eq_or_ne threadId' rootThreadId
        · exact .inl ⟨rfl, get_unique hpath' hpath⟩
        · exact .inr ⟨hne, hpath'⟩

/-! ### Commits -/

/-- Of the entries with another key, those of the thread are gone. -/
lemma get_leavePreviousKey (h : active.Inverse) (threadId : ThreadId) {key key'} :
    get (leavePreviousKey active threadId key) key' = some metadata ↔
      get active.agentTree key' = some metadata ∧
        (key' = key ∨ metadata.agentId ≠ some threadId) := by
  rw [leavePreviousKey]
  have hown : get active.agentTree key' = some metadata →
      (metadata.agentId = some threadId ↔ get active.threadPaths threadId = some key') := by
    intro hget
    rw [h threadId key']
    constructor
    · exact fun hid => ⟨metadata, hget, hid⟩
    · rintro ⟨metadata', hget', hid⟩
      rwa [get_unique hget hget']
  rcases hpath : get active.threadPaths threadId with _ | previousKey
  · refine (and_iff_left_of_imp fun hget => .inr fun hid => ?_).symm
    rw [hown hget, hpath] at hid
    cases hid
  · dsimp only
    split
    · rename_i hne
      rw [get_erase_eq_some, and_comm]
      refine and_congr_right fun hget => ?_
      rw [Ne, Ne, hown hget, hpath, some_inj]
      constructor
      · exact fun hne' => .inr fun heq => hne' heq.symm
      · rintro (rfl | hne') heq
        · exact hne heq.symm
        · exact hne' heq.symm
    · rename_i heq
      refine (and_iff_left_of_imp fun hget => ?_).symm
      by_cases hid : metadata.agentId = some threadId
      · rw [hown hget, hpath, some_inj] at hid
        exact .inl (hid.symm.trans (not_not.mp heq))
      · exact .inr hid

lemma get_leavePreviousKey_self (threadId : ThreadId) (key : Str) :
    get (leavePreviousKey active threadId key) key = get active.agentTree key := by
  rw [leavePreviousKey]
  split
  · split_ifs with hne
    · rw [get_erase, Function.update_of_ne (Ne.symm hne)]
    · rfl
  · rfl

lemma get_displaceThread (h : active.Inverse) {threadId threadId' key key'} :
    get (displaceThread (active.threadPaths.insert threadId key)
        ((get active.agentTree key).bind (·.agentId)) threadId) threadId' = some key' ↔
      (threadId' = threadId ∧ key' = key) ∨ (threadId' ≠ threadId ∧ key' ≠ key ∧
        get active.threadPaths threadId' = some key') := by
  have hkey : get active.threadPaths threadId' = some key' →
      (key' = key ↔ (get active.agentTree key).bind (·.agentId) = some threadId') := by
    intro hpath
    rw [bind_eq_some_iff, ← h threadId' key]
    exact ⟨fun heq => heq ▸ hpath, get_unique hpath⟩
  generalize (get active.agentTree key).bind (·.agentId) = displaced at hkey
  obtain _ | previous := displaced
  · rw [displaceThread, get_insert_eq_some]
    refine or_congr_right (and_congr_right fun _ => (and_iff_right_of_imp fun hpath => ?_).symm)
    rw [Ne, hkey hpath]
    exact some_ne_none threadId' ∘ Eq.symm
  · rw [displaceThread]
    split
    · rename_i hne
      rw [get_erase_eq_some, get_insert_eq_some, and_or_left]
      refine or_congr (and_iff_right_of_imp ?_) ?_
      · rintro ⟨rfl, -⟩
        exact Ne.symm hne
      · rw [and_left_comm]
        refine and_congr_right fun _ => and_congr_left fun hpath => ?_
        rw [Ne, Ne, hkey hpath, some_inj, eq_comm]
    · rename_i heq
      rw [get_insert_eq_some]
      refine or_congr_right (and_congr_right fun hne => (and_iff_right_of_imp fun hpath => ?_).symm)
      rw [Ne, hkey hpath, some_inj, not_not.mp heq]
      exact Ne.symm hne

section

variable (display : ThreadId → Str) {metadata : AgentMetadata ThreadId} {threadId : ThreadId}
  (h : active.Inverse) (hid : metadata.agentId = some threadId)

include h hid

lemma inverse_registerSpawnedThread : (registerSpawnedThread display active metadata).Inverse := by
  have h' : (useNickname active metadata.agentNickname).Inverse := h
  intro threadId' key
  simp only [registerSpawnedThread, hid, get_leavePreviousKey_self, get_displaceThread h',
    get_insert_eq_some, get_leavePreviousKey h']
  constructor
  · rintro (⟨rfl, rfl⟩ | ⟨hthread, hkey, hpath⟩)
    · exact ⟨metadata, .inl ⟨rfl, rfl⟩, hid⟩
    · obtain ⟨metadata', hget, hid'⟩ := (h threadId' key).mp hpath
      refine ⟨metadata', .inr ⟨hkey, hget, .inr fun heq => hthread ?_⟩, hid'⟩
      exact some_inj.mp (hid'.symm.trans heq)
  · rintro ⟨metadata', ⟨rfl, rfl⟩ | ⟨hkey, hget, hother⟩, hid'⟩
    · exact .inl ⟨some_inj.mp (hid'.symm.trans hid), rfl⟩
    · refine .inr ⟨?_, hkey, (h threadId' key).mpr ⟨metadata', hget, hid'⟩⟩
      rintro rfl
      obtain heq | hne := hother
      · exact hkey heq
      · exact hne hid'

lemma placeholderAt_registerSpawnedThread (key : Str) :
    (registerSpawnedThread display active metadata).PlaceholderAt key ↔
      key ≠ agentKey display threadId metadata.agentPath ∧ active.PlaceholderAt key := by
  have h' : (useNickname active metadata.agentNickname).Inverse := h
  simp only [ActiveAgents.PlaceholderAt, registerSpawnedThread, hid, get_insert_eq_some,
    get_leavePreviousKey h']
  constructor
  · rintro ⟨metadata', ⟨-, rfl⟩ | ⟨hkey, hget, -⟩, hnone⟩
    · cases hid.symm.trans hnone
    · exact ⟨hkey, metadata', hget, hnone⟩
  · rintro ⟨hkey, metadata', hget, hnone⟩
    refine ⟨metadata', .inr ⟨hkey, hget, .inr ?_⟩, hnone⟩
    rw [hnone]
    exact some_ne_none threadId ∘ Eq.symm

omit h in
/-- **When a commit registers one agent more.** -/
theorem registeredAgents_registerSpawnedThread :
    (registerSpawnedThread display active metadata).registeredAgents = active.registeredAgents + 1 ↔
      metadata.isRoot = false ∧
        (∀ previousKey, get active.threadPaths threadId = some previousKey →
          ¬ active.CountsAt previousKey) ∧
        ¬ active.CountsAt (agentKey display threadId metadata.agentPath) := by
  have hcounts : metadata.counts = !metadata.isRoot := by
    rw [counts, hid]
    rfl
  have hafter : (registerSpawnedThread display active metadata).registeredAgents =
      metadata.counts.toNat + count counts
        ((leavePreviousKey active threadId (agentKey display threadId metadata.agentPath)).erase
          (agentKey display threadId metadata.agentPath)) := by
    simp only [registerSpawnedThread, hid, registeredAgents, HashMap.count_insert]
    rfl
  generalize agentKey display threadId metadata.agentPath = key at hafter ⊢
  have hleft := count_eq counts (leavePreviousKey active threadId key) key
  rw [get_leavePreviousKey_self] at hleft
  have hbefore : active.registeredAgents = count counts active.agentTree := rfl
  simp only [ActiveAgents.CountsAt, Bool.not_eq_true]
  rw [hafter, hbefore, hcounts]
  -- The entry of the thread is either that of the key, or one that goes.
  have hother : ((∀ previousKey, get active.threadPaths threadId = some previousKey →
        previousKey = key) ∧ count counts active.agentTree =
          count counts (leavePreviousKey active threadId key)) ∨
      ∃ previousKey, get active.threadPaths threadId = some previousKey ∧
        count counts active.agentTree =
          ((get active.agentTree previousKey).any counts).toNat +
            count counts (leavePreviousKey active threadId key) := by
    rw [leavePreviousKey]
    obtain _ | previousKey := get active.threadPaths threadId
    · exact .inl ⟨fun _ hnone => (some_ne_none _ hnone.symm).elim, rfl⟩
    · by_cases hne : previousKey ≠ key
      · refine .inr ⟨previousKey, rfl, ?_⟩
        simp only [if_pos hne]
        exact count_eq _ _ previousKey
      · simp only [if_neg hne]
        exact .inl ⟨fun _ heq => (some_inj.mp heq).symm.trans (not_not.mp hne), trivial⟩
  have hroot := Bool.toNat_le metadata.isRoot
  have hkey := Bool.toNat_le ((get active.agentTree key).any counts)
  have hnot : (!metadata.isRoot).toNat = 1 - metadata.isRoot.toNat := by
    cases metadata.isRoot <;> rfl
  rw [← Bool.toNat_eq_zero, ← Bool.toNat_eq_zero, hnot]
  obtain ⟨hsame, hcount⟩ | ⟨previousKey, hpath, hcount⟩ := hother
  · rw [hcount, hleft]
    constructor
    · intro heq
      have hfree : ((get active.agentTree key).any counts).toNat = 0 := by
        omega
      refine ⟨by omega, fun previousKey hprevious => ?_, hfree⟩
      rw [hsame previousKey hprevious]
      exact Bool.toNat_eq_zero.mp hfree
    · rintro ⟨hroot, -, hfree⟩
      omega
  · rw [hcount, hleft, hpath]
    simp only [some.injEq, forall_eq', ← Bool.toNat_eq_zero]
    omega

end

end

/-! ## Moves -/

section

variable {s s' : Registry ThreadId} {i : Nat} {key : Str} {task : Task}

lemma reserves_concat (htasks : s'.tasks = s.tasks ++ [task]) (h : s.Reserves i key) :
    s'.Reserves i key := by
  obtain ⟨hlt, -⟩ := List.getElem?_eq_some_iff.mp h
  rw [Registry.Reserves, htasks, getElem?_append_left hlt]
  exact h

/-- What the other tasks reserve, they still do. -/
lemma exists_reserves_set_iff (htasks : s'.tasks = s.tasks.set i task)
    (htask : task ≠ .reserved ⟨some key⟩) :
    (∃ j, s'.Reserves j key) ↔ ∃ j, j ≠ i ∧ s.Reserves j key := by
  simp only [Registry.Reserves, htasks]
  constructor
  · rintro ⟨j, hj⟩
    obtain rfl | hne := eq_or_ne j i
    · rw [getElem?_set_self'] at hj
      obtain ⟨_, _, heq⟩ := map_eq_some_iff.mp hj
      exact absurd heq htask
    · rw [getElem?_set_ne hne.symm] at hj
      exact ⟨j, hne, hj⟩
  · rintro ⟨j, hne, hj⟩
    exact ⟨j, by rw [getElem?_set_ne hne.symm, hj]⟩

/-- A task that reserves nothing can be replaced by any other. -/
lemma exists_reserves_set {old} (htasks : s'.tasks = s.tasks.set i task)
    (hold : s.tasks[i]? = some old) (hnot : old ≠ .reserved ⟨some key⟩)
    (h : ∃ j, s.Reserves j key) : ∃ j, s'.Reserves j key := by
  obtain ⟨j, hj⟩ := h
  refine ⟨j, ?_⟩
  have hne : i ≠ j := by
    rintro rfl
    exact hnot (some_inj.mp (hold.symm.trans hj))
  rw [Registry.Reserves, htasks, getElem?_set_ne hne]
  exact hj

variable [DecidableEq ThreadId]

lemma slotsExact_iff : SlotsExact s ↔
    s.totalCount.toNat = s.tasks.countP Task.holds + s.active.registeredAgents ∧
      s.active.Inverse ∧ ∀ key, s.active.PlaceholderAt key → ∃ i, s.Reserves i key := by
  rw [← countP_holds]
  exact ⟨fun h => ⟨h.count, h.inverse, h.placeholders⟩, fun h => ⟨h.1, h.2.1, h.2.2⟩⟩

variable {reservation : SpawnReservation}

section

variable (h : SlotsExact s)
include h

/-- Nothing but the tasks changes, and those not in what they hold. -/
lemma SlotsExact.of_same (hactive : s'.active = s.active)
    (htotal : s'.totalCount = s.totalCount)
    (hholds : s'.tasks.countP Task.holds = s.tasks.countP Task.holds)
    (hreserves : ∀ key, (∃ j, s.Reserves j key) → ∃ j, s'.Reserves j key) : SlotsExact s' := by
  obtain ⟨hcount, hinverse, hplaceholders⟩ := slotsExact_iff.mp h
  refine slotsExact_iff.mpr ⟨?_, hactive ▸ hinverse, fun key hkey => ?_⟩
  · rw [htotal, hholds, hactive, hcount]
  · rw [hactive] at hkey
    exact hreserves key (hplaceholders key hkey)

/-! ### Reservations -/

lemma exact_reserve_iff (hactive : s'.active = s.active)
    (htotal : s'.totalCount = s.totalCount + 1) (htasks : s'.tasks = s.tasks ++ [.reserved {}]) :
    SlotsExact s' ↔ s.totalCount.toNat < 2 ^ 64 - 1 := by
  obtain ⟨hcount, hinverse, hplaceholders⟩ := slotsExact_iff.mp h
  have hholds : s'.tasks.countP Task.holds = s.tasks.countP Task.holds + 1 := by
    rw [htasks, countP_concat]
    rfl
  have hone : (1 : UInt64).toNat = 1 := rfl
  have hlt := s.totalCount.toNat_lt
  rw [slotsExact_iff, htotal, UInt64.toNat_add, hone, hholds, hactive]
  constructor
  · rintro ⟨hcount', -, -⟩
    omega
  · intro hbound
    refine ⟨by omega, hinverse, fun key hkey => ?_⟩
    obtain ⟨i, hi⟩ := hplaceholders key hkey
    exact ⟨i, reserves_concat htasks hi⟩

/-- An exchange that succeeds. -/
lemma SlotsExact.exchanged {maxThreads}
    (htask : s.tasks[i]? = some (.incrementing s.totalCount maxThreads))
    (hlt : s.totalCount < maxThreads) (hactive : s'.active = s.active)
    (htotal : s'.totalCount = s.totalCount + 1) (htasks : s'.tasks = s.tasks.set i (.reserved {})) :
    SlotsExact s' := by
  obtain ⟨hcount, hinverse, hplaceholders⟩ := slotsExact_iff.mp h
  have hholds := countP_set_add Task.holds (.reserved {}) htask
  rw [← htasks] at hholds
  have hbefore : (Task.holds (.incrementing s.totalCount maxThreads)).toNat = 0 := rfl
  have hafter : (Task.holds (.reserved {})).toNat = 1 := rfl
  have hone : (1 : UInt64).toNat = 1 := rfl
  have hmax := maxThreads.toNat_lt
  rw [UInt64.lt_iff_toNat_lt] at hlt
  refine slotsExact_iff.mpr ⟨?_, hactive ▸ hinverse, fun key hkey => ?_⟩
  · rw [htotal, UInt64.toNat_add, hone, hactive]
    omega
  · rw [hactive] at hkey
    exact exists_reserves_set htasks htask Task.noConfusion (hplaceholders key hkey)

/-- The placeholder of a reservation is that of another one too, if it has one. -/
def Registry.PlaceholderKept (s : Registry ThreadId) (i : Nat) (reservation : SpawnReservation) :
    Prop :=
  ∀ path, reservation.reservedAgentPath = some path → s.active.PlaceholderAt path →
    ∃ j, j ≠ i ∧ s.Reserves j path

lemma exact_reservePath_iff (htask : s.tasks[i]? = some (.reserved reservation)) {path}
    (hfree : get s.active.agentTree path = none) (htotal : s'.totalCount = s.totalCount)
    (hactive : reserveAgentPath s.active path = .ok s'.active)
    (htasks : s'.tasks = s.tasks.set i (.reserved ⟨some path⟩)) :
    SlotsExact s' ↔ s.PlaceholderKept i reservation := by
  obtain ⟨hcount, hinverse, hplaceholders⟩ := slotsExact_iff.mp h
  obtain ⟨active', hok, hinverse', hregistered, hplaceholder⟩ :=
    reserveAgentPath_spec hinverse hfree
  cases hok.symm.trans hactive
  have hholds := countP_set_add Task.holds (.reserved ⟨some path⟩) htask
  rw [← htasks] at hholds
  have hholds' : s'.tasks.countP Task.holds = s.tasks.countP Task.holds :=
    Nat.add_right_cancel hholds
  have hnot : ¬ s.active.PlaceholderAt path := by
    rintro ⟨metadata, hget, -⟩
    cases hfree.symm.trans hget
  -- Of the others' reservations, none is for the path.
  have hother : ∀ key, key ≠ path → ((∃ j, s'.Reserves j key) ↔ ∃ j, j ≠ i ∧ s.Reserves j key) := by
    intro key hkey
    refine exists_reserves_set_iff htasks fun heq => hkey ?_
    cases heq
    rfl
  rw [slotsExact_iff, htotal, hregistered, hholds']
  simp only [hplaceholder]
  constructor
  · rintro ⟨-, -, hkept⟩ key hkey hplaceholder'
    have hne : key ≠ path := fun heq => hnot (heq ▸ hplaceholder')
    exact (hother key hne).mp (hkept key (.inr hplaceholder'))
  · intro hkept
    refine ⟨hcount, hinverse', fun key hkey => ?_⟩
    obtain rfl | hne := eq_or_ne key path
    · refine ⟨i, ?_⟩
      rw [Registry.Reserves, htasks, getElem?_set_self', htask]
      rfl
    · have hplaceholder' := hkey.resolve_left hne
      rw [hother key hne]
      obtain ⟨j, hj⟩ := hplaceholders key hplaceholder'
      obtain rfl | hji := eq_or_ne j i
      · refine hkept key ?_ hplaceholder'
        cases some_inj.mp (htask.symm.trans hj)
        rfl
      · exact ⟨j, hji, hj⟩

lemma SlotsExact.dropped (htask : s.tasks[i]? = some (.reserved reservation))
    (htotal : s'.totalCount = s.totalCount) (hactive : s'.active =
      reservation.reservedAgentPath.elim s.active (releaseReservedAgentPath s.active))
    (htasks : s'.tasks = s.tasks.set i .decrementing) : SlotsExact s' := by
  obtain ⟨hcount, hinverse, hplaceholders⟩ := slotsExact_iff.mp h
  have hholds := countP_set_add Task.holds .decrementing htask
  rw [← htasks] at hholds
  have hholds' : s'.tasks.countP Task.holds = s.tasks.countP Task.holds :=
    Nat.add_right_cancel hholds
  have hspec : s'.active.Inverse ∧ s'.active.registeredAgents = s.active.registeredAgents ∧
      ∀ key, s'.active.PlaceholderAt key →
        reservation.reservedAgentPath ≠ some key ∧ s.active.PlaceholderAt key := by
    rw [hactive]
    obtain _ | path := reservation.reservedAgentPath
    · exact ⟨hinverse, rfl, fun key hkey => ⟨(some_ne_none key).symm, hkey⟩⟩
    · obtain ⟨hinverse', hregistered, hkeys⟩ := releaseReservedAgentPath_spec hinverse path
      refine ⟨hinverse', hregistered, fun key hkey => ⟨?_, (hkeys key hkey).2⟩⟩
      exact fun heq => (hkeys key hkey).1 (some_inj.mp heq).symm
  obtain ⟨hinverse', hregistered, hkeys⟩ := hspec
  refine slotsExact_iff.mpr ⟨?_, hinverse', fun key hkey => ?_⟩
  · rw [htotal, hregistered, hholds', hcount]
  · obtain ⟨hne, hplaceholder⟩ := hkeys key hkey
    refine exists_reserves_set htasks htask (fun heq => hne ?_) (hplaceholders key hplaceholder)
    cases heq
    rfl

lemma SlotsExact.fetchSub (htask : s.tasks[i]? = some .decrementing)
    (hactive : s'.active = s.active) (htotal : s'.totalCount = s.totalCount - 1)
    (htasks : s'.tasks = s.tasks.set i .done) : SlotsExact s' := by
  obtain ⟨hcount, hinverse, hplaceholders⟩ := slotsExact_iff.mp h
  have hholds := countP_set_add Task.holds .done htask
  rw [← htasks] at hholds
  have hbefore : (Task.holds .decrementing).toNat = 1 := rfl
  have hafter : (Task.holds .done).toNat = 0 := rfl
  have hone : (1 : UInt64).toNat = 1 := rfl
  have hlt := s.totalCount.toNat_lt
  refine slotsExact_iff.mpr ⟨?_, hactive ▸ hinverse, fun key hkey => ?_⟩
  · rw [htotal, UInt64.toNat_sub, hone, hactive]
    omega
  · rw [hactive] at hkey
    exact exists_reserves_set htasks htask Task.noConfusion (hplaceholders key hkey)

/-! ### Threads -/

variable {threadId : ThreadId}

lemma SlotsExact.released (htotal : s'.totalCount = s.totalCount)
    (hactive : s'.active = (releaseSpawnedThread s.active threadId).2)
    (htasks : s'.tasks = s.tasks ++
      [if (releaseSpawnedThread s.active threadId).1 then .decrementing else .done]) :
    SlotsExact s' := by
  obtain ⟨hcount, hinverse, hplaceholders⟩ := slotsExact_iff.mp h
  obtain ⟨hinverse', hregistered, hkeys⟩ := releaseSpawnedThread_spec hinverse threadId
  refine slotsExact_iff.mpr ⟨?_, hactive ▸ hinverse', fun key hkey => ?_⟩
  · have htask : ∀ counted : Bool,
        (Task.holds (if counted then .decrementing else .done)).toNat = counted.toNat := by
      intro counted
      cases counted <;> rfl
    rw [htotal, hactive, hcount, htasks, countP_concat, htask]
    omega
  · rw [hactive] at hkey
    obtain ⟨i, hi⟩ := hplaceholders key (hkeys key hkey)
    exact ⟨i, reserves_concat htasks hi⟩

lemma exact_registerRoot_iff (htotal : s'.totalCount = s.totalCount)
    (hactive : s'.active = registerRootThread s.active threadId) (htasks : s'.tasks = s.tasks) :
    SlotsExact s' ↔ (get s.active.agentTree rootPath = none →
      get s.active.threadPaths threadId = none) := by
  obtain ⟨hcount, hinverse, hplaceholders⟩ := slotsExact_iff.mp h
  obtain ⟨hinverse', hregistered, hkeys⟩ := registerRootThread_spec hinverse threadId
  rw [slotsExact_iff, htotal, htasks, hactive, hregistered, hinverse', and_iff_right hcount]
  refine and_iff_left fun key hkey => ?_
  obtain ⟨i, hi⟩ := hplaceholders key (hkeys key hkey)
  exact ⟨i, by rw [Registry.Reserves, htasks]; exact hi⟩

end

variable (display : ThreadId → Str)

/-- **The commit makes one agent more**, and leaves no placeholder behind: the thread has no agent
yet, its key is not that of an agent, and the path that was reserved is the key. -/
def Registry.CommitKeepsSlots (s : Registry ThreadId) (i : Nat) (reservation : SpawnReservation)
    (metadata : AgentMetadata ThreadId) : Prop :=
  ∃ threadId, metadata.agentId = some threadId ∧ metadata.isRoot = false ∧
    (∀ previousKey, get s.active.threadPaths threadId = some previousKey →
      ¬ s.active.CountsAt previousKey) ∧
    ¬ s.active.CountsAt (agentKey display threadId metadata.agentPath) ∧
    (reservation.reservedAgentPath ≠ some (agentKey display threadId metadata.agentPath) →
      s.PlaceholderKept i reservation)

lemma exact_commit_iff (h : SlotsExact s) (htask : s.tasks[i]? = some (.reserved reservation))
    {metadata} (htotal : s'.totalCount = s.totalCount)
    (hactive : s'.active = registerSpawnedThread display s.active metadata)
    (htasks : s'.tasks = s.tasks.set i .done) :
    SlotsExact s' ↔ s.CommitKeepsSlots display i reservation metadata := by
  obtain ⟨hcount, hinverse, hplaceholders⟩ := slotsExact_iff.mp h
  have hholds := countP_set_add Task.holds .done htask
  rw [← htasks] at hholds
  have hholds' : s'.tasks.countP Task.holds + 1 = s.tasks.countP Task.holds := hholds
  rw [slotsExact_iff, Registry.CommitKeepsSlots, htotal]
  rcases hid : metadata.agentId with _ | threadId
  · -- Nobody is registered, but the slot is gone.
    have hsame : s'.active = s.active := by
      rw [hactive, registerSpawnedThread, hid]
    rw [hsame]
    refine iff_of_false (fun h' => ?_) ?_
    · have hcount' := h'.1
      omega
    · rintro ⟨threadId, hsome, -⟩
      cases hsome
  · have hregistered : (registerSpawnedThread display s.active metadata).registeredAgents =
          s.active.registeredAgents + 1 ↔ _ :=
      registeredAgents_registerSpawnedThread display hid
    have hkeys := placeholderAt_registerSpawnedThread display hinverse hid
    have hinverse' := inverse_registerSpawnedThread display hinverse hid
    rw [← hactive] at hregistered hkeys hinverse'
    simp only [some.injEq, exists_eq_left']
    have hcount' : s.totalCount.toNat = s'.tasks.countP Task.holds + s'.active.registeredAgents ↔
        s'.active.registeredAgents = s.active.registeredAgents + 1 := by
      omega
    have hother : ∀ key, (∃ j, s'.Reserves j key) ↔ ∃ j, j ≠ i ∧ s.Reserves j key :=
      fun key => exists_reserves_set_iff htasks Task.noConfusion
    rw [hcount', hregistered, and_iff_right hinverse', and_assoc, and_assoc]
    refine and_congr_right fun _ => and_congr_right fun _ => and_congr_right fun _ => ?_
    simp only [hkeys, hother]
    constructor
    · intro hkept hne path hpath hplaceholder
      refine hkept path ⟨?_, hplaceholder⟩
      rintro rfl
      exact hne hpath
    · rintro hkept key ⟨hkey, hplaceholder⟩
      obtain ⟨j, hj⟩ := hplaceholders key hplaceholder
      obtain rfl | hji := eq_or_ne j i
      · have hpath : reservation.reservedAgentPath = some key := by
          cases some_inj.mp (htask.symm.trans hj)
          rfl
        refine hkept (fun heq => hkey ?_) key hpath hplaceholder
        exact some_inj.mp (hpath.symm.trans heq)
      · exact ⟨j, hji, hj⟩

/-! ## Runs -/

/-- **When a move keeps the slots exact.** -/
def Registry.KeepsSlots (s : Registry ThreadId) : Move ThreadId → Prop
  | .reserveSpawnSlot none => s.totalCount.toNat < 2 ^ 64 - 1
  | .reserveAgentPath i path => ∀ reservation, s.tasks[i]? = some (.reserved reservation) →
    get s.active.agentTree path = none → s.PlaceholderKept i reservation
  | .commit i metadata => ∀ reservation, s.tasks[i]? = some (.reserved reservation) →
    s.CommitKeepsSlots display i reservation metadata
  | .registerRootThread threadId => get s.active.agentTree rootPath = none →
    get s.active.threadPaths threadId = none
  | _ => True

/-- **A bounded reservation is only made below its bound.** -/
def Registry.KeepsBound (s : Registry ThreadId) : Move ThreadId → Prop
  | .compareExchange i spurious => ∀ current maxThreads,
    s.tasks[i]? = some (.incrementing current maxThreads) →
      (s.step display (.compareExchange i spurious)).tasks[i]? = some (.reserved {}) →
        s.totalCount < maxThreads
  | _ => True

lemma exact_step_iff (s : Registry ThreadId) (move : Move ThreadId) (h : SlotsExact s) :
    SlotsExact (s.step display move) ↔ s.KeepsSlots display move := by
  rcases move with (_ | maxThreads) | ⟨i, spurious⟩ | ⟨i, path⟩ | ⟨i, metadata⟩ | i | i |
    threadId | threadId
  · exact exact_reserve_iff h rfl rfl rfl
  · refine iff_true_intro (h.of_same rfl rfl ?_ ?_)
    · exact (countP_concat _ _ _).trans (add_zero _)
    · rintro key ⟨i, hi⟩
      exact ⟨i, reserves_concat rfl hi⟩
  · refine iff_true_intro ?_
    rw [step]
    split
    · rename_i current maxThreads htask
      have hidle : ∀ task : Task, task.holds = false →
          SlotsExact { s with tasks := s.tasks.set i task } := by
        intro task hholds
        refine h.of_same rfl rfl ?_ fun key =>
          exists_reserves_set rfl htask Task.noConfusion
        have hset := countP_set_add Task.holds task htask
        rwa [hholds] at hset
      split
      · exact hidle .done rfl
      · rename_i hlt
        split_ifs with hsame
        · obtain ⟨rfl, -⟩ := hsame
          exact h.exchanged htask (UInt64.not_le.mp hlt) rfl rfl rfl
        · exact hidle _ rfl
    · exact h
  · rw [step, Registry.KeepsSlots]
    rcases htask : s.tasks[i]? with _ | _ | reservation | _ | _
    case some.reserved =>
      rcases hget : get s.active.agentTree path with _ | metadata
      · obtain ⟨active', hok, -⟩ := reserveAgentPath_spec h.inverse hget
        simp only [hok, some.injEq, Task.reserved.injEq, forall_eq', forall_const]
        exact exact_reservePath_iff h htask hget rfl hok rfl
      · obtain ⟨e, htaken⟩ : ∃ e, reserveAgentPath s.active path = .error e := by
          rw [reserveAgentPath, hget]
          exact ⟨_, rfl⟩
        simp only [htaken]
        exact iff_of_true h fun _ _ hnone => (some_ne_none _ hnone).elim
    all_goals exact iff_of_true h (by simp)
  · rw [step, Registry.KeepsSlots]
    rcases htask : s.tasks[i]? with _ | _ | reservation | _ | _
    case some.reserved =>
      simp only [some.injEq, Task.reserved.injEq, forall_eq']
      exact exact_commit_iff display h htask rfl rfl rfl
    all_goals exact iff_of_true h (by simp)
  · refine iff_true_intro ?_
    rw [step]
    split
    · rename_i reservation htask
      exact h.dropped htask rfl rfl rfl
    · exact h
  · refine iff_true_intro ?_
    rw [step]
    split
    · rename_i htask
      exact h.fetchSub htask rfl rfl rfl
    · exact h
  · exact iff_true_intro (h.released rfl rfl rfl)
  · exact exact_registerRoot_iff h rfl rfl rfl

lemma keepsBound (s : Registry ThreadId) (move : Move ThreadId) : s.KeepsBound display move := by
  rcases move with _ | ⟨i, spurious⟩ | _ | _ | _ | _ | _ | _ <;> try trivial
  intro current maxThreads htask hreserved
  simp only [step, htask] at hreserved
  have hset : ∀ task : Task, (s.tasks.set i task)[i]? = some task := by
    intro task
    rw [getElem?_set_self', htask]
    rfl
  split at hreserved
  · rw [hset] at hreserved
    cases hreserved
  · rename_i hlt
    split_ifs at hreserved with hsame
    · rw [hsame.1]
      exact UInt64.not_le.mp hlt
    · rw [hset] at hreserved
      cases hreserved

lemma slotsExact_start : SlotsExact ({} : Registry ThreadId) := by
  refine ⟨rfl, fun threadId key => ?_, fun key hkey => ?_⟩
  · refine iff_of_false (fun hpath => ?_) ?_
    · cases hpath
    · rintro ⟨metadata, hget, -⟩
      cases hget
  · obtain ⟨metadata, hget, -⟩ := hkey
    cases hget

/-- **The slots of a run are exact all along** just in case every commit is for a thread and a key
that have no agent yet and for the path that was reserved, no reservation gives up a path for
another, the root is not a thread with another path, and the count does not overflow.  Bounds are
always kept. -/
theorem slots_exact_iff (moves : List (Move ThreadId)) :
    (Always (step display) SlotsExact {} moves ↔
      EachMove (step display) (Registry.KeepsSlots display) {} moves) ∧
    EachMove (step display) (Registry.KeepsBound display) {} moves :=
  ⟨always_iff (exact_step_iff display) slotsExact_start moves, fun _ move _ =>
    keepsBound display _ move⟩

end

/-! ## A slot that is leaked -/

/-- A thread is spawned, and resumed while it is registered. -/
def resumedThread : List (Move Nat) :=
  [.reserveSpawnSlot none, .commit 0 { agentId := some 7 }, .reserveSpawnSlot none,
    .commit 1 { agentId := some 7 }]

/-- **Two slots are taken for one agent.** -/
theorem resumed_thread_leaks_slot :
    ¬ Always (step (Nat.toDigits 10)) SlotsExact {} resumedThread := by
  intro h
  have hcount := (h resumedThread prefix_rfl).count
  have hleaked : (2 : Nat) = 0 + 0 + 1 := hcount
  exact absurd hleaked (by decide)

end AgentRegistry
