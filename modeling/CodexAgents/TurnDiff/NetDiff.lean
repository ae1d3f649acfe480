import CodexAgents.TurnDiff.Tracker
import CodexAgents.ApplyPatch.Delta
import CodexAgents.Lib.Firsts

/-!
# The turn diff is the net diff

A turn is a sequence of exact deltas, each of which tells the truth about the files it found
(`Turn.Consistent`).  Over such a turn, `tracker_net_diff` says what the tracker has: the texts
before the turn and the texts after it, of every path that was touched, and a unified diff that is
there unless nothing has changed but the names of some files.

What the tracker is compared with is a `Worktree`: the texts of all paths, and for every file the
path it had before the turn or, if it was added since, the path it was added at.  A change acts on
it directly (`Worktree.change`).

* `Tracks` is what holds between the worktree and the three maps, and `Tracks.applyChange` that a
  change preserves it; the part about texts is the ledger of `Journal.Net`.
* `Coherent` is the invariant of the cache: a revision stands for one text forever, and so what has
  been rendered for two revisions can be used again.  `refreshPaths_holds` is the loop that uses it.
* `unifiedDiff_eq_none_iff` says what one run of `refreshUnifiedDiff` finds, in whatever order it
  goes over the maps.
* `renamePairs_spec` is about the one place where that order matters.  If a file is renamed, a new
  one put in its place and renamed too, both have the same origin, and only one of them is shown as
  renamed; the other is shown as added.
-/

namespace TurnDiff

open Text ApplyPatch HashMap Journal Firsts TurnDiffTracker List Function Option

variable {P : Type} [DecidableEq P]

/-! ## Worktrees -/

/-- The files of all environments, and where each of them comes from. -/
structure Worktree (P : Type) where
  texts : TrackedPath P → Option Str
  born : TrackedPath P → TrackedPath P

namespace Worktree

/-- Before the turn, every file is where it comes from. -/
def start (texts : TrackedPath P → Option Str) : Worktree P := ⟨texts, id⟩

/-- **What a change does to the files.**  After a rename the source is gone and the destination
holds the new text; if the two are one path, it holds the new text. -/
def change (environmentId : Str) (w : Worktree P) : AppliedPatchChange P → Worktree P
  | ⟨path, .add content _⟩ =>
    let path : TrackedPath P := ⟨environmentId, path⟩
    ⟨update w.texts path (some content), update w.born path path⟩
  | ⟨path, .delete _⟩ => { w with texts := update w.texts ⟨environmentId, path⟩ none }
  | ⟨path, .update none _ _ newContent⟩ =>
    { w with texts := update w.texts ⟨environmentId, path⟩ (some newContent) }
  | ⟨path, .update (some dest) _ _ newContent⟩ =>
    let path : TrackedPath P := ⟨environmentId, path⟩
    let dest : TrackedPath P := ⟨environmentId, dest⟩
    ⟨update (update w.texts path none) dest (some newContent), update w.born dest (w.born path)⟩

end Worktree

/-- **A consistent change** records what it found: the text it deletes or updates, and the text it
overwrites, if any. -/
def ConsistentChange (environmentId : Str) (texts : TrackedPath P → Option Str) :
    AppliedPatchChange P → Prop
  | ⟨path, .add _ overwritten⟩ => texts ⟨environmentId, path⟩ = overwritten
  | ⟨path, .delete content⟩ => texts ⟨environmentId, path⟩ = some content
  | ⟨path, .update none old _ _⟩ => texts ⟨environmentId, path⟩ = some old
  | ⟨path, .update (some dest) old overwritten _⟩ =>
    texts ⟨environmentId, path⟩ = some old ∧ texts ⟨environmentId, dest⟩ = overwritten

/-- Each change is consistent with those before it. -/
def ConsistentChanges (environmentId : Str) : Worktree P → List (AppliedPatchChange P) → Prop
  | _, [] => True
  | w, c :: cs =>
    ConsistentChange environmentId w.texts c ∧
      ConsistentChanges environmentId (w.change environmentId c) cs

/-- One call of `trackDelta`. -/
structure Tracked (P : Type) where
  environmentId : Str
  delta : AppliedPatchDelta P
  circumstances : Circumstances P

/-- What is tracked in a turn. -/
abbrev Turn (P : Type) := List (Tracked P)

namespace Turn

/-- The files after a turn. -/
def worktree (w : Worktree P) (turn : Turn P) : Worktree P :=
  turn.foldl (fun w e => e.delta.changes.foldl (Worktree.change e.environmentId) w) w

/-- Every change of every delta records what it found. -/
def Consistent : Worktree P → Turn P → Prop
  | _, [] => True
  | w, e :: turn =>
    ConsistentChanges e.environmentId w e.delta.changes ∧
      Consistent (e.delta.changes.foldl (Worktree.change e.environmentId) w) turn

/-- The tracker after a turn. -/
def track (R : Rendering P) (t : TurnDiffTracker P) (turn : Turn P) : TurnDiffTracker P :=
  turn.foldl (fun t e => t.trackDelta R e.circumstances e.environmentId e.delta) t

end Turn

/-! ## The maps -/

variable (m : HashMap (TrackedPath P) TrackedContent) (path : TrackedPath P)

/-- The texts in one of the two maps. -/
def contents : Option Str := (get m path).map (·.content)

@[simp] lemma contents_empty :
    contents (∅ : HashMap (TrackedPath P) TrackedContent) = fun _ => none := by
  funext path
  rw [contents, get_empty, map_none]

@[simp] lemma contents_insert (c : TrackedContent) :
    contents (m.insert path c) = update (contents m) path (some c.content) :=
  (congrArg (Option.map _ ∘ ·) (get_insert m path c)).trans (comp_update ..)

@[simp] lemma contents_erase : contents (m.erase path) = update (contents m) path none :=
  (congrArg (Option.map _ ∘ ·) (get_erase m path)).trans (comp_update ..)

variable {m : HashMap (TrackedPath P) TrackedContent} {path : TrackedPath P}

lemma notMem_iff_contents : path ∉ m ↔ contents m path = none := by
  rw [notMem_iff, contents, map_eq_none_iff]

lemma mem_iff_contents : path ∈ m ↔ contents m path ≠ none :=
  not_iff_not.mp (notMem_iff_contents.trans not_not.symm)

/-- **What the tracker knows about the worktree.** -/
structure Tracks (before : TrackedPath P → Option Str) (w : Worktree P) (t : TurnDiffTracker P) :
    Prop where
  net : Net before w.texts (contents t.baselineByPath) (contents t.currentByPath)
  origin : ∀ path, w.texts path ≠ none → (get t.originByCurrentPath path).getD path = w.born path

section

variable (t : TurnDiffTracker P)

lemma noteBaseline_cases (path : TrackedPath P) (content : Option Str) :
    t.noteBaseline path content = t ∨
      ∃ text, content = some text ∧ t.noteBaseline path content = t.insertBaseline path text := by
  unfold noteBaseline
  split
  · obtain _ | text := content
    · exact .inl rfl
    · exact .inr ⟨text, rfl, rfl⟩
  · exact .inl rfl

@[simp] lemma noteBaseline_currentByPath (path : TrackedPath P) (content : Option Str) :
    (t.noteBaseline path content).currentByPath = t.currentByPath := by
  rcases noteBaseline_cases t path content with h | ⟨text, _, h⟩ <;> rw [h]
  rfl

@[simp] lemma noteBaseline_originByCurrentPath (path : TrackedPath P) (content : Option Str) :
    (t.noteBaseline path content).originByCurrentPath = t.originByCurrentPath := by
  rcases noteBaseline_cases t path content with h | ⟨text, _, h⟩ <;> rw [h]
  rfl

@[simp] lemma contents_noteBaseline (path : TrackedPath P) (content : Option Str) :
    contents (t.noteBaseline path content).baselineByPath =
      note (contents t.baselineByPath) (contents t.currentByPath) path content := by
  simp only [noteBaseline, note, notMem_iff_contents,
    and_comm (a := contents t.currentByPath _ = _)]
  split_ifs with hnew
  · obtain _ | text := content
    · exact (update_eq_self_iff.mpr hnew.1.symm).symm
    · exact contents_insert ..
  · rfl

end

variable {before : TrackedPath P → Option Str} {w : Worktree P} {t : TurnDiffTracker P}
  {path : TrackedPath P}

namespace Tracks

lemma start (roots : List (Str × P)) :
    Tracks before (.start before) (withEnvironmentDisplayRoots roots) where
  net := by
    show Net before before (contents ∅) (contents ∅)
    rw [contents_empty]
    exact Net.refl before
  origin path _ := by
    show (get ∅ path).getD path = path
    rw [get_empty, getD_none]

variable (h : Tracks before w t)

include h

variable {overwritten : Option Str}

lemma applyAdd (content : Str) (hfound : w.texts path = overwritten) : Tracks before
      ⟨update w.texts path (some content), update w.born path path⟩
      (t.applyAdd path content overwritten) where
  net := by
    have hnet := h.net.set path (some content)
    rw [hfound] at hnet
    simpa [TurnDiffTracker.applyAdd, insertCurrent, contents_noteBaseline, contents_insert,
      noteBaseline_currentByPath, removeOrigin] using hnet
  origin q hq := by
    dsimp only at hq ⊢
    have horigin : (t.applyAdd path content overwritten).originByCurrentPath =
        t.originByCurrentPath.erase path := noteBaseline_originByCurrentPath ..
    rw [horigin, get_erase]
    obtain rfl | hne := eq_or_ne q path
    · rw [update_self, update_self, getD_none]
    · simp only [update_of_ne hne] at hq ⊢
      exact h.origin q hq

lemma applyDelete {content} (hfound : w.texts path = some content) :
    Tracks before { w with texts := update w.texts path none }
      (t.applyDelete path content) where
  net := by
    have hnet := h.net.set path none
    rw [hfound] at hnet
    have hremoved : get t.currentByPath path = none ↔ contents t.currentByPath path = none :=
      map_eq_none_iff.symm
    have hbaseline : contents (t.applyDelete path content).baselineByPath =
        note (contents t.baselineByPath) (contents t.currentByPath) path (some content) := by
      simp only [TurnDiffTracker.applyDelete, removeOrigin, removeCurrent, hremoved,
        notMem_iff_contents, note, and_comm (a := contents t.currentByPath path = none)]
      split
      · exact contents_insert ..
      · rfl
    have hcurrent : (t.applyDelete path content).currentByPath = t.currentByPath.erase path := by
      simp only [TurnDiffTracker.applyDelete, removeOrigin]
      split <;> rfl
    rwa [hbaseline, hcurrent, contents_erase]
  origin q hq := by
    dsimp only at hq ⊢
    have horigin : (t.applyDelete path content).originByCurrentPath =
        t.originByCurrentPath.erase path := by
      simp only [TurnDiffTracker.applyDelete, removeOrigin]
      split <;> rfl
    obtain rfl | hne := eq_or_ne q path
    · exact absurd (update_self ..) hq
    · simp only [update_of_ne hne] at hq
      rw [horigin, get_erase, update_of_ne hne]
      exact h.origin q hq

variable {old : Str}

lemma applyUpdate (overwritten : Option Str) (new : Str) (hfound : w.texts path = some old) :
    Tracks before { w with texts := update w.texts path (some new) }
      (t.applyUpdate path none old overwritten new) where
  net := by
    have hnet := h.net.set path (some new)
    rw [hfound] at hnet
    simpa [TurnDiffTracker.applyUpdate, insertCurrent, contents_noteBaseline, contents_insert,
      noteBaseline_currentByPath] using hnet
  origin q hq := by
    dsimp only at hq ⊢
    have horigin : (t.applyUpdate path none old overwritten new).originByCurrentPath =
        t.originByCurrentPath := noteBaseline_originByCurrentPath ..
    have hthere : w.texts q ≠ none := by
      obtain rfl | hne := eq_or_ne q path
      · rw [hfound]
        exact some_ne_none old
      · simpa only [update_of_ne hne] using hq
    rw [horigin]
    exact h.origin q hthere

lemma applyMove {dest} (new : Str) (hfound : w.texts path = some old)
    (hdest : w.texts dest = overwritten) :
    Tracks before
      ⟨update (update w.texts path none) dest (some new), update w.born dest (w.born path)⟩
      (t.applyUpdate path (some dest) old overwritten new) where
  net := by
    have hnet := h.net.move path dest (some new)
    rw [hfound, hdest] at hnet
    have hmaps : contents (t.applyUpdate path (some dest) old overwritten new).baselineByPath =
          note (note (contents t.baselineByPath) (contents t.currentByPath) path (some old))
            (contents t.currentByPath) dest overwritten ∧
        contents (t.applyUpdate path (some dest) old overwritten new).currentByPath =
          update (update (contents t.currentByPath) path none) dest
            (some new) := by
      simp only [TurnDiffTracker.applyUpdate]
      split <;> simp [insertOrigin, removeOrigin, insertCurrent, removeCurrent]
    rwa [hmaps.1, hmaps.2]
  origin q hq := by
    dsimp only at hq ⊢
    have hborn : (get t.originByCurrentPath path).getD path = w.born path :=
      h.origin path (by rw [hfound]; exact some_ne_none old)
    have horigin : get (t.applyUpdate path (some dest) old overwritten new).originByCurrentPath =
        update (update (get t.originByCurrentPath) path none) dest
          (if dest ≠ w.born path then some (w.born path) else none) := by
      simp only [TurnDiffTracker.applyUpdate, noteBaseline_originByCurrentPath, hborn]
      split <;> simp [insertOrigin, removeOrigin, insertCurrent, removeCurrent]
    rw [horigin]
    obtain rfl | hne := eq_or_ne q dest
    · rw [update_self, update_self]
      split_ifs with heq
      · rw [getD_some]
      · rw [getD_none]
        exact not_not.mp heq
    · rw [update_of_ne hne] at hq
      rw [update_of_ne hne, update_of_ne hne]
      obtain rfl | hne' := eq_or_ne q path
      · exact absurd (update_self ..) hq
      · rw [update_of_ne hne'] at hq ⊢
        exact h.origin q hq

variable {environmentId : Str}

lemma applyChange {c} (hc : ConsistentChange environmentId w.texts c) :
    Tracks before (w.change environmentId c) (t.applyChange environmentId c) := by
  obtain ⟨path, ⟨content, overwritten⟩ | ⟨content⟩ | ⟨_ | dest, old, overwritten, new⟩⟩ := c
  · exact h.applyAdd content hc
  · exact h.applyDelete hc
  · exact h.applyUpdate overwritten new hc
  · exact h.applyMove new hc.1 hc.2

lemma applyChanges {cs} (hcs : ConsistentChanges environmentId w cs) :
    Tracks before (cs.foldl (Worktree.change environmentId) w)
      (cs.foldl (TurnDiffTracker.applyChange environmentId) t) := by
  induction cs generalizing w t with
  | nil => exact h
  | cons c cs ih => exact ih (h.applyChange hcs.1) hcs.2

end Tracks

/-! ## The cache

A `log` lists the texts the tracker has taken in, in the order of their revisions.  It only grows,
so that a revision never changes its meaning. -/

/-- The revision, if there is one, is that of the text. -/
def Dated (log : List Str) (revision : Option Nat) (content : Option Str) : Prop :=
  revision.map (fun r => log[r]?) = content.map some

variable {log : List Str} {revision : Option Nat} {content : Option Str}

lemma Dated.unique {content'} (h : Dated log revision content)
    (h' : Dated log revision content') : content = content' :=
  map_injective (some_injective Str) (h.symm.trans h')

lemma getElem?_append_of_eq_some {r : Nat} {text} (h : log[r]? = some text)
    (new : List Str) : (log ++ new)[r]? = some text := by
  obtain ⟨hr, _⟩ := List.getElem?_eq_some_iff.mp h
  rw [getElem?_append_left hr, h]

lemma Dated.append (h : Dated log revision content) (new : List Str) :
    Dated (log ++ new) revision content := by
  obtain _ | r := revision
  · exact h
  · obtain _ | text := content
    · cases h
    · have htext : log[r]? = some text := some_injective _ h
      exact congrArg some (getElem?_append_of_eq_some htext new)

/-- A diff is left out just if there is no difference, and is never empty. -/
def Renders (left right diff : Option Str) : Prop := (diff = none ↔ left = right) ∧ diff ≠ some []

omit [DecidableEq P] in
lemma renders_renderDiff (R : Rendering P) (diffLines : Str → Str → Str → Str → Str)
    (t : TurnDiffTracker P) (leftPath rightPath : TrackedPath P) (left right : Option Str) :
    Renders left right (renderDiff R diffLines t leftPath left rightPath right) := by
  unfold renderDiff
  split
  · rename_i heq
    exact ⟨iff_of_true rfl heq, (some_ne_none _).symm⟩
  · rename_i hne
    have hnone : ∀ diff : Str, (some diff = none ↔ left = right) :=
      fun diff => iff_of_false (some_ne_none diff) hne
    rcases left with _ | left <;> rcases right with _ | right
    · exact absurd rfl hne
    all_goals exact ⟨hnone _, fun h => cons_ne_nil _ _ (some_injective _ h)⟩

/-- Everything in the cache has a property, of its key and of the texts of the two revisions. -/
def CacheHolds (Q : DiffCacheKey P → Option Str → Option Str → Option Str → Prop) (log : List Str)
    (cache : HashMap (DiffCacheKey P) (Option Str)) : Prop :=
  ∀ key diff, get cache key = some diff → ∃ left right, Dated log key.leftRevision left ∧
    Dated log key.rightRevision right ∧ Q key left right diff

variable {Q : DiffCacheKey P → Option Str → Option Str → Option Str → Prop}

lemma cacheHolds_empty (log : List Str) : CacheHolds Q log ∅ := by
  intro key diff h
  rw [get_empty] at h
  cases h

namespace CacheHolds

variable {log : List Str} {cache : HashMap (DiffCacheKey P) (Option Str)}
  (h : CacheHolds Q log cache)

include h

lemma append (new : List Str) : CacheHolds Q (log ++ new) cache := by
  intro key diff hkey
  obtain ⟨left, right, hleft, hright, hholds⟩ := h key diff hkey
  exact ⟨left, right, hleft.append new, hright.append new, hholds⟩

lemma erase (key : DiffCacheKey P) : CacheHolds Q log (cache.erase key) := by
  intro key' diff hkey'
  exact h key' diff (get_erase_eq_some.mp hkey').2

lemma insert {key left right diff}
    (hleft : Dated log key.leftRevision left) (hright : Dated log key.rightRevision right)
    (hholds : Q key left right diff) : CacheHolds Q log (cache.insert key diff) := by
  intro key' diff' hkey'
  obtain ⟨rfl, rfl⟩ | ⟨-, hold⟩ := get_insert_eq_some.mp hkey'
  · exact ⟨left, right, hleft, hright, hholds⟩
  · exact h key' diff' hold

end CacheHolds

/-- The texts in a map are those of the log. -/
def Logged (log : List Str) (m : HashMap (TrackedPath P) TrackedContent) : Prop :=
  ∀ path c, get m path = some c → log[c.revision]? = some c.content

variable {log : List Str}

namespace Logged

variable {m : HashMap (TrackedPath P) TrackedContent} (h : Logged log m)

include h

lemma append (new : List Str) : Logged (log ++ new) m :=
  fun path c hc => getElem?_append_of_eq_some (h path c hc) new

lemma insert (path : TrackedPath P) (content : Str) :
    Logged (log ++ [content]) (m.insert path ⟨content, log.length⟩) := by
  intro q c hc
  obtain ⟨rfl, rfl⟩ | ⟨-, hold⟩ := get_insert_eq_some.mp hc
  · exact getElem?_concat_length
  · exact h.append [content] q c hold

lemma erase (path : TrackedPath P) : Logged log (m.erase path) :=
  fun q c hc => h q c (get_erase_eq_some.mp hc).2

lemma dated (path : TrackedPath P) :
    Dated log ((get m path).map (·.revision)) (contents m path) := by
  rw [contents]
  rcases hc : get m path with _ | c
  · rfl
  · exact congrArg some (h path c hc)

end Logged

/-- The revisions are those of a log. -/
structure Timed (log : List Str) (t : TurnDiffTracker P) : Prop where
  next : t.nextRevision = log.length
  baseline : Logged log t.baselineByPath
  current : Logged log t.currentByPath

/-- **The cache can be trusted**: what it holds for two revisions has a property of their texts. -/
def Coherent (Q : DiffCacheKey P → Option Str → Option Str → Option Str → Prop)
    (t : TurnDiffTracker P) : Prop :=
  ∃ log, Timed log t ∧ CacheHolds Q log t.renderedDiffs

variable {t : TurnDiffTracker P}

lemma coherent_start (Q : DiffCacheKey P → Option Str → Option Str → Option Str → Prop)
    (roots : List (Str × P)) : Coherent Q (withEnvironmentDisplayRoots roots) := by
  have hempty : Logged (P := P) [] ∅ := by
    intro path c hc
    rw [get_empty] at hc
    cases hc
  exact ⟨[], ⟨rfl, hempty, hempty⟩, cacheHolds_empty []⟩

/-- Whatever the five ways to change the maps preserve is preserved by a change. -/
lemma applyChange_invariant {I : TurnDiffTracker P → Prop}
    (hbaseline : ∀ t path content, I t → I (t.insertBaseline path content))
    (hcurrent : ∀ t path content, I t → I (t.insertCurrent path content))
    (hremove : ∀ t path, I t → I (t.removeCurrent path))
    (horigin : ∀ t path origin, I t → I (t.insertOrigin path origin))
    (hforget : ∀ t path, I t → I (t.removeOrigin path)) (ht : I t) (environmentId : Str)
    (c : AppliedPatchChange P) :
    I (t.applyChange environmentId c) := by
  have hnote : ∀ t path content, I t → I (t.noteBaseline path content) := by
    intro t path content ht
    rcases noteBaseline_cases t path content with h | ⟨text, _, h⟩ <;> rw [h]
    · exact ht
    · exact hbaseline t path text ht
  obtain ⟨path, ⟨content, overwritten⟩ | ⟨content⟩ | ⟨_ | dest, old, overwritten, new⟩⟩ := c
  · exact hcurrent _ _ _ (hnote _ _ _ (hforget _ _ ht))
  · refine hforget _ _ ?_
    dsimp only
    split
    · exact hbaseline _ _ _ (hremove _ _ ht)
    · exact hremove _ _ ht
  · exact hcurrent _ _ _ (hnote _ _ _ ht)
  · have hmoved := fun path path' => hforget _ path' <| hcurrent _ path' new <| hremove _ path <|
      hforget _ path <| hnote _ path' overwritten <| hnote _ path (some old) ht
    simp only [applyChange, applyUpdate, map_some]
    split
    · exact horigin _ _ _ (hmoved _ _)
    · exact hmoved _ _

lemma Coherent.applyChange {Q}
    (h : Coherent Q t) (environmentId : Str) (c : AppliedPatchChange P) :
    Coherent Q (t.applyChange environmentId c) := by
  refine applyChange_invariant ?_ ?_ ?_ ?_ ?_ h environmentId c
  · rintro t path content ⟨log, hlog, hcache⟩
    refine ⟨log ++ [content], ⟨?_, ?_, hlog.current.append _⟩, hcache.append _⟩
    · simp [insertBaseline, hlog.next]
    · rw [insertBaseline, hlog.next]
      exact hlog.baseline.insert path content
  · rintro t path content ⟨log, hlog, hcache⟩
    refine ⟨log ++ [content], ⟨?_, hlog.baseline.append _, ?_⟩, hcache.append _⟩
    · simp [insertCurrent, hlog.next]
    · rw [insertCurrent, hlog.next]
      exact hlog.current.insert path content
  · rintro t path ⟨log, hlog, hcache⟩
    exact ⟨log, ⟨hlog.next, hlog.baseline, hlog.current.erase path⟩, hcache⟩
  · rintro t path origin ⟨log, hlog, hcache⟩
    exact ⟨log, ⟨hlog.next, hlog.baseline, hlog.current⟩, hcache⟩
  · rintro t path ⟨log, hlog, hcache⟩
    exact ⟨log, ⟨hlog.next, hlog.baseline, hlog.current⟩, hcache⟩

/-! ## The loop -/

lemma pushDiff_ne_nil {aggregated diff} (h : diff ≠ []) : pushDiff aggregated diff ≠ [] := by
  have hne : aggregated ++ diff ≠ [] := fun hnil => h (append_eq_nil_iff.mp hnil).2
  rw [pushDiff]
  split
  · exact hne
  · exact fun hnil => hne (append_eq_nil_iff.mp hnil).1

/-- What a comparison is kept under. -/
def cacheKey (t : TurnDiffTracker P) (left right : TrackedPath P) : DiffCacheKey P :=
  ⟨left, (get t.baselineByPath left).map (·.revision), right,
    (get t.currentByPath right).map (·.revision)⟩

variable (R : Rendering P) (diffLines : Str → Str → Str → Str → Str)

/-- **A diff from the cache is as good as one rendered now**: if what is rendered has a property,
then so does what is added, and the cache is as good afterwards. -/
theorem comparePaths_holds (ht : Timed log t) {r}
    (hprevious : CacheHolds Q log r.previousDiffs) (hrendered : CacheHolds Q log r.renderedDiffs)
    (left right : TrackedPath P)
    (hfresh : Q (cacheKey t left right) (contents t.baselineByPath left)
      (contents t.currentByPath right) (renderDiff R diffLines t left
        (contents t.baselineByPath left) right (contents t.currentByPath right))) :
    ∃ diff, Q (cacheKey t left right) (contents t.baselineByPath left)
        (contents t.currentByPath right) diff ∧
      CacheHolds Q log (r.previousDiffs.erase (cacheKey t left right)) ∧
      CacheHolds Q log (r.renderedDiffs.insert (cacheKey t left right) diff) ∧
      comparePaths R diffLines t r left right = { r with
          previousDiffs := r.previousDiffs.erase (cacheKey t left right)
          renderedDiffs := r.renderedDiffs.insert (cacheKey t left right) diff
          aggregated := diff.elim r.aggregated (pushDiff r.aggregated) } := by
  have hleft := ht.baseline.dated left
  have hright := ht.current.dated right
  let diff := (get r.previousDiffs (cacheKey t left right)).getD
    (renderDiff R diffLines t left (contents t.baselineByPath left) right
      (contents t.currentByPath right))
  have hdiff : Q (cacheKey t left right) (contents t.baselineByPath left)
      (contents t.currentByPath right) diff := by
    show Q _ _ _ ((get r.previousDiffs (cacheKey t left right)).getD _)
    rcases hcached : get r.previousDiffs (cacheKey t left right) with _ | cached
    · exact hfresh
    · obtain ⟨left', right', hleft', hright', hholds⟩ := hprevious _ cached hcached
      rwa [hleft.unique hleft', hright.unique hright']
  exact ⟨diff, hdiff, hprevious.erase _, hrendered.insert hleft hright hdiff, rfl⟩

/-- The diffs of pairs of paths, one after the other. -/
def joinDiffs (aggregated : Str) (diffs : List ((TrackedPath P × TrackedPath P) × Option Str)) :
    Str :=
  diffs.foldl (fun aggregated d => d.2.elim aggregated (pushDiff aggregated)) aggregated

omit [DecidableEq P] in
lemma joinDiffs_eq_nil_iff {diffs : List ((TrackedPath P × TrackedPath P) × Option Str)}
    (h : ∀ d ∈ diffs, d.2 ≠ some []) (aggregated : Str) :
    joinDiffs aggregated diffs = [] ↔ aggregated = [] ∧ ∀ d ∈ diffs, d.2 = none := by
  induction diffs generalizing aggregated with
  | nil => simp [joinDiffs]
  | cons d diffs ih =>
    rw [forall_mem_cons] at h
    refine (ih h.2 _).trans ?_
    rcases hd : d.2 with _ | diff
    · simp [hd]
    · have hne : diff ≠ [] := fun hnil => h.1 (hd.trans (congrArg some hnil))
      simp [hd, pushDiff_ne_nil hne]

/-- The cache with the diffs of pairs of paths. -/
def keepDiffs (t : TurnDiffTracker P) (cache : HashMap (DiffCacheKey P) (Option Str))
    (diffs : List ((TrackedPath P × TrackedPath P) × Option Str)) :
    HashMap (DiffCacheKey P) (Option Str) :=
  diffs.foldl (fun cache d => cache.insert (cacheKey t d.1.1 d.1.2) d.2) cache

/-- **The loop renders a diff for every pair**, one for each path that it has not seen and that is
no destination.  What each of them was rendered for is what is in the maps. -/
theorem refreshPaths_holds (ht : Timed log t) {pairs : HashMap (TrackedPath P) (TrackedPath P)}
    {dests} (hdests : ∀ path dest, get pairs path = some dest → dest ∈ dests)
    (hfresh : ∀ left right, Q (cacheKey t left right) (contents t.baselineByPath left)
      (contents t.currentByPath right) (renderDiff R diffLines t left
        (contents t.baselineByPath left) right (contents t.currentByPath right)))
    (paths : List (TrackedPath P)) {r : Refresh P} (hprevious : CacheHolds Q log r.previousDiffs)
    (hrendered : CacheHolds Q log r.renderedDiffs) :
    let r' := paths.foldl (refreshPath R diffLines t pairs dests) r
    ∃ diffs, diffs.map Prod.fst = ((firsts r.handled (paths.filter (· ∉ dests))).map fun path =>
        (path, (get pairs path).getD path)) ∧
      (∀ d ∈ diffs, Q (cacheKey t d.1.1 d.1.2) (contents t.baselineByPath d.1.1)
        (contents t.currentByPath d.1.2) d.2) ∧
      r'.renderedDiffs = keepDiffs t r.renderedDiffs diffs ∧
      r'.aggregated = joinDiffs r.aggregated diffs ∧ CacheHolds Q log r'.renderedDiffs := by
  induction paths generalizing r with
  | nil => exact ⟨[], rfl, forall_mem_nil _, rfl, rfl, hrendered⟩
  | cons path paths ih =>
    have hcongr : ∀ {seen seen' : List (TrackedPath P)}, (∀ q, q ∉ dests → (q ∈ seen ↔ q ∈ seen')) →
        firsts seen (paths.filter (· ∉ dests)) = firsts seen' (paths.filter (· ∉ dests)) :=
      fun h => firsts_filter_congr (fun q hq => h q (of_decide_eq_true hq)) paths
    by_cases hdest : path ∈ dests
    · -- a destination changes nothing, whether or not it has been seen
      have hfilter : (path :: paths).filter (· ∉ dests) = paths.filter (· ∉ dests) :=
        filter_cons_of_neg (by simpa using hdest)
      have hne : ∀ q, q ∉ dests → q ≠ path := fun q hq heq => hq (heq ▸ hdest)
      rw [hfilter, foldl_cons, refreshPath]
      by_cases hold : path ∈ r.handled
      · rw [if_pos hold]
        exact ih hprevious hrendered
      · rw [if_neg hold, if_pos hdest,
          hcongr fun q hq => (mem_cons.trans (or_iff_right (hne q hq))).symm]
        exact ih (r := { r with handled := path :: r.handled }) hprevious hrendered
    have hfilter : (path :: paths).filter (· ∉ dests) = path :: paths.filter (· ∉ dests) :=
      filter_cons_of_pos (by simpa using hdest)
    rw [hfilter, foldl_cons, firsts]
    by_cases hold : path ∈ r.handled
    · rw [refreshPath, if_pos hold, if_pos hold]
      exact ih hprevious hrendered
    -- whether or not the path was renamed, only the destination is noted besides
    obtain ⟨handled, hstep, hhandled⟩ : ∃ handled, refreshPath R diffLines t pairs dests r path =
          comparePaths R diffLines t { r with handled := handled } path
            ((get pairs path).getD path) ∧
        ∀ q, q ∉ dests → (q ∈ handled ↔ q ∈ path :: r.handled) := by
      rw [refreshPath, if_neg hold, if_neg hdest]
      rcases hget : get pairs path with _ | dest
      · exact ⟨_, rfl, fun _ _ => Iff.rfl⟩
      · refine ⟨_, rfl, fun q hq => mem_cons.trans (or_iff_right ?_)⟩
        rintro rfl
        exact hq (hdests path q hget)
    obtain ⟨diff, hdiff, hprevious', hrendered', heq⟩ := comparePaths_holds R diffLines ht
      (r := { r with handled := handled }) hprevious hrendered path ((get pairs path).getD path)
      (hfresh _ _)
    obtain ⟨diffs, hpairs, hholds, hkeep, hjoin, hcache⟩ :=
      ih (r := comparePaths R diffLines t { r with handled := handled } path
        ((get pairs path).getD path)) (heq ▸ hprevious') (heq ▸ hrendered')
    rw [if_neg hold, hstep, ← hcongr hhandled]
    rw [heq] at hpairs hkeep hjoin hcache ⊢
    exact ⟨((path, (get pairs path).getD path), diff) :: diffs, congrArg (_ :: ·) hpairs,
      forall_mem_cons.mpr ⟨hdiff, hholds⟩, hkeep, hjoin, hcache⟩

lemma mem_sortedPaths (R : Rendering P) (circumstances : Circumstances P)
    (t : TurnDiffTracker P) (path : TrackedPath P) :
    path ∈ sortedPaths R circumstances t ↔ path ∈ t.baselineByPath ∨ path ∈ t.currentByPath := by
  rw [sortedPaths, mem_dedup, mem_insertionSort, mem_append, Order.mem_arrange,
    Order.mem_arrange, AList.mem_keys, AList.mem_keys]

/-- The destinations of the renames. -/
lemma mem_pairedDestinations {pairs : HashMap (TrackedPath P) (TrackedPath P)}
    {dest} :
    dest ∈ pairs.entries.map (·.2) ↔ ∃ path, get pairs path = some dest := by
  rw [List.mem_map]
  constructor
  · rintro ⟨⟨path, _⟩, hmem, rfl⟩
    exact ⟨path, mem_entries_iff.mp hmem⟩
  · rintro ⟨path, hpath⟩
    exact ⟨⟨path, dest⟩, mem_entries_iff.mpr hpath, rfl⟩

/-- All the paths that are compared have the same text: those in one of the maps that are not the
destination of a rename. -/
def NoDifference (t : TurnDiffTracker P) (pairs : HashMap (TrackedPath P) (TrackedPath P)) : Prop :=
  ∀ path, path ∈ t.baselineByPath ∨ path ∈ t.currentByPath →
    (∀ origin, get pairs origin ≠ some path) →
    contents t.baselineByPath path = contents t.currentByPath ((get pairs path).getD path)

/-- **What a refresh finds**, with or without a cache. -/
theorem refreshUnifiedDiff_spec (R : Rendering P) (circumstances : Circumstances P)
    (h : Coherent (fun _ => Renders) t) :
    Coherent (fun _ => Renders) (t.refreshUnifiedDiff R circumstances) ∧
      ((t.refreshUnifiedDiff R circumstances).unifiedDiff = none ↔
        NoDifference t (t.renamePairs circumstances)) := by
  obtain ⟨log, ht, hcache⟩ := h
  have hdests : ∀ path dest, get (t.renamePairs circumstances) path = some dest →
      dest ∈ (t.renamePairs circumstances).entries.map (·.2) :=
    fun path dest h => mem_pairedDestinations.mpr ⟨path, h⟩
  obtain ⟨diffs, hpairs, hholds, -, hjoin, hcache'⟩ := refreshPaths_holds R circumstances.diffLines
    ht hdests (fun left right => renders_renderDiff R _ t left right _ _)
      (sortedPaths R circumstances t)
    (r := { previousDiffs := t.renderedDiffs }) hcache (cacheHolds_empty log)
  refine ⟨⟨log, ⟨ht.next, ht.baseline, ht.current⟩, hcache'⟩, ?_⟩
  have hdiff : ∀ text : Str, (if text = [] then none else some text) = none ↔ text = [] := by
    intro text
    split
    · rename_i hnil
      exact iff_of_true rfl hnil
    · rename_i hne
      exact iff_of_false (some_ne_none text) hne
  have hsame : (∀ d ∈ diffs, d.2 = none) ↔ ∀ pair ∈ diffs.map Prod.fst,
      contents t.baselineByPath pair.1 = contents t.currentByPath pair.2 := by
    rw [List.forall_mem_map]
    exact forall₂_congr fun d hd => (hholds d hd).1
  rw [refreshUnifiedDiff, hdiff, hjoin, joinDiffs_eq_nil_iff fun d hd => (hholds d hd).2, hsame,
    hpairs, List.forall_mem_map]
  simp [mem_firsts, mem_sortedPaths, mem_pairedDestinations, NoDifference]

/-! ## Renames -/

/-- A rename that may be shown as such. -/
structure IsRename (t : TurnDiffTracker P) (origin dest : TrackedPath P) : Prop where
  origin_eq : get t.originByCurrentPath dest = some origin
  ne : dest ≠ origin
  lost : origin ∉ t.currentByPath ∧ origin ∈ t.baselineByPath
  gained : dest ∈ t.currentByPath ∧ dest ∉ t.baselineByPath

/-- The entries that make it into the map of renames. -/
lemma mem_renames_iff (t : TurnDiffTracker P) (circumstances : Circumstances P)
    (origin dest : TrackedPath P) :
    (origin, dest) ∈ (circumstances.origins.arrange t.originByCurrentPath.entries).filterMap
        (fun e => if e.1 = e.2 ∨ e.2 ∈ t.currentByPath ∨ e.1 ∉ t.currentByPath ∨
          e.2 ∉ t.baselineByPath ∨ e.1 ∈ t.baselineByPath then none else some (e.2, e.1)) ↔
      IsRename t origin dest := by
  rw [mem_filterMap]
  constructor
  · rintro ⟨⟨dest', origin'⟩, hmem, hif⟩
    dsimp only at hif
    split at hif
    · cases hif
    · rename_i hcond
      cases hif
      simp only [not_or, not_not] at hcond
      obtain ⟨hne, hno, hdest, horigin, hfree⟩ := hcond
      rw [Order.mem_arrange, mem_entries_iff] at hmem
      exact ⟨hmem, hne, ⟨hno, horigin⟩, hdest, hfree⟩
  · intro h
    refine ⟨⟨dest, origin⟩, ?_, ?_⟩
    · rw [Order.mem_arrange, mem_entries_iff]
      exact h.origin_eq
    · refine if_neg ?_
      simp only [not_or, not_not]
      exact ⟨h.ne, h.lost.1, h.gained.1, h.lost.2, h.gained.2⟩

/-- **The map of renames.**  In whatever order it is collected, it holds renames only, and one for
every path a file was renamed from. -/
theorem renamePairs_cases (t : TurnDiffTracker P) (circumstances : Circumstances P) :
    (∀ origin dest, get (t.renamePairs circumstances) origin = some dest → IsRename t origin dest) ∧
    ∀ origin dest, IsRename t origin dest →
      ∃ dest', get (t.renamePairs circumstances) origin = some dest' :=
  ⟨fun origin dest hget =>
      (mem_renames_iff t circumstances origin dest).mp (mem_of_get_collect hget),
    fun origin dest hrename =>
      exists_get_collect ((mem_renames_iff t circumstances origin dest).mpr hrename)⟩

/-- **A file has been renamed**: it was at `origin` before the turn and is at `dest` now, where
there was no file, and there is none at `origin` any more. -/
structure Renamed (before : TrackedPath P → Option Str) (w : Worktree P)
    (origin dest : TrackedPath P) : Prop where
  born : w.born dest = origin
  lost : before origin ≠ none ∧ w.texts origin = none
  gained : before dest = none ∧ w.texts dest ≠ none

/-- **Nothing but names has changed**: every path whose text has changed is one end of a rename that
kept the text, and no two files were renamed from one path. -/
def OnlyRenames (before : TrackedPath P → Option Str) (w : Worktree P) : Prop :=
  (∀ path, before path ≠ w.texts path → ∃ origin dest, (path = origin ∨ path = dest) ∧
    Renamed before w origin dest ∧ before origin = w.texts dest) ∧
  ∀ origin dest dest', Renamed before w origin dest → Renamed before w origin dest' → dest = dest'

section

variable (h : Tracks before w t)

include h

lemma Renamed.originByCurrentPath_eq {origin dest}
    (hrenamed : Renamed before w origin dest) :
    get t.originByCurrentPath dest = some origin := by
  have horigin := h.origin dest hrenamed.gained.2
  rw [hrenamed.born] at horigin
  rcases hget : get t.originByCurrentPath dest with _ | origin'
  · rw [hget, getD_none] at horigin
    exact absurd (horigin ▸ hrenamed.gained.1) hrenamed.lost.1
  · rw [hget, getD_some] at horigin
    rw [horigin]

lemma isRename_iff_renamed (origin dest : TrackedPath P) :
    IsRename t origin dest ↔ Renamed before w origin dest := by
  have hlost := h.net.lost_iff origin
  have hgained := h.net.gained_iff dest
  simp only [← notMem_iff_contents, ← mem_iff_contents] at hlost hgained
  constructor
  · intro hrename
    have hgained := hgained.mp hrename.gained.symm
    refine ⟨?_, hlost.mp hrename.lost.symm, hgained⟩
    rw [← h.origin dest hgained.2, hrename.origin_eq, getD_some]
  · intro hrenamed
    obtain ⟨horigin, hno⟩ := hlost.mpr hrenamed.lost
    obtain ⟨hfree, hdest⟩ := hgained.mpr hrenamed.gained
    exact ⟨hrenamed.originByCurrentPath_eq h, fun heq => hno (heq ▸ hdest), ⟨hno, horigin⟩,
      hdest, hfree⟩

lemma renamePairs_spec (circumstances : Circumstances P) :
    (∀ origin dest, get (t.renamePairs circumstances) origin = some dest →
      Renamed before w origin dest) ∧
    ∀ origin dest, Renamed before w origin dest →
      ∃ dest', get (t.renamePairs circumstances) origin = some dest' := by
  simp only [← isRename_iff_renamed h]
  exact renamePairs_cases t circumstances

/-- The two ends of a rename are compared as they should be. -/
lemma Renamed.contents_eq_iff {origin dest}
    (hrenamed : Renamed before w origin dest) :
    contents t.baselineByPath origin = contents t.currentByPath dest ↔
      before origin = w.texts dest := by
  have horigin := (h.net.lost_iff origin).mpr hrenamed.lost
  have hdest := (h.net.gained_iff dest).mpr hrenamed.gained
  rw [h.net.first_eq (.inl horigin.1), h.net.last_eq (.inr hdest.2)]

omit h [DecidableEq P] in
/-- A path is not both ends of renames. -/
lemma Renamed.not_renamed {origin path dest}
    (h : Renamed before w origin path) : ¬ Renamed before w path dest :=
  fun h' => h'.lost.1 h.gained.1

section

variable {pairs : HashMap (TrackedPath P) (TrackedPath P)}
  (hsound : ∀ origin dest, get pairs origin = some dest → Renamed before w origin dest)

include hsound

lemma onlyRenames_of_noDifference (hnone : NoDifference t pairs) : OnlyRenames before w := by
  have hkept : ∀ origin dest, get pairs origin = some dest → before origin = w.texts dest := by
    intro origin dest hget
    have hrenamed := hsound origin dest hget
    have hbaseline := (h.net.lost_iff origin).mpr hrenamed.lost
    have hsame := hnone origin (.inl (mem_iff_contents.mpr hbaseline.1)) fun origin' hget' =>
      (hsound origin' origin hget').not_renamed hrenamed
    rw [hget, getD_some] at hsame
    exact (hrenamed.contents_eq_iff h).mp hsame
  constructor
  · intro path hchanged
    by_cases hdest : ∃ origin, get pairs origin = some path
    · obtain ⟨origin, hget⟩ := hdest
      exact ⟨origin, path, .inr rfl, hsound origin path hget, hkept origin path hget⟩
    · have hdiffers := mt (h.net.eq_iff path).mp hchanged
      have hmem : path ∈ t.baselineByPath ∨ path ∈ t.currentByPath := by
        rw [mem_iff_contents, mem_iff_contents, ← not_and_or]
        exact fun hnot => hdiffers (hnot.1.trans hnot.2.symm)
      have hsame := hnone path hmem (not_exists.mp hdest)
      rcases hget : get pairs path with _ | dest
      · rw [hget, getD_none] at hsame
        exact absurd hsame hdiffers
      · exact ⟨path, dest, .inl rfl, hsound path dest hget, hkept path dest hget⟩
  · -- a second file renamed from there would be compared with nothing, as one that was added
    have hpaired : ∀ origin dest, Renamed before w origin dest → get pairs origin = some dest := by
      intro origin dest hrenamed
      by_contra hother
      have hcurrent := (h.net.gained_iff dest).mpr hrenamed.gained
      have hsame := hnone dest (.inr (mem_iff_contents.mpr hcurrent.2)) fun origin' hget' => by
        have horigin : origin' = origin := (hsound origin' dest hget').born.symm.trans hrenamed.born
        exact hother (horigin ▸ hget')
      rcases hget : get pairs dest with _ | dest'
      · rw [hget, getD_none, hcurrent.1] at hsame
        exact hcurrent.2 hsame.symm
      · exact hrenamed.not_renamed (hsound dest dest' hget)
    intro origin dest dest' hrenamed hrenamed'
    exact some_injective _
      ((hpaired origin dest hrenamed).symm.trans (hpaired origin dest' hrenamed'))

lemma noDifference_of_onlyRenames (hcomplete : ∀ origin dest, Renamed before w origin dest →
      ∃ dest', get pairs origin = some dest')
    (honly : OnlyRenames before w) : NoDifference t pairs := by
  obtain ⟨hends, hunique⟩ := honly
  intro path _ hnot
  rcases hget : get pairs path with _ | dest
  · rw [getD_none, h.net.eq_iff]
    by_contra hchanged
    obtain ⟨origin, dest, rfl | rfl, hrenamed, -⟩ := hends path hchanged
    · obtain ⟨dest', hget'⟩ := hcomplete path dest hrenamed
      exact some_ne_none dest' (hget'.symm.trans hget)
    · obtain ⟨dest', hget'⟩ := hcomplete origin path hrenamed
      exact hnot origin (hunique origin dest' path (hsound origin dest' hget') hrenamed ▸ hget')
  · have hrenamed := hsound path dest hget
    have hchanged : before path ≠ w.texts path := fun heq =>
      hrenamed.lost.1 (heq.trans hrenamed.lost.2)
    rw [getD_some, hrenamed.contents_eq_iff h]
    obtain ⟨origin, dest', rfl | rfl, hrenamed', hkept⟩ := hends path hchanged
    · rwa [hunique path dest dest' hrenamed hrenamed']
    · exact absurd hrenamed hrenamed'.not_renamed

end

/-- **When there is no diff.** -/
theorem unifiedDiff_eq_none_iff (hcoherent : Coherent (fun _ => Renders) t) (R : Rendering P)
    (circumstances : Circumstances P) :
    (t.refreshUnifiedDiff R circumstances).unifiedDiff = none ↔ OnlyRenames before w := by
  obtain ⟨hsound, hcomplete⟩ := renamePairs_spec h circumstances
  rw [(refreshUnifiedDiff_spec R circumstances hcoherent).2]
  exact ⟨onlyRenames_of_noDifference h hsound, noDifference_of_onlyRenames h hsound hcomplete⟩

end

/-! ## Turns -/

/-- **The tracker is right about the turn so far.** -/
structure InStep (before : TrackedPath P → Option Str) (w : Worktree P) (t : TurnDiffTracker P) :
    Prop where
  tracks : Tracks before w t
  coherent : Coherent (fun _ => Renders) t
  valid : t.valid = true
  unifiedDiff : t.unifiedDiff = none ↔ OnlyRenames before w

lemma inStep_start (before : TrackedPath P → Option Str) (roots : List (Str × P)) :
    InStep before (.start before) (withEnvironmentDisplayRoots roots) where
  tracks := .start roots
  coherent := coherent_start _ roots
  valid := rfl
  unifiedDiff := by
    refine iff_of_true rfl ⟨fun path hchanged => absurd rfl hchanged, ?_⟩
    exact fun origin dest _ hrenamed => absurd hrenamed.lost.2 hrenamed.lost.1

lemma valid_applyChange (h : t.valid) (environmentId : Str) (c : AppliedPatchChange P) :
    (t.applyChange environmentId c).valid :=
  applyChange_invariant (I := fun t => t.valid = true) (fun _ _ _ h => h) (fun _ _ _ h => h)
    (fun _ _ h => h) (fun _ _ _ h => h) (fun _ _ h => h) h environmentId c

/-- One delta. -/
lemma InStep.trackDelta (h : InStep before w t) (R : Rendering P) {e : Tracked P}
    (hexact : e.delta.exact)
    (hconsistent : ConsistentChanges e.environmentId w e.delta.changes) :
    InStep before (e.delta.changes.foldl (Worktree.change e.environmentId) w)
      (t.trackDelta R e.circumstances e.environmentId e.delta) := by
  have htrack : t.trackDelta R e.circumstances e.environmentId e.delta = refreshUnifiedDiff R
      e.circumstances (e.delta.changes.foldl (applyChange e.environmentId) t) := by
    rw [TurnDiffTracker.trackDelta, if_neg (not_not.mpr h.valid), if_neg (not_not.mpr hexact)]
  have htracks := h.tracks.applyChanges hconsistent
  have hcoherent : Coherent (fun _ => Renders)
      (e.delta.changes.foldl (applyChange e.environmentId) t) :=
    foldlRecOn _ _ h.coherent fun _ h c _ => h.applyChange e.environmentId c
  have hvalid : (e.delta.changes.foldl (applyChange e.environmentId) t).valid :=
    foldlRecOn (motive := fun t : TurnDiffTracker P => t.valid = true) _ _ h.valid fun _ h c _ =>
      valid_applyChange h e.environmentId c
  rw [htrack]
  exact ⟨⟨htracks.net, htracks.origin⟩, (refreshUnifiedDiff_spec R e.circumstances hcoherent).1,
    hvalid, unifiedDiff_eq_none_iff htracks hcoherent R e.circumstances⟩

/-- A whole turn. -/
lemma InStep.track (h : InStep before w t) (R : Rendering P) {turn : Turn P}
    (hexact : ∀ e ∈ turn, e.delta.exact) (hconsistent : turn.Consistent w) :
    InStep before (turn.worktree w) (turn.track R t) := by
  induction turn generalizing w t with
  | nil => exact h
  | cons e turn ih =>
    rw [forall_mem_cons] at hexact
    exact ih (h.trackDelta R hexact.1 hconsistent.1) hexact.2 hconsistent.2

/-- **The turn diff is the net diff.** -/
theorem tracker_net_diff (R : Rendering P) (roots : List (Str × P))
    (before : TrackedPath P → Option Str) (turn : Turn P)
    (hexact : ∀ e ∈ turn, e.delta.exact) (hconsistent : turn.Consistent (.start before)) :
    let after := turn.worktree (.start before)
    let t := turn.track R (withEnvironmentDisplayRoots roots)
    (∀ path c, get t.baselineByPath path = some c → before path = some c.content) ∧
    (∀ path c, get t.currentByPath path = some c → after.texts path = some c.content) ∧
    (∀ path, path ∈ t.baselineByPath → path ∉ t.currentByPath → after.texts path = none) ∧
    (∀ path, path ∈ t.currentByPath → path ∉ t.baselineByPath → before path = none) ∧
    (∀ path, path ∉ t.baselineByPath → path ∉ t.currentByPath → before path = after.texts path) ∧
    (t.getUnifiedDiff = none ↔ OnlyRenames before after) := by
  intro after t
  have h : InStep before after t := (inStep_start before roots).track R hexact hconsistent
  have hnet := h.tracks.net
  have hcontents : ∀ {m : HashMap (TrackedPath P) TrackedContent} {path c},
      get m path = some c → contents m path = some c.content :=
    congrArg (Option.map _)
  refine ⟨fun path c hget => ?_, fun path c hget => ?_, fun path hmem hnot => ?_,
    fun path hmem hnot => ?_, fun path hnot hnot' => ?_, h.unifiedDiff⟩
  · have hc := hcontents hget
    rw [hnet.first_eq (.inl (hc ▸ some_ne_none _)), hc]
  · have hc := hcontents hget
    rw [hnet.last_eq (.inr (hc ▸ some_ne_none _)), hc]
  · exact ((hnet.lost_iff path).mp ⟨mem_iff_contents.mp hmem, notMem_iff_contents.mp hnot⟩).2
  · exact ((hnet.gained_iff path).mp ⟨notMem_iff_contents.mp hnot, mem_iff_contents.mp hmem⟩).1
  · refine (hnet.eq_iff path).mp ?_
    rw [notMem_iff_contents.mp hnot, notMem_iff_contents.mp hnot']

/-- Paths are shown as they are. -/
def plainRendering : Rendering Str := ⟨fun _ _ => none, id, id⟩

/-- Maps are gone over as they are, and a diff is the two headers and the two texts. -/
def plainCircumstances : Circumstances Str :=
  ⟨.kept _, .kept _, fun old new oldHeader newHeader => oldHeader ++ newHeader ++ old ++ new⟩

/-- The file `a` is renamed to `b`. -/
def renameTurn (old new : Str) : Turn Str :=
  [⟨[], ⟨[⟨"a", .update (some "b") old none new⟩], true⟩, plainCircumstances⟩]

/-- There is a file `a` and no other. -/
def onlyA (text : Str) (path : TrackedPath Str) : Option Str := oneFile "a" text path.path

/-- A rename with an edit. -/
theorem tracker_net_diff_rename :
    (∀ e ∈ renameTurn "x" "z", e.delta.exact) ∧
    (renameTurn "x" "z").Consistent (.start (onlyA "x")) ∧
    (((renameTurn "x" "z").track plainRendering
        (withEnvironmentDisplayRoots [])).getUnifiedDiff = none ↔
      OnlyRenames (onlyA "x")
        ((renameTurn "x" "z").worktree (.start (onlyA "x")))) := by
  have hexact : ∀ e ∈ renameTurn "x" "z", e.delta.exact := by
    simp [renameTurn]
  have hconsistent : (renameTurn "x" "z").Consistent (.start (onlyA "x")) :=
    ⟨⟨⟨rfl, rfl⟩, trivial⟩, trivial⟩
  exact ⟨hexact, hconsistent,
    (tracker_net_diff plainRendering [] (onlyA "x") _ hexact hconsistent).2.2.2.2.2⟩

/-- **A pure rename has no diff**, although neither path has the text it had. -/
theorem pureRename_no_diff : (∀ e ∈ renameTurn "x" "x", e.delta.exact) ∧
    (renameTurn "x" "x").Consistent (.start (onlyA "x")) ∧
    ((renameTurn "x" "x").track plainRendering
      (withEnvironmentDisplayRoots [])).getUnifiedDiff = none ∧
    ∃ path, onlyA "x" path ≠
      ((renameTurn "x" "x").worktree (.start (onlyA "x"))).texts path := by
  refine ⟨by simp [renameTurn], ⟨⟨⟨rfl, rfl⟩, trivial⟩, trivial⟩, by rfl, ⟨[], "a"⟩, ?_⟩
  decide

end TurnDiff
