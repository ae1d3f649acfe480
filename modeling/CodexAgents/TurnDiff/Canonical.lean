import CodexAgents.TurnDiff.NetDiff

/-!
# One turn, one diff

A turn diff is put together from what was rendered before where that can be used again, and in the
order in which the hash maps happen to iterate.  The first is not to be seen, and the second should
not be.

* `refreshUnifiedDiff_eq_fromScratch` — the cache is not to be seen: the tracker is the one that
  would have rendered every pair of paths now.
* `countP_compared` — a path of which the text has changed is in one pair.
* `canonical_of_unambiguous` — the order of iteration is not to be seen, if no two renames that
  could be shown start from one path, and pairs that differ and are displayed at one place are
  alike.

Renames are collected into a map that has the origin for its key.  If a file is renamed, and another
is put in its place and renamed too, then both have one origin, and the rename that the iteration
comes to last is the one that is shown.  Pairs are sorted by how their left path is displayed, and
if two are displayed alike, which they can be in two environments, they stay as they came.

What the diff library makes of two texts is taken to be the same every time.
-/

namespace TurnDiff

open Text ApplyPatch HashMap Firsts TurnDiffTracker List Option

variable {P : Type} [DecidableEq P]

/-! ## Calls -/

/-- The orders in which one call goes over the maps. -/
structure Orders (P : Type) where
  paths : Order (TrackedPath P)
  origins : Order (Sigma fun _ : TrackedPath P => TrackedPath P)

variable (orders : Orders P) (diffLines : Str → Str → Str → Str → Str)

/-- The orders of a refresh. -/
def Orders.circumstances : Circumstances P := ⟨orders.paths, orders.origins, diffLines⟩

/-- The changes of an exact delta. -/
structure Change (P : Type) where
  environmentId : Str
  changes : List (AppliedPatchChange P)

/-- One call of `trackDelta`, with an exact delta. -/
structure Call (P : Type) where
  change : Change P
  orders : Orders P

/-- A call as it is tracked. -/
def Call.tracked (call : Call P) : Tracked P :=
  ⟨call.change.environmentId, ⟨call.change.changes, true⟩, call.orders.circumstances diffLines⟩

variable (R : Rendering P)

/-- A whole turn. -/
def track (diffLines : Str → Str → Str → Str → Str) (roots : List (Str × P))
    (calls : List (Call P)) : TurnDiffTracker P :=
  Turn.track R (withEnvironmentDisplayRoots roots) (calls.map (Call.tracked diffLines))

variable (t : TurnDiffTracker P)

/-- All changes of a call. -/
def applyChanges (c : Change P) : TurnDiffTracker P :=
  c.changes.foldl (applyChange c.environmentId) t

/-- A tracker that is told the changes and never renders any. -/
def settled (roots : List (Str × P)) (changes : List (Change P)) : TurnDiffTracker P :=
  changes.foldl applyChanges (withEnvironmentDisplayRoots roots)

/-! ## Rendering from scratch -/

/-- Which renames are shown. -/
def renames : HashMap (TrackedPath P) (TrackedPath P) :=
  t.renamePairs (orders.circumstances fun _ _ _ _ => [])

/-- Where files were renamed to. -/
def destinations : List (TrackedPath P) := (renames orders t).entries.map (·.2)

/-- What a path is compared with. -/
def partner (path : TrackedPath P) : TrackedPath P := (get (renames orders t) path).getD path

/-- The paths in the order in which they are compared. -/
def lefts (orders : Orders P) (t : TurnDiffTracker P) : List (TrackedPath P) :=
  unpaired (destinations orders t)
    (firsts [] (sortedPaths R (orders.circumstances fun _ _ _ _ => []) t))

/-- **The pairs of paths that are compared**, the one before the turn with the one after it. -/
def compared (orders : Orders P) (t : TurnDiffTracker P) : List (TrackedPath P × TrackedPath P) :=
  (lefts R orders t).map fun path => (path, partner orders t path)

variable (R : Rendering P) (diffLines : Str → Str → Str → Str → Str)

section

variable (t : TurnDiffTracker P)

/-- The diff of a pair, rendered now. -/
def fresh (pair : TrackedPath P × TrackedPath P) : Option Str :=
  renderDiff R diffLines t pair.1 (contents t.baselineByPath pair.1) pair.2
    (contents t.currentByPath pair.2)

/-- The diffs of pairs, without the cache. -/
def freshDiffs (pairs : List (TrackedPath P × TrackedPath P)) :
    List ((TrackedPath P × TrackedPath P) × Option Str) :=
  pairs.map fun pair => (pair, fresh R diffLines t pair)

/-- **Every pair is rendered from scratch.** -/
def fromScratch (pairs : List (TrackedPath P × TrackedPath P)) : TurnDiffTracker P :=
  { t with
    renderedDiffs := keepDiffs t ∅ (freshDiffs R diffLines t pairs)
    unifiedDiff := if joinDiffs [] (freshDiffs R diffLines t pairs) = [] then none
      else some (joinDiffs [] (freshDiffs R diffLines t pairs)) }

/-- The cache holds what would be rendered now. -/
def Exact (roots : HashMap Str P) (key : DiffCacheKey P) (left right diff : Option Str) : Prop :=
  diff = renderDiff R diffLines { displayRootsByEnvironment := roots } key.leftPath left
    key.rightPath right

omit [DecidableEq P] in
lemma displayPath_congr {t t'}
    (h : t.displayRootsByEnvironment = t'.displayRootsByEnvironment) :
    displayPath R t = displayPath R t' := by
  funext path
  unfold displayPath
  rw [h]

omit [DecidableEq P] in
/-- Of the tracker, only the roots are looked at. -/
lemma renderDiff_congr {t t'}
    (h : t.displayRootsByEnvironment = t'.displayRootsByEnvironment) :
    renderDiff R diffLines t = renderDiff R diffLines t' := by
  funext leftPath left rightPath right
  unfold renderDiff
  rw [displayPath_congr R h]

/-- **The cache is not to be seen.** -/
theorem refreshUnifiedDiff_eq_fromScratch {t}
    (h : Coherent (Exact R diffLines t.displayRootsByEnvironment) t) (orders : Orders P) :
    t.refreshUnifiedDiff R (orders.circumstances diffLines) =
        fromScratch R diffLines t (compared R orders t) ∧
      Coherent (Exact R diffLines t.displayRootsByEnvironment)
        (t.refreshUnifiedDiff R (orders.circumstances diffLines)) := by
  obtain ⟨log, ht, hcache⟩ := h
  have hcongr : renderDiff R diffLines t = renderDiff R diffLines
      { displayRootsByEnvironment := t.displayRootsByEnvironment } :=
    renderDiff_congr R diffLines rfl
  have hdests : ∀ path dest, get (renames orders t) path = some dest →
      dest ∈ destinations orders t :=
    fun path dest hget => mem_pairedDestinations.mpr ⟨path, hget⟩
  obtain ⟨diffs, hpairs, hexact, hkeep, hjoin, hholds⟩ := refreshPaths_holds R diffLines ht hdests
    (fun left right => by rw [Exact, hcongr]; rfl)
    (sortedPaths R (orders.circumstances diffLines) t) (r := { previousDiffs := t.renderedDiffs })
    hcache (cacheHolds_empty log)
  have hlefts : firsts [] ((sortedPaths R (orders.circumstances diffLines) t).filter
      (· ∉ destinations orders t)) = lefts R orders t :=
    (filter_firsts (fun _ _ => Iff.rfl) _).symm
  have hfresh : diffs = freshDiffs R diffLines t (compared R orders t) := by
    have hcompared : diffs.map Prod.fst = compared R orders t := by
      rw [hpairs, compared, ← hlefts]
      rfl
    rw [← hcompared, freshDiffs, List.map_map]
    nth_rewrite 1 [← List.map_id diffs]
    refine map_congr_left fun d hd => Prod.ext rfl ((hexact d hd).trans ?_)
    rw [← hcongr]
    rfl
  refine ⟨?_, log, ⟨ht.next, ht.baseline, ht.current⟩, hholds⟩
  rw [fromScratch, ← hfresh, ← hkeep, ← hjoin]
  rfl

end

/-! ## Turns -/

section

variable (t : TurnDiffTracker P)

/-- What a tracker has besides what was rendered. -/
def bare : TurnDiffTracker P := { t with renderedDiffs := ∅, unifiedDiff := none }

lemma bare_noteBaseline (path : TrackedPath P) (content : Option Str) :
    bare (t.noteBaseline path content) = (bare t).noteBaseline path content := by
  unfold noteBaseline
  rw [apply_ite bare]
  rcases content <;> rfl

/-- Changes are made without looking at what was rendered. -/
lemma bare_applyChange (environmentId : Str) (t : TurnDiffTracker P) (c : AppliedPatchChange P) :
    bare (t.applyChange environmentId c) = (bare t).applyChange environmentId c := by
  obtain ⟨path, ⟨content, overwritten⟩ | ⟨content⟩ | ⟨_ | dest, old, overwritten, new⟩⟩ := c
  · show insertCurrent (bare (noteBaseline (removeOrigin t _) _ _)) _ _ = _
    rw [bare_noteBaseline]
    rfl
  · show removeOrigin (bare (ite _ _ _)) _ = _
    rw [apply_ite bare]
    rfl
  · show insertCurrent (bare (noteBaseline t _ _)) _ _ = _
    rw [bare_noteBaseline]
    rfl
  · show bare (t.applyUpdate ⟨environmentId, path⟩
      (some ⟨environmentId, dest⟩) old overwritten new) =
      (bare t).applyUpdate ⟨environmentId, path⟩ (some ⟨environmentId, dest⟩) old overwritten new
    simp only [applyUpdate, ← bare_noteBaseline]
    rw [apply_ite bare]
    rfl

lemma bare_applyChanges (c : Change P) : bare (applyChanges t c) = applyChanges (bare t) c :=
  (foldl_hom bare fun t c' => (bare_applyChange c.environmentId t c').symm).symm

lemma settled_concat (roots : List (Str × P)) (changes : List (Change P)) (c : Change P) :
    settled roots (changes ++ [c]) = applyChanges (settled roots changes) c :=
  foldl_concat ..

lemma displayRoots_applyChanges (c : Change P) :
    (applyChanges t c).displayRootsByEnvironment = t.displayRootsByEnvironment :=
  foldlRecOn
    (motive := fun u : TurnDiffTracker P => u.displayRootsByEnvironment =
      t.displayRootsByEnvironment)
    _ _ rfl fun _ h c' _ =>
      applyChange_invariant
        (I := fun u : TurnDiffTracker P =>
          u.displayRootsByEnvironment = t.displayRootsByEnvironment)
        (fun _ _ _ h => h) (fun _ _ _ h => h) (fun _ _ h => h) (fun _ _ _ h => h) (fun _ _ h => h)
        h c.environmentId c'

variable {t : TurnDiffTracker P}

lemma valid_applyChanges (h : t.valid) (c : Change P) : (applyChanges t c).valid :=
  foldlRecOn (motive := fun t : TurnDiffTracker P => t.valid = true) _ _ h fun _ h c' _ =>
    valid_applyChange h c.environmentId c'

/-- **The tracker after some calls**: the cache is right, and the rest is as if nothing had been
rendered. -/
structure UpToDate (roots : List (Str × P)) (changes : List (Change P)) (t : TurnDiffTracker P) :
    Prop where
  valid : t.valid = true
  displayRoots : t.displayRootsByEnvironment = collect roots
  exact : Coherent (Exact R diffLines (collect roots)) t
  maps : bare t = settled roots changes

variable {R diffLines} {roots : List (Str × P)} {changes : List (Change P)}

/-- One call. -/
lemma UpToDate.trackDelta (h : UpToDate R diffLines roots changes t) (call : Call P) :
    t.trackDelta R (call.tracked diffLines).circumstances (call.tracked diffLines).environmentId
        (call.tracked diffLines).delta =
      fromScratch R diffLines (settled roots (changes ++ [call.change]))
        (compared R call.orders (settled roots (changes ++ [call.change]))) ∧
    UpToDate R diffLines roots (changes ++ [call.change])
      (t.trackDelta R (call.tracked diffLines).circumstances
        (call.tracked diffLines).environmentId (call.tracked diffLines).delta) := by
  have htrack : t.trackDelta R (call.tracked diffLines).circumstances
      (call.tracked diffLines).environmentId (call.tracked diffLines).delta =
      (applyChanges t call.change).refreshUnifiedDiff R (call.orders.circumstances diffLines) := by
    rw [TurnDiffTracker.trackDelta, if_neg (not_not.mpr h.valid)]
    exact if_neg (not_not.mpr rfl)
  have hroots := (displayRoots_applyChanges t call.change).trans h.displayRoots
  have hexact : Coherent (Exact R diffLines (collect roots)) (applyChanges t call.change) :=
    foldlRecOn (motive := Coherent (Exact R diffLines (collect roots))) _ _ h.exact
      fun _ h c _ => h.applyChange call.change.environmentId c
  have hsettled : bare (applyChanges t call.change) = settled roots (changes ++ [call.change]) := by
    rw [bare_applyChanges, h.maps, settled_concat]
  rw [← hroots] at hexact
  obtain ⟨hscratch, hexact'⟩ := refreshUnifiedDiff_eq_fromScratch R diffLines hexact call.orders
  rw [hroots] at hexact'
  rw [htrack]
  refine ⟨?_, valid_applyChanges h.valid call.change, hroots, hexact', hsettled⟩
  rw [hscratch, ← hsettled]
  rfl

lemma track_concat (calls : List (Call P)) (call : Call P) :
    track R diffLines roots (calls ++ [call]) =
      (track R diffLines roots calls).trackDelta R (call.tracked diffLines).circumstances
        (call.tracked diffLines).environmentId (call.tracked diffLines).delta := by
  rw [track, map_append, Turn.track, map_singleton, foldl_concat]
  rfl

/-- A whole turn. -/
lemma upToDate_track (calls : List (Call P)) :
    UpToDate R diffLines roots (calls.map (·.change)) (track R diffLines roots calls) := by
  induction calls using reverseRecOn with
  | nil => exact ⟨rfl, rfl, coherent_start _ roots, rfl⟩
  | append_singleton calls call ih =>
    rw [track_concat, map_append]
    exact (ih.trackDelta call).2

lemma track_eq_fromScratch (calls : List (Call P)) (call : Call P) :
    let t := settled roots ((calls ++ [call]).map (·.change))
    track R diffLines roots (calls ++ [call]) =
      fromScratch R diffLines t (compared R call.orders t) := by
  rw [track_concat, map_append]
  exact ((upToDate_track calls).trackDelta call).1

end

/-! ## The pairs -/

namespace IsRename

variable {t : TurnDiffTracker P} {origin dest : TrackedPath P}

section

variable (h : IsRename t origin dest)

include h

lemma origin_unique {origin'}
    (h' : IsRename t origin' dest) : origin = origin' :=
  get_unique h.origin_eq h'.origin_eq

/-- A file that was renamed is not where another was renamed from. -/
lemma not_isRename {dest'} : ¬ IsRename t dest dest' :=
  fun h' => h'.lost.1 h.gained.1

end

end IsRename

variable (orders : Orders P)

section

variable {t : TurnDiffTracker P}

lemma isRename_of_get {origin dest}
    (h : get (renames orders t) origin = some dest) : IsRename t origin dest :=
  (renamePairs_cases t _).1 origin dest h

lemma mem_destinations {dest} :
    dest ∈ destinations orders t ↔ ∃ origin, get (renames orders t) origin = some dest :=
  mem_pairedDestinations

variable {path : TrackedPath P}

lemma mem_lefts : path ∈ lefts R orders t ↔
      (path ∈ t.baselineByPath ∨ path ∈ t.currentByPath) ∧ path ∉ destinations orders t := by
  rw [lefts, unpaired, mem_filter, mem_firsts, mem_sortedPaths, decide_eq_true_iff,
    and_iff_left not_mem_nil]

lemma nodup_lefts : (lefts R orders t).Nodup := (nodup_firsts _ _).filter _

variable (hpath : path ∈ t.baselineByPath ∨ path ∈ t.currentByPath)
include hpath

/-- A path is compared as the left one of a pair, or it is the destination of a rename. -/
lemma exists_covering : ∃ left ∈ lefts R orders t, ∀ p ∈ lefts R orders t,
      (p = path ∨ partner orders t p = path) ↔ p = left := by
  by_cases hdest : path ∈ destinations orders t
  · obtain ⟨origin, horigin⟩ := (mem_destinations orders).mp hdest
    have hrename := isRename_of_get orders horigin
    refine ⟨origin, (mem_lefts R orders).mpr ⟨.inl hrename.lost.2, ?_⟩, ?_⟩
    · intro h
      obtain ⟨origin', horigin'⟩ := (mem_destinations orders).mp h
      exact (isRename_of_get orders horigin').not_isRename hrename
    · intro p hp
      have hne : p ≠ path := fun heq => ((mem_lefts R orders).mp hp).2 (heq ▸ hdest)
      rw [or_iff_right hne, partner]
      constructor
      · intro hpartner
        rcases hget : get (renames orders t) p with _ | dest
        · rw [hget, getD_none] at hpartner
          exact absurd hpartner hne
        · rw [hget, getD_some] at hpartner
          subst hpartner
          exact (isRename_of_get orders hget).origin_unique hrename
      · rintro rfl
        rw [horigin, getD_some]
  · refine ⟨path, (mem_lefts R orders).mpr ⟨hpath, hdest⟩, fun p _ => or_iff_left_of_imp ?_⟩
    intro hpartner
    rw [partner] at hpartner
    rcases hget : get (renames orders t) p with _ | dest
    · rwa [hget, getD_none] at hpartner
    · rw [hget, getD_some] at hpartner
      exact absurd ((mem_destinations orders).mpr ⟨p, hpartner ▸ hget⟩) hdest

/-- **Every path is in one pair.** -/
theorem countP_compared :
    (compared R orders t).countP (fun pair => pair.1 = path ∨ pair.2 = path) = 1 := by
  obtain ⟨left, hleft, hcovers⟩ := exists_covering R orders hpath
  rw [compared, countP_map, ← count_eq_one_of_mem (nodup_lefts R orders) hleft, List.count]
  refine countP_congr fun p hp => ?_
  simp only [Function.comp_apply, decide_eq_true_iff, beq_iff_eq]
  exact hcovers p hp

end

/-! ## The order of the pairs -/

section

variable (t : TurnDiffTracker P)

/-- The paths as they come from the two maps. -/
def arrangedKeys : List (TrackedPath P) :=
  orders.paths.arrange t.baselineByPath.keys ++ orders.paths.arrange t.currentByPath.keys

omit [DecidableEq P] in
lemma mem_arrange_keys (order : Order (TrackedPath P))
    (m : HashMap (TrackedPath P) TrackedContent) (path : TrackedPath P) :
    path ∈ order.arrange m.keys ↔ path ∈ m := by
  rw [order.mem_arrange, AList.mem_keys]

lemma firsts_dedup (seen l : List (TrackedPath P)) : firsts seen (dedup l) = firsts seen l := by
  fun_induction dedup l generalizing seen with
  | case1 | case2 => rfl
  | case3 b l ih =>
    rw [ih, firsts.eq_2 seen b (b :: l)]
    split_ifs with hb
    · rfl
    · rw [firsts, if_neg hb, firsts, if_pos mem_cons_self]
  | case4 b c l hne ih => rw [firsts, firsts, ih, ih]

lemma firsts_sortedPaths : firsts [] (sortedPaths R (orders.circumstances fun _ _ _ _ => []) t) =
      firsts [] ((arrangedKeys orders t).insertionSort
        fun a b => displayPath R t a ≤ displayPath R t b) :=
  firsts_dedup [] _

/-- Paths that are displayed alike are gone over as they come. -/
lemma filter_firsts_sortedPaths {p display}
    (hp : ∀ path, p path → displayPath R t path = display) :
    (firsts [] (sortedPaths R (orders.circumstances fun _ _ _ _ => []) t)).filter p =
      firsts [] ((arrangedKeys orders t).filter p) := by
  rw [firsts_sortedPaths, filter_firsts fun _ _ => Iff.rfl, filter_insertionSort]
  intro a b ha hb
  rw [hp a ha, hp b hb]

/-- By how they are displayed, and then those that were there before the turn. -/
def Precedes (path path' : TrackedPath P) : Prop :=
  displayPath R t path < displayPath R t path' ∨ displayPath R t path = displayPath R t path' ∧
      (path' ∈ t.baselineByPath → path ∈ t.baselineByPath)

/-- Those of the first map come first. -/
lemma pairwise_firsts_arrangedKeys (p : TrackedPath P → Bool) :
    (firsts [] ((arrangedKeys orders t).filter p)).Pairwise
      fun path path' => path' ∈ t.baselineByPath → path ∈ t.baselineByPath := by
  have hleft : ∀ path ∈ firsts [] ((orders.paths.arrange t.baselineByPath.keys).filter p),
      path ∈ t.baselineByPath :=
    fun path h => (mem_arrange_keys ..).mp (mem_filter.mp (mem_firsts.mp h).1).1
  have hright : ∀ path ∈ firsts ((orders.paths.arrange t.baselineByPath.keys).filter p ++ [])
      ((orders.paths.arrange t.currentByPath.keys).filter p), path ∉ t.baselineByPath := by
    intro path h hmem
    obtain ⟨h, hnot⟩ := mem_firsts.mp h
    refine hnot (mem_append_left _ (mem_filter.mpr ⟨?_, (mem_filter.mp h).2⟩))
    exact (mem_arrange_keys ..).mpr hmem
  rw [arrangedKeys, filter_append, firsts_append, pairwise_append]
  exact ⟨pairwise_of_forall_mem_list fun path h _ _ _ => hleft path h,
    pairwise_of_forall_mem_list fun _ _ path' h h' => absurd h' (hright path' h),
    fun path h _ _ _ => hleft path h⟩

omit [DecidableEq P] in
lemma pairwise_sortByDisplay (paths : List (TrackedPath P)) :
    (paths.insertionSort fun a b => displayPath R t a ≤ displayPath R t b).Pairwise
      fun a b => displayPath R t a ≤ displayPath R t b :=
  haveI : Std.Total fun a b => displayPath R t a ≤ displayPath R t b :=
    ⟨fun a b => le_total (displayPath R t a) (displayPath R t b)⟩
  haveI : IsTrans (TrackedPath P) fun a b => displayPath R t a ≤ displayPath R t b :=
    ⟨fun _ _ _ => le_trans⟩
  pairwise_insertionSort _ _

lemma pairwise_lefts : (lefts R orders t).Pairwise (Precedes R t) := by
  refine List.Pairwise.filter _ ?_
  rw [pairwise_iff_forall_sublist]
  intro path path' hsub
  have hle : displayPath R t path ≤ displayPath R t path' := by
    rw [firsts_sortedPaths] at hsub
    exact pairwise_iff_forall_sublist.mp (pairwise_sortByDisplay R t _)
      (hsub.trans (firsts_sublist _ _))
  obtain hlt | heq := hle.lt_or_eq
  · exact .inl hlt
  · refine .inr ⟨heq, ?_⟩
    have hclass := hsub.filter fun q => displayPath R t q = displayPath R t path
    rw [filter_firsts_sortedPaths R orders t fun q hq => of_decide_eq_true hq,
      filter_eq_self.mpr (by simp [heq])] at hclass
    exact pairwise_iff_forall_sublist.mp (pairwise_firsts_arrangedKeys orders t _) hclass

end

/-! ## What is shown -/

/-- The two texts of a pair are not the same. -/
def Differs (t : TurnDiffTracker P) (pair : TrackedPath P × TrackedPath P) : Prop :=
  contents t.baselineByPath pair.1 ≠ contents t.currentByPath pair.2

instance (t : TurnDiffTracker P) (pair : TrackedPath P × TrackedPath P) :
    Decidable (Differs t pair) :=
  inferInstanceAs (Decidable (_ ≠ _))

/-- **The pairs of which a diff is shown**, in their order. -/
def shown (R : Rendering P) (orders : Orders P) (t : TurnDiffTracker P) :
    List (TrackedPath P × TrackedPath P) :=
  (compared R orders t).filter fun pair => Differs t pair

/-- The diff of `path` and `partner` is shown, if the origin of a rename says which rename it is. -/
def Shows (t : TurnDiffTracker P) (path partner : TrackedPath P) : Prop :=
  (IsRename t path partner ∨
      partner = path ∧ (∀ dest, ¬ IsRename t path dest) ∧ ∀ origin, ¬ IsRename t origin path) ∧
    Differs t (path, partner)

/-- **Nothing is left to the order of iteration.** -/
structure Unambiguous (R : Rendering P) (t : TurnDiffTracker P) : Prop where
  origins : ∀ origin dest dest', IsRename t origin dest → IsRename t origin dest' → dest = dest'
  displays : ∀ path partner path' partner', Shows t path partner → Shows t path' partner' →
    displayPath R t path = displayPath R t path' →
    (path ∈ t.baselineByPath ↔ path' ∈ t.baselineByPath) →
    displayPath R t partner = displayPath R t partner' ∧
      contents t.baselineByPath path = contents t.baselineByPath path' ∧
      contents t.currentByPath partner = contents t.currentByPath partner'

section

variable {t : TurnDiffTracker P}

lemma mem_shown {pair} : pair ∈ shown R orders t ↔
      pair.1 ∈ lefts R orders t ∧ pair.2 = partner orders t pair.1 ∧ Differs t pair := by
  rw [shown, compared, mem_filter, List.mem_map, decide_eq_true_iff, ← and_assoc]
  refine and_congr_left fun _ => ?_
  constructor
  · rintro ⟨path, hpath, rfl⟩
    exact ⟨hpath, rfl⟩
  · rintro ⟨hpath, hpartner⟩
    exact ⟨pair.1, hpath, Prod.ext rfl hpartner.symm⟩

lemma map_fst_shown : (shown R orders t).map Prod.fst =
      (lefts R orders t).filter fun path => Differs t (path, partner orders t path) := by
  rw [shown, compared, List.filter_map, List.map_map]
  exact map_id _

lemma mem_of_differs {path} (h : Differs t (path, path)) :
    path ∈ t.baselineByPath ∨ path ∈ t.currentByPath := by
  rw [mem_iff_contents, mem_iff_contents, ← not_and_or]
  exact fun hnone => h (hnone.1.trans hnone.2.symm)

section

variable (horigins : ∀ origin dest dest', IsRename t origin dest → IsRename t origin dest' →
  dest = dest')

include horigins

lemma get_renames_iff {origin dest} :
    get (renames orders t) origin = some dest ↔ IsRename t origin dest := by
  refine ⟨isRename_of_get orders, fun h => ?_⟩
  obtain ⟨dest', hget⟩ := (renamePairs_cases t _).2 origin dest h
  rw [horigins origin dest dest' h (isRename_of_get orders hget)]
  exact hget

lemma mem_shown_iff {path path'} :
    (path, path') ∈ shown R orders t ↔ Shows t path path' := by
  rw [mem_shown, mem_lefts, mem_destinations, partner, Shows, ← and_assoc]
  simp only [get_renames_iff orders horigins, not_exists]
  refine and_congr_left fun hdiffers => ?_
  constructor
  · rintro ⟨⟨hmem, hdest⟩, hpartner⟩
    rcases hget : get (renames orders t) path with _ | dest
    · refine .inr ⟨by rwa [hget] at hpartner, fun dest hdest => ?_, hdest⟩
      exact some_ne_none dest ((get_renames_iff orders horigins).mpr hdest ▸ hget)
    · rw [hget, getD_some] at hpartner
      exact .inl (hpartner ▸ isRename_of_get orders hget)
  · rintro (hrename | ⟨rfl, hnone, hdest⟩)
    · refine ⟨⟨.inl hrename.lost.2, fun origin h => h.not_isRename hrename⟩, ?_⟩
      rw [(get_renames_iff orders horigins).mpr hrename, getD_some]
    · refine ⟨⟨mem_of_differs hdiffers, hdest⟩, ?_⟩
      rcases hget : get (renames orders t) path' with _ | dest
      · rw [getD_none]
      · exact absurd (isRename_of_get orders hget) (hnone dest)

end

/-- By what a pair is sorted, and what is shown of it. -/
def sortKey (t : TurnDiffTracker P) (pair : TrackedPath P × TrackedPath P) :
    Str × Prop × Option Str :=
  (displayPath R t pair.1, pair.1 ∈ t.baselineByPath, fresh R diffLines t pair)

lemma fresh_congr {pair pair' : TrackedPath P × TrackedPath P}
    (hleft : displayPath R t pair.1 = displayPath R t pair'.1)
    (hright : displayPath R t pair.2 = displayPath R t pair'.2)
    (hold : contents t.baselineByPath pair.1 = contents t.baselineByPath pair'.1)
    (hnew : contents t.currentByPath pair.2 = contents t.currentByPath pair'.2) :
    fresh R diffLines t pair = fresh R diffLines t pair' := by
  unfold fresh renderDiff
  rw [hleft, hright, hold, hnew]

/-- **In whatever order the maps are gone over**, the same diffs are shown in the same order. -/
theorem map_sortKey_shown (h : Unambiguous R t) (orders orders' : Orders P) :
    (shown R orders t).map (sortKey R diffLines t) =
      (shown R orders' t).map (sortKey R diffLines t) := by
  have hnodup : ∀ orders, (shown R orders t).Nodup := fun orders =>
    List.Nodup.of_map Prod.fst (map_fst_shown R orders ▸ (nodup_lefts R orders).filter _)
  have hsorted : ∀ orders, ((shown R orders t).map (sortKey R diffLines t)).Pairwise
      fun a b => a.1 < b.1 ∨ a.1 = b.1 ∧ (b.2.1 → a.2.1) := fun orders => by
    rw [pairwise_map]
    exact pairwise_map.mp (map_fst_shown R orders ▸ (pairwise_lefts R orders t).filter _)
  have hperm : (shown R orders t).Perm (shown R orders' t) := by
    rw [perm_ext_iff_of_nodup (hnodup orders) (hnodup orders')]
    rintro ⟨path, path'⟩
    rw [mem_shown_iff R orders h.origins, mem_shown_iff R orders' h.origins]
  refine (hperm.map _).eq_of_pairwise ?_ (hsorted orders) (hsorted orders')
  intro a b ha hb hle hle'
  obtain ⟨⟨path, path'⟩, hmem, rfl⟩ := List.mem_map.mp ha
  obtain ⟨⟨other, other'⟩, hother, rfl⟩ := List.mem_map.mp hb
  rw [← hperm.mem_iff] at hother
  have hdisplay : displayPath R t path = displayPath R t other := by
    obtain hlt | ⟨heq, -⟩ := hle
    · obtain hlt' | ⟨heq', -⟩ := hle'
      · exact absurd hlt' hlt.asymm
      · exact heq'.symm
    · exact heq
  have hbaseline : path ∈ t.baselineByPath ↔ other ∈ t.baselineByPath :=
    ⟨(hle'.resolve_left hdisplay.not_gt).2, (hle.resolve_left hdisplay.not_lt).2⟩
  obtain ⟨hpartner, hold, hnew⟩ := h.displays path path' other other'
    ((mem_shown_iff R orders h.origins).mp hmem) ((mem_shown_iff R orders h.origins).mp hother)
    hdisplay hbaseline
  exact Prod.ext hdisplay
    (Prod.ext (propext hbaseline) (fresh_congr R diffLines hdisplay hpartner hold hnew))

/-- Of a pair that does not differ nothing is seen. -/
lemma joinDiffs_compared (diffLines : Str → Str → Str → Str → Str) (orders : Orders P) :
    joinDiffs [] (freshDiffs R diffLines t (compared R orders t)) =
      ((shown R orders t).map (sortKey R diffLines t)).foldl
        (fun aggregated key => key.2.2.elim aggregated (pushDiff aggregated)) [] := by
  rw [joinDiffs, freshDiffs, foldl_map, foldl_map, shown, foldl_filter]
  refine congrArg (foldl · [] _) (funext fun aggregated => funext fun pair => ?_)
  split_ifs with hdiffers
  · rfl
  · have hnone : fresh R diffLines t pair = none :=
      (renders_renderDiff R diffLines t pair.1 pair.2 _ _).1.mpr
        (not_not.mp (mt decide_eq_true_iff.mpr hdiffers))
    rw [hnone]
    rfl

end

/-! ## One diff -/

section

variable (roots : List (Str × P)) (changes : List (Change P))

/-- **What a turn diff should be.** -/
structure Canonical : Prop where
  /-- With the cache, the tracker is what it would be without. -/
  scratch : ∀ calls call, (calls ++ [call]).map Call.change = changes →
    track R diffLines roots (calls ++ [call]) = fromScratch R diffLines (settled roots changes)
        (compared R call.orders (settled roots changes))
  /-- A path of which the text has changed is in one pair. -/
  covered : ∀ orders path, Differs (settled roots changes) (path, path) →
    (compared R orders (settled roots changes)).countP
      (fun pair => pair.1 = path ∨ pair.2 = path) = 1
  /-- The text is the same. -/
  text : ∀ calls calls', calls.map Call.change = changes → calls'.map Call.change = changes →
    (track R diffLines roots calls).getUnifiedDiff = (track R diffLines roots calls').getUnifiedDiff

lemma getUnifiedDiff_track (calls : List (Call P)) (call : Call P) :
    let t := settled roots ((calls ++ [call]).map Call.change)
    let text := joinDiffs [] (freshDiffs R diffLines t (compared R call.orders t))
    (track R diffLines roots (calls ++ [call])).getUnifiedDiff =
      if text = [] then none else some text := by
  intro t text
  rw [track_eq_fromScratch]
  rfl

/-- **The order of iteration is not to be seen, if nothing is left to it.**  That the cache is not
to be seen and that a path is in one pair holds in any case. -/
theorem canonical_of_unambiguous (h : Unambiguous R (settled roots changes)) :
    Canonical R diffLines roots changes := by
  refine ⟨?_, fun orders path hdiffers => countP_compared R orders (mem_of_differs hdiffers), ?_⟩
  · rintro calls call rfl
    exact track_eq_fromScratch calls call
  · intro calls calls' hcalls hcalls'
    obtain rfl | ⟨calls, call, rfl⟩ := eq_nil_or_concat' calls
    · rw [← hcalls] at hcalls'
      rw [map_eq_nil_iff.mp hcalls']
    · obtain rfl | ⟨calls', call', rfl⟩ := eq_nil_or_concat' calls'
      · rw [← hcalls'] at hcalls
        exact absurd (map_eq_nil_iff.mp hcalls) (concat_ne_nil call calls)
      · rw [getUnifiedDiff_track, getUnifiedDiff_track, hcalls, hcalls', joinDiffs_compared,
          joinDiffs_compared, map_sortKey_shown R diffLines h call.orders call'.orders]

end

/-- The file `a` is added. -/
def addA : List (Change Str) := [⟨[], [⟨"a", .add "x" none⟩]⟩]

theorem canonical_of_unambiguous_add :
    Canonical plainRendering plainCircumstances.diffLines [] addA := by
  refine canonical_of_unambiguous _ _ _ _ ⟨fun origin dest _ h => ?_, ?_⟩
  · exact absurd (mem_entries_iff.mpr h.origin_eq) not_mem_nil
  · have honly : ∀ path partner, Shows (settled [] addA) path partner →
        path = ⟨[], "a"⟩ ∧ partner = path := by
      rintro path partner ⟨hrename | ⟨rfl, -⟩, hdiffers⟩
      · exact absurd (mem_entries_iff.mpr hrename.origin_eq) not_mem_nil
      · refine ⟨?_, rfl⟩
        obtain hmem | hmem := mem_of_differs hdiffers
        · exact absurd (AList.mem_keys.mp hmem) not_mem_nil
        · exact mem_singleton.mp (AList.mem_keys.mp hmem)
    intro path partner path' partner' hshows hshows' _ _
    obtain ⟨rfl, rfl⟩ := honly path partner hshows
    obtain ⟨rfl, rfl⟩ := honly path' partner' hshows'
    exact ⟨rfl, rfl, rfl⟩

/-- The file `a` is renamed to `b`, another `a` is added and renamed to `c`. -/
def sharedOrigin : List (Change Str) :=
  [⟨[], [⟨"a", .update (some "b") "x" none "y"⟩]⟩,
    ⟨[], [⟨"a", .add "n" none⟩]⟩,
    ⟨[], [⟨"a", .update (some "c") "n" none "m"⟩]⟩]

/-- The iteration comes to the rename to `dest` last. -/
def renameLast (dest : Str) (change : Change Str) : Call Str :=
  ⟨change, .kept _, .last ⟨⟨[], dest⟩, [], "a"⟩⟩

/-- **Two diffs of one turn.** -/
theorem sharedOrigin_two_diffs : let diffOf := fun calls =>
      (track plainRendering plainCircumstances.diffLines [] calls).getUnifiedDiff
    (sharedOrigin.map (renameLast "b")).map Call.change = sharedOrigin ∧
    (sharedOrigin.map (renameLast "c")).map Call.change = sharedOrigin ∧
    diffOf (sharedOrigin.map (renameLast "b")) ≠
      diffOf (sharedOrigin.map (renameLast "c")) := by
  refine ⟨rfl, rfl, ?_⟩
  decide +kernel

end TurnDiff
