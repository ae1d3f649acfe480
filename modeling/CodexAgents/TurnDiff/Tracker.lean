import CodexAgents.ApplyPatch.Apply
import CodexAgents.Lib.HashMap

/-!
# The turn diff tracker

`core/src/turn_diff_tracker.rs`: what the patches of a turn have done to the files, taken together,
without looking at the files.  The tracker is told the deltas of the patches one after the other.
It keeps, of every path a delta has mentioned, the text the path had before the turn
(`baselineByPath`) and the text it has now (`currentByPath`), and for files that were renamed the
path they had at first (`originByCurrentPath`).

From these three maps `refreshUnifiedDiff` puts the diff together: a path is compared with itself,
or, if its file was renamed, with the path the file has now.  What was rendered the last time is
used again where neither side has changed since; revisions, which number the texts as they come in,
tell.

Two things are not up to the tracker and may be different every time: the order in which a hash map
iterates, and what the diff library makes of two texts in the time it is given (`Circumstances`).
How paths are displayed and how blobs are hashed is left open (`Rendering`).  Revisions are numbers
without a bound.
-/

namespace TurnDiff

open Text ApplyPatch HashMap

/-! ## Texts and paths -/

/-- A text, and when it was tracked. -/
structure TrackedContent where
  content : Str
  revision : Nat

/-- A path in an environment. -/
structure TrackedPath (P : Type) where
  environmentId : Str
  path : P
  deriving DecidableEq

/-- Which texts a diff compares. -/
structure DiffCacheKey (P : Type) where
  leftPath : TrackedPath P
  leftRevision : Option Nat
  rightPath : TrackedPath P
  rightRevision : Option Nat
  deriving DecidableEq

/-- The files before the turn and now, and the diff between them. -/
structure TurnDiffTracker (P : Type) where
  valid : Bool := true
  displayRootsByEnvironment : HashMap Str P := ∅
  baselineByPath : HashMap (TrackedPath P) TrackedContent := ∅
  currentByPath : HashMap (TrackedPath P) TrackedContent := ∅
  originByCurrentPath : HashMap (TrackedPath P) (TrackedPath P) := ∅
  nextRevision : Nat := 0
  renderedDiffs : HashMap (DiffCacheKey P) (Option Str) := ∅
  unifiedDiff : Option Str := none

def zeroOid : Str := "0000000000000000000000000000000000000000"
def devNull : Str := "/dev/null"
def regularFileMode : Str := "100644"

/-- Methods of `PathUri`, and `git_blob_oid`. -/
structure Rendering (P : Type) where
  relativePathFrom : P → P → Option Str
  inferredNativePathString : P → Str
  gitBlobOid : Str → Str

/-- What is outside the tracker's control when it puts a diff together.  `diffLines` takes the two
texts and the two headers. -/
structure Circumstances (P : Type) where
  paths : Order (TrackedPath P)
  origins : Order (Sigma fun _ : TrackedPath P => TrackedPath P)
  diffLines : Str → Str → Str → Str → Str

/-! ## Adjacent repetitions -/

section

variable {α : Type} [DecidableEq α]

/-- `Vec::dedup`. -/
def dedup : List α → List α
  | [] => []
  | [a] => [a]
  | a :: b :: l => if a = b then dedup (b :: l) else a :: dedup (b :: l)

lemma mem_dedup {l : List α} {a : α} : a ∈ dedup l ↔ a ∈ l := by
  fun_induction dedup l with
  | case1 | case2 => rfl
  | case3 b l ih => rw [ih]; simp
  | case4 b c l hne ih => rw [List.mem_cons, ih, List.mem_cons (b := b)]

end

namespace TurnDiffTracker

variable {P : Type} [DecidableEq P]

/-- A tracker that knows where paths are shown from. -/
def withEnvironmentDisplayRoots (displayRoots : List (Str × P)) : TurnDiffTracker P :=
  { displayRootsByEnvironment := collect displayRoots }

variable (t : TurnDiffTracker P)

/-- Nothing is known any more. -/
def invalidate : TurnDiffTracker P :=
  { t with valid := false, renderedDiffs := ∅, unifiedDiff := none }

/-- The diff of the turn. -/
def getUnifiedDiff : Option Str := t.unifiedDiff

/-! ## Changes

Every text that is taken in gets the next revision, whichever map it goes to. -/

variable (path : TrackedPath P)

/-- `tracked_content`, put into the map of the texts before the turn. -/
def insertBaseline (content : Str) : TurnDiffTracker P :=
  { t with
    baselineByPath := t.baselineByPath.insert path ⟨content, t.nextRevision⟩
    nextRevision := t.nextRevision + 1 }

/-- `tracked_content`, put into the map of the present texts. -/
def insertCurrent (content : Str) : TurnDiffTracker P :=
  { t with
    currentByPath := t.currentByPath.insert path ⟨content, t.nextRevision⟩
    nextRevision := t.nextRevision + 1 }

/-- The file is gone. -/
def removeCurrent : TurnDiffTracker P := { t with currentByPath := t.currentByPath.erase path }

/-- The file was somewhere else. -/
def insertOrigin (path origin : TrackedPath P) : TurnDiffTracker P :=
  { t with originByCurrentPath := t.originByCurrentPath.insert path origin }

/-- The file has no other origin. -/
def removeOrigin : TurnDiffTracker P :=
  { t with originByCurrentPath := t.originByCurrentPath.erase path }

/-- A path that has not been mentioned before had the text it has now before the turn, if it has
one. -/
def noteBaseline (content : Option Str) : TurnDiffTracker P :=
  if path ∉ t.currentByPath ∧ path ∉ t.baselineByPath then
    match content with
    | some content => t.insertBaseline path content
    | none => t
  else t

/-- A file was written. -/
def applyAdd (content : Str) (overwrittenContent : Option Str) : TurnDiffTracker P :=
  let t := t.removeOrigin path
  let t := t.noteBaseline path overwrittenContent
  t.insertCurrent path content

/-- A file was removed. -/
def applyDelete (content : Str) : TurnDiffTracker P :=
  let removed := get t.currentByPath path
  let t := t.removeCurrent path
  let t := if removed = none ∧ path ∉ t.baselineByPath then t.insertBaseline path content else t
  t.removeOrigin path

/-- A file was changed, and perhaps moved. -/
def applyUpdate (sourcePath : TrackedPath P)
    (movePath : Option (TrackedPath P)) (oldContent : Str) (overwrittenMoveContent : Option Str)
    (newContent : Str) : TurnDiffTracker P :=
  let t := t.noteBaseline sourcePath (some oldContent)
  match movePath with
  | some destPath =>
    let t := t.noteBaseline destPath overwrittenMoveContent
    let origin := (get t.originByCurrentPath sourcePath).getD sourcePath
    let t := t.removeOrigin sourcePath
    let t := t.removeCurrent sourcePath
    let t := t.insertCurrent destPath newContent
    let t := t.removeOrigin destPath
    if destPath ≠ origin then t.insertOrigin destPath origin else t
  | none => t.insertCurrent sourcePath newContent

/-- A change of a patch. -/
def applyChange (environmentId : Str) (t : TurnDiffTracker P) (change : AppliedPatchChange P) :
    TurnDiffTracker P :=
  let sourcePath : TrackedPath P := ⟨environmentId, change.path⟩
  match change.change with
  | .add content overwrittenContent => t.applyAdd sourcePath content overwrittenContent
  | .delete content => t.applyDelete sourcePath content
  | .update movePath oldContent overwrittenMoveContent newContent =>
    t.applyUpdate sourcePath (movePath.map (⟨environmentId, ·⟩)) oldContent overwrittenMoveContent
      newContent

/-! ## Rendering -/

variable (R : Rendering P)

/-- How a path is shown. -/
def displayPath (t : TurnDiffTracker P) (path : TrackedPath P) : Str :=
  let display :=
    ((get t.displayRootsByEnvironment path.environmentId).bind
      (R.relativePathFrom path.path)).getD (R.inferredNativePathString path.path)
  if t.displayRootsByEnvironment.entries.length > 1 ∧ path.environmentId ≠ [] then
    path.environmentId ++ '/' :: display
  else display

/-- Paths in a diff have slashes. -/
def slashed (display : Str) : Str := display.map fun c => if c = '\\' then '/' else c

variable (diffLines : Str → Str → Str → Str → Str)

/-- The diff of two texts, if they differ. -/
def renderDiff (t : TurnDiffTracker P)
    (leftPath : TrackedPath P) (leftContent : Option Str) (rightPath : TrackedPath P)
    (rightContent : Option Str) : Option Str :=
  if leftContent = rightContent then none
  else
    let leftDisplay := slashed (displayPath R t leftPath)
    let rightDisplay := slashed (displayPath R t rightPath)
    let leftOid := leftContent.elim zeroOid R.gitBlobOid
    let rightOid := rightContent.elim zeroOid R.gitBlobOid
    let diff := "diff --git a/" ++ leftDisplay ++ " b/" ++ rightDisplay ++ ['\n']
    let mode? : Option Str := match leftContent, rightContent with
      | none, some _ => some ("new file mode " ++ regularFileMode ++ ['\n'])
      | some _, none => some ("deleted file mode " ++ regularFileMode ++ ['\n'])
      | some _, some _ => some []
      | none, none => none
    match mode? with
    | none => none
    | some mode =>
      let diff := diff ++ mode ++ "index " ++ leftOid ++ ".." ++ rightOid ++ ['\n']
      let oldHeader := if leftContent.isSome then "a/" ++ leftDisplay else devNull
      let newHeader := if rightContent.isSome then "b/" ++ rightDisplay else devNull
      some (diff ++ diffLines (leftContent.getD []) (rightContent.getD []) oldHeader newHeader)

variable (circumstances : Circumstances P)

/-- The renames that are shown as such, from the origin to where the file is now: those of a file
that was there before the turn, to a path that was free then, if there is no other file at the
origin now. -/
def renamePairs (t : TurnDiffTracker P) : HashMap (TrackedPath P) (TrackedPath P) :=
  collect <| (circumstances.origins.arrange t.originByCurrentPath.entries).filterMap fun e =>
    if e.1 = e.2 ∨ e.2 ∈ t.currentByPath ∨ e.1 ∉ t.currentByPath ∨ e.2 ∉ t.baselineByPath ∨
        e.1 ∈ t.baselineByPath then none
    else some (e.2, e.1)

/-- The state of the loop that puts the diff together. -/
structure Refresh (P : Type) where
  handled : List (TrackedPath P) := []
  previousDiffs : HashMap (DiffCacheKey P) (Option Str)
  renderedDiffs : HashMap (DiffCacheKey P) (Option Str) := ∅
  aggregated : Str := []

/-- A rendered diff is added, with a line break at its end. -/
def pushDiff (aggregated diff : Str) : Str :=
  let aggregated := aggregated ++ diff
  if aggregated.getLast? = some '\n' then aggregated else aggregated ++ ['\n']

/-- One turn of the loop, after it has been decided that the two paths are compared. -/
def comparePaths (t : TurnDiffTracker P) (r : Refresh P) (leftPath rightPath : TrackedPath P) :
    Refresh P :=
  let leftContent := get t.baselineByPath leftPath
  let rightContent := get t.currentByPath rightPath
  let key : DiffCacheKey P :=
    ⟨leftPath, leftContent.map (·.revision), rightPath, rightContent.map (·.revision)⟩
  let rendered := (get r.previousDiffs key).getD
    (renderDiff R diffLines t leftPath (leftContent.map (·.content)) rightPath
      (rightContent.map (·.content)))
  { r with
    previousDiffs := r.previousDiffs.erase key
    renderedDiffs := r.renderedDiffs.insert key rendered
    aggregated := rendered.elim r.aggregated (pushDiff r.aggregated) }

/-- One turn of the loop. -/
def refreshPath (t : TurnDiffTracker P) (renamePairs : HashMap (TrackedPath P) (TrackedPath P))
    (pairedDestinations : List (TrackedPath P)) (r : Refresh P) (path : TrackedPath P) :
    Refresh P :=
  if path ∈ r.handled then r
  else
    let r := { r with handled := path :: r.handled }
    if path ∈ pairedDestinations then r
    else match get renamePairs path with
      | some dest => comparePaths R diffLines t { r with handled := dest :: r.handled } path dest
      | none => comparePaths R diffLines t r path path

/-- The paths that are no destination. -/
def unpaired (pairedDestinations paths : List (TrackedPath P)) : List (TrackedPath P) :=
  paths.filter (· ∉ pairedDestinations)

/-- The paths the loop goes over. -/
def sortedPaths (t : TurnDiffTracker P) : List (TrackedPath P) :=
  let keys := circumstances.paths.arrange t.baselineByPath.keys ++
    circumstances.paths.arrange t.currentByPath.keys
  dedup (keys.insertionSort fun a b => displayPath R t a ≤ displayPath R t b)

/-- All diffs, and one text of them. -/
def refreshUnifiedDiff (t : TurnDiffTracker P) : TurnDiffTracker P :=
  let pairs := renamePairs circumstances t
  let pairedDestinations := pairs.entries.map (·.2)
  let r := (sortedPaths R circumstances t).foldl
    (refreshPath R circumstances.diffLines t pairs pairedDestinations)
    { previousDiffs := t.renderedDiffs }
  { t with
    renderedDiffs := r.renderedDiffs
    unifiedDiff := if r.aggregated = [] then none else some r.aggregated }

/-! ## Deltas -/

/-- An exact delta is tracked; another one ends the tracking. -/
def trackDelta (t : TurnDiffTracker P)
    (environmentId : Str) (delta : AppliedPatchDelta P) : TurnDiffTracker P :=
  if ¬ t.valid then t
  else if ¬ delta.exact then t.invalidate
  else refreshUnifiedDiff R circumstances (delta.changes.foldl (applyChange environmentId) t)

end TurnDiffTracker

end TurnDiff
