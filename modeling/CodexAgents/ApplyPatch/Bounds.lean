import CodexAgents.Lib.Checked
import CodexAgents.Lib.Outcome
import CodexAgents.ApplyPatch.Preserve

/-!
# Indices of an update

The functions of `file_update.rs` and `seek_sequence.rs` index into the lines of the file and of the
patch, and subtract indices.  Here they are written once more with every index checked: they give
nothing if one is out of range.

* `seekSequenceChecked_eq` — a search never leaves the file, whatever it is asked for.
* `contextReplacementsChecked_eq` — the loop over the context lines of a chunk stays on both slices
  if the indices of the context lines increase on both sides (`IncreasingFrom`), as those of a
  parsed chunk do.
* `replacements_in_bounds` — nothing goes wrong in an update that keeps line endings, and the
  replacements are sorted, within the file, and apart.
-/

namespace ApplyPatch

open Text ListSplice List Option Checked

/-! ## Searches -/

variable (lines pattern : List Str)

/-- A window of the lines is the pattern. -/
def equalsAtChecked (i : ℕ) : Option Bool :=
  (slice lines i (i + pattern.length)).map fun window => window = pattern

/-- The lines are compared one by one, up to the first difference. -/
def matchesAtChecked (f : Str → Str) (lines pattern : List Str) (i : ℕ) : Option Bool :=
  pattern.zipIdx.allM fun (pat, pIdx) => lines[i + pIdx]?.map fun line => f line = f pat

/-- The four passes over the positions from `searchStart` on. -/
def passesChecked (searchStart : ℕ) : Option (Option ℕ) := do
  let range := List.range' searchStart (lines.length - pattern.length + 1 - searchStart)
  let exactMatch ← range.findM? (equalsAtChecked lines pattern)
  if exactMatch.isSome then return exactMatch
  let trimEndMatch ← range.findM? (matchesAtChecked trimEnd lines pattern)
  if trimEndMatch.isSome then return trimEndMatch
  let trimMatch ← range.findM? (matchesAtChecked trim lines pattern)
  if trimMatch.isSome then return trimMatch
  range.findM? (matchesAtChecked normalise lines pattern)

/-- The search. -/
def seekSequenceChecked (start : ℕ) (eof : Bool)
    (mode : ApplyPatchFileUpdateMode) : Option (Option ℕ) :=
  if pattern.isEmpty then some (some start)
  else if lines.length < pattern.length then some none
  else if eof then do
    let eofStart ← sub lines.length pattern.length
    match mode with
    | .normalizeToLf => passesChecked lines pattern eofStart
    | .preserveLineEndings => passesChecked lines pattern (max eofStart start)
  else passesChecked lines pattern start

section

variable {lines pattern : List Str} {i : ℕ}

lemma equalsAtChecked_eq (h : i + pattern.length ≤ lines.length) :
    equalsAtChecked lines pattern i = some (matchesAt id lines pattern i) := by
  rw [equalsAtChecked, slice_eq_some (Nat.le_add_right _ _) h, Nat.add_sub_cancel_left,
    map_some, matchesAt, List.map_id, List.map_id]

lemma matchesAtChecked_eq (f : Str → Str) (h : i + pattern.length ≤ lines.length) :
    matchesAtChecked f lines pattern i = some (matchesAt f lines pattern i) := by
  have hall : pattern.zipIdx.all (fun e => lines[i + e.2]?.map f = some (f e.1)) =
      matchesAt f lines pattern i := by
    rw [Bool.eq_iff_iff, List.all_eq_true, matchesAt_iff]
    simp only [Prod.forall, mem_zipIdx_iff_getElem?, decide_eq_true_iff, map_eq_some_iff]
    exact forall_comm
  rw [← hall]
  refine allM_eq_some ?_
  rintro ⟨pat, k⟩ hmem
  have hk : k < pattern.length := (List.getElem?_eq_some_iff.mp (mem_zipIdx_iff_getElem?.mp hmem)).1
  show lines[i + k]?.map _ = some (decide (lines[i + k]?.map f = some (f pat)))
  rw [getElem?_eq_getElem (by omega : i + k < lines.length)]
  simp

lemma passesChecked_eq (hlen : pattern.length ≤ lines.length) (s : ℕ) :
    passesChecked lines pattern s = some (findMatch id lines pattern s <|>
      findMatch trimEnd lines pattern s <|> findMatch trim lines pattern s <|>
      findMatch normalise lines pattern s) := by
  have hrange {j : ℕ} (hj : j ∈ range' s (lines.length - pattern.length + 1 - s)) :
      j + pattern.length ≤ lines.length := by
    rw [mem_range'_1] at hj
    omega
  have hexact : (range' s (lines.length - pattern.length + 1 - s)).findM?
      (equalsAtChecked lines pattern) = some (findMatch id lines pattern s) :=
    findM?_eq_some fun j hj => equalsAtChecked_eq (hrange hj)
  have hpass (f : Str → Str) : (range' s (lines.length - pattern.length + 1 - s)).findM?
      (matchesAtChecked f lines pattern) = some (findMatch f lines pattern s) :=
    findM?_eq_some fun j hj => matchesAtChecked_eq f (hrange hj)
  unfold passesChecked
  dsimp only
  rw [hexact, hpass, hpass, hpass]
  obtain _ | k := findMatch id lines pattern s
  · obtain _ | k := findMatch trimEnd lines pattern s
    · rcases findMatch trim lines pattern s with _ | k <;> rfl
    · rfl
  · rfl

/-- **A search stays within the file.** -/
theorem seekSequenceChecked_eq (lines pattern : List Str) (start : ℕ) (eof : Bool)
    (mode : ApplyPatchFileUpdateMode) :
    seekSequenceChecked lines pattern start eof mode =
      some (seekSequence lines pattern start eof mode) := by
  unfold seekSequenceChecked seekSequence
  split
  · rfl
  split
  · rfl
  rename_i hlen
  have hlen := Nat.le_of_not_lt hlen
  rcases eof
  · exact passesChecked_eq hlen _
  · rw [sub_eq_some hlen]
    rcases mode <;> exact passesChecked_eq hlen _

end

/-! ## Chunks -/

section

variable (originalLines : List Str) (path : Str) (mode : ApplyPatchFileUpdateMode)

/-- What is left behind the last context line. -/
def finalReplacementChecked (startIdx : ℕ) (pattern newSlice : List Str) (oldStart newStart : ℕ) :
    Option (List Replacement) :=
  if oldStart ≠ pattern.length ∨ newStart ≠ newSlice.length then do
    let oldLen ← sub pattern.length oldStart
    let newSegment ← slice newSlice newStart newSlice.length
    return [(startIdx + oldStart, oldLen, newSegment)]
  else some []

/-- What is between context lines. -/
def contextReplacementsChecked (startIdx : ℕ) (pattern newSlice : List Str) :
    ℕ → ℕ → List (ℕ × ℕ) → Option (List Replacement)
  | oldStart, newStart, [] => finalReplacementChecked startIdx pattern newSlice oldStart newStart
  | oldStart, newStart, (oldContext, newContext) :: rest =>
    if pattern.length ≤ oldContext ∨ newSlice.length ≤ newContext then
      finalReplacementChecked startIdx pattern newSlice oldStart newStart
    else do
      let change ←
        if oldStart ≠ oldContext ∨ newStart ≠ newContext then do
          let oldLen ← sub oldContext oldStart
          let newSegment ← slice newSlice newStart newContext
          pure [(startIdx + oldStart, oldLen, newSegment)]
        else pure []
      let changes ← contextReplacementsChecked startIdx pattern newSlice (oldContext + 1)
        (newContext + 1) rest
      return change ++ changes

/-- Where lines are only added. -/
def insertionIdxChecked : Option ℕ :=
  match mode with
  | .normalizeToLf =>
    if originalLines.getLast? = some [] then sub originalLines.length 1
    else some originalLines.length
  | .preserveLineEndings => some originalLines.length

/-- The lines of a chunk are found, perhaps without a last blank one. -/
def findChunkChecked (chunk : UpdateFileChunk) (lineIndex : ℕ) :
    Option (Option (ℕ × List Str × List Str)) := do
  match ← seekSequenceChecked originalLines chunk.oldLines lineIndex chunk.isEndOfFile mode with
  | some startIdx => return some (startIdx, chunk.oldLines, chunk.newLines)
  | none =>
    if chunk.oldLines.getLast? = some [] then
      let pattern ← slice chunk.oldLines 0 (chunk.oldLines.length - 1)
      let newSlice ←
        if chunk.newLines.getLast? = some [] then
          slice chunk.newLines 0 (chunk.newLines.length - 1)
        else some chunk.newLines
      let found ← seekSequenceChecked originalLines pattern lineIndex chunk.isEndOfFile mode
      return found.map fun startIdx => (startIdx, pattern, newSlice)
    else return none

/-- The line that a chunk comes behind. -/
def seekContextChecked (chunk : UpdateFileChunk) (lineIndex : ℕ) :
    Option (Except ApplyPatchError ℕ) :=
  match chunk.changeContext with
  | none => some (.ok lineIndex)
  | some ctxLine => do
    match ← seekSequenceChecked originalLines [ctxLine] lineIndex false mode with
    | some idx => return .ok (idx + 1)
    | none => return .error (.computeReplacements
        ("Failed to find context '" ++ ctxLine ++ "' in " ++ path))

/-- The replacements of a chunk. -/
def chunkReplacementsChecked (lineIndex : ℕ) (chunk : UpdateFileChunk) :
    Option (Except ApplyPatchError (ℕ × List Replacement)) := do
  match ← seekContextChecked originalLines path mode chunk lineIndex with
  | .error e => return .error e
  | .ok lineIndex =>
    if chunk.oldLines.isEmpty then
      let idx ← insertionIdxChecked originalLines mode
      return .ok (lineIndex, [(idx, 0, chunk.newLines)])
    else
      match ← findChunkChecked originalLines mode chunk lineIndex with
      | some (startIdx, pattern, newSlice) =>
        let replacements ← match mode with
          | .normalizeToLf => some [(startIdx, pattern.length, newSlice)]
          | .preserveLineEndings =>
            contextReplacementsChecked startIdx pattern newSlice 0 0 chunk.contextLineIndices
        return .ok (startIdx + pattern.length, replacements)
      | none =>
        return .error (.computeReplacements
          ("Failed to find expected lines in " ++ path ++ ":\n" ++
            joinLines chunk.oldLines))

/-- The replacements of all chunks. -/
def collectReplacementsChecked :
    ℕ → List UpdateFileChunk → Option (Except ApplyPatchError (List Replacement))
  | _, [] => some (.ok [])
  | lineIndex, chunk :: chunks => do
    match ← chunkReplacementsChecked originalLines path mode lineIndex chunk with
    | .error e => return .error e
    | .ok (lineIndex, replacements) =>
      match ← collectReplacementsChecked lineIndex chunks with
      | .error e => return .error e
      | .ok rest => return .ok (replacements ++ rest)

/-- The replacements, sorted. -/
def computeReplacementsChecked (chunks : List UpdateFileChunk) :
    Option (Except ApplyPatchError (List Replacement)) :=
  (collectReplacementsChecked originalLines path mode 0 chunks).map fun result =>
    result.map fun replacements => replacements.insertionSort fun r s => r.1 ≤ s.1

end

/-- The walk over the lines of a file, with `start_idx - source_index` checked. -/
def SourceFile.replaceFromChecked (preferredEnding : LineEnding) :
    ℕ → List SourceLine → List Replacement → Option (List SourceLine)
  | _, sourceLines, [] => some sourceLines
  | sourceIndex, sourceLines, (startIdx, oldLen, newSegment) :: rest => do
    let unchanged ← sub startIdx sourceIndex
    let tail ← replaceFromChecked preferredEnding (startIdx + oldLen)
      ((sourceLines.drop unchanged).drop oldLen) rest
    return sourceLines.take unchanged ++
      (newSegment.map fun text => ⟨text, some preferredEnding⟩) ++ tail

/-! ## Context lines -/

/-- The indices of context lines increase on both sides. -/
def IncreasingFrom : ℕ → ℕ → List (ℕ × ℕ) → Prop
  | _, _, [] => True
  | oldStart, newStart, (oldContext, newContext) :: rest =>
    oldStart ≤ oldContext ∧ newStart ≤ newContext ∧
      IncreasingFrom (oldContext + 1) (newContext + 1) rest

lemma IncreasingFrom.mono {i j i' j' indices}
    (h : IncreasingFrom i j indices) (hi : i' ≤ i) (hj : j' ≤ j) :
    IncreasingFrom i' j' indices := by
  obtain _ | ⟨c, rest⟩ := indices
  · exact trivial
  · exact ⟨hi.trans h.1, hj.trans h.2.1, h.2.2⟩

lemma Interleaving.increasingFrom_contextIndices (body : Interleaving) (i j : ℕ) :
    IncreasingFrom i j (contextIndices i j body) := by
  induction body generalizing i j with
  | nil => exact trivial
  | cons l body ih =>
    obtain ⟨kind, t⟩ := l
    obtain _ | _ | _ := kind
    · exact ⟨le_rfl, le_rfl, ih _ _⟩
    · exact (ih i (j + 1)).mono le_rfl (Nat.le_succ j)
    · exact (ih (i + 1) j).mono (Nat.le_succ i) le_rfl

section

variable {startIdx : ℕ} {pattern newSlice : List Str} {oldStart newStart : ℕ}
  {indices : List (ℕ × ℕ)} (hold : oldStart ≤ pattern.length)
include hold

lemma finalReplacementChecked_eq (hnew : newStart ≤ newSlice.length) :
    finalReplacementChecked startIdx pattern newSlice oldStart newStart =
      some (finalReplacement startIdx pattern newSlice oldStart newStart) := by
  unfold finalReplacementChecked finalReplacement
  split
  · rw [sub_eq_some hold, slice_length hnew]
    rfl
  · rfl

/-- **The loop over the context lines stays on both slices.** -/
theorem contextReplacementsChecked_eq
    (hnew : newStart ≤ newSlice.length) (h : IncreasingFrom oldStart newStart indices) :
    contextReplacementsChecked startIdx pattern newSlice oldStart newStart indices =
      some (contextReplacements startIdx pattern newSlice oldStart newStart indices) := by
  induction indices generalizing oldStart newStart with
  | nil => exact finalReplacementChecked_eq hold hnew
  | cons c rest ih =>
    obtain ⟨oldContext, newContext⟩ := c
    obtain ⟨holdContext, hnewContext, hrest⟩ := h
    rw [contextReplacementsChecked, contextReplacements]
    split
    · exact finalReplacementChecked_eq hold hnew
    · rename_i hin
      rw [not_or, not_le, not_le] at hin
      rw [ih hin.1 hin.2 hrest, sub_eq_some holdContext, slice_eq_some hnewContext hin.2.le]
      split <;> rfl

lemma ordered_finalReplacement : Ordered (startIdx + oldStart) (startIdx + pattern.length)
      (finalReplacement startIdx pattern newSlice oldStart newStart) := by
  unfold finalReplacement
  split
  · refine ⟨le_rfl, ?_⟩
    show startIdx + oldStart + (pattern.length - oldStart) ≤ startIdx + pattern.length
    omega
  · exact Nat.add_le_add_left hold _

/-- The changes between context lines are in order. -/
lemma ordered_contextReplacements (h : IncreasingFrom oldStart newStart indices) :
    Ordered (startIdx + oldStart) (startIdx + pattern.length)
      (contextReplacements startIdx pattern newSlice oldStart newStart indices) := by
  induction indices generalizing oldStart newStart with
  | nil => exact ordered_finalReplacement hold
  | cons c rest ih =>
    obtain ⟨oldContext, newContext⟩ := c
    obtain ⟨holdContext, hnewContext, hrest⟩ := h
    rw [contextReplacements]
    split
    · exact ordered_finalReplacement hold
    · rename_i hin
      rw [not_or, not_le, not_le] at hin
      refine Ordered.append (j := startIdx + (oldContext + 1)) ?_ (ih hin.1 hrest)
      split
      · refine ⟨le_rfl, ?_⟩
        show startIdx + oldStart + (oldContext - oldStart) ≤ startIdx + (oldContext + 1)
        omega
      · show startIdx + oldStart ≤ startIdx + (oldContext + 1)
        omega

end

/-! ## All chunks -/

section

variable {lines : List Str} {path : Str} {mode : ApplyPatchFileUpdateMode} {chunk : UpdateFileChunk}

lemma seekContextChecked_eq (lines : List Str) (path : Str) (mode : ApplyPatchFileUpdateMode)
    (chunk : UpdateFileChunk) (i : ℕ) :
    seekContextChecked lines path mode chunk i = some (seekContext lines path chunk i mode) := by
  unfold seekContextChecked seekContext
  obtain _ | ctxLine := chunk.changeContext
  · rfl
  · dsimp only
    rw [seekSequenceChecked_eq]
    rcases seekSequence lines [ctxLine] i false mode with _ | idx <;> rfl

lemma insertionIdxChecked_eq (lines : List Str) (mode : ApplyPatchFileUpdateMode) :
    insertionIdxChecked lines mode = some (insertionIdx lines mode) := by
  rcases mode
  · unfold insertionIdxChecked insertionIdx
    dsimp only
    split_ifs with hlast
    · refine sub_eq_some (length_pos_of_ne_nil ?_)
      rintro rfl
      cases hlast
    · rfl
  · rfl

lemma findChunkChecked_eq (lines : List Str) (mode : ApplyPatchFileUpdateMode)
    (chunk : UpdateFileChunk) (i : ℕ) :
    findChunkChecked lines mode chunk i = some (findChunk lines chunk i mode) := by
  unfold findChunkChecked findChunk
  rw [seekSequenceChecked_eq]
  obtain _ | startIdx := seekSequence lines chunk.oldLines i chunk.isEndOfFile mode
  · dsimp only [bind_eq_bind, bind_some]
    split
    · rw [slice_dropLast, slice_dropLast]
      split
      all_goals
        dsimp only [bind_some]
        rw [seekSequenceChecked_eq]
        rfl
    · rfl
  · rfl

lemma chunkReplacementsChecked_eq (lines : List Str) (path : Str)
    (mode : ApplyPatchFileUpdateMode) (i : ℕ)
    (h : IncreasingFrom 0 0 chunk.contextLineIndices) :
    chunkReplacementsChecked lines path mode i chunk =
      some (chunkReplacements lines path mode i chunk) := by
  unfold chunkReplacementsChecked chunkReplacements
  rw [seekContextChecked_eq]
  obtain e | i := seekContext lines path chunk i mode
  · rfl
  dsimp only [bind_eq_bind, bind_some, bind, Except.bind]
  split
  · rw [insertionIdxChecked_eq]
    rfl
  · rw [findChunkChecked_eq]
    obtain _ | ⟨startIdx, pattern, newSlice⟩ := findChunk lines chunk i mode
    · rfl
    · rcases mode
      · rfl
      · dsimp only [bind_some]
        rw [contextReplacementsChecked_eq (Nat.zero_le _) (Nat.zero_le _) h]
        rfl

lemma collectReplacementsChecked_eq (lines : List Str) (path : Str)
    (mode : ApplyPatchFileUpdateMode)
    (h : ∀ chunk ∈ chunks, IncreasingFrom 0 0 chunk.contextLineIndices) (i : ℕ) :
    collectReplacementsChecked lines path mode i chunks =
      some (collectReplacements lines path mode i chunks) := by
  induction chunks generalizing i with
  | nil => rfl
  | cons chunk chunks ih =>
    rw [forall_mem_cons] at h
    rw [collectReplacementsChecked, collectReplacements, chunkReplacementsChecked_eq _ _ _ _ h.1]
    obtain e | ⟨j, rs⟩ := chunkReplacements lines path mode i chunk
    · rfl
    · dsimp only [bind_eq_bind, bind_some, bind, Except.bind]
      rw [ih h.2 j]
      rcases collectReplacements lines path mode j chunks with e | rest <;> rfl

/-- The replacements of one chunk come after those of the chunks before it, but for insertions at
the end of the file. -/
lemma chunkReplacements_ordered {i j} (hi : i ≤ lines.length)
    (hchunk : IncreasingFrom 0 0 chunk.contextLineIndices)
    (h : chunkReplacements lines path .preserveLineEndings i chunk = .ok (j, rs)) :
    j ≤ lines.length ∧ ∀ rest, OrderedUpToEnd j lines.length rest →
      OrderedUpToEnd i lines.length (rs ++ rest) := by
  obtain ⟨i', hcontext, h⟩ := Outcome.bind_eq_ok_iff.mp h
  obtain ⟨hii', hi'⟩ := seekContext_spec hcontext hi
  split at h
  · cases h
    exact ⟨hi', fun rest hrest => .inl ⟨rfl, rfl, hrest.mono hii'⟩⟩
  · split at h
    · rename_i start pattern newSlice hfind
      cases h
      have hseek : seekSequence lines pattern i' chunk.isEndOfFile .preserveLineEndings =
          some start := by
        obtain ⟨hseek, rfl, -⟩ | ⟨-, -, hseek, rfl, -⟩ := findChunk_cases hfind
        · exact hseek
        · exact hseek
      obtain ⟨hstart, hend, -⟩ := seekSequence_spec hseek hi'
      refine ⟨hend, fun rest hrest => ?_⟩
      have hordered : Ordered start (start + pattern.length)
          (contextReplacements start pattern newSlice 0 0 chunk.contextLineIndices) :=
        ordered_contextReplacements (Nat.zero_le _) hchunk
      exact (hordered.append_upToEnd hrest).mono (hii'.trans hstart)
    · cases h

lemma collectReplacements_ordered {i rs chunks} (hi : i ≤ lines.length)
    (hchunks : ∀ chunk ∈ chunks, IncreasingFrom 0 0 chunk.contextLineIndices)
    (h : collectReplacements lines path .preserveLineEndings i chunks = .ok rs) :
    OrderedUpToEnd i lines.length rs := by
  induction chunks generalizing i rs with
  | nil =>
    cases h
    exact hi
  | cons chunk chunks ih =>
    rw [forall_mem_cons] at hchunks
    obtain ⟨⟨j, rs₁⟩, hchunk, h⟩ := Outcome.bind_eq_ok_iff.mp h
    obtain ⟨rs₂, hrest, h⟩ := Outcome.bind_eq_ok_iff.mp h
    cases h
    obtain ⟨hj, hordered⟩ := chunkReplacements_ordered hi hchunks.1 hchunk
    exact hordered rs₂ (ih hj hchunks.2 hrest)

end

/-! ## Updates -/

/-- The replacements are sorted by their start, within `n` lines, and each begins behind the one
before it. -/
structure Apart (n : ℕ) (rs : List Replacement) : Prop where
  sorted : rs.Pairwise fun r s => r.1 ≤ s.1
  within : ∀ r ∈ rs, r.1 + r.2.1 ≤ n
  disjoint : rs.IsChain fun r s => r.1 + r.2.1 ≤ s.1

lemma apart_of_ordered {rs i n} (h : Ordered i n rs) : Apart n rs :=
  ⟨h.sorted, h.end_le, h.isChain⟩

lemma SourceFile.replaceFromChecked_eq (ending : LineEnding) {i n} (h : Ordered i n rs)
    (lines : List SourceLine) :
    replaceFromChecked ending i lines rs = some (replaceFrom ending i lines rs) := by
  induction rs generalizing i lines with
  | nil => rfl
  | cons r rest ih =>
    obtain ⟨pos, len, new⟩ := r
    rw [replaceFromChecked, replaceFrom, sub_eq_some h.1]
    dsimp only [bind_eq_bind, bind_some]
    rw [ih h.2]
    rfl

/-- A chunk that a patch gives rise to. -/
def ParserProduced (chunk : UpdateFileChunk) : Prop :=
  ∃ patch args path movePath chunks, parsePatch patch = .ok args ∧
    Hunk.updateFile path movePath chunks ∈ args.hunks ∧ chunk ∈ chunks

lemma ParserProduced.increasingFrom {chunk} (h : ParserProduced chunk) :
    IncreasingFrom 0 0 chunk.contextLineIndices := by
  obtain ⟨patch, args, path, movePath, chunks, hparse, hmem, hchunk⟩ := h
  obtain ⟨ws, rfl⟩ := exists_written hparse hmem
  obtain ⟨w, -, rfl⟩ := mem_map.mp hchunk
  exact w.body.increasingFrom_contextIndices 0 0

/-- **An update that keeps line endings never indexes out of range**: its replacements are sorted,
within the file and apart, and neither computing them nor carrying them out ends early. -/
theorem replacements_in_bounds (lines : List Str) (path : Str) (chunks : List UpdateFileChunk)
    (h : ∀ chunk ∈ chunks, ParserProduced chunk) :
    computeReplacementsChecked lines path .preserveLineEndings chunks =
        some (computeReplacements lines path chunks .preserveLineEndings) ∧
      ∀ rs, computeReplacements lines path chunks .preserveLineEndings = .ok rs →
        Apart lines.length rs ∧
          ∀ file : SourceFile, SourceFile.replaceFromChecked file.preferredEnding 0 file.lines rs =
            some (SourceFile.replaceFrom file.preferredEnding 0 file.lines rs) := by
  have hchunks : ∀ chunk ∈ chunks, IncreasingFrom 0 0 chunk.contextLineIndices :=
    fun chunk hchunk => (h chunk hchunk).increasingFrom
  constructor
  · rw [computeReplacementsChecked, collectReplacementsChecked_eq _ _ _ hchunks,
      computeReplacements]
    rcases collectReplacements lines path .preserveLineEndings 0 chunks with e | rs <;> rfl
  · intro rs hrs
    obtain ⟨rs', hcollect, hrs⟩ := Outcome.bind_eq_ok_iff.mp hrs
    cases hrs
    have hordered := (collectReplacements_ordered (Nat.zero_le _) hchunks hcollect).insertionSort
    exact ⟨apart_of_ordered hordered,
      fun file => SourceFile.replaceFromChecked_eq _ hordered file.lines⟩

/-- A chunk with a context line, on a file with more lines. -/
theorem replacements_in_bounds_secondLine : (∀ chunk ∈ [secondLineChunk], ParserProduced chunk) ∧
      Apart 3 [(1, 1, [['z']])] ∧
      computeReplacements [['x', ' '], ['y'], ['w']] ['f'] [secondLineChunk] .preserveLineEndings =
        .ok [(1, 1, [['z']])] := by
  have hparse : parsePatch secondLinePatch =
      .ok ⟨secondLinePatch, [.updateFile "f" none [secondLineChunk]], none, none⟩ := by
    decide
  have hparsed : ∀ chunk ∈ [secondLineChunk], ParserProduced chunk := fun chunk hchunk =>
    ⟨_, _, _, _, _, hparse, mem_cons_self, hchunk⟩
  have hcompute : computeReplacements [['x', ' '], ['y'], ['w']] ['f'] [secondLineChunk]
      .preserveLineEndings = .ok [(1, 1, [['z']])] := by
    decide
  exact ⟨hparsed, ((replacements_in_bounds _ _ _ hparsed).2 _ hcompute).1, hcompute⟩

end ApplyPatch
