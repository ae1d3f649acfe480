import CodexAgents.ApplyPatch.Machine

/-!
# The line grammar of a patch

Which line may follow which in a patch has nothing to do with what the content lines say.  A
`Place` is all the parser has to remember for it: the mode, whether there was an environment id,
whether the file is moved, and whether the last chunk has a line and is at the end of the file.
`Place.next` is the grammar, a line at a time, and `isPatch` says that a complete text is in it.

* `processLine_next` — a parser that is `At` a place accepts a line exactly when the grammar does,
  and is then at the next place.
* `runLines_isOk_iff` — the same for whole runs.
* `isPatch_iff` — `parsePatch` accepts a trimmed text as it stands exactly when the text is in the
  grammar.

The grammar is a good deal wider than the one in the documentation of `parser.rs`: markers may be
surrounded by blanks, lines after `*** End Patch` may be blank, a hunk that is deleted or added may
be empty, and the lines of a text may have two `\r` at their end.
-/

namespace ApplyPatch

open Text StreamingPatchParser List UpdateFileChunk

/-! ## Places and lines -/

/-- What is remembered of the last chunk. -/
structure ChunkStatus where
  isEmpty : Bool
  isEndOfFile : Bool
  deriving DecidableEq

/-- A place in a patch, between two lines. -/
inductive Place where
  | notStarted
  | startedPatch (environment : Bool)
  | addFile
  | deleteFile
  | updateFile (moved : Bool) (chunk : Option ChunkStatus)
  | endedPatch
  deriving DecidableEq

open Place

/-- The place a hunk header, or the end of the patch, leads to. -/
def headerPlace (t : Str) : Option Place :=
  if t = endPatchMarker then some .endedPatch
  else if startsWith t addFileMarker then some .addFile
  else if startsWith t deleteFileMarker then some .deleteFile
  else if startsWith t updateFileMarker then some (.updateFile false none)
  else none

/-- Could the line be a body line of a chunk?  It is empty or starts with one of the three marks. -/
def startsBody : Str → Bool
  | [] => true
  | c :: _ => c = ' ' || c = '+' || c = '-'

namespace Place

/-- The hunk may be left here: an update hunk needs a chunk, and its last chunk a line. -/
def complete : Place → Bool
  | .updateFile _ none => false
  | .updateFile _ (some chunk) => !chunk.isEmpty
  | _ => true

/-- A line of an update hunk that is no header. -/
def nextUpdate (moved : Bool) (chunk : Option ChunkStatus) (line : Str) : Option Place :=
  let t := trimEnd line
  let atEnd := chunk.any (·.isEndOfFile)
  let empty := chunk.any (·.isEmpty)
  if atEnd && t.isEmpty then some (.updateFile moved chunk)
  else if atEnd && !isContextMarker t then none
  else if chunk.isNone && !moved && startsWith t moveToMarker then some (.updateFile true none)
  else if isContextMarker t then
    if empty then none else some (.updateFile moved (some ⟨true, false⟩))
  else if t = eofMarker then
    if empty then none
    else some (.updateFile moved (chunk.map fun c => { c with isEndOfFile := true }))
  else if startsBody line then some (.updateFile moved (some ⟨false, false⟩))
  else none

variable (place : Place)

/-- The place after a line that is read as `t` if it is a header, and leads to `rest` if not. -/
def nextHeader (t : Str) (rest : Option Place) : Option Place :=
  match headerPlace t with
  | some place' => if place.complete then some place' else none
  | none => rest

/-- **The grammar**: the place after a line, if the line may stand here. -/
def next (line : Str) : Option Place :=
  match place with
  | .notStarted => if trim line = beginPatchMarker then some (.startedPatch false) else none
  | .startedPatch environment =>
    match stripPrefix environmentIdMarker (trim line) with
    | some id => if environment || (trim id).isEmpty then none else some (.startedPatch true)
    | none => place.nextHeader (trim line) none
  | .addFile =>
    place.nextHeader (trim line) (if line.head? = some '+' then some .addFile else none)
  | .deleteFile => place.nextHeader (trim line) none
  | .updateFile moved chunk => place.nextHeader (trimEnd line) (nextUpdate moved chunk line)
  | .endedPatch => if trim line = [] then some .endedPatch else none

/-- The place after several lines. -/
def run (ls : List Str) : Option Place := ls.foldlM next place

/-- Is the line file content here: a line of an added file, or a context, added or removed line? -/
def readsBody : Place → Str → Bool
  | .addFile, line => line.head? = some '+'
  | .updateFile _ chunk, line => !chunk.any (·.isEndOfFile) && startsBody line
  | _, _ => false

end Place

/-- Is the text a complete patch?  Of each terminated line two `\r` are taken off: one by the
splitting into lines, one by the parser. -/
def isPatch (text : Str) : Bool :=
  let segments := text.splitOn '\n'
  match Place.run .notStarted (segments.dropLast.map (stripCr ∘ stripCr)) with
  | some place => place ≠ .notStarted && place.complete && trim (segments.getLastD []) =
    endPatchMarker
  | none => false

/-! ## A parser at a place -/

variable (chunk : UpdateFileChunk)

/-- What the parser asks about its last chunk. -/
def UpdateFileChunk.status : ChunkStatus := ⟨chunk.isEmpty, chunk.isEndOfFile⟩

@[simp] lemma UpdateFileChunk.status_isEmpty : chunk.status.isEmpty = chunk.isEmpty := rfl

@[simp] lemma UpdateFileChunk.status_isEndOfFile :
    chunk.status.isEndOfFile = chunk.isEndOfFile := rfl

lemma LineKind.push_status (k : LineKind) (text : Str) (chunk : UpdateFileChunk) :
    (k.push text chunk).status = ⟨false, chunk.isEndOfFile⟩ := by
  cases k <;> simp [LineKind.push, pushContextLine, status,
    UpdateFileChunk.isEmpty]

variable {line : Str}

lemma isBodyLine_of_startsBody (h : startsBody line) : ∃ k text, IsBodyLine line k text := by
  cases line with
  | nil => exact ⟨.context, [], .inr ⟨rfl, rfl, rfl⟩⟩
  | cons c text =>
    simp only [startsBody, Bool.or_eq_true, decide_eq_true_eq] at h
    obtain (rfl | rfl) | rfl := h
    · exact ⟨.context, text, .inl rfl⟩
    · exact ⟨.add, text, .inl rfl⟩
    · exact ⟨.remove, text, .inl rfl⟩

variable {last : Str}

namespace StreamingPatchParser

/-- The parser is at the place. -/
def At (p : StreamingPatchParser) : Place → Prop
  | .notStarted => p.state.mode = .notStarted ∧ p.state.hunks = [] ∧ p.state.environmentId = none
  | .startedPatch environment => p.state.mode = .startedPatch ∧ p.state.hunks = [] ∧
      p.state.environmentId.isSome = environment
  | .addFile => p.state.mode = .addFile ∧
      ∃ path contents, p.state.hunks.getLast? = some (.addFile path contents)
  | .deleteFile => p.state.mode = .deleteFile ∧
      ∃ path, p.state.hunks.getLast? = some (.deleteFile path)
  | .updateFile moved chunk => ∃ n path movePath chunks, p.state.mode = .updateFile n ∧
      p.state.hunks.getLast? = some (.updateFile path movePath chunks) ∧
      movePath.isSome = moved ∧ chunks.getLast?.map status = chunk
  | .endedPatch => p.state.mode = .endedPatch ∧ ∀ path movePath chunks chunk,
      p.state.hunks.getLast? = some (.updateFile path movePath chunks) →
        chunks.getLast? = some chunk → chunk.isEmpty = false

/-- The outcome of a line is the one the grammar has: an error, or a parser at the next place. -/
def Follows (r : Except ParseError StreamingPatchParser) : Option Place → Prop
  | some place => ∃ p, r = .ok p ∧ p.At place
  | none => ∃ e, r = .error e

variable {p : StreamingPatchParser}

lemma Follows.of_ok {r next}
    (h : Follows r next) (hr : r = .ok p) :
    ∃ place, next = some place ∧ p.At place := by
  cases next with
  | none => obtain ⟨e, he⟩ := h; cases he.symm.trans hr
  | some place => obtain ⟨q, hq, hat⟩ := h; cases hq.symm.trans hr; exact ⟨place, rfl, hat⟩

lemma follows_error (e : ParseError) : Follows (.error e) none := ⟨e, rfl⟩

lemma at_initial : At {} .notStarted := ⟨rfl, rfl, rfl⟩

variable {place : Place}

lemma at_takeLine (h : p.At place) : p.takeLine.At place := by
  cases place <;> exact h

/-- Whether the current hunk may be left is decided by the place. -/
lemma ensure_of_at (h : p.At place) (line : Str) :
    if place.complete then p.ensureUpdateHunkIsNotEmpty line = .ok ()
    else ∃ e, p.ensureUpdateHunkIsNotEmpty line = .error e := by
  rw [ensureUpdateHunkIsNotEmpty]
  cases place with
  | notStarted | startedPatch => rw [h.2.1]; rfl
  | addFile => obtain ⟨-, path, contents, hlast⟩ := h; rw [hlast]; rfl
  | deleteFile => obtain ⟨-, path, hlast⟩ := h; rw [hlast]; rfl
  | updateFile moved chunk =>
    obtain ⟨n, path, movePath, chunks, hmode, hlast, -, rfl⟩ := h
    rw [hlast, hmode]
    cases hc : chunks.getLast? with
    | none => simp [complete, hc]
    | some c =>
      cases he : c.isEmpty with
      | false => simp [complete, hc, he]
      | true =>
        simp only [complete, hc, he, Option.map_some, status_isEmpty,
          Bool.not_true, Bool.false_eq_true, if_false, if_true]
        split <;> exact ⟨_, rfl⟩
  | endedPatch =>
    obtain ⟨hmode, hcomplete⟩ := h
    simp only [complete, if_true]
    split
    · rename_i path movePath chunks hlast
      rw [hmode]
      cases hc : chunks.getLast? with
      | none => rfl
      | some c => simp [hcomplete _ _ _ c hlast hc]
    · rfl

/-- A patch can be ended wherever the hunk may be left. -/
lemma at_endedPatch (h : p.At place) (hcomplete : place.complete) :
    (p.setMode .endedPatch).At .endedPatch := by
  refine ⟨rfl, fun path movePath chunks c hlast hc => ?_⟩
  have hlast' : p.state.hunks.getLast? = some (.updateFile path movePath chunks) := hlast
  cases place with
  | notStarted | startedPatch => rw [h.2.1] at hlast'; cases hlast'
  | addFile => obtain ⟨-, path, contents, hl⟩ := h; rw [hl] at hlast'; cases hlast'
  | deleteFile => obtain ⟨-, path, hl⟩ := h; rw [hl] at hlast'; cases hlast'
  | updateFile moved chunk =>
    obtain ⟨n, path, movePath, chunks, -, hl, -, rfl⟩ := h
    rw [hl] at hlast'
    cases hlast'
    simpa [complete, hc] using hcomplete
  | endedPatch => exact h.2 path movePath chunks c hlast' hc

lemma at_openHunk (p : StreamingPatchParser) (path : Str) :
    (p.openHunk (.addFile path []) .addFile).At .addFile ∧
      (p.openHunk (.deleteFile path) .deleteFile).At .deleteFile ∧
      ∀ n, (p.openHunk (.updateFile path none []) (.updateFile n)).At (.updateFile false none) :=
  ⟨⟨rfl, path, [], by simp [openHunk]⟩, ⟨rfl, path, by simp [openHunk]⟩,
    fun n => ⟨n, path, none, [], rfl, by simp [openHunk], rfl, rfl⟩⟩

lemma startsWith_eq_isSome (p s : Str) : startsWith s p = (stripPrefix p s).isSome := by
  rw [Bool.eq_iff_iff, stripPrefix_isSome_iff]

/-- **Headers are those of the grammar.** -/
theorem handleHunkHeader_of_at (h : p.At place) (t : Str) : match headerPlace t with
    | some place' =>
      if place.complete then ∃ p', p.handleHunkHeader t = .ok (some p') ∧ p'.At place'
      else ∃ e, p.handleHunkHeader t = .error e
    | none => p.handleHunkHeader t = .ok none := by
  -- each header asks whether the hunk may be left, and then goes its way
  have peel : ∀ {q : StreamingPatchParser} {place' : Place}, (place.complete → q.At place') →
      if place.complete then
        ∃ p', (do p.ensureUpdateHunkIsNotEmpty t; return some q : Except ParseError _) =
          .ok (some p') ∧ p'.At place'
      else ∃ e, (do p.ensureUpdateHunkIsNotEmpty t; return some q : Except ParseError _) =
        .error e := by
    intro q place' hq
    have hens := ensure_of_at h t
    split_ifs at hens with hc
    · rw [hens, if_pos hc]
      exact ⟨q, rfl, hq hc⟩
    · obtain ⟨e, he⟩ := hens
      rw [he, if_neg hc]
      exact ⟨e, rfl⟩
  rw [handleHunkHeader, headerPlace]
  simp only [startsWith_eq_isSome]
  by_cases hend : t = endPatchMarker
  · rw [if_pos hend, if_pos hend]
    exact peel (at_endedPatch h)
  rw [if_neg hend, if_neg hend]
  cases stripPrefix addFileMarker t with
  | some path => exact peel fun _ => (at_openHunk p path).1
  | none =>
    cases stripPrefix deleteFileMarker t with
    | some path => exact peel fun _ => (at_openHunk p path).2.1
    | none =>
      cases stripPrefix updateFileMarker t with
      | some path => exact peel fun _ => (at_openHunk p path).2.2 _
      | none => rfl

variable {n : ℕ}

lemma at_setLastHunk (hmode : p.state.mode = .updateFile n) (path : Str) (movePath : Option Str)
    (chunks : List UpdateFileChunk) :
    (p.setLastHunk (.updateFile path movePath chunks)).At
      (.updateFile movePath.isSome (chunks.getLast?.map status)) :=
  ⟨n, path, movePath, chunks, hmode, by simp [setLastHunk], rfl, rfl⟩

variable {chunks : List UpdateFileChunk}

lemma status_onLastChunk (hopen : chunks.getLast?.any (·.isEndOfFile) = false) (k : LineKind)
    (text : Str) :
    (onLastChunk chunks (k.push text)).getLast?.map status = some ⟨false, false⟩ := by
  rw [onLastChunk]
  cases hc : chunks.getLast? with
  | none => simp [LineKind.push_status]
  | some c =>
    rw [hc, Option.any_some] at hopen
    simp [LineKind.push_status, hopen]

lemma status_modifyLast_eof (chunks : List UpdateFileChunk) :
    (chunks.modifyLast fun c => { c with isEndOfFile := true }).getLast?.map
        status =
      (chunks.getLast?.map status).map fun c => { c with isEndOfFile := true } := by
  obtain rfl | ⟨cs, c, rfl⟩ := eq_nil_or_concat chunks
  · rfl
  · simp [modifyLast_concat, UpdateFileChunk.status, UpdateFileChunk.isEmpty]

/-- **The lines of an update hunk are those of the grammar.** -/
theorem processUpdateLine_next {path movePath}
    (hmode : p.state.mode = .updateFile n)
    (hlast : p.state.hunks.getLast? = some (.updateFile path movePath chunks)) (line : Str) :
    Follows (p.processUpdateLine line path movePath chunks)
      (nextUpdate movePath.isSome (chunks.getLast?.map status) line) := by
  have heof : (chunks.getLast?.map status).any (·.isEndOfFile) =
      chunks.getLast?.any (·.isEndOfFile) := by
    cases chunks.getLast? <;> rfl
  have hempty : (chunks.getLast?.map status).any (·.isEmpty) = chunks.getLast?.any (·.isEmpty) := by
    cases chunks.getLast? <;> rfl
  have hnone : (chunks.getLast?.map status).isNone = chunks.isEmpty := by
    cases chunks <;> simp [getLast?_cons]
  have hset := at_setLastHunk hmode path
  have hnew : ∀ header, (p.setLastHunk (.updateFile path movePath
      (chunks ++ [{ changeContext := header }]))).At
      (.updateFile movePath.isSome (some ⟨true, false⟩)) := by
    intro header
    have h' := hset movePath (chunks ++ [{ changeContext := header }])
    rwa [getLast?_concat] at h'
  simp only [nextUpdate, processUpdateLine, heof, hempty, hnone, startsWith_eq_isSome]
  by_cases h₁ : (chunks.getLast?.any (·.isEndOfFile) && (trimEnd line).isEmpty)
  · rw [if_pos h₁, if_pos h₁]
    exact ⟨p, rfl, n, path, movePath, chunks, hmode, hlast, rfl, rfl⟩
  rw [if_neg h₁, if_neg h₁]
  by_cases h₂ : (chunks.getLast?.any (·.isEndOfFile) && !isContextMarker (trimEnd line))
  · rw [if_pos h₂, if_pos h₂]
    exact ⟨_, rfl⟩
  rw [if_neg h₂, if_neg h₂]
  have hmove : (chunks.isEmpty && !movePath.isSome &&
      (stripPrefix moveToMarker (trimEnd line)).isSome) =
      (if chunks.isEmpty && movePath.isNone then stripPrefix moveToMarker (trimEnd line)
        else none).isSome := by
    cases chunks.isEmpty <;> cases movePath <;> simp
  rw [hmove]
  cases hdest : (if chunks.isEmpty && movePath.isNone then stripPrefix moveToMarker (trimEnd line)
    else none) with
  | some dest =>
    have hnil : chunks = [] := by
      split at hdest
      · rename_i hc
        exact isEmpty_iff.mp (Bool.and_eq_true_iff.mp hc).1
      · cases hdest
    subst hnil
    exact ⟨_, rfl, hset (some dest) []⟩
  | none =>
    simp only [Option.isSome_none, Bool.false_eq_true, if_false]
    cases hctx : isContextMarker (trimEnd line) with
    | true =>
      simp only [Bool.true_and, if_true]
      cases chunks.getLast?.any (·.isEmpty) with
      | true => exact follows_error _
      | false =>
        simp only [Bool.false_eq_true, if_false]
        by_cases hat : trimEnd line = emptyChangeContextMarker
        · rw [if_pos hat]
          exact ⟨_, rfl, hnew none⟩
        rw [if_neg hat]
        cases hstrip : stripPrefix changeContextMarker (trimEnd line) with
        | some c => exact ⟨_, rfl, hnew (some c)⟩
        | none => rw [isContextMarker_eq_false hat hstrip] at hctx; cases hctx
    | false =>
      have hopen : chunks.getLast?.any (·.isEndOfFile) = false := by simpa [hctx] using h₂
      obtain ⟨hat, hstrip⟩ : trimEnd line ≠ emptyChangeContextMarker ∧
          stripPrefix changeContextMarker (trimEnd line) = none := by
        simpa [isContextMarker, startsWith_eq_isSome] using hctx
      simp only [Bool.false_and, Bool.false_eq_true, if_false, hat, hstrip]
      by_cases hmarker : trimEnd line = eofMarker
      · rw [if_pos hmarker, if_pos hmarker]
        cases chunks.getLast?.any (·.isEmpty) with
        | true => exact follows_error _
        | false =>
          refine ⟨_, rfl, ?_⟩
          have h' := hset movePath (chunks.modifyLast fun c => { c with isEndOfFile := true })
          rwa [status_modifyLast_eof] at h'
      rw [if_neg hmarker, if_neg hmarker]
      cases hbody : startsBody line with
      | true =>
        obtain ⟨k, text, hb⟩ := isBodyLine_of_startsBody hbody
        have h' := hset movePath (onLastChunk chunks (k.push text))
        rw [status_onLastChunk hopen] at h'
        obtain rfl | ⟨rfl, rfl, rfl⟩ := hb
        · cases k <;> exact ⟨_, rfl, h'⟩
        · exact ⟨_, rfl, h'⟩
      | false =>
        split
        · cases hbody
        · cases hbody
        · cases hbody
        · cases hbody
        · split <;> exact follows_error _

variable {t : Str}

lemma handle_eq_handleHunkHeader
    (h : p.state.mode ≠ .startedPatch ∨ stripPrefix environmentIdMarker t = none) :
    p.handleHunkHeadersAndEndPatch t = p.handleHunkHeader t := by
  rw [handleHunkHeadersAndEndPatch]
  split
  · rename_i hmode hstrip
    obtain h | h := h
    · exact absurd hmode h
    · rw [h] at hstrip; cases hstrip
  · rfl

/-- Where a header may stand, it is tried first; `rest` is what the mode does with other lines. -/
lemma follows_header (h : p.At place)
    (henv : p.state.mode ≠ .startedPatch ∨ stripPrefix environmentIdMarker t = none)
    {rest restPlace}
    (hrest : Follows rest restPlace) :
    Follows (p.handleHunkHeadersAndEndPatch t >>= fun
      | some p' => pure p'
      | none => rest) (place.nextHeader t restPlace) := by
  have hh := handleHunkHeader_of_at h t
  rw [handle_eq_handleHunkHeader henv, nextHeader]
  cases hplace : headerPlace t with
  | none =>
    rw [hplace] at hh
    rw [hh]
    exact hrest
  | some place' =>
    rw [hplace] at hh
    dsimp only at hh ⊢
    by_cases hc : place.complete
    · rw [if_pos hc] at hh ⊢
      obtain ⟨p', hp', hat⟩ := hh
      rw [hp']
      exact ⟨p', rfl, hat⟩
    · rw [if_neg hc] at hh ⊢
      obtain ⟨e, he⟩ := hh
      rw [he]
      exact ⟨e, rfl⟩

/-- **A line is accepted where the grammar has it**, and leads where the grammar says. -/
theorem processLine_next (h : p.At place) (line : Str) :
    Follows (p.processLine line) (place.next line) := by
  cases place with
  | notStarted =>
    obtain ⟨hmode, hhunks, henv⟩ := h
    simp only [processLine, hmode, Place.next]
    by_cases ht : trim line = beginPatchMarker
    · rw [if_pos ht, if_pos ht]
      exact ⟨_, rfl, rfl, hhunks, by simp [setMode, henv]⟩
    · rw [if_neg ht, if_neg ht]
      exact follows_error _
  | startedPatch environment =>
    simp only [processLine, h.1, Place.next]
    cases hstrip : stripPrefix environmentIdMarker (trim line) with
    | some id =>
      obtain ⟨hmode, hhunks, rfl⟩ := h
      simp only [handleHunkHeadersAndEndPatch, hmode, hstrip]
      cases henv : p.state.environmentId.isSome with
      | true => exact follows_error _
      | false =>
        by_cases hid : trim id = []
        · simp only [hid, if_true]
          exact follows_error _
        · simp only [hid, Bool.false_eq_true, if_false, Bool.false_or, List.isEmpty_iff]
          exact ⟨_, rfl, rfl, hhunks, rfl⟩
    | none => exact follows_header h (.inr hstrip) (follows_error _)
  | addFile =>
    obtain ⟨path, contents, hlast⟩ := h.2
    have hmode : p.state.mode ≠ .startedPatch := by rw [h.1]; simp
    simp only [processLine, h.1, hlast, Place.next]
    refine follows_header h (.inl hmode) ?_
    cases line with
    | nil => exact follows_error _
    | cons c text =>
      by_cases hc : c = '+'
      · subst hc
        exact ⟨_, rfl, h.1, path, contents ++ text ++ ['\n'], by simp [setLastHunk]⟩
      · simp only [hc, head?_cons, Option.some_inj, if_false]
        split
        · rename_i heq _
          exact absurd (cons.inj heq).1 hc
        · exact follows_error _
  | deleteFile =>
    have hmode : p.state.mode ≠ .startedPatch := by rw [h.1]; simp
    simp only [processLine, h.1, Place.next]
    exact follows_header h (.inl hmode) (follows_error _)
  | updateFile moved chunk =>
    obtain ⟨n, path, movePath, chunks, hm, hlast, rfl, rfl⟩ := id h
    have hmode : p.state.mode ≠ .startedPatch := by rw [hm]; simp
    simp only [processLine, hm, hlast, Place.next]
    exact follows_header h (.inl hmode) (processUpdateLine_next hm hlast line)
  | endedPatch =>
    simp only [processLine, h.1, Place.next]
    by_cases ht : trim line = []
    · rw [if_pos ht, if_pos ht]
      exact ⟨p, rfl, h⟩
    · rw [if_neg ht, if_neg ht]
      exact follows_error _

/-! ## Runs -/

lemma feedLines_run (h : p.At place) (ls : List Str) :
    Follows (p.feedLines ls) (place.run (ls.map stripCr)) := by
  induction ls generalizing p place with
  | nil => exact ⟨p, rfl, h⟩
  | cons l ls ih =>
    have hl : Follows (p.feedLine l) (place.next (stripCr l)) := processLine_next (at_takeLine h) _
    rw [feedLines_cons, map_cons, run, foldlM_cons]
    cases hnext : place.next (stripCr l) with
    | none =>
      rw [hnext] at hl
      obtain ⟨e, he⟩ := hl
      rw [he]
      exact follows_error e
    | some place' =>
      rw [hnext] at hl
      obtain ⟨p', hp', hat⟩ := hl
      rw [hp']
      exact ih hat

/-- The last line ends the patch wherever the hunk may be left. -/
lemma finishWith_isOk_iff (h : p.At place) (hend : trim last = endPatchMarker) :
    (∃ q, p.finishWith last = .ok q) ↔ place.complete := by
  have hens := ensure_of_at (at_takeLine h) endPatchMarker
  rw [finishWith_of_end p hend]
  split_ifs at hens with hc
  · rw [hens]
    exact ⟨fun _ => hc, fun _ => ⟨_, rfl⟩⟩
  · obtain ⟨e, he⟩ := hens
    rw [he]
    exact ⟨fun ⟨_, hq⟩ => (by cases hq), fun h' => absurd h' hc⟩

/-- **A run succeeds exactly on the lines of the grammar.** -/
theorem runLines_isOk_iff (ls : List Str) (hend : trim last = endPatchMarker) :
    (∃ q, runLines ls last = .ok q) ↔
      ∃ place, run .notStarted (ls.map stripCr) = some place ∧ place.complete := by
  have hrun := feedLines_run at_initial ls
  rw [runLines]
  cases hplace : run .notStarted (ls.map stripCr) with
  | none =>
    rw [hplace] at hrun
    obtain ⟨e, he⟩ := hrun
    rw [he]
    constructor
    · rintro ⟨_, hq⟩
      cases hq
    · rintro ⟨_, hp, _⟩
      cases hp
  | some place =>
    rw [hplace] at hrun
    obtain ⟨p, hp, hat⟩ := hrun
    rw [hp]
    refine (finishWith_isOk_iff hat hend).trans ⟨fun hc => ⟨place, rfl, hc⟩, ?_⟩
    rintro ⟨_, hp', hc⟩
    exact Option.some_inj.mp hp' ▸ hc

end StreamingPatchParser

/-! ## Complete texts -/

/-- `parsePatch` reads the text as it stands, and takes no heredoc wrapper off it. -/
def IsPlain (patch : Str) : Prop :=
  checkPatchBoundariesStrict (lines (trim patch)) = .ok (lines (trim patch))

section

variable {patch : Str} {ls : List Str} (htrim : trim patch = patch)
  (htext : patch = joinLines (ls ++ [last])) (hls : ∀ x ∈ ls, '\n' ∉ x) (hlast : '\n' ∉ last)
include htrim htext hls hlast

/-- A trimmed text has its segments for lines, less a `\r` each. -/
lemma lines_of_trimmed (hne : last ≠ []) : lines (trim patch) = ls.map stripCr ++ [last] := by
  rw [htrim, htext, lines_joinLines_concat hls hlast hne]

/-- The first and last segment of a text that is read as it stands. -/
lemma isPlain_iff (hnil : last = [] → ls = []) :
    IsPlain patch ↔ ∃ l rest, ls = l :: rest ∧ trim l = beginPatchMarker ∧
      trim last = endPatchMarker := by
  by_cases hne : last = []
  · obtain rfl := hnil hne
    have hpatch : patch = [] := by rw [htext, hne]; rfl
    rw [hpatch, IsPlain, checkPatchBoundariesStrict_eq_ok_iff]
    simp [lines]
  rw [IsPlain, lines_of_trimmed htrim htext hls hlast hne, checkPatchBoundariesStrict_eq_ok_iff]
  cases ls with
  | nil =>
    have hmarkers : beginPatchMarker ≠ endPatchMarker := by decide
    simp only [map_nil, nil_append, head?_cons, getLast?_singleton,
      Option.map_some, Option.some_inj, true_and]
    constructor
    · rintro ⟨h, h'⟩
      exact absurd (h.symm.trans h') hmarkers
    · rintro ⟨_, _, h, -⟩
      cases h
  | cons l rest => simp [trim_stripCr, getLast?_cons]

/-- What `parsePatch` does with a text that is read as it stands. -/
lemma parsePatch_of_isPlain (hne : last ≠ []) (hplain : IsPlain patch) :
    parsePatch patch = (runLines (ls.map stripCr) last).map fun p =>
      { patch := joinLines (ls.map stripCr ++ [last]), hunks := p.state.hunks, workdir := none
        environmentId := p.state.environmentId } := by
  have hcheck := checkPatchBoundaries_of_strict .lenient hplain
  rw [lines_of_trimmed htrim htext hls hlast hne] at hcheck
  refine parsePatchText_eq_runLines ?_ hlast
    ((congrArg _ (lines_of_trimmed htrim htext hls hlast hne)).trans hcheck)
  intro x hx
  obtain ⟨y, hy, rfl⟩ := mem_map.mp hx
  intro hmem
  refine hls y hy ?_
  obtain h | h := stripCr_cases y
  · rwa [h] at hmem
  · rw [h]; exact mem_append_left _ hmem

end

lemma headerPlace_ne_notStarted (t : Str) : headerPlace t ≠ some .notStarted := by
  rw [headerPlace]
  repeat' split
  all_goals simp

variable {place : Place}

/-- After a line the patch has started. -/
lemma Place.next_ne_notStarted {place'} (h : place.next line = some place') :
    place' ≠ .notStarted := by
  rintro rfl
  have header : ∀ t rest, rest ≠ some .notStarted → place.nextHeader t rest ≠ some .notStarted := by
    intro t rest hrest
    rw [nextHeader]
    split
    · rename_i place' hplace
      split
      · rintro ⟨⟩
        exact headerPlace_ne_notStarted t hplace
      · simp
    · exact hrest
  cases place with
  | notStarted => simp only [next] at h; split at h <;> cases h
  | startedPatch environment =>
    simp only [next] at h
    split at h
    · split at h <;> cases h
    · exact header _ _ (by simp) h
  | addFile => exact header _ _ (by split <;> simp) h
  | deleteFile => exact header _ _ (by simp) h
  | updateFile moved chunk =>
    refine header _ _ ?_ h
    simp only [nextUpdate]
    repeat' split
    all_goals simp
  | endedPatch => simp only [next] at h; split at h <;> cases h

variable {ls : List Str}

lemma Place.run_ne_notStarted {place'} (hne : place ≠ .notStarted)
    (h : place.run ls = some place') : place' ≠ .notStarted := by
  induction ls generalizing place with
  | nil => cases h; exact hne
  | cons l ls ih =>
    rw [run, foldlM_cons] at h
    cases hl : place.next l with
    | none => rw [hl] at h; cases h
    | some place₁ =>
      rw [hl] at h
      exact ih (next_ne_notStarted hl) h

/-- A run of at least one line from the start begins with `*** Begin Patch`. -/
theorem Place.run_cons {l} (h : run .notStarted (l :: ls) = some place) :
    trim l = beginPatchMarker ∧ place ≠ .notStarted := by
  rw [run, foldlM_cons] at h
  cases hl : next .notStarted l with
  | none => rw [hl] at h; cases h
  | some place₁ =>
    rw [hl] at h
    refine ⟨?_, run_ne_notStarted (next_ne_notStarted hl) h⟩
    by_contra hne
    simp [next, hne] at hl

/-- **`parsePatch` accepts a trimmed text as it stands exactly when it is a patch of the
grammar.** -/
theorem isPatch_iff {text} (htrim : trim text = text) :
    isPatch text ↔ IsPlain text ∧ ∃ args, parsePatch text = .ok args := by
  obtain ⟨ls, last, hsplit, htext, hls, hlast⟩ := exists_segments text
  have hnt : NoTrailing text := by rw [← htrim]; exact trim_noTrailing text
  obtain ⟨hnt', hnil⟩ := noTrailing_last (htext ▸ hnt)
  have hplain := isPlain_iff htrim htext hls hlast hnil
  have hparse : trim last = endPatchMarker → IsPlain text → ((∃ args, parsePatch text = .ok args) ↔
        ∃ place, run .notStarted (ls.map (stripCr ∘ stripCr)) = some place ∧
          place.complete) := by
    intro hend hp
    have hne : last ≠ [] := by rintro rfl; cases hend
    rw [parsePatch_of_isPlain htrim htext hls hlast hne hp, ← map_map, ← runLines_isOk_iff _ hend]
    cases runLines (ls.map stripCr) last with
    | error | ok => simp [Except.map]
  have hdef : isPatch text ↔ ∃ place, run .notStarted
      (ls.map (stripCr ∘ stripCr)) = some place ∧ place ≠ .notStarted ∧ place.complete ∧
        trim last = endPatchMarker := by
    simp only [isPatch, hsplit, dropLast_concat]
    cases run .notStarted (ls.map (stripCr ∘ stripCr)) with
    | none => simp
    | some place => simp [and_assoc]
  rw [hdef]
  constructor
  · rintro ⟨place, hrun, hne, hc, hend⟩
    have hp : IsPlain text := by
      cases ls with
      | nil => cases hrun; exact absurd rfl hne
      | cons l ls =>
        have hfirst := (run_cons hrun).1
        rw [Function.comp_apply, trim_stripCr, trim_stripCr] at hfirst
        exact hplain.mpr ⟨l, ls, rfl, hfirst, hend⟩
    exact ⟨hp, (hparse hend hp).mpr ⟨place, hrun, hc⟩⟩
  · rintro ⟨hp, hok⟩
    obtain ⟨l, rest, rfl, -, hend⟩ := hplain.mp hp
    obtain ⟨place, hrun, hc⟩ := (hparse hend hp).mp hok
    exact ⟨place, hrun, (run_cons hrun).2, hc, hend⟩

end ApplyPatch
