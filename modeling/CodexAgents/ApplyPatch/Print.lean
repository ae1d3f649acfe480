import CodexAgents.ApplyPatch.Machine

/-!
# Printing a patch, and parsing it back

The documentation of `parser.rs` gives the patch format as a grammar.  This file writes the grammar
down as a printer: a `HunkSource` is a hunk the way an author thinks of it — the lines of a chunk
are one interleaved list of context, added and removed lines — and `printPatch` is its text.

What the parser keeps is not that list but three projections of it: the old side, the new side, and
the pairs of positions at which the two sides are the same context line (`WrittenChunk.toChunk`).
`parsePatch_printPatch` says that these projections are exactly what comes back, for every list of
hunks: body lines may be blank, may be all whitespace, or may look like markers, because the parser
decides on the character in front of them.

The printer has the two freedoms the grammar has: the `@@` of a first chunk without a header may be
left out, and so may the line end after `*** End Patch`.

The parser trims the environment id at both ends, so an id that starts with a blank comes back
without it; paths and chunk headers keep theirs.
-/

namespace ApplyPatch

open Text StreamingPatchParser List Option

/-! ## What can be printed -/

/-- A text that can stand after a marker: a path, an environment id or a chunk header. -/
structure IsName (s : Str) : Prop where
  ne_nil : s ≠ []
  no_newline : '\n' ∉ s
  noTrailing : NoTrailing s

/-- A text that can stand after the mark of a body line. -/
structure IsBodyText (s : Str) : Prop where
  no_newline : '\n' ∉ s
  no_cr : s.getLast? ≠ some '\r'

/-- A path that can be written in a header. -/
abbrev Name := { s : Str // IsName s }

/-- A line that can be written in a chunk. -/
abbrev BodyText := { s : Str // IsBodyText s }

/-- A chunk that can be printed. -/
structure ChunkSource extends WrittenChunk where
  header_name : ∀ h ∈ header, IsName h
  body_ne_nil : body ≠ []
  body_text : ∀ l ∈ body, IsBodyText l.2

open ChunkSource

/-- A hunk as it is written.  `bareFirst` leaves out the `@@` of a first chunk without header. -/
inductive HunkSource where
  | add (path : Name) (content : List BodyText)
  | delete (path : Name)
  | update (path : Name) (movePath : Option Name) (chunks : List ChunkSource)
      (chunks_ne_nil : chunks ≠ []) (bareFirst : Bool)

/-! ## The printer -/

/-- The line of a body line. -/
def bodyLine (l : LineKind × Str) : Str := l.1.mark :: l.2

variable (c : ChunkSource)

namespace ChunkSource

/-- The `@@` line of a chunk. -/
def headerLine : Str :=
  match c.header with
  | none => emptyChangeContextMarker
  | some h => changeContextMarker ++ h

/-- The lines of a chunk after its `@@` line. -/
def rest : List Str := c.body.map bodyLine ++ if c.endOfFile then [eofMarker] else []

/-- The lines of a chunk. -/
def print : List Str := c.headerLine :: c.rest

end ChunkSource

/-- The lines of the chunks of an update hunk. -/
def printChunks (bareFirst : Bool) : List ChunkSource → List Str
  | [] => []
  | c :: cs => (if bareFirst ∧ c.header = none then c.rest else c.print) ++ cs.flatMap (·.print)

/-- The lines of a hunk. -/
def HunkSource.print : HunkSource → List Str
  | .add path content => (addFileMarker ++ path.val) :: content.map fun l => bodyLine (.add, l.val)
  | .delete path => [deleteFileMarker ++ path.val]
  | .update path movePath chunks _ bareFirst =>
    (updateFileMarker ++ path.val) ::
      ((movePath.map fun dest => moveToMarker ++ dest.val).toList ++ printChunks bareFirst chunks)

/-- The line of the environment id. -/
def environmentLine (id : Name) : Str := environmentIdMarker ++ ' ' :: id.val

/-- The lines of a patch before its last one. -/
def patchLines (environmentId : Option Name) (hunks : List HunkSource) : List Str :=
  beginPatchMarker :: ((environmentId.map environmentLine).toList ++ hunks.flatMap (·.print))

/-- **The text of a patch.** -/
def printPatch (environmentId : Option Name) (hunks : List HunkSource) (finalNewline : Bool) :
    Str :=
  joinLines (patchLines environmentId hunks ++ [endPatchMarker]) ++
    if finalNewline then ['\n'] else []

/-! ## What should come back -/

/-- The hunk that is written. -/
def HunkSource.toHunk : HunkSource → Hunk
  | .add path content => .addFile path.val (content.flatMap fun l => l.val ++ ['\n'])
  | .delete path => .deleteFile path.val
  | .update path movePath chunks _ _ =>
    .updateFile path.val (movePath.map (·.val)) (chunks.map (·.toChunk))

/-! ## The parser between two lines -/

/-- A parser that has just finished a line. -/
abbrev between (mode : StreamingParserMode) (hunks : List Hunk) (environmentId : Option Str)
    (n : ℕ) : StreamingPatchParser :=
  { lineBuffer := [], state := ⟨mode, hunks, environmentId⟩, lineNumber := n }

/-- A parser inside an update hunk that has the given chunks so far. -/
abbrev updating (hunks : List Hunk) (environmentId : Option Str) (path : Str)
    (movePath : Option Str) (start : ℕ) (chunks : List UpdateFileChunk) (n : ℕ) :
    StreamingPatchParser :=
  between (.updateFile start) (hunks ++ [.updateFile path movePath chunks]) environmentId n

lemma setLastHunk_between (mode : StreamingParserMode) (hunks : List Hunk) (h h' : Hunk)
    (environmentId : Option Str) (n : ℕ) :
    (between mode (hunks ++ [h]) environmentId n).setLastHunk h' =
      between mode (hunks ++ [h']) environmentId n := by
  simp [setLastHunk]

/-- In an update hunk, a line that is no header is a line of the hunk. -/
lemma feedLine_updating {hunks environmentId path movePath start chunks n line}
    (hcr : stripCr line = line)
    (hh : (updating hunks environmentId path movePath start chunks
      (n + 1)).handleHunkHeadersAndEndPatch (trimEnd line) = .ok none) :
    (updating hunks environmentId path movePath start chunks n).feedLine line =
      (updating hunks environmentId path movePath start chunks (n + 1)).processUpdateLine line path
        movePath chunks := by
  rw [feedLine, hcr]
  change (updating hunks environmentId path movePath start chunks (n + 1)).processLine line = _
  simp [processLine, hh, bind, Except.bind]

/-! ## Body lines -/

section

variable {hunks : List Hunk} {environmentId : Option Str} {path : Str} {movePath : Option Str}
  {start : ℕ}

lemma stripCr_bodyLine {l} (h : IsBodyText l.2) :
    stripCr (bodyLine l) = bodyLine l := by
  refine stripCr_eq_self ?_
  rw [bodyLine]
  cases ht : l.2 with
  | nil => cases l.1 <;> decide
  | cons c t =>
    rw [getLast?_cons_cons, ← ht]
    exact h.no_cr

variable {chunks : List UpdateFileChunk}

/-- One body line, when the chunk it goes to is not yet closed. -/
lemma feedLine_bodyLine {l} (h : IsBodyText l.2)
    (heof : chunks.getLast?.any (·.isEndOfFile) = false) (n : ℕ) :
    (updating hunks environmentId path movePath start chunks n).feedLine (bodyLine l) =
      .ok (updating hunks environmentId path movePath start (onLastChunk chunks (l.1.push l.2))
        (n + 1)) := by
  have hb : IsBodyLine (bodyLine l) l.1 l.2 := .inl rfl
  rw [feedLine_updating (stripCr_bodyLine h)
      (handle_of_head _ (head?_trimEnd_bodyLine hb (.inl rfl))),
    processUpdateLine_body hb _ _ _ heof, setLastHunk_between]

lemma push_isEndOfFile (k : LineKind) (t : Str) (c : UpdateFileChunk) :
    (k.push t c).isEndOfFile = c.isEndOfFile := by
  cases k <;> rfl

variable {body : Interleaving}

/-- All body lines of a chunk that is already open. -/
lemma feedLines_body (h : ∀ l ∈ body, IsBodyText l.2) (chunks : List UpdateFileChunk)
    {chunk} (heof : chunk.isEndOfFile = false) (n : ℕ) :
    (updating hunks environmentId path movePath start (chunks ++ [chunk]) n).feedLines
        (body.map bodyLine) =
      .ok (updating hunks environmentId path movePath start
        (chunks ++ [body.foldl (fun c l => l.1.push l.2 c) chunk]) (n + body.length)) := by
  induction body generalizing chunk n with
  | nil => rfl
  | cons l body ih =>
    have hopen : (chunks ++ [chunk]).getLast?.any (·.isEndOfFile) = false := by simp [heof]
    have hnext : onLastChunk (chunks ++ [chunk]) (l.1.push l.2) =
        chunks ++ [l.1.push l.2 chunk] := by
      simp [onLastChunk]
    rw [map_cons, feedLines_cons, feedLine_bodyLine (h l (by simp)) hopen, hnext]
    refine (ih (fun l' hl' => h l' (by simp [hl'])) (by rw [push_isEndOfFile, heof])
      (n + 1)).trans ?_
    simp [add_comm, add_left_comm]

/-- The body lines of a first chunk whose `@@` was left out. -/
lemma feedLines_bareBody (hne : body ≠ []) (h : ∀ l ∈ body, IsBodyText l.2) (n : ℕ) :
    (updating hunks environmentId path movePath start [] n).feedLines (body.map bodyLine) =
      .ok (updating hunks environmentId path movePath start [body.toChunk none false]
        (n + body.length)) := by
  obtain ⟨l, body, rfl⟩ := exists_cons_of_ne_nil hne
  rw [map_cons, feedLines_cons, feedLine_bodyLine (h l (by simp)) rfl]
  refine (feedLines_body (fun l' hl' => h l' (by simp [hl'])) []
    (push_isEndOfFile l.1 l.2 {}) (n + 1)).trans ?_
  have hfold := Interleaving.foldl_push_header (l :: body) none
  rw [foldl_cons] at hfold
  simp [hfold, add_comm, add_left_comm]

/-! ## Chunks -/

/-- The two markers of an update hunk that start like a header are not one. -/
lemma handle_of_marker (p : StreamingPatchParser) {m} (hm : m = moveToMarker ∨ m = eofMarker)
    (s : Str) : p.handleHunkHeadersAndEndPatch (m ++ s) = .ok none := by
  have henv : stripPrefix environmentIdMarker (m ++ s) = none := by
    rcases hm with rfl | rfl <;> exact stripPrefix_append_eq_none s
  have hadd : stripPrefix addFileMarker (m ++ s) = none := by
    rcases hm with rfl | rfl <;> exact stripPrefix_append_eq_none s
  have hdel : stripPrefix deleteFileMarker (m ++ s) = none := by
    rcases hm with rfl | rfl <;> exact stripPrefix_append_eq_none s
  have hupd : stripPrefix updateFileMarker (m ++ s) = none := by
    rcases hm with rfl | rfl <;> exact stripPrefix_append_eq_none s
  have hend : m ++ s ≠ endPatchMarker := by
    rcases hm with rfl | rfl <;> exact append_ne_of_not_isPrefix s
  simp [handleHunkHeadersAndEndPatch, handleHunkHeader, henv, hadd, hdel, hupd, hend, pure,
    Except.pure]

/-- The chunks so far may be followed by another one. -/
def Closed (chunks : List UpdateFileChunk) : Prop := chunks.getLast?.any (·.isEmpty) = false

lemma closed_nil : Closed [] := rfl

lemma closed_concat (chunks : List UpdateFileChunk) {c}
    (h : c.isEmpty = false) : Closed (chunks ++ [c]) := by
  simp [Closed, h]

/-- A `@@` line opens a chunk. -/
lemma feedLine_headerLine (hclosed : Closed chunks) (n : ℕ) :
    (updating hunks environmentId path movePath start chunks n).feedLine c.headerLine =
      .ok (updating hunks environmentId path movePath start
        (chunks ++ [{ changeContext := c.header }]) (n + 1)) := by
  have hnt : NoTrailing c.headerLine := by
    rw [headerLine]
    cases hh : c.header with
    | none => decide
    | some h => exact (c.header_name h hh).noTrailing.append (c.header_name h hh).ne_nil _
  have hhead : c.headerLine.head? = some '@' := by
    rw [headerLine]
    cases c.header <;> rfl
  rw [feedLine_updating (stripCr_of_noTrailing hnt)
    (by rw [trimEnd_eq_self hnt]; exact handle_of_head _ (by rw [hhead]; decide))]
  have hmove : stripPrefix moveToMarker c.headerLine = none :=
    stripPrefix_eq_none_of_head (c := '*') (by decide) (by rw [hhead]; decide)
  have hnil : c.headerLine ≠ [] := by intro h; simp [h] at hhead
  have hlast : chunks.getLast?.any (·.isEmpty) = false := hclosed
  cases hh : c.header with
  | none =>
    have hl : c.headerLine = emptyChangeContextMarker := by rw [headerLine, hh]
    rw [hl] at hnt hmove hnil ⊢
    simp only [processUpdateLine, trimEnd_eq_self hnt, hmove, isContextMarker,
      isEmpty_eq_false_iff.mpr hnil, decide_true, Bool.true_or, Bool.and_false,
      Bool.not_true, Bool.false_eq_true, if_false, ite_self, if_true,
      hlast, setLastHunk_between]
  | some h =>
    have hl : c.headerLine = changeContextMarker ++ h := by rw [headerLine, hh]
    have hctx : startsWith c.headerLine changeContextMarker :=
      stripPrefix_isSome_iff.mp (by rw [hl, stripPrefix_append]; rfl)
    have hne : c.headerLine ≠ emptyChangeContextMarker := by
      rw [hl]; exact append_ne_of_not_isPrefix _
    simp only [processUpdateLine, trimEnd_eq_self hnt, hmove, isContextMarker, hctx, hne,
      isEmpty_eq_false_iff.mpr hnil, decide_false, Bool.false_or, Bool.and_false,
      Bool.not_true, Bool.false_eq_true, if_false, ite_self, hlast]
    rw [hl, stripPrefix_append]
    simp only [setLastHunk_between]

/-- The end-of-file line of a chunk, if it has one. -/
lemma feedLines_eof (hne : body ≠ []) (header : Option Str) (eof : Bool)
    (chunks : List UpdateFileChunk) (n : ℕ) :
    (updating hunks environmentId path movePath start (chunks ++ [body.toChunk header false])
        n).feedLines (if eof then [eofMarker] else []) =
      .ok (updating hunks environmentId path movePath start (chunks ++ [body.toChunk header eof])
        (n + if eof then 1 else 0)) := by
  cases eof with
  | false => rfl
  | true =>
    have hnt : NoTrailing eofMarker := by decide
    have hempty := Interleaving.toChunk_isEmpty hne header false
    have hh := handle_of_marker
      (updating hunks environmentId path movePath start (chunks ++ [body.toChunk header false])
        (n + 1))
      (.inr rfl) []
    rw [append_nil] at hh
    rw [if_pos rfl, feedLines_cons,
      feedLine_updating (stripCr_of_noTrailing hnt) (by rw [trimEnd_eq_self hnt]; exact hh)]
    have hmove : stripPrefix moveToMarker eofMarker = none := by decide
    have hctx : stripPrefix changeContextMarker eofMarker = none := by decide
    have hmark : isContextMarker eofMarker = false := by decide
    have hat : eofMarker ≠ emptyChangeContextMarker := by decide
    have heof : (body.toChunk header false).isEndOfFile = false := rfl
    simp only [processUpdateLine, trimEnd_eq_self hnt, hmove, hctx, hmark, hat, hempty, heof,
      getLast?_append, getLast?_singleton, some_or, any_some,
      Bool.false_and, Bool.false_eq_true, if_false, ite_self, if_true, modifyLast_concat,
      setLastHunk_between]
    rfl

/-- **A printed chunk is read as its projections.** -/
theorem feedLines_print (hclosed : Closed chunks) (n : ℕ) :
    (updating hunks environmentId path movePath start chunks n).feedLines c.print =
      .ok (updating hunks environmentId path movePath start (chunks ++ [c.toChunk])
        (n + c.print.length)) := by
  rw [print, feedLines_cons, feedLine_headerLine c hclosed]
  change feedLines _ (c.body.map bodyLine ++ _) = _
  rw [feedLines_append, feedLines_body c.body_text chunks rfl, Interleaving.foldl_push_header]
  change feedLines _ _ = _
  rw [feedLines_eof c.body_ne_nil, WrittenChunk.toChunk]
  congr 2
  cases h : c.endOfFile <;> simp [rest, h] <;> omega

/-- A first chunk printed without its `@@` is read the same way. -/
lemma feedLines_rest (hheader : c.header = none) (n : ℕ) :
    (updating hunks environmentId path movePath start [] n).feedLines c.rest =
      .ok (updating hunks environmentId path movePath start [c.toChunk] (n + c.rest.length)) := by
  rw [rest, feedLines_append, feedLines_bareBody c.body_ne_nil c.body_text]
  refine (feedLines_eof c.body_ne_nil none c.endOfFile [] _).trans ?_
  rw [WrittenChunk.toChunk, hheader]
  congr 2
  cases h : c.endOfFile <;> simp [add_assoc]

lemma toChunk_isEmpty : c.toChunk.isEmpty = false := Interleaving.toChunk_isEmpty c.body_ne_nil _ _

lemma feedLines_flatMap_print (cs : List ChunkSource) (hclosed : Closed chunks) (n : ℕ) :
    (updating hunks environmentId path movePath start chunks n).feedLines
        (cs.flatMap (·.print)) =
      .ok (updating hunks environmentId path movePath start (chunks ++ cs.map (·.toChunk))
        (n + (cs.flatMap (·.print)).length)) := by
  induction cs generalizing chunks n with
  | nil => simp
  | cons c cs ih =>
    rw [flatMap_cons, feedLines_append, feedLines_print c hclosed]
    refine (ih (closed_concat _ (toChunk_isEmpty c)) _).trans ?_
    simp [add_assoc]

/-- **The printed chunks of an update hunk are read as their projections.** -/
theorem feedLines_printChunks (bareFirst : Bool) {cs} (hne : cs ≠ []) (n : ℕ) :
    (updating hunks environmentId path movePath start [] n).feedLines (printChunks bareFirst cs) =
      .ok (updating hunks environmentId path movePath start (cs.map (·.toChunk))
        (n + (printChunks bareFirst cs).length)) := by
  obtain ⟨c, cs, rfl⟩ := exists_cons_of_ne_nil hne
  have hfirst : (updating hunks environmentId path movePath start [] n).feedLines
        (if bareFirst ∧ c.header = none then c.rest else c.print) =
      .ok (updating hunks environmentId path movePath start [c.toChunk]
        (n + (if bareFirst ∧ c.header = none then c.rest else c.print).length)) := by
    split
    · rename_i h; exact feedLines_rest c h.2 n
    · exact feedLines_print c closed_nil n
  rw [printChunks, feedLines_append, hfirst]
  refine (feedLines_flatMap_print cs (closed_concat [] (toChunk_isEmpty c)) _).trans ?_
  simp [add_assoc]

/-- The move line of an update hunk, if it has one. -/
lemma feedLines_moveTo (dest : Option Name) (n : ℕ) :
    (updating hunks environmentId path none start [] n).feedLines
        (dest.map fun d => moveToMarker ++ d.val).toList =
      .ok (updating hunks environmentId path (dest.map (·.val)) start []
        (n + dest.toList.length)) := by
  cases dest with
  | none => rfl
  | some d =>
    have hnt : NoTrailing (moveToMarker ++ d.val) := d.2.noTrailing.append d.2.ne_nil _
    rw [map_some, toList_some, feedLines_cons, feedLine_updating (stripCr_of_noTrailing hnt)
        (by rw [trimEnd_eq_self hnt]; exact handle_of_marker _ (.inl rfl) _)]
    simp only [processUpdateLine, trimEnd_eq_self hnt, stripPrefix_append, setLastHunk_between,
      getLast?_nil, any_none, Bool.false_and, Bool.false_eq_true, if_false,
      isEmpty_nil, isNone_none, Bool.and_self, if_true]
    rfl

end

/-! ## Hunks -/

/-- The parser may read a header: it is inside the patch, and the hunk before is complete. -/
structure Ready (mode : StreamingParserMode) (hunks : List Hunk) : Prop where
  started : mode ≠ .notStarted
  not_ended : mode ≠ .endedPatch
  complete : ∀ environmentId n line,
    (between mode hunks environmentId n).ensureUpdateHunkIsNotEmpty line = .ok ()

lemma ready_startedPatch : Ready .startedPatch [] := ⟨by decide, by decide, fun _ _ _ => rfl⟩

variable (hunks : List Hunk)

lemma ready_addFile (path contents : Str) : Ready .addFile (hunks ++ [.addFile path contents]) :=
  ⟨by decide, by decide, fun _ _ _ => by simp [ensureUpdateHunkIsNotEmpty]⟩

lemma ready_deleteFile (path : Str) : Ready .deleteFile (hunks ++ [.deleteFile path]) :=
  ⟨by decide, by decide, fun _ _ _ => by simp [ensureUpdateHunkIsNotEmpty]⟩

lemma ready_updateFile (path : Str) (movePath : Option Str) (start : ℕ)
    {cs : List ChunkSource} (hne : cs ≠ []) :
    Ready (.updateFile start) (hunks ++ [.updateFile path movePath (cs.map (·.toChunk))]) := by
  refine ⟨by simp, by simp, fun _ _ _ => ?_⟩
  obtain ⟨cs, c, rfl⟩ := (eq_nil_or_concat cs).resolve_left hne
  simp [ensureUpdateHunkIsNotEmpty, toChunk_isEmpty]

variable {mode : StreamingParserMode} {hunks : List Hunk} {environmentId : Option Str}

section

variable (hready : Ready mode hunks)
include hready

/-- A line that needs no trimming and is a header is dealt with as one in every mode that reads
headers. -/
lemma feedLine_header {line}
    (hhead : line.head? = some '*') (hnt : NoTrailing line) {n p'}
    (hh : (between mode hunks environmentId (n + 1)).handleHunkHeadersAndEndPatch line =
      .ok (some p')) :
    (between mode hunks environmentId n).feedLine line = .ok p' := by
  have htrim : trim line = line :=
    trim_eq_self (fun c hc => by rw [hhead, some_inj] at hc; rw [← hc]; decide) hnt
  rw [feedLine, stripCr_of_noTrailing hnt]
  change (between mode hunks environmentId (n + 1)).processLine line = _
  cases mode with
  | notStarted => exact absurd rfl hready.started
  | endedPatch => exact absurd rfl hready.not_ended
  | startedPatch | addFile | deleteFile | updateFile =>
    simp [processLine, htrim, trimEnd_eq_self hnt, hh, bind, Except.bind, pure, Except.pure]

variable (path : Name) (n : ℕ)

/-- The header lines of the three kinds of hunk. -/
lemma feedLine_addFile : (between mode hunks environmentId n).feedLine (addFileMarker ++ path.val) =
      .ok (between .addFile (hunks ++ [.addFile path.val []]) environmentId (n + 1)) := by
  refine feedLine_header hready rfl (path.2.noTrailing.append path.2.ne_nil _) ?_
  have henv : stripPrefix environmentIdMarker (addFileMarker ++ path.val) = none :=
    stripPrefix_append_eq_none _
  have hend : addFileMarker ++ path.val ≠ endPatchMarker := append_ne_of_not_isPrefix _
  simp [handleHunkHeadersAndEndPatch, handleHunkHeader, henv, hend, stripPrefix_append,
    hready.complete, bind, Except.bind, pure, Except.pure, openHunk]

lemma feedLine_deleteFile :
    (between mode hunks environmentId n).feedLine (deleteFileMarker ++ path.val) =
      .ok (between .deleteFile (hunks ++ [.deleteFile path.val]) environmentId (n + 1)) := by
  refine feedLine_header hready rfl (path.2.noTrailing.append path.2.ne_nil _) ?_
  have henv : stripPrefix environmentIdMarker (deleteFileMarker ++ path.val) = none :=
    stripPrefix_append_eq_none _
  have hadd : stripPrefix addFileMarker (deleteFileMarker ++ path.val) = none :=
    stripPrefix_append_eq_none _
  have hend : deleteFileMarker ++ path.val ≠ endPatchMarker := append_ne_of_not_isPrefix _
  simp [handleHunkHeadersAndEndPatch, handleHunkHeader, henv, hadd, hend, stripPrefix_append,
    hready.complete, bind, Except.bind, pure, Except.pure, openHunk]

lemma feedLine_updateFile :
    (between mode hunks environmentId n).feedLine (updateFileMarker ++ path.val) =
      .ok (updating hunks environmentId path.val none (n + 1) [] (n + 1)) := by
  refine feedLine_header hready rfl (path.2.noTrailing.append path.2.ne_nil _) ?_
  have henv : stripPrefix environmentIdMarker (updateFileMarker ++ path.val) = none :=
    stripPrefix_append_eq_none _
  have hadd : stripPrefix addFileMarker (updateFileMarker ++ path.val) = none :=
    stripPrefix_append_eq_none _
  have hdel : stripPrefix deleteFileMarker (updateFileMarker ++ path.val) = none :=
    stripPrefix_append_eq_none _
  have hend : updateFileMarker ++ path.val ≠ endPatchMarker := append_ne_of_not_isPrefix _
  simp [handleHunkHeadersAndEndPatch, handleHunkHeader, henv, hadd, hdel, hend, stripPrefix_append,
    hready.complete, bind, Except.bind, pure, Except.pure, openHunk]

end

/-- The content lines of an added file. -/
lemma feedLines_content (path : Str) (content : List BodyText) (contents : Str) (n : ℕ) :
    (between .addFile (hunks ++ [.addFile path contents]) environmentId n).feedLines
        (content.map fun l => bodyLine (.add, l.val)) =
      .ok (between .addFile
        (hunks ++ [.addFile path (contents ++ content.flatMap fun l => l.val ++ ['\n'])])
        environmentId (n + content.length)) := by
  induction content generalizing contents n with
  | nil => simp
  | cons l content ih =>
    have hline : (between .addFile (hunks ++ [.addFile path contents]) environmentId n).feedLine
        (bodyLine (.add, l.val)) =
          .ok (between .addFile (hunks ++ [.addFile path (contents ++ l.val ++ ['\n'])])
            environmentId (n + 1)) := by
      have htrim : (trim ('+' :: l.val)).head? ≠ some '*' := by
        rw [trim_cons_of_not (by decide)]; simp
      rw [feedLine, stripCr_bodyLine l.2]
      change (between .addFile (hunks ++ [.addFile path contents]) environmentId
        (n + 1)).processLine _ = _
      simp [processLine, handle_of_head _ htrim, bind, Except.bind, pure, Except.pure, bodyLine,
        LineKind.mark, setLastHunk_between]
    rw [map_cons, feedLines_cons, hline]
    refine (ih _ _).trans ?_
    simp [add_comm, add_left_comm]

/-- **A printed hunk is read as its hunk**, and another one may follow. -/
theorem feedLines_hunk (h : HunkSource) (hready : Ready mode hunks) (n : ℕ) :
    ∃ mode', Ready mode' (hunks ++ [h.toHunk]) ∧
      (between mode hunks environmentId n).feedLines h.print =
        .ok (between mode' (hunks ++ [h.toHunk]) environmentId (n + h.print.length)) := by
  cases h with
  | add path content =>
    refine ⟨.addFile, ready_addFile _ _ _, ?_⟩
    rw [HunkSource.print, feedLines_cons, feedLine_addFile hready]
    refine (feedLines_content path.val content [] (n + 1)).trans ?_
    simp [HunkSource.toHunk, add_comm, add_left_comm]
  | delete path =>
    refine ⟨.deleteFile, ready_deleteFile _ _, ?_⟩
    rw [HunkSource.print, feedLines_cons, feedLine_deleteFile hready]
    rfl
  | update path movePath chunks hne bareFirst =>
    refine ⟨.updateFile (n + 1), ready_updateFile _ _ _ _ hne, ?_⟩
    rw [HunkSource.print, feedLines_cons, feedLine_updateFile hready]
    change feedLines _ (_ ++ _) = _
    rw [feedLines_append, feedLines_moveTo]
    refine (feedLines_printChunks bareFirst hne _).trans ?_
    congr 2
    cases movePath <;> simp <;> omega

/-- **Printed hunks are read as their hunks**, by induction over the list. -/
theorem feedLines_hunks (hs : List HunkSource) (hready : Ready mode hunks) (n : ℕ) :
    ∃ mode', Ready mode' (hunks ++ hs.map (·.toHunk)) ∧
      (between mode hunks environmentId n).feedLines (hs.flatMap (·.print)) =
        .ok (between mode' (hunks ++ hs.map (·.toHunk)) environmentId
          (n + (hs.flatMap (·.print)).length)) := by
  induction hs generalizing mode hunks n with
  | nil => exact ⟨mode, by simpa using hready, by simp⟩
  | cons h hs ih =>
    obtain ⟨mode₁, hready₁, hfeed₁⟩ := @feedLines_hunk mode hunks environmentId h hready n
    obtain ⟨mode₂, hready₂, hfeed₂⟩ := ih hready₁ (n + h.print.length)
    refine ⟨mode₂, by simpa using hready₂, ?_⟩
    rw [flatMap_cons, feedLines_append, hfeed₁]
    refine hfeed₂.trans ?_
    simp [add_assoc]

/-! ## The frame of a patch -/

lemma feedLine_beginPatch :
    feedLine {} beginPatchMarker = .ok (between .startedPatch [] none 1) := by
  rfl

variable (id : Option Name)

/-- The environment line, if there is one. -/
lemma feedLines_environmentLine (n : ℕ) :
    (between .startedPatch [] none n).feedLines (id.map environmentLine).toList =
      .ok (between .startedPatch [] (id.map fun i => trim i.val)
        (n + id.toList.length)) := by
  cases id with
  | none => rfl
  | some i =>
    have htrim : trim (' ' :: i.val) = trim i.val := by
      rw [trim, trim, trimStart_cons_of_whitespace (by decide)]
    have hne : trim i.val ≠ [] := trim_ne_nil i.2.ne_nil i.2.noTrailing
    have hline : (between .startedPatch [] none n).feedLine (environmentLine i) =
        .ok (between .startedPatch [] (some (trim i.val)) (n + 1)) := by
      have hnt : NoTrailing (environmentLine i) :=
        (i.2.noTrailing.append i.2.ne_nil [' ']).append (by simp) environmentIdMarker
      refine feedLine_header ready_startedPatch rfl hnt ?_
      have hstrip : stripPrefix environmentIdMarker (environmentLine i) = some (' ' :: i.val) :=
        stripPrefix_append _ _
      simp [handleHunkHeadersAndEndPatch, hstrip, htrim, hne]
    rw [map_some, toList_some, feedLines_cons, hline]
    rfl

/-- `*** End Patch` ends a patch that is ready for a header. -/
theorem finishWith_endPatch (hready : Ready mode hunks) (n : ℕ) :
    (between mode hunks environmentId n).finishWith endPatchMarker =
      .ok (between .endedPatch hunks environmentId (n + 1)) := by
  rw [finishWith_of_end _ (by decide)]
  change Except.map _ ((between mode hunks environmentId (n + 1)).ensureUpdateHunkIsNotEmpty
    endPatchMarker) = _
  rw [hready.complete]
  rfl

variable (hs : List HunkSource)

/-- **The printed lines are read as the hunks.** -/
theorem runLines_patchLines : ∃ n, runLines (patchLines id hs) endPatchMarker =
      .ok (between .endedPatch (hs.map (·.toHunk)) (id.map fun i => trim i.val) n) := by
  obtain ⟨mode, hready, hfeed⟩ := @feedLines_hunks .startedPatch [] (id.map fun i => trim i.val) hs
    ready_startedPatch (1 + id.toList.length)
  refine ⟨1 + id.toList.length + (hs.flatMap (·.print)).length + 1, ?_⟩
  rw [runLines, patchLines, feedLines_cons, feedLine_beginPatch]
  change (feedLines _ (_ ++ _) >>= _) = _
  rw [feedLines_append, feedLines_environmentLine]
  change (feedLines _ _ >>= _) = _
  rw [hfeed]
  exact finishWith_endPatch hready _

/-! ## The printed lines are lines -/

/-- No line end inside, and no carriage return at the end. -/
def IsPlainLine (l : Str) : Prop := '\n' ∉ l ∧ stripCr l = l

lemma isPlainLine_marker {m} (name : Name) (hm : '\n' ∉ m := by decide) :
    IsPlainLine (m ++ name.val) :=
  ⟨by simp [hm, name.2.no_newline],
    stripCr_of_noTrailing (name.2.noTrailing.append name.2.ne_nil m)⟩

lemma isPlainLine_bodyLine {l} (h : IsBodyText l.2) :
    IsPlainLine (bodyLine l) := by
  refine ⟨?_, stripCr_bodyLine h⟩
  have hmark : '\n' ≠ l.1.mark := by cases l.1 <;> decide
  simp [bodyLine, hmark, h.no_newline]

lemma isPlainLine_rest (c : ChunkSource) : ∀ l ∈ c.rest, IsPlainLine l := by
  intro l hl
  rw [rest, mem_append] at hl
  obtain hl | hl := hl
  · obtain ⟨b, hb, rfl⟩ := mem_map.mp hl
    exact isPlainLine_bodyLine (c.body_text b hb)
  · split at hl
    · rw [mem_singleton.mp hl]; exact ⟨by decide, by decide⟩
    · cases hl

lemma isPlainLine_chunk (c : ChunkSource) : ∀ l ∈ c.print, IsPlainLine l := by
  intro l hl
  rw [print, mem_cons] at hl
  obtain rfl | hl := hl
  · rw [headerLine]
    split
    · exact ⟨by decide, by decide⟩
    · rename_i h hh
      exact isPlainLine_marker ⟨h, c.header_name h hh⟩
  · exact isPlainLine_rest c l hl

lemma isPlainLine_hunk (h : HunkSource) : ∀ l ∈ h.print, IsPlainLine l := by
  intro l hl
  cases h with
  | add path content =>
    rw [HunkSource.print, mem_cons, List.mem_map] at hl
    obtain rfl | ⟨t, -, rfl⟩ := hl
    · exact isPlainLine_marker path
    · exact isPlainLine_bodyLine t.2
  | delete path =>
    rw [HunkSource.print, mem_singleton] at hl
    rw [hl]; exact isPlainLine_marker path
  | update path movePath chunks hne bareFirst =>
    rw [HunkSource.print, mem_cons, mem_append] at hl
    obtain rfl | hl | hl := hl
    · exact isPlainLine_marker path
    · rw [mem_toList, map_eq_some_iff] at hl
      obtain ⟨d, -, rfl⟩ := hl
      exact isPlainLine_marker d
    · obtain ⟨c, cs, rfl⟩ := exists_cons_of_ne_nil hne
      rw [printChunks, mem_append, mem_flatMap] at hl
      obtain hl | ⟨c', -, hl⟩ := hl
      · split at hl
        · exact isPlainLine_rest c l hl
        · exact isPlainLine_chunk c l hl
      · exact isPlainLine_chunk c' l hl

lemma isPlainLine_patchLines : ∀ l ∈ patchLines id hs, IsPlainLine l := by
  intro l hl
  rw [patchLines, mem_cons, mem_append, mem_flatMap] at hl
  obtain rfl | hl | ⟨h, -, hl⟩ := hl
  · exact ⟨by decide, by decide⟩
  · rw [mem_toList, map_eq_some_iff] at hl
    obtain ⟨i, -, rfl⟩ := hl
    rw [environmentLine, append_cons]
    exact isPlainLine_marker i
  · exact isPlainLine_hunk h l hl

/-! ## Parsing undoes printing -/

/-- The lines `parsePatch` works on are the printed ones. -/
lemma lines_printPatch (nl : Bool) :
    lines (trim (printPatch id hs nl)) = patchLines id hs ++ [endPatchMarker] := by
  have hplain := isPlainLine_patchLines id hs
  have htrim : trim (printPatch id hs nl) = joinLines (patchLines id hs ++ [endPatchMarker]) := by
    obtain ⟨m, hm⟩ := exists_joinLines_concat (patchLines id hs) endPatchMarker
    have hnt : NoTrailing (joinLines (patchLines id hs ++ [endPatchMarker])) := by
      rw [hm]; exact NoTrailing.append (by decide) (by decide) m
    have hhead : (joinLines (patchLines id hs ++ [endPatchMarker])).head? = some '*' := by
      rw [patchLines, cons_append, joinLines_cons (by simp)]
      rfl
    have hself : trim (joinLines (patchLines id hs ++ [endPatchMarker])) = _ :=
      trim_eq_self (fun c hc => by rw [hhead, some_inj] at hc; rw [← hc]; decide) hnt
    rw [printPatch]
    split
    · rw [trim_concat_of_whitespace (by decide), hself]
    · rw [append_nil, hself]
  rw [htrim, lines_joinLines_concat (fun l hl => (hplain l hl).1) (by decide) (by decide),
    map_congr_left (fun l hl => (hplain l hl).2), List.map_id']

/-- **Parsing undoes printing.**  Every list of hunks, printed by the grammar, comes back from
`parsePatch` as its hunks, each chunk with the projections of its interleaving. -/
theorem parsePatch_printPatch (environmentId : Option Name) (hs : List HunkSource)
    (finalNewline : Bool) :
    parsePatch (printPatch environmentId hs finalNewline) =
      .ok { patch := joinLines (patchLines environmentId hs ++ [endPatchMarker])
            hunks := hs.map (·.toHunk)
            workdir := none
            environmentId := environmentId.map fun id => trim id.val } := by
  have hplain := isPlainLine_patchLines environmentId hs
  have hcheck : checkPatchBoundaries .lenient (lines (trim (printPatch environmentId hs
      finalNewline))) = .ok (patchLines environmentId hs ++ [endPatchMarker]) := by
    refine checkPatchBoundaries_of_strict _ ?_
    rw [lines_printPatch, checkPatchBoundariesStrict_eq_ok_iff, getLast?_concat]
    exact ⟨rfl, congrArg some (show trim beginPatchMarker = _ by decide), by decide⟩
  obtain ⟨n, hrun⟩ := runLines_patchLines environmentId hs
  rw [parsePatch, parsePatchText_eq_runLines (fun l hl => (hplain l hl).1) (by decide) hcheck, hrun]
  rfl

end ApplyPatch
