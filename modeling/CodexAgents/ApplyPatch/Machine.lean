import CodexAgents.ApplyPatch.Interleaving

/-!
# The patch parser, a line at a time

`StreamingPatchParser.pushDelta` is fed characters, but nothing happens between two line ends: the
characters go to the buffer.  So a text is its lines, and what the machine does with a text is what
`feedLines` does with them, wherever the text is cut into deltas.

* `pushDelta_append` — feeding two pieces is feeding their concatenation, unless the first piece
  already failed.
* `pushDelta_joinLines` — feeding lines joined by `\n` is feeding the lines, and leaves the last one
  in the buffer.
* `runLines` — the whole run on a text: all lines but the last through `feedLine`, the last one
  through `finish`.  `parsePatch` and the streaming preview are both instances of it
  (`parsePatchText_eq_runLines` here, `streamPatch_eq_runLines` in `ApplyPatch/Preview.lean`).

The second half is what the machine does with a line, by the shape of the line: `handle_of_head`
says that only a line starting with `*` can be a header, and `processUpdateLine_body` that a line
with one of the three body prefixes goes to the last chunk, whatever follows the prefix.
-/

namespace ApplyPatch

open Text List

namespace StreamingPatchParser

/-! ## What a header can do -/

/-- **Everything a header line can do.**  Either it sets the environment id of a patch that has
just started, or — the current update hunk being complete — it ends the patch or opens a hunk. -/
theorem handle_cases {p p' : StreamingPatchParser} {t}
    (h : p.handleHunkHeadersAndEndPatch t = .ok (some p')) :
    (∃ i, p.state.mode = .startedPatch ∧ t = environmentIdMarker ++ i ∧
        p.state.environmentId = none ∧ trim i ≠ [] ∧
        p' = { p with state := { p.state with environmentId := some (trim i) } }) ∨
      p.ensureUpdateHunkIsNotEmpty t = .ok () ∧ (t = endPatchMarker ∧ p' = p.setMode .endedPatch ∨
        (∃ path, t = addFileMarker ++ path ∧ p' = p.openHunk (.addFile path []) .addFile) ∨
        (∃ path, t = deleteFileMarker ++ path ∧ p' = p.openHunk (.deleteFile path) .deleteFile) ∨
        ∃ path, t = updateFileMarker ++ path ∧
          p' = p.openHunk (.updateFile path none []) (.updateFile p.lineNumber)) := by
  -- the four headers that close the current hunk share the check, so peel it off once
  have peel : ∀ {q : StreamingPatchParser},
      (do p.ensureUpdateHunkIsNotEmpty t; return some q : Except ParseError _) = .ok (some p') →
        p.ensureUpdateHunkIsNotEmpty t = .ok () ∧ p' = q := by
    intro q hq
    cases he : p.ensureUpdateHunkIsNotEmpty t with
    | error e => rw [he] at hq; cases hq
    | ok u => rw [he] at hq; cases hq; exact ⟨rfl, rfl⟩
  rw [handleHunkHeadersAndEndPatch] at h
  split at h
  · rename_i i hmode hstrip
    left
    split at h
    · cases h
    · rename_i henv
      split at h
      · cases h
      · rename_i hi
        cases h
        exact ⟨i, hmode, stripPrefix_eq_some_iff.mp hstrip, by simpa using henv, hi, rfl⟩
  · right
    rw [handleHunkHeader] at h
    split_ifs at h with ht
    · exact ⟨(peel h).1, .inl ⟨ht, (peel h).2⟩⟩
    · split at h
      · rename_i path hpath
        exact ⟨(peel h).1, .inr (.inl ⟨path, stripPrefix_eq_some_iff.mp hpath, (peel h).2⟩)⟩
      · split at h
        · rename_i path hpath
          exact ⟨(peel h).1,
            .inr (.inr (.inl ⟨path, stripPrefix_eq_some_iff.mp hpath, (peel h).2⟩))⟩
        · split at h
          · rename_i path hpath
            exact ⟨(peel h).1,
              .inr (.inr (.inr ⟨path, stripPrefix_eq_some_iff.mp hpath, (peel h).2⟩))⟩
          · cases h

end StreamingPatchParser

/-- `line` is a body line of kind `k` with the given text.  A completely empty line counts as an
empty context line that lost its blank. -/
def IsBodyLine (line : Str) (k : LineKind) (text : Str) : Prop :=
  line = k.mark :: text ∨ line = [] ∧ k = .context ∧ text = []

namespace StreamingPatchParser

variable {t : Str}

lemma isContextMarker_eq_false (hat : t ≠ emptyChangeContextMarker)
    (hctx : stripPrefix changeContextMarker t = none) : isContextMarker t = false := by
  have hs : startsWith t changeContextMarker = false := by
    rw [← Bool.not_eq_true, ← stripPrefix_isSome_iff, hctx]; simp
  simp [isContextMarker, hat, hs]

variable {p : StreamingPatchParser} {line : Str}
  {p' : StreamingPatchParser} {chunks : List UpdateFileChunk}

/-- **Everything a line of an update hunk that is no header can do.** -/
theorem processUpdateLine_cases {path movePath}
    (h : p.processUpdateLine line path movePath chunks = .ok p') :
    (chunks.getLast?.any (·.isEndOfFile) ∧ trimEnd line = [] ∧ p' = p) ∨
    (∃ dest, chunks = [] ∧ movePath = none ∧ trimEnd line = moveToMarker ++ dest ∧
      p' = p.setLastHunk (.updateFile path (some dest) chunks)) ∨
    (∃ header, chunks.getLast?.any (·.isEmpty) = false ∧
      (header = none ∧ trimEnd line = emptyChangeContextMarker ∨
        ∃ c, header = some c ∧ trimEnd line = changeContextMarker ++ c) ∧
      p' = p.setLastHunk (.updateFile path movePath (chunks ++ [{ changeContext := header }]))) ∨
    (chunks.getLast?.any (·.isEndOfFile) = false ∧ chunks.getLast?.any (·.isEmpty) = false ∧
      trimEnd line = eofMarker ∧
      p' = p.setLastHunk (.updateFile path movePath
        (chunks.modifyLast fun chunk => { chunk with isEndOfFile := true }))) ∨
    (∃ k text, chunks.getLast?.any (·.isEndOfFile) = false ∧ IsBodyLine line k text ∧
      p' = p.setLastHunk (.updateFile path movePath (onLastChunk chunks (k.push text)))) := by
  simp only [processUpdateLine] at h
  split at h
  · rename_i hc
    simp only [Bool.and_eq_true, List.isEmpty_iff] at hc
    cases h
    exact .inl ⟨hc.1, hc.2, rfl⟩
  rename_i hblank
  split at h
  · cases h
  rename_i heof
  right
  split at h
  · rename_i dest hdest
    cases h
    split at hdest
    · rename_i hc
      simp only [Bool.and_eq_true, List.isEmpty_iff, Option.isNone_iff_eq_none] at hc
      exact .inl ⟨dest, hc.1, hc.2, stripPrefix_eq_some_iff.mp hdest, rfl⟩
    · cases hdest
  right
  split at h
  · cases h
  rename_i hempty
  split at h
  · rename_i hat
    cases h
    refine .inl ⟨none, ?_, .inl ⟨rfl, hat⟩, rfl⟩
    simpa [isContextMarker, hat] using hempty
  split at h
  · rename_i c hc
    cases h
    refine .inl ⟨some c, ?_, .inr ⟨c, rfl, stripPrefix_eq_some_iff.mp hc⟩, rfl⟩
    have hs : startsWith (trimEnd line) changeContextMarker :=
      stripPrefix_isSome_iff.mp (by simp [hc])
    simpa [isContextMarker, hs] using hempty
  rename_i hat _ hctx
  right
  -- neither `@@` form, so a chunk that is at the end of the file would have failed already
  have hmark := isContextMarker_eq_false hat hctx
  have hlast : chunks.getLast?.any (·.isEndOfFile) = false := by
    rw [hmark] at heof
    simpa using heof
  split at h
  · rename_i hmarker
    split at h
    · cases h
    · rename_i hne
      cases h
      exact .inl ⟨hlast, by simpa using hne, hmarker, rfl⟩
  right
  split at h
  · cases h; exact ⟨.context, [], hlast, .inr ⟨rfl, rfl, rfl⟩, rfl⟩
  · cases h; exact ⟨.context, _, hlast, .inl rfl, rfl⟩
  · cases h; exact ⟨.add, _, hlast, .inl rfl, rfl⟩
  · cases h; exact ⟨.remove, _, hlast, .inl rfl, rfl⟩
  · split at h <;> cases h

/-- **Everything a line can do.** -/
theorem processLine_cases (h : p.processLine line = .ok p') :
    (p.state.mode = .notStarted ∧ trim line = beginPatchMarker ∧ p' = p.setMode .startedPatch) ∨
    ((p.state.mode = .startedPatch ∨ p.state.mode = .addFile ∨ p.state.mode = .deleteFile) ∧
      p.handleHunkHeadersAndEndPatch (trim line) = .ok (some p')) ∨
    (∃ text path contents, p.state.mode = .addFile ∧
      p.handleHunkHeadersAndEndPatch (trim line) = .ok none ∧ line = '+' :: text ∧
      p.state.hunks.getLast? = some (.addFile path contents) ∧
      p' = p.setLastHunk (.addFile path (contents ++ text ++ ['\n']))) ∨
    (∃ n, p.state.mode = .updateFile n ∧
      p.handleHunkHeadersAndEndPatch (trimEnd line) = .ok (some p')) ∨
    (∃ n path movePath chunks, p.state.mode = .updateFile n ∧
      p.handleHunkHeadersAndEndPatch (trimEnd line) = .ok none ∧
      p.state.hunks.getLast? = some (.updateFile path movePath chunks) ∧
      p.processUpdateLine line path movePath chunks = .ok p') ∨
    (p.state.mode = .endedPatch ∧ trim line = [] ∧ p' = p) := by
  simp only [processLine] at h
  cases hm : p.state.mode with
  | notStarted =>
    simp only [hm] at h
    split at h
    · rename_i ht; cases h; exact .inl ⟨rfl, ht, rfl⟩
    · cases h
  | startedPatch =>
    simp only [hm] at h
    rcases hh : p.handleHunkHeadersAndEndPatch (trim line) with e | _ | q <;>
      rw [hh] at h <;> cases h
    exact .inr (.inl ⟨.inl rfl, rfl⟩)
  | deleteFile =>
    simp only [hm] at h
    rcases hh : p.handleHunkHeadersAndEndPatch (trim line) with e | _ | q <;>
      rw [hh] at h <;> cases h
    exact .inr (.inl ⟨.inr (.inr rfl), rfl⟩)
  | addFile =>
    simp only [hm] at h
    cases hh : p.handleHunkHeadersAndEndPatch (trim line) with
    | error e => rw [hh] at h; cases h
    | ok r =>
      rw [hh] at h
      cases r with
      | some q => cases h; exact .inr (.inl ⟨.inr (.inl rfl), rfl⟩)
      | none =>
        simp only [bind, Except.bind, pure, Except.pure] at h
        split at h
        · rename_i text path contents hlast
          cases h
          exact .inr (.inr (.inl ⟨text, path, contents, rfl, rfl, rfl, hlast, rfl⟩))
        · cases h
  | updateFile n =>
    simp only [hm] at h
    right; right; right
    cases hh : p.handleHunkHeadersAndEndPatch (trimEnd line) with
    | error e => rw [hh] at h; cases h
    | ok r =>
      rw [hh] at h
      cases r with
      | some q => cases h; exact .inl ⟨n, rfl, rfl⟩
      | none =>
        simp only [bind, Except.bind] at h
        split at h
        · rename_i path movePath chunks hlast
          exact .inr (.inl ⟨n, path, movePath, chunks, rfl, rfl, hlast, h⟩)
        · cases h
  | endedPatch =>
    simp only [hm] at h
    split at h
    · rename_i ht; cases h
      exact .inr (.inr (.inr (.inr (.inr ⟨rfl, ht, rfl⟩))))
    · cases h

lemma handle_keeps (h : p.handleHunkHeadersAndEndPatch t = .ok (some p')) :
    p'.lineBuffer = p.lineBuffer ∧ p'.lineNumber = p.lineNumber := by
  obtain ⟨i, -, -, -, -, rfl⟩ | ⟨-, ⟨-, rfl⟩ | ⟨_, -, rfl⟩ | ⟨_, -, rfl⟩ | ⟨_, -, rfl⟩⟩ :=
    handle_cases h <;> exact ⟨rfl, rfl⟩

/-- A line goes through the parser without touching the buffer or the line count. -/
lemma processLine_keeps (h : p.processLine line = .ok p') :
    p'.lineBuffer = p.lineBuffer ∧ p'.lineNumber = p.lineNumber := by
  obtain ⟨-, -, rfl⟩ | ⟨-, hh⟩ | ⟨_, _, _, -, -, -, -, rfl⟩ | ⟨_, -, hh⟩ |
    ⟨_, _, _, _, -, -, -, hu⟩ | ⟨-, -, rfl⟩ := processLine_cases h
  · exact ⟨rfl, rfl⟩
  · exact handle_keeps hh
  · exact ⟨rfl, rfl⟩
  · exact handle_keeps hh
  · obtain ⟨-, -, rfl⟩ | ⟨_, -, -, -, rfl⟩ | ⟨_, -, -, rfl⟩ | ⟨-, -, -, rfl⟩ | ⟨_, _, -, -, rfl⟩ :=
      processUpdateLine_cases hu <;> exact ⟨rfl, rfl⟩
  · exact ⟨rfl, rfl⟩

/-! ## Lines by their first character

Every marker a header can start with begins with `*`, and both `@@` forms with `@`.  So what a line
is was decided by its first character, and trimming the end does not change that one. -/

lemma mark_ne (k : LineKind) : k.mark ≠ '*' ∧ k.mark ≠ '@' := by
  cases k <;> decide

/-- Only a line starting with `*` can be a header. -/
lemma handle_of_head (p : StreamingPatchParser) (h : t.head? ≠ some '*') :
    p.handleHunkHeadersAndEndPatch t = .ok none := by
  have hend : t ≠ endPatchMarker := by rintro rfl; exact h (by decide)
  rw [handleHunkHeadersAndEndPatch, handleHunkHeader,
    stripPrefix_eq_none_of_head (p := environmentIdMarker) (c := '*') (by decide) h,
    stripPrefix_eq_none_of_head (p := addFileMarker) (c := '*') (by decide) h,
    stripPrefix_eq_none_of_head (p := deleteFileMarker) (c := '*') (by decide) h,
    stripPrefix_eq_none_of_head (p := updateFileMarker) (c := '*') (by decide) h]
  simp [hend, pure, Except.pure]

lemma isContextMarker_of_head (h : t.head? ≠ some '@') : isContextMarker t = false := by
  have hat : t ≠ emptyChangeContextMarker := by rintro rfl; exact h (by decide)
  exact isContextMarker_eq_false hat (stripPrefix_eq_none_of_head (c := '@') (by decide) h)

/-- What is left of a body line when its end is trimmed does not start with a marker. -/
lemma head?_trimEnd_bodyLine {text k} (hb : IsBodyLine line k text) {c} (hc : c = '*' ∨ c = '@') :
    (trimEnd line).head? ≠ some c := by
  intro h
  have h' := head?_trimEnd h
  obtain rfl | ⟨rfl, -, -⟩ := hb
  · rw [head?_cons, Option.some_inj] at h'
    obtain rfl | rfl := hc
    · exact (mark_ne k).1 h'
    · exact (mark_ne k).2 h'
  · simp at h'

/-- **A body line goes to the last chunk**, whatever follows its mark. -/
theorem processUpdateLine_body {k} (hb : IsBodyLine line k text) (p : StreamingPatchParser)
    (path : Str) (movePath : Option Str) (heof : chunks.getLast?.any (·.isEndOfFile) = false) :
    p.processUpdateLine line path movePath chunks =
      .ok (p.setLastHunk (.updateFile path movePath (onLastChunk chunks (k.push text)))) := by
  have hstar := head?_trimEnd_bodyLine hb (.inl rfl)
  have hat := head?_trimEnd_bodyLine hb (.inr rfl)
  have hmove : stripPrefix moveToMarker (trimEnd line) = none :=
    stripPrefix_eq_none_of_head (c := '*') (by decide) hstar
  have hctx : stripPrefix changeContextMarker (trimEnd line) = none :=
    stripPrefix_eq_none_of_head (c := '@') (by decide) hat
  have hempty : trimEnd line ≠ emptyChangeContextMarker := by
    intro h; rw [h] at hat; exact hat (by decide)
  have hmarker : trimEnd line ≠ eofMarker := by
    intro h; rw [h] at hstar; exact hstar (by decide)
  simp only [processUpdateLine, heof, isContextMarker_of_head hat, hmove, hctx, hempty, hmarker,
    Bool.false_and, ite_self, if_false, Bool.false_eq_true]
  obtain rfl | ⟨rfl, rfl, rfl⟩ := hb
  · cases k <;> rfl
  · rfl

/-! ## Feeding lines -/

/-- A finished line: it is counted, loses a `\r`, and is processed. -/
def feedLine (p : StreamingPatchParser) (line : Str) : Except ParseError StreamingPatchParser :=
  p.takeLine.processLine (stripCr line)

/-- Feed lines until one of them fails. -/
def feedLines (p : StreamingPatchParser) (ls : List Str) : Except ParseError StreamingPatchParser :=
  ls.foldlM feedLine p

@[simp] lemma feedLines_nil (p : StreamingPatchParser) : p.feedLines [] = .ok p := rfl

lemma feedLines_cons (p : StreamingPatchParser) (l : Str) (ls : List Str) :
    p.feedLines (l :: ls) = p.feedLine l >>= fun q => q.feedLines ls := rfl

lemma feedLines_append (p : StreamingPatchParser) (ls ms : List Str) :
    p.feedLines (ls ++ ms) = p.feedLines ls >>= fun q => q.feedLines ms :=
  foldlM_append

lemma feedLine_keeps (h : p.feedLine line = .ok p') : p'.lineBuffer = [] := (processLine_keeps h).1

/-- Characters that end no line go to the buffer. -/
lemma pushDelta_of_not_mem {s} (hs : '\n' ∉ s) (p : StreamingPatchParser) (rest : Str) :
    p.pushDelta (s ++ rest) = pushDelta { p with lineBuffer := p.lineBuffer ++ s } rest := by
  induction s generalizing p with
  | nil => simp
  | cons c s ih =>
    have hc : c ≠ '\n' := fun h => hs (by simp [h])
    rw [cons_append, pushDelta, if_neg hc, ih fun h => hs (by simp [h])]
    simp

/-- **Feeding two pieces is feeding their concatenation**, up to the first failure. -/
theorem pushDelta_append (p : StreamingPatchParser) (a b : Str) : p.pushDelta (a ++ b) =
      match p.pushDelta a with
      | (q, .ok _) => q.pushDelta b
      | (q, .error e) => (q, .error e) := by
  induction a generalizing p with
  | nil => simp [pushDelta]
  | cons c a ih =>
    rw [cons_append, pushDelta, pushDelta]
    split
    · cases p.takeLine.processLine (stripCr p.lineBuffer) with
      | ok q => exact ih q
      | error e => rfl
    · exact ih _

variable {last : Str} {ls : List Str}

/-- **Feeding joined lines is feeding the lines**; the last one, unterminated, stays in the
buffer. -/
theorem pushDelta_joinLines (hls : ∀ x ∈ ls, '\n' ∉ x) (hlast : '\n' ∉ last)
    (hp : p.lineBuffer = []) :
    match p.feedLines ls with
    | .ok q => p.pushDelta (joinLines (ls ++ [last])) =
        ({ q with lineBuffer := last }, .ok q.state.hunks)
    | .error e => (p.pushDelta (joinLines (ls ++ [last]))).2 = .error e := by
  induction ls generalizing p with
  | nil =>
    have h := pushDelta_of_not_mem hlast p []
    simp only [append_nil, hp, nil_append] at h
    simp [joinLines, h, pushDelta]
  | cons l ls ih =>
    have hjoin : joinLines (l :: ls ++ [last]) = l ++ '\n' :: joinLines (ls ++ [last]) :=
      joinLines_cons (by simp) l
    rw [feedLines_cons, feedLine, hjoin, pushDelta_of_not_mem (hls l (by simp)), pushDelta,
      if_pos rfl, hp, nil_append]
    have htake : takeLine { p with lineBuffer := l } = p.takeLine := rfl
    rw [htake]
    cases hq : p.takeLine.processLine (stripCr l) with
    | error e => rfl
    | ok q => exact ih (fun x hx => hls x (by simp [hx])) (feedLine_keeps hq)

/-! ## Running a whole text -/

/-- What is left when the last, unterminated, line of the text is finished. -/
def finishWith (p : StreamingPatchParser) (last : Str) : Except ParseError StreamingPatchParser :=
  match { p with lineBuffer := last }.finish with
  | (q, .ok _) => .ok q
  | (_, .error e) => .error e

/-- A whole run: all lines but the last, and then the end of the text. -/
def runLines (ls : List Str) (last : Str) : Except ParseError StreamingPatchParser :=
  feedLines {} ls >>= fun p => p.finishWith last

/-- A last line `*** End Patch` ends the patch, whatever mode the parser is in. -/
theorem finishWith_of_end (p : StreamingPatchParser) (h : trim last = endPatchMarker) :
    p.finishWith last = (p.takeLine.ensureUpdateHunkIsNotEmpty endPatchMarker).map
        fun _ => p.takeLine.setMode .endedPatch := by
  have hne : last ≠ [] := by rintro rfl; cases h
  have htake : takeLine { p with lineBuffer := last } = p.takeLine := rfl
  simp only [finishWith, finish, hne, h, htake, if_false, if_true]
  cases p.takeLine.ensureUpdateHunkIsNotEmpty endPatchMarker <;> rfl

/-- The last line leaves the hunks as they are. -/
lemma finishWith_hunks {q} (hend : trim last = endPatchMarker) (h : p.finishWith last = .ok q) :
    q.state.hunks = p.state.hunks := by
  rw [finishWith_of_end p hend] at h
  cases hens : p.takeLine.ensureUpdateHunkIsNotEmpty endPatchMarker with
  | error e => rw [hens] at h; cases h
  | ok u => rw [hens] at h; cases h; rfl

lemma handle_ends (h : p.handleHunkHeadersAndEndPatch t = .ok (some p'))
    (hended : p'.state.mode = .endedPatch) :
    t = endPatchMarker := by
  obtain ⟨i, hm, -, -, -, rfl⟩ | ⟨-, ⟨hend, -⟩ | ⟨_, -, rfl⟩ | ⟨_, -, rfl⟩ | ⟨_, -, rfl⟩⟩ :=
    handle_cases h
  · rw [hm] at hended; cases hended
  · exact hend
  all_goals cases hended

/-- **Only `*** End Patch` ends a patch**, and after it only blank lines are accepted. -/
theorem processLine_ends (h : p.processLine line = .ok p') (hended : p'.state.mode = .endedPatch) :
    trim line = endPatchMarker ∨ trimEnd line = endPatchMarker ∨ trim line = [] := by
  obtain ⟨-, -, rfl⟩ | ⟨-, hh⟩ | ⟨_, _, _, hm, -, -, -, rfl⟩ | ⟨_, -, hh⟩ |
    ⟨_, _, _, _, hm, -, -, hu⟩ | ⟨-, hnil, -⟩ := processLine_cases h
  · cases hended
  · exact .inl (handle_ends hh hended)
  · have hm' : p.state.mode = .endedPatch := hended
    rw [hm] at hm'; cases hm'
  · exact .inr (.inl (handle_ends hh hended))
  · have hm' : p.state.mode = .endedPatch := by
      obtain ⟨-, -, rfl⟩ | ⟨_, -, -, -, rfl⟩ | ⟨_, -, -, rfl⟩ | ⟨-, -, -, rfl⟩ |
        ⟨_, _, -, -, rfl⟩ := processUpdateLine_cases hu <;> exact hended
    rw [hm] at hm'; cases hm'
  · exact .inr (.inr hnil)

/-- A run ends well only at `*** End Patch`. -/
theorem trim_last_of_finishWith {q} (hnt : NoTrailing last) (hne : last ≠ [])
    (h : p.finishWith last = .ok q) : trim last = endPatchMarker := by
  by_contra hend
  have htake : takeLine { p with lineBuffer := last } = p.takeLine := rfl
  simp only [finishWith, finish, hne, hend, htake, if_false] at h
  cases hline : p.takeLine.processLine last with
  | error e => rw [hline] at h; cases h
  | ok p' =>
    rw [hline] at h
    have hmode : p'.state.mode ≠ .endedPatch := by
      intro hended
      obtain h' | h' | h' := processLine_ends hline hended
      · exact hend h'
      · rw [trimEnd_eq_self hnt] at h'
        rw [h'] at hend
        exact hend (by decide)
      · exact trim_ne_nil hne hnt h'
    simp only [hmode, if_false] at h
    cases h

/-- A run begins well only at `*** Begin Patch`. -/
theorem trim_first_of_feedLines {l} (h : feedLines {} (l :: ls) = .ok p) :
    trim l = beginPatchMarker := by
  by_contra hne
  have hline : feedLine {} l = .error (.invalidPatchError firstLineMessage) := by
    have hmode : (takeLine {}).state.mode = .notStarted := rfl
    simp [feedLine, processLine, hmode, trim_stripCr, hne]
  rw [feedLines_cons, hline] at h
  cases h

/-- What `finish` returns is what the parser holds, at the end of the patch. -/
lemma finish_hunks {q hunks} (h : p.finish = (q, .ok hunks)) :
    hunks = q.state.hunks ∧ q.state.mode = .endedPatch := by
  have ended : ∀ r : StreamingPatchParser,
      (if r.state.mode = .endedPatch then (r, Except.ok r.state.hunks)
        else (r, .error (ParseError.invalidPatchError lastLineMessage))) = (q, .ok hunks) →
        hunks = q.state.hunks ∧ q.state.mode = .endedPatch := by
    intro r hr
    split at hr
    · rename_i hmode
      cases hr
      exact ⟨rfl, hmode⟩
    · cases hr
  simp only [finish] at h
  split at h
  · exact ended _ h
  · split at h
    · split at h
      · exact ended _ h
      · cases h
    · split at h
      · exact ended _ h
      · cases h

end StreamingPatchParser

open StreamingPatchParser

/-- The strict check of the first and last line. -/
lemma checkPatchBoundariesStrict_eq_ok_iff {ls ls'} :
    checkPatchBoundariesStrict ls = .ok ls' ↔ ls' = ls ∧ ls.head?.map trim = some beginPatchMarker ∧
        ls.getLast?.map trim = some endPatchMarker := by
  rw [checkPatchBoundariesStrict, checkStartAndEndLinesStrict]
  cases hf : ls.head?.map trim with
  | none => simp [bind, Except.bind]
  | some first =>
    by_cases hb : first = beginPatchMarker <;>
      by_cases he : ls.getLast?.map trim = some endPatchMarker <;>
      simp [hb, he, bind, Except.bind, pure, Except.pure, eq_comm]

/-- The lenient check accepts what the strict one does. -/
lemma checkPatchBoundaries_of_strict {ls ls'} (mode : ParseMode)
    (h : checkPatchBoundariesStrict ls = .ok ls') : checkPatchBoundaries mode ls = .ok ls' := by
  cases mode with
  | strict => exact h
  | lenient => rw [checkPatchBoundaries, checkPatchBoundariesLenient, h]

/-- **Parsing a complete text is running its lines**, once the first and last line have been
checked. -/
theorem parsePatchText_eq_runLines {last patch} (hls : ∀ x ∈ ls, '\n' ∉ x)
    (hlast : '\n' ∉ last) {mode}
    (hcheck : checkPatchBoundaries mode (lines (trim patch)) = .ok (ls ++ [last])) :
    parsePatchText patch mode = (runLines ls last).map fun p =>
        { patch := joinLines (ls ++ [last]), hunks := p.state.hunks, workdir := none
          environmentId := p.state.environmentId } := by
  have hpush := pushDelta_joinLines hls hlast (p := {}) rfl
  simp only [parsePatchText, runLines, hcheck, bind, Except.bind]
  cases hf : feedLines {} ls with
  | error e =>
    simp only [hf] at hpush
    simp [hpush, Except.map]
  | ok p =>
    simp only [hf] at hpush
    simp only [hpush, finishWith]
    cases hfin : finish { p with lineBuffer := last } with
    | mk q r =>
      cases r with
      | error e => rfl
      | ok hunks => simp [(finish_hunks hfin).1, Except.map, pure, Except.pure]

/-! ## An induction rule

What every line keeps holds of the result: the parser takes nothing else into account. -/

section

variable (Inv : StreamingParserState → Prop)
  (hstep : ∀ {p p' : StreamingPatchParser} {line : Str}, p.processLine line = .ok p' →
    Inv p.state → Inv p'.state)

include hstep

variable {p : StreamingPatchParser} (hp : Inv p.state)

include hp

lemma pushDelta_invariant (s : Str) : Inv (p.pushDelta s).1.state := by
  induction s generalizing p with
  | nil => exact hp
  | cons ch rest ih =>
    rw [pushDelta]
    split
    · split
      · rename_i p' hline
        exact ih (hstep hline hp)
      · exact hp
    · exact ih hp

lemma finish_invariant (hend : ∀ {p : StreamingPatchParser} {line : Str},
      p.ensureUpdateHunkIsNotEmpty line = .ok () → Inv p.state →
        Inv (p.setMode .endedPatch).state) :
    Inv p.finish.1.state := by
  have ended : ∀ r : StreamingPatchParser, Inv r.state →
      Inv (if r.state.mode = .endedPatch then (r, Except.ok r.state.hunks)
        else (r, .error (ParseError.invalidPatchError lastLineMessage))).1.state := by
    intro r hr
    split <;> exact hr
  simp only [finish]
  split
  · exact ended p hp
  split
  · split
    · rename_i hok
      exact ended (p.takeLine.setMode .endedPatch) (hend hok hp)
    · exact hp
  · split
    · rename_i p' hline
      exact ended p' (hstep hline hp)
    · exact hp

end

/-- **What holds of no hunks and is kept by every line holds of every parsed patch.** -/
theorem parsePatchText_invariant {Inv : List Hunk → Prop}
    (hstep : ∀ {p p' : StreamingPatchParser} {line : Str}, p.processLine line = .ok p' →
      Inv p.state.hunks → Inv p'.state.hunks)
    (hnil : Inv []) {patch mode args}
    (h : parsePatchText patch mode = .ok args) : Inv args.hunks := by
  simp only [parsePatchText, bind, Except.bind] at h
  split at h
  · cases h
  rename_i patchLines _
  rcases hq : pushDelta {} (joinLines patchLines) with ⟨q, _ | _⟩
  · rw [hq] at h
    cases h
  rw [hq] at h
  simp only at h
  rcases hq' : q.finish with ⟨q', _ | _⟩
  · rw [hq'] at h
    cases h
  rw [hq'] at h
  cases h
  have hpushed := pushDelta_invariant (fun s => Inv s.hunks) hstep (p := {}) hnil
    (joinLines patchLines)
  rw [hq] at hpushed
  have hfinished := finish_invariant (fun s => Inv s.hunks) hstep hpushed fun _ h => h
  rw [hq'] at hfinished
  rw [(finish_hunks hq').1]
  exact hfinished

end ApplyPatch
