import CodexAgents.ApplyPatch.Grammar

/-!
# The streaming preview and the final parser

While a patch is still being written, the text is fed to a `StreamingPatchParser` in whatever
pieces it arrives; when it is complete, `parsePatch` reads it again from the start.  The two are the
same machine, but not on the same lines: `parsePatch` first splits the text with `str::lines`, which
takes a `\r` off every terminated line, and the machine takes off one more.

* `streamPatch_eq_runLines` — where the text is cut does not matter: the preview is the run on the
  segments of the text.
* `previewAgrees_iff` — for a trimmed text the preview agrees with `parsePatch` unless the text is
  nothing but `*** End Patch`, or it is a patch in which a line of file content ends in `\r\r\n`.

Both exceptions are real.  `finish` ends the patch on a last line `*** End Patch` without asking
whether the patch ever started, so the preview of that single line is an empty patch, where
`parsePatch` misses `*** Begin Patch`.  And a content line ending in `\r\r\n` keeps one `\r` in the
preview and none in `parsePatch`; a line that is only `\r\r\n` is a blank context line for
`parsePatch` and an error in the preview.

For the second exception to be one it has to be shown that the runs do not come together again
later.  They are at the same places of the grammar all the way, and `crCount`, the number of `\r` in
the file content read so far, has grown more in the preview and never catches up.
-/

namespace ApplyPatch

open Text List Place

namespace StreamingPatchParser

/-! ## The preview -/

/-- Feed the pieces in order, up to the first failure. -/
def pushDeltas (p : StreamingPatchParser) : List Str → StreamingPatchParser × Except ParseError Unit
  | [] => (p, .ok ())
  | delta :: deltas =>
    match p.pushDelta delta with
    | (q, .ok _) => q.pushDeltas deltas
    | (q, .error e) => (q, .error e)

/-- Feeding pieces is feeding what they make up. -/
lemma pushDeltas_eq (p : StreamingPatchParser) (deltas : List Str) : p.pushDeltas deltas =
      ((p.pushDelta deltas.flatten).1, (p.pushDelta deltas.flatten).2.map fun _ => ()) := by
  induction deltas generalizing p with
  | nil => rfl
  | cons delta deltas ih =>
    rw [flatten_cons, pushDelta_append, pushDeltas]
    obtain ⟨q, e | hunks⟩ := p.pushDelta delta
    · rfl
    · exact ih q

end StreamingPatchParser

open StreamingPatchParser

/-- **The preview of a text that arrives in pieces**: hunks and environment id, or the first
error. -/
def streamPatch (deltas : List Str) : Except ParseError (List Hunk × Option Str) :=
  match pushDeltas {} deltas with
  | (_, .error e) => .error e
  | (p, .ok ()) =>
    match p.finish with
    | (q, .ok hunks) => .ok (hunks, q.state.environmentId)
    | (_, .error e) => .error e

/-- **Where the text is cut does not matter.** -/
theorem streamPatch_eq_runLines {deltas ls last}
    (hls : ∀ x ∈ ls, '\n' ∉ x) (hlast : '\n' ∉ last)
    (htext : deltas.flatten = joinLines (ls ++ [last])) :
    streamPatch deltas =
      (runLines ls last).map fun p => (p.state.hunks, p.state.environmentId) := by
  have hpush := pushDelta_joinLines hls hlast (p := {}) rfl
  rw [streamPatch, pushDeltas_eq, htext, runLines]
  cases hf : feedLines {} ls with
  | error e =>
    simp only [hf] at hpush
    simp [hpush, Except.map, bind, Except.bind]
  | ok p =>
    simp only [hf] at hpush
    simp only [hpush, Except.map, bind, Except.bind, finishWith]
    cases hfin : finish { p with lineBuffer := last } with
    | mk q r =>
      cases r with
      | error e => rfl
      | ok hunks => simp [(finish_hunks hfin).1]

/-! ## File content that ends in a carriage return -/

namespace Place

/-- Is the segment `l` file content that ends in two `\r`, one of which is left when the other is
taken off with the line end? -/
def crBody (place : Place) (l : Str) : Bool :=
  place.readsBody (stripCr (stripCr l)) && (stripCr l).getLast? = some '\r'

/-- The same for one of several segments, each read at its own place. -/
def hasCrBody (place : Place) : List Str → Bool
  | [] => false
  | l :: ls =>
    place.crBody l || match place.next (stripCr (stripCr l)) with
      | some place' => place'.hasCrBody ls
      | none => false

/-- Beyond its trailing whitespace only file content is looked at, and of that the first
character. -/
lemma next_concat_cr (place : Place) {line} (h : place.readsBody line = false ∨ line ≠ []) :
    place.next (line ++ ['\r']) = place.next line := by
  cases place with
  | notStarted | startedPatch | deleteFile | endedPatch => simp [next, trim_concat_cr]
  | addFile =>
    simp only [next, trim_concat_cr]
    cases line with
    | nil => simp
    | cons c text => rfl
  | updateFile moved chunk =>
    simp only [next, nextUpdate, trimEnd_concat_cr]
    cases line with
    | nil =>
      -- an empty line that is no content stands after the end-of-file line
      have hend : chunk.any (·.isEndOfFile) := by simpa [readsBody, startsBody] using h
      simp [hend]
    | cons c text => rfl

/-- A lone `\r` is not a blank context line. -/
lemma next_cr {place : Place} (h : place.readsBody []) : place.next ['\r'] = none := by
  cases place with
  | updateFile moved chunk =>
    have hopen : chunk.any (·.isEndOfFile) = false := by simpa [readsBody, startsBody] using h
    have htrim : trimEnd ['\r'] = [] := by decide
    have hheader : headerPlace [] = none := by decide
    have hmarker : isContextMarker [] = false := by decide
    have hmove : startsWith [] moveToMarker = false := by decide
    have heof : [] ≠ eofMarker := by decide
    simp [next, nextHeader, nextUpdate, htrim, hheader, hmarker, hmove, heof, hopen, startsBody]
  | _ => simp [readsBody] at h

end Place

/-- Is there a line of file content in the text that ends in `\r\r\n`? -/
def hasCrBodyLine (text : Str) : Bool := hasCrBody .notStarted (text.splitOn '\n').dropLast

variable {p : StreamingPatchParser} {place : Place} {line : Str} {p' : StreamingPatchParser}

namespace StreamingPatchParser

/-- The parser at a place that reads the line as file content. -/
lemma at_readsBody (h : p.At place) (hbody : place.readsBody line) :
    (∃ path contents text, p.state.mode = .addFile ∧
      p.state.hunks.getLast? = some (.addFile path contents) ∧ line = '+' :: text) ∨
    ∃ n path movePath chunks k text, p.state.mode = .updateFile n ∧
      p.state.hunks.getLast? = some (.updateFile path movePath chunks) ∧
      chunks.getLast?.any (·.isEndOfFile) = false ∧ IsBodyLine line k text := by
  cases place with
  | addFile =>
    left
    obtain ⟨hmode, path, contents, hlast⟩ := h
    cases line with
    | nil => simp [readsBody] at hbody
    | cons c text =>
      obtain rfl : c = '+' := by simpa [readsBody] using hbody
      exact ⟨path, contents, text, hmode, hlast, rfl⟩
  | updateFile moved chunk =>
    right
    obtain ⟨n, path, movePath, chunks, hmode, hlast, -, rfl⟩ := h
    rw [readsBody, Bool.and_eq_true, Bool.not_eq_true'] at hbody
    obtain ⟨k, text, hb⟩ := isBodyLine_of_startsBody hbody.2
    refine ⟨n, path, movePath, chunks, k, text, hmode, hlast, ?_, hb⟩
    rw [← hbody.1]
    cases chunks.getLast? <;> rfl
  | _ => simp [readsBody] at hbody

/-- **A `\r` behind a marker is nothing.**  Before the last branch only `trimEnd line` is looked at,
and the last branch takes no line that does not start like a body line. -/
theorem processUpdateLine_concat_cr {movePath chunks path}
    (hline : (!chunks.getLast?.any (·.isEndOfFile) && startsBody line) = false) :
    p.processUpdateLine (line ++ ['\r']) path movePath chunks = .ok p' ↔
      p.processUpdateLine line path movePath chunks = .ok p' := by
  simp only [processUpdateLine, trimEnd_concat_cr]
  split
  · rfl
  split
  · simp
  rename_i heof
  split
  · rfl
  split
  · simp
  split
  · rfl
  rename_i hat
  split
  · rfl
  rename_i _ hctx
  split
  · split
    · simp
    · rfl
  have hopen : chunks.getLast?.any (·.isEndOfFile) = false := by
    rw [isContextMarker_eq_false hat hctx] at heof
    simpa using heof
  rw [hopen] at hline
  cases line with
  | nil => cases hline
  | cons c text =>
    simp only [startsBody, Bool.not_false, Bool.true_and, Bool.or_eq_false_iff,
      decide_eq_false_iff_not] at hline
    split <;> split <;> simp_all

/-- **Outside file content a trailing `\r` changes nothing.** -/
theorem processLine_concat_cr (h : p.At place) (hbody : place.readsBody line = false) :
    p.processLine (line ++ ['\r']) = .ok p' ↔ p.processLine line = .ok p' := by
  cases place with
  | notStarted | startedPatch | deleteFile | endedPatch =>
    simp only [processLine, h.1, trim_concat_cr]
  | addFile =>
    obtain ⟨hmode, path, contents, hlast⟩ := h
    simp only [processLine, hmode, trim_concat_cr]
    obtain e | (_ | q) := p.handleHunkHeadersAndEndPatch (trim line)
    · rfl
    · -- a line that got here starts with no `+`, so both lines are refused
      simp only [bind, Except.bind]
      cases line with
      | nil => simp
      | cons c text =>
        have hc : c ≠ '+' := by simpa [readsBody] using hbody
        split <;> split <;> simp_all
    · rfl
  | updateFile moved chunk =>
    obtain ⟨n, path, movePath, chunks, hmode, hlast, -, rfl⟩ := h
    simp only [processLine, hmode, hlast, trimEnd_concat_cr]
    obtain e | (_ | q) := p.handleHunkHeadersAndEndPatch (trimEnd line)
    · rfl
    · refine processUpdateLine_concat_cr ?_
      rw [← hbody, readsBody]
      cases chunks.getLast? <;> rfl
    · rfl

/-- A line of an added file goes to its contents. -/
lemma processLine_addFile {contents text} (hm : p.state.mode = .addFile)
    (hlast : p.state.hunks.getLast? = some (.addFile path contents)) :
    p.processLine ('+' :: text) =
      .ok (p.setLastHunk (.addFile path (contents ++ text ++ ['\n']))) := by
  have hhead : (trim ('+' :: text)).head? ≠ some '*' := by
    rw [trim_cons_of_not (by decide)]; simp
  simp [processLine, hm, handle_of_head p hhead, hlast, bind, Except.bind, pure, Except.pure]

/-- A body line of a chunk goes to the chunk. -/
lemma processLine_updateFile {n text k} (hm : p.state.mode = .updateFile n)
    (hlast : p.state.hunks.getLast? = some (.updateFile path movePath chunks))
    (heof : chunks.getLast?.any (·.isEndOfFile) = false) (hb : IsBodyLine line k text) :
    p.processLine line =
      .ok (p.setLastHunk (.updateFile path movePath (onLastChunk chunks (k.push text)))) := by
  have hhead := head?_trimEnd_bodyLine hb (.inl rfl)
  simp only [processLine, hm, handle_of_head p hhead, hlast, bind, Except.bind]
  exact processUpdateLine_body hb p path movePath heof

end StreamingPatchParser

/-! ## Counting carriage returns -/

/-- The number of `\r` in the lines of the chunk. -/
def UpdateFileChunk.crCount (c : UpdateFileChunk) : ℕ :=
  (c.oldLines.map (·.count '\r')).sum + (c.newLines.map (·.count '\r')).sum

/-- The carriage returns in a hunk. -/
def Hunk.crCount : Hunk → ℕ
  | .addFile _ contents => contents.count '\r'
  | .deleteFile _ => 0
  | .updateFile _ _ chunks => (chunks.map (·.crCount)).sum

/-- How often the text of a body line is kept: a context line is on both sides. -/
def LineKind.copies : LineKind → ℕ
  | .context => 2
  | .add => 1
  | .remove => 1

lemma UpdateFileChunk.crCount_push (c : UpdateFileChunk) (k : LineKind) (text : Str) :
    (k.push text c).crCount = c.crCount + k.copies * text.count '\r' := by
  cases k <;> simp [LineKind.push, pushContextLine, crCount, LineKind.copies] <;> omega

variable {last : Str}

namespace StreamingPatchParser

/-- The number of `\r` in the file content the parser has read. -/
def crCount (p : StreamingPatchParser) : ℕ := (p.state.hunks.map (·.crCount)).sum

lemma crCount_openHunk (p : StreamingPatchParser) (h : Hunk) (m : StreamingParserMode) :
    (p.openHunk h m).crCount = p.crCount + h.crCount := by
  simp [openHunk, crCount]

/-- Changing the last hunk changes the count by what the hunk changes. -/
lemma crCount_setLastHunk {h h' n} (hlast : p.state.hunks.getLast? = some h)
    (hcount : h'.crCount = h.crCount + n) :
    (p.setLastHunk h').crCount = p.crCount + n := by
  obtain ⟨hs, hhs⟩ := getLast?_eq_some_iff.mp hlast
  simp [setLastHunk, crCount, hhs, hcount, add_assoc]

lemma crCount_onLastChunk (chunks : List UpdateFileChunk) (k : LineKind) (text : Str) :
    ((onLastChunk chunks (k.push text)).map (·.crCount)).sum =
      (chunks.map (·.crCount)).sum + k.copies * text.count '\r' := by
  obtain rfl | ⟨cs, c, rfl⟩ := eq_nil_or_concat chunks
  · have hempty : ({} : UpdateFileChunk).crCount = 0 := rfl
    simp [onLastChunk, UpdateFileChunk.crCount_push, hempty]
  · simp [onLastChunk, UpdateFileChunk.crCount_push, add_assoc]

lemma handle_crCount {t} (h : p.handleHunkHeadersAndEndPatch t = .ok (some p')) :
    p'.crCount = p.crCount := by
  obtain ⟨i, -, -, -, -, rfl⟩ | ⟨-, ⟨-, rfl⟩ | ⟨_, -, rfl⟩ | ⟨_, -, rfl⟩ | ⟨_, -, rfl⟩⟩ :=
    handle_cases h
  · rfl
  · rfl
  all_goals rw [crCount_openHunk]; rfl

/-- A line that is not file content adds no `\r`. -/
lemma processLine_crCount (hat : p.At place) (hbody : place.readsBody line = false)
    (h : p.processLine line = .ok p') :
    p'.crCount = p.crCount := by
  obtain ⟨-, -, rfl⟩ | ⟨-, hh⟩ | ⟨text, path, contents, hm, -, rfl, hlast, -⟩ | ⟨_, -, hh⟩ |
    ⟨n, path, movePath, chunks, hm, -, hlast, hu⟩ | ⟨-, -, rfl⟩ := processLine_cases h
  · rfl
  · exact handle_crCount hh
  · cases place with
    | addFile => simp [readsBody] at hbody
    | updateFile moved chunk => obtain ⟨n, _, _, _, hm', -⟩ := hat; cases hm.symm.trans hm'
    | _ => cases hm.symm.trans hat.1
  · exact handle_crCount hh
  · obtain ⟨-, -, rfl⟩ | ⟨_, -, -, -, rfl⟩ | ⟨header, -, -, rfl⟩ | ⟨-, -, -, rfl⟩ |
      ⟨k, text, heof, hb, rfl⟩ := processUpdateLine_cases hu
    · rfl
    · exact crCount_setLastHunk (n := 0) hlast rfl
    · exact crCount_setLastHunk (n := 0) hlast (by simp [Hunk.crCount, UpdateFileChunk.crCount])
    · refine crCount_setLastHunk (n := 0) hlast ?_
      obtain rfl | ⟨cs, c, rfl⟩ := eq_nil_or_concat chunks
      · rfl
      · simp [Hunk.crCount, modifyLast_concat, UpdateFileChunk.crCount]
    · -- a body line of the chunk, at a place that does not read body lines
      exfalso
      cases place with
      | updateFile moved chunk =>
        obtain ⟨_, _, _, _, -, hlast', -, rfl⟩ := hat
        cases hlast.symm.trans hlast'
        have hstart : startsBody line := by
          obtain rfl | ⟨rfl, -, -⟩ := hb
          · cases k <;> rfl
          · rfl
        rw [readsBody, hstart, Bool.and_true, Bool.not_eq_false'] at hbody
        cases hc : chunks.getLast? <;> simp_all
      | _ => cases hm.symm.trans hat.1
  · rfl

/-- What a body line adds to the count. -/
def bodyCrCount (line : Str) : ℕ := (if line.head? = some ' ' then 2 else 1) * line.count '\r'

lemma bodyCrCount_of_isBodyLine {text k} (hb : IsBodyLine line k text) :
    bodyCrCount line = k.copies * text.count '\r' := by
  obtain rfl | ⟨rfl, rfl, rfl⟩ := hb
  · cases k <;> simp [bodyCrCount, LineKind.mark, LineKind.copies]
  · rfl

lemma bodyCrCount_concat_cr (line : Str) : bodyCrCount line < bodyCrCount (line ++ ['\r']) := by
  cases line with
  | nil => decide
  | cons c line =>
    simp only [bodyCrCount, cons_append, head?_cons]
    rw [← cons_append, count_append]
    by_cases hc : c = ' ' <;> simp [hc]

/-- A line of file content is accepted, and its `\r` are counted. -/
lemma processLine_of_readsBody (h : p.At place) (hbody : place.readsBody line) :
    ∃ p', p.processLine line = .ok p' ∧ p'.crCount = p.crCount + bodyCrCount line := by
  obtain ⟨path, contents, text, hm, hlast, rfl⟩ | ⟨n, path, movePath, chunks, k, text, hm, hlast,
    heof, hb⟩ := at_readsBody h hbody
  · refine ⟨_, processLine_addFile hm hlast, crCount_setLastHunk hlast ?_⟩
    simp [Hunk.crCount, bodyCrCount]
  · refine ⟨_, processLine_updateFile hm hlast heof hb, crCount_setLastHunk hlast ?_⟩
    rw [Hunk.crCount, crCount_onLastChunk, bodyCrCount_of_isBodyLine hb]
    rfl

/-! ## The two runs side by side -/

variable {q : StreamingPatchParser}

/-- **The same line in two parsers at one place**: they are at one place afterwards, and their
counts are as far apart as before. -/
theorem processLine_same (hp : p.At place) (hq : q.At place) (h : p.processLine line = .ok p') :
    ∃ q' place', place.next line = some place' ∧ q.processLine line = .ok q' ∧ p'.At place' ∧
      q'.At place' ∧ q'.crCount + p.crCount = p'.crCount + q.crCount := by
  obtain ⟨place', hnext, hpat⟩ := (processLine_next hp line).of_ok h
  have hqf := processLine_next hq line
  rw [hnext] at hqf
  obtain ⟨q', hq', hqat⟩ := hqf
  refine ⟨q', place', hnext, hq', hpat, hqat, ?_⟩
  cases hbody : place.readsBody line with
  | false => rw [processLine_crCount hp hbody h, processLine_crCount hq hbody hq']; omega
  | true =>
    obtain ⟨p₂, hp₂, hpc⟩ := processLine_of_readsBody hp hbody
    obtain ⟨q₂, hq₂, hqc⟩ := processLine_of_readsBody hq hbody
    cases h.symm.trans hp₂
    cases hq'.symm.trans hq₂
    omega

/-- A `\r` behind a line of file content goes into the content. -/
lemma processLine_body_cr (hat : p.At place) (hbody : place.readsBody line)
    (h : p.processLine (line ++ ['\r']) = .ok p') :
    ∃ p'' place', place.next line = some place' ∧ p.processLine line = .ok p'' ∧ p'.At place' ∧
      p''.At place' ∧ p''.crCount < p'.crCount := by
  obtain ⟨place', hnext, hat'⟩ := (processLine_next hat (line ++ ['\r'])).of_ok h
  have hne : line ≠ [] := by
    rintro rfl
    rw [nil_append, next_cr hbody] at hnext
    cases hnext
  rw [next_concat_cr place (.inr hne)] at hnext
  have hbody' : place.readsBody (line ++ ['\r']) := by
    obtain ⟨c, line, rfl⟩ := exists_cons_of_ne_nil hne
    cases place <;> exact hbody
  obtain ⟨p₁, hp₁, hc₁⟩ := processLine_of_readsBody hat hbody
  obtain ⟨p₂, hp₂, hc₂⟩ := processLine_of_readsBody hat hbody'
  cases h.symm.trans hp₂
  obtain ⟨place₁, hnext₁, hat₁⟩ := (processLine_next hat line).of_ok hp₁
  cases hnext.symm.trans hnext₁
  refine ⟨p₁, place', hnext, hp₁, hat', hat₁, ?_⟩
  have hlt := bodyCrCount_concat_cr line
  omega

/-- **One segment in the two runs.**  The preview feeds `l`, and `parsePatch` feeds it without one
`\r`.  If the preview accepts it, so does `parsePatch`; the texts may differ, and do if a `\r` was
left at the end of file content. -/
theorem feedLine_sim {l} (hp : p.At place) (hq : q.At place) (h : p.feedLine l = .ok p') :
    ∃ q' place', place.next (stripCr (stripCr l)) = some place' ∧
      q.feedLine (stripCr l) = .ok q' ∧ p'.At place' ∧ q'.At place' ∧
      q'.crCount + p.crCount + (place.crBody l).toNat ≤ p'.crCount + q.crCount := by
  have hp' := at_takeLine hp
  have hq' := at_takeLine hq
  rw [feedLine] at h
  obtain hcr | hcr := stripCr_cases (stripCr l)
  · -- no second `\r`: both runs see the same line
    obtain ⟨q', place', hnext, hl, hpat, hqat, hc⟩ := processLine_same hp' hq' h
    have hend : place.crBody l = false := by simp [crBody, getLast?_ne_of_stripCr_eq hcr]
    refine ⟨q', place', by rw [hcr]; exact hnext, by rw [feedLine, hcr]; exact hl, hpat, hqat, ?_⟩
    rw [hend]
    exact hc.le
  · rw [hcr] at h
    cases hbody : place.readsBody (stripCr (stripCr l)) with
    | false =>
      rw [processLine_concat_cr hp' hbody] at h
      obtain ⟨q', place', hnext, hl, hpat, hqat, hc⟩ := processLine_same hp' hq' h
      have hend : place.crBody l = false := by rw [crBody, hbody, Bool.false_and]
      refine ⟨q', place', hnext, hl, hpat, hqat, ?_⟩
      rw [hend]
      exact hc.le
    | true =>
      obtain ⟨p₁, place', hnext, hp₁, hat', hat₁, hlt⟩ := processLine_body_cr hp' hbody h
      obtain ⟨q', place'', hnext', hl, -, hqat, hc⟩ := processLine_same hp' hq' hp₁
      cases hnext.symm.trans hnext'
      refine ⟨q', place', hnext, hl, hat', hqat, ?_⟩
      have hc' : q'.crCount + p.crCount = p₁.crCount + q.crCount := hc
      have hle := Bool.toNat_le (place.crBody l)
      omega

/-- **The two runs over the segments of a text.** -/
theorem feedLines_sim (hp : p.At place) (hq : q.At place) (h : p.feedLines ls = .ok p') :
    ∃ q' place', q.feedLines (ls.map stripCr) = .ok q' ∧ p'.At place' ∧ q'.At place' ∧
      q'.crCount + p.crCount + (place.hasCrBody ls).toNat ≤ p'.crCount + q.crCount := by
  induction ls generalizing p q place with
  | nil =>
    cases h
    exact ⟨q, place, rfl, hp, hq, by simp [hasCrBody, add_comm]⟩
  | cons l ls ih =>
    rw [feedLines_cons] at h
    cases hl : p.feedLine l with
    | error e => rw [hl] at h; cases h
    | ok p₁ =>
      rw [hl] at h
      obtain ⟨q₁, place₁, hnext, hq₁, hpat, hqat, hc₁⟩ := feedLine_sim hp hq hl
      obtain ⟨q', place', hq', hpat', hqat', hc'⟩ := ih hpat hqat h
      refine ⟨q', place', by rw [map_cons, feedLines_cons, hq₁]; exact hq', hpat', hqat', ?_⟩
      have hor : ∀ a b : Bool, (a || b).toNat ≤ a.toNat + b.toNat := by decide
      have hor' := hor (place.crBody l) (place₁.hasCrBody ls)
      rw [hasCrBody, hnext]
      dsimp only
      omega

/-- Without such a line the two runs are one. -/
lemma feedLines_of_not_hasCrBody {ls} (hat : p.At place) (hcr : place.hasCrBody ls = false)
    (h : p.feedLines (ls.map stripCr) = .ok p') :
    p.feedLines ls = .ok p' := by
  induction ls generalizing p place with
  | nil => exact h
  | cons l ls ih =>
    rw [map_cons, feedLines_cons] at h
    cases hl : p.feedLine (stripCr l) with
    | error e => rw [hl] at h; cases h
    | ok p₁ =>
      rw [hl] at h
      obtain ⟨place₁, hnext, hat₁⟩ := (processLine_next (at_takeLine hat) _).of_ok hl
      rw [hasCrBody, hnext, Bool.or_eq_false_iff] at hcr
      have hl' : p.feedLine l = .ok p₁ := by
        obtain heq | heq := stripCr_cases (stripCr l)
        · rwa [feedLine, heq] at hl
        · have hbody : place.readsBody (stripCr (stripCr l)) = false := by
            have h1 := hcr.1
            rw [crBody, heq] at h1
            simpa using h1
          rw [feedLine, heq]
          exact (processLine_concat_cr (at_takeLine hat) hbody).mpr hl
      rw [feedLines_cons, hl']
      exact ih hat₁ hcr.2 h

/-! ## Whole texts -/

/-- **The two runs on a whole text that ends in `*** End Patch`.** -/
theorem runLines_sim (hend : trim last = endPatchMarker) (h : runLines ls last = .ok p) :
    ∃ q, runLines (ls.map stripCr) last = .ok q ∧
      (p.state.hunks = q.state.hunks → hasCrBody .notStarted ls = false) := by
  rw [runLines] at h
  cases hp : feedLines {} ls with
  | error e => rw [hp] at h; cases h
  | ok p₁ =>
    obtain ⟨q₁, place, hq₁, hpat, hqat, hc⟩ := feedLines_sim at_initial at_initial hp
    rw [hp] at h
    change p₁.finishWith last = _ at h
    have hcomplete := (finishWith_isOk_iff hpat hend).mp ⟨p, h⟩
    obtain ⟨q, hq⟩ := (finishWith_isOk_iff hqat hend).mpr hcomplete
    refine ⟨q, by rw [runLines, hq₁]; exact hq, fun hhunks => ?_⟩
    -- the last line adds nothing, so the counts were equal before it
    have hcount : p₁.crCount = q₁.crCount := by
      rw [crCount, crCount, ← finishWith_hunks hend h, ← finishWith_hunks hend hq, hhunks]
    cases hb : hasCrBody .notStarted ls with
    | false => rfl
    | true => rw [hb, hcount, Bool.toNat_true] at hc; omega

lemma runLines_of_not_hasCrBody {ls} (hcr : hasCrBody .notStarted ls = false)
    (h : runLines (ls.map stripCr) last = .ok p) : runLines ls last = .ok p := by
  rw [runLines] at h ⊢
  cases hq : feedLines {} (ls.map stripCr) with
  | error e => rw [hq] at h; cases h
  | ok q =>
    rw [hq] at h
    rw [feedLines_of_not_hasCrBody at_initial hcr hq]
    exact h

end StreamingPatchParser

/-- **The preview agrees with the final parser on a text**, wherever the text is cut: it succeeds
exactly when `parsePatch` accepts the text as it stands, with the same hunks and environment id; and
where it fails, so does `parsePatch`, unless it had a heredoc to take off. -/
structure PreviewAgrees (patch : Str) : Prop where
  ok_iff : ∀ deltas : List Str, deltas.flatten = patch → ∀ hunks environmentId,
    streamPatch deltas = .ok (hunks, environmentId) ↔
      ∃ args, IsPlain patch ∧ parsePatch patch = .ok args ∧ args.hunks = hunks ∧
        args.environmentId = environmentId
  error : ∀ deltas : List Str, deltas.flatten = patch → ∀ e, streamPatch deltas = .error e →
    IsPlain patch → ∃ e', parsePatch patch = .error e'

section

/-- **A preview that succeeds** is one of a text that is read as it stands, or of a lone
`*** End Patch`. -/
theorem plain_of_runLines {ls patch} (htrim : trim patch = patch)
    (htext : patch = joinLines (ls ++ [last]))
    (hnt : NoTrailing last) (hnil : last = [] → ls = []) {p}
    (h : runLines ls last = .ok p) : patch = endPatchMarker ∨
      ∃ l rest, ls = l :: rest ∧ trim l = beginPatchMarker ∧ trim last = endPatchMarker := by
  rw [runLines] at h
  cases hf : feedLines {} ls with
  | error e => rw [hf] at h; cases h
  | ok q =>
    rw [hf] at h
    by_cases hne : last = []
    · obtain rfl := hnil hne
      cases hf
      rw [hne] at h
      cases h
    have hend := trim_last_of_finishWith hnt hne h
    cases ls with
    | nil =>
      left
      rw [← htrim, htext, nil_append, joinLines_singleton]
      exact hend
    | cons l rest => exact .inr ⟨l, rest, rfl, trim_first_of_feedLines hf, hend⟩

end

/-- **When the preview agrees with the final parser**: unless the text is a lone `*** End Patch`,
or a patch with a line of file content that ends in `\r\r\n`. -/
theorem previewAgrees_iff {patch : Str} (htrim : trim patch = patch) : PreviewAgrees patch ↔
      patch ≠ endPatchMarker ∧ ¬ (isPatch patch ∧ hasCrBodyLine patch) := by
  obtain ⟨ls, last, hsplit, htext, hls, hlast⟩ := exists_segments patch
  have hcr : hasCrBodyLine patch = hasCrBody .notStarted ls := by
    simp [hasCrBodyLine, hsplit]
  have hstream : ∀ deltas : List Str, deltas.flatten = patch → streamPatch deltas =
      (runLines ls last).map fun p => (p.state.hunks, p.state.environmentId) :=
    fun deltas hd => streamPatch_eq_runLines hls hlast (hd.trans htext)
  have hnt : NoTrailing patch := by rw [← htrim]; exact trim_noTrailing patch
  obtain ⟨hnt', hnil⟩ := noTrailing_last (htext ▸ hnt)
  have hplain := isPlain_iff htrim htext hls hlast hnil
  have hparse : IsPlain patch → _ := fun hp => parsePatch_of_isPlain htrim htext hls hlast (by
    obtain ⟨l, rest, -, -, hend⟩ := hplain.mp hp
    rintro rfl
    cases hend) hp
  constructor
  · intro hagree
    refine ⟨?_, ?_⟩
    · rintro rfl
      obtain ⟨args, -, hargs, -⟩ := (hagree.ok_iff [endPatchMarker] rfl [] none).mp (by decide)
      cases hargs
    · rintro ⟨hpatch, hbody⟩
      obtain ⟨hp, args, hargs⟩ := (isPatch_iff htrim).mp hpatch
      obtain ⟨l, rest, -, -, hend⟩ := hplain.mp hp
      have hok := (hagree.ok_iff [patch] (by simp) args.hunks args.environmentId).mpr
        ⟨args, hp, hargs, rfl, rfl⟩
      rw [hstream _ (by simp)] at hok
      cases hrun : runLines ls last with
      | error e => rw [hrun] at hok; cases hok
      | ok p =>
        rw [hrun] at hok
        obtain ⟨q, hq, himp⟩ := runLines_sim hend hrun
        rw [hparse hp, hq] at hargs
        cases hargs
        rw [hcr, himp (congrArg Prod.fst (Except.ok.inj hok))] at hbody
        cases hbody
  · rintro ⟨hne, hcrFree⟩
    -- an accepted text has no offending line, so there the two runs are one
    have hsame : ∀ {args}, IsPlain patch → parsePatch patch = .ok args →
        ∃ p, runLines ls last = .ok p ∧ args.hunks = p.state.hunks ∧
          args.environmentId = p.state.environmentId := by
      intro args hp hargs
      have hfree : hasCrBodyLine patch = false := by
        simpa [(isPatch_iff htrim).mpr ⟨hp, args, hargs⟩] using hcrFree
      rw [hparse hp] at hargs
      cases hq : runLines (ls.map stripCr) last with
      | error e => rw [hq] at hargs; cases hargs
      | ok q =>
        rw [hq] at hargs
        cases hargs
        exact ⟨q, runLines_of_not_hasCrBody (hcr ▸ hfree) hq, rfl, rfl⟩
    have hok : ∀ deltas : List Str, deltas.flatten = patch → ∀ hunks environmentId,
        streamPatch deltas = .ok (hunks, environmentId) ↔
          ∃ args, IsPlain patch ∧ parsePatch patch = .ok args ∧ args.hunks = hunks ∧
            args.environmentId = environmentId := by
      intro deltas hd hunks environmentId
      rw [hstream deltas hd]
      constructor
      · intro h
        cases hrun : runLines ls last with
        | error e => rw [hrun] at h; cases h
        | ok p =>
          have hp : IsPlain patch :=
            hplain.mpr ((plain_of_runLines htrim htext hnt' hnil hrun).resolve_left hne)
          obtain ⟨_, _, -, -, hend⟩ := hplain.mp hp
          obtain ⟨q, hq, -⟩ := runLines_sim hend hrun
          have hargs := hparse hp
          rw [hq] at hargs
          obtain ⟨p', hp', hh, he⟩ := hsame hp hargs
          cases hrun.symm.trans hp'
          rw [hrun] at h
          cases h
          exact ⟨_, hp, hargs, hh, he⟩
      · rintro ⟨args, hp, hargs, rfl, rfl⟩
        obtain ⟨p, hrun, hh, he⟩ := hsame hp hargs
        rw [hrun, hh, he]
        rfl
    refine ⟨hok, fun deltas hd e he hp => ?_⟩
    cases hargs : parsePatch patch with
    | error e' => exact ⟨e', rfl⟩
    | ok args =>
      have hstr := (hok deltas hd _ _).mpr ⟨args, hp, hargs, rfl, rfl⟩
      cases he.symm.trans hstr

/-- A patch with line ends `\r\n` throughout. -/
def crlfPatch : Str :=
  "*** Begin Patch\r\n*** Add File: a\r\n+x\r\n*** End Patch"

/-- One `\r` too many at the end of the content line. -/
def crcrlfPatch : Str :=
  "*** Begin Patch\r\n*** Add File: a\r\n+x\r\r\n*** End Patch"

/-- `\r\n` line ends alone do not make a difference. -/
theorem previewAgrees_crlfPatch : trim crlfPatch = crlfPatch ∧ PreviewAgrees crlfPatch :=
  ⟨by decide, (previewAgrees_iff (by decide)).mpr ⟨by decide, by decide⟩⟩

/-- **The two ways to disagree.**  A lone `*** End Patch` is an empty patch in the preview and an
error for `parsePatch`; and of `\r\r\n` the preview leaves one `\r` in the file. -/
theorem preview_disagrees : (streamPatch [endPatchMarker] = .ok ([], none) ∧
      parsePatch endPatchMarker = .error (.invalidPatchError firstLineMessage) ∧
      ¬ PreviewAgrees endPatchMarker) ∧
    (streamPatch [crcrlfPatch] = .ok ([.addFile ['a'] ['x', '\r', '\n']], none) ∧
      (parsePatch crcrlfPatch).map (·.hunks) = .ok [.addFile ['a'] ['x', '\n']] ∧
      ¬ PreviewAgrees crcrlfPatch) := by
  refine ⟨⟨by decide, by decide, fun h => ?_⟩, ⟨by decide, by decide, fun h => ?_⟩⟩
  · obtain ⟨args, -, hargs, -⟩ := (h.ok_iff [endPatchMarker] rfl [] none).mp (by decide)
    cases hargs
  · obtain ⟨args, -, hargs, hhunks, -⟩ :=
      (h.ok_iff [crcrlfPatch] (by decide) [.addFile ['a'] ['x', '\r', '\n']] none).mp (by decide)
    have hparse : (parsePatch crcrlfPatch).map (·.hunks) = .ok [.addFile ['a'] ['x', '\n']] := by
      decide
    rw [hargs, Except.map, hhunks] at hparse
    exact absurd (Except.ok.inj hparse) (by decide)

end ApplyPatch
