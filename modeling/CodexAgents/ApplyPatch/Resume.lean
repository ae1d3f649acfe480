import CodexAgents.ApplyPatch.Grammar

/-!
# A preview that goes on after an error

The consumer of a patch that is still coming in does not look at the errors of the pieces and goes
on feeding.  A line that fails is dropped, with the rest of its piece, and the parser stays where it
was: nothing of the error is left.  A `Draft` is what the grammar has to know for this: the place to
which the accepted lines lead, the line that has begun, and whether a line was dropped.

* `drafts_callAll` — the parser is where the draft is, and a piece has failed if the draft says so.
* `errors_sticky_iff` — after an error, every end of the text is an error just if the grammar lets
  the text end at none of them.
-/

namespace ApplyPatch

open Text StreamingPatchParser List

/-! ## Going on -/

/-- What a consumer calls. -/
inductive Call where
  | pushDelta (delta : Str)
  | finish

/-- A call, by a consumer that only remembers whether a piece has failed. -/
def StreamingPatchParser.call (s : StreamingPatchParser × Bool) : Call → StreamingPatchParser × Bool
  | .pushDelta delta => ((s.1.pushDelta delta).1, s.2 || !(s.1.pushDelta delta).2.isOk)
  | .finish => (s.1.finish.1, s.2)

/-- All calls on a new parser. -/
def StreamingPatchParser.callAll (calls : List Call) : StreamingPatchParser × Bool :=
  calls.foldl call ({}, false)

/-- The place after a last line without an end.  There, `*** End Patch` is no line of a file. -/
def Place.last (place : Place) (line : Str) : Option Place :=
  if trim line = endPatchMarker then if place.complete then some .endedPatch else none
  else place.next line

/-- Where the accepted lines lead, the line that has begun, and whether a line was dropped. -/
structure Draft where
  place : Place := .notStarted
  buffer : Str := []
  failed : Bool := false

namespace Draft

/-- A line that may not stand here is dropped, with the rest of the piece. -/
def pushDelta (s : Draft) : Str → Draft
  | [] => s
  | ch :: rest =>
    if ch = '\n' then
      match s.place.next (stripCr s.buffer) with
      | some place => pushDelta { s with place, buffer := [] } rest
      | none => { s with buffer := [], failed := true }
    else pushDelta { s with buffer := s.buffer ++ [ch] } rest

/-- The place at the end of the text, if the line that has begun may stand here. -/
def reached (s : Draft) : Option Place :=
  if s.buffer = [] then some s.place else s.place.last s.buffer

/-- The text may end here. -/
def Ends (s : Draft) : Prop := s.reached = some .endedPatch

/-- A call.  The end of the text reads the line that has begun, or drops it. -/
def call (s : Draft) : Call → Draft
  | .pushDelta delta => s.pushDelta delta
  | .finish => { s with place := s.reached.getD s.place, buffer := [] }

/-- All calls. -/
def callAll (calls : List Call) : Draft := calls.foldl call {}

end Draft

/-! ## The parser and the draft -/

/-- The parser is at the place, has the line that has begun, and has failed as the draft says. -/
structure Drafts (s : Draft) (p : StreamingPatchParser × Bool) : Prop where
  at_place : p.1.At s.place
  buffer : p.1.lineBuffer = s.buffer
  failed : p.2 = s.failed

variable {p : StreamingPatchParser} {s : Draft}

lemma at_lineBuffer {place : Place} (h : p.At place) (buffer : Str) :
    StreamingPatchParser.At { p with lineBuffer := buffer } place := by
  rcases place <;> exact h

/-- **The parser follows the draft through a piece**, whether or not the piece fails. -/
theorem Drafts.pushDelta {failed} (h : Drafts s (p, failed)) (d : Str) :
    Drafts (s.pushDelta d) ((p.pushDelta d).1, failed || !(p.pushDelta d).2.isOk) := by
  induction d generalizing s p with
  | nil =>
    refine ⟨h.at_place, h.buffer, ?_⟩
    exact (Bool.or_false failed).trans h.failed
  | cons ch rest ih =>
    rw [Draft.pushDelta, StreamingPatchParser.pushDelta]
    split
    · have hnext := processLine_next (at_takeLine h.at_place) (stripCr s.buffer)
      rw [show p.lineBuffer = s.buffer from h.buffer]
      rcases hplace : s.place.next (stripCr s.buffer) with _ | place
      · rw [hplace] at hnext
        obtain ⟨e, he⟩ := hnext
        rw [he]
        exact ⟨at_takeLine h.at_place, rfl, Bool.or_true failed⟩
      · rw [hplace] at hnext
        obtain ⟨q, hq, hat⟩ := hnext
        rw [hq]
        exact ih ⟨hat, (processLine_keeps hq).1, h.failed⟩
    · exact ih ⟨at_lineBuffer h.at_place _, congrArg (· ++ [ch]) h.buffer, h.failed⟩

/-- The end of the text is an error if the line that has begun may not stand here; otherwise it asks
for the mode. -/
lemma finish_of_at (h : p.At s.place) (hbuffer : p.lineBuffer = s.buffer) : match s.reached with
    | some place => ∃ q : StreamingPatchParser, q.At place ∧ q.lineBuffer = [] ∧
        p.finish = if q.state.mode = .endedPatch then (q, .ok q.state.hunks)
          else (q, .error (.invalidPatchError lastLineMessage))
    | none => ∃ e, p.finish = (p.takeLine, .error e) := by
  rw [Draft.reached, Place.last, finish, hbuffer]
  dsimp only
  by_cases hnil : s.buffer = []
  · rw [if_pos hnil, if_pos hnil]
    exact ⟨p, h, hbuffer.trans hnil, rfl⟩
  rw [if_neg hnil, if_neg hnil]
  by_cases hend : trim s.buffer = endPatchMarker
  · have hens := ensure_of_at (at_takeLine h) (trim s.buffer)
    rw [if_pos hend, if_pos hend]
    by_cases hcomplete : s.place.complete
    · rw [if_pos hcomplete] at hens ⊢
      rw [hens]
      exact ⟨_, at_endedPatch (at_takeLine h) hcomplete, rfl, rfl⟩
    · rw [if_neg hcomplete] at hens ⊢
      obtain ⟨e, he⟩ := hens
      rw [he]
      exact ⟨e, rfl⟩
  · have hnext := processLine_next (at_takeLine h) s.buffer
    rw [if_neg hend, if_neg hend]
    rcases hplace : s.place.next s.buffer with _ | place
    · rw [hplace] at hnext
      obtain ⟨e, he⟩ := hnext
      rw [he]
      exact ⟨e, rfl⟩
    · rw [hplace] at hnext
      obtain ⟨q, hq, hat⟩ := hnext
      rw [hq]
      exact ⟨q, hat, (processLine_keeps hq).1, rfl⟩

lemma mode_eq_endedPatch_iff {place : Place} (h : p.At place) :
    p.state.mode = .endedPatch ↔ place = .endedPatch := by
  obtain _ | _ | _ | _ | ⟨moved, chunk⟩ | _ := place
  case updateFile =>
    obtain ⟨n, _, _, _, hmode, -⟩ := h
    simp only [hmode, reduceCtorEq]
  all_goals simp only [h.1, reduceCtorEq]

/-- **The end of the text** is an error just if the text may not end here, and the parser goes on
where the draft does. -/
theorem Drafts.finish {failed} (h : Drafts s (p, failed)) :
    Drafts (s.call .finish) (p.finish.1, failed) ∧
      ((∃ e, p.finish.2 = .error e) ↔ ¬ s.Ends) := by
  have hfinish := finish_of_at h.at_place h.buffer
  rw [Draft.Ends, Draft.call]
  rcases hreached : s.reached with _ | place
  · rw [hreached] at hfinish
    obtain ⟨e, he⟩ := hfinish
    rw [he]
    exact ⟨⟨at_takeLine h.at_place, rfl, h.failed⟩, iff_of_true ⟨e, rfl⟩ (by simp)⟩
  · rw [hreached] at hfinish
    obtain ⟨q, hat, hbuffer, hq⟩ := hfinish
    rw [hq, Option.some_inj, ← mode_eq_endedPatch_iff hat]
    split_ifs with hmode
    · exact ⟨⟨hat, hbuffer, h.failed⟩, iff_of_false (by simp) (not_not.mpr hmode)⟩
    · exact ⟨⟨hat, hbuffer, h.failed⟩, iff_of_true ⟨_, rfl⟩ hmode⟩

lemma drafts_callAll (calls : List Call) : Drafts (Draft.callAll calls) (callAll calls) := by
  induction calls using reverseRecOn with
  | nil => exact ⟨at_initial, rfl, rfl⟩
  | append_singleton calls call ih =>
    rw [Draft.callAll, callAll, foldl_append, foldl_append]
    obtain delta | _ := call
    · exact ih.pushDelta delta
    · exact ih.finish.1

/-- **An error stays only if the text may not end.**  After an error in one of the pieces, every end
of the text is an error, just if no place where it is called is one where the text may end. -/
theorem errors_sticky_iff (calls : List Call) :
    (∀ before, before ++ [.finish] <+: calls → (callAll before).2 →
        ∃ e, (callAll before).1.finish.2 = .error e) ↔
      ∀ before, before ++ [.finish] <+: calls → (Draft.callAll before).failed →
        ¬ (Draft.callAll before).Ends := by
  refine forall_congr' fun before => imp_congr_right fun _ => ?_
  have hdrafts := drafts_callAll before
  rw [hdrafts.failed]
  exact imp_congr_right fun _ => hdrafts.finish.2

/-- A line before the patch is an error, and is forgotten; so is a line behind it, by a second
end. -/
theorem error_forgotten :
    (callAll [.pushDelta "oops\n", .pushDelta "*** Begin Patch\n*** End Patch"]).2 = true ∧
    (callAll [.pushDelta "oops\n", .pushDelta "*** Begin Patch\n*** End Patch"]).1.finish.2 =
      .ok [] ∧
    (callAll [.pushDelta "oops\n", .pushDelta "*** Begin Patch\n*** End Patch\nfoo",
      .finish]).1.finish.2 = .ok [] := by
  decide +kernel

end ApplyPatch
