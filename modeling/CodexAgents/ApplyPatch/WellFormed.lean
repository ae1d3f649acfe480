import CodexAgents.ApplyPatch.Preserve

/-!
# What a parser holds

A failed line does not end a `StreamingPatchParser`: it can be fed on, and finished.  Whatever was
fed to it, the context lines of a chunk are the same lines on both sides, in the same order, and
the hunks that `finish` returns have no empty chunk (`reachable_well_formed`).
-/

namespace ApplyPatch

open Text StreamingPatchParser List UpdateFileChunk

/-! ## Context lines -/

/-- The context lines stand on both sides, in the same order. -/
structure UpdateFileChunk.Paired (chunk : UpdateFileChunk) : Prop where
  increasing : chunk.contextLineIndices.Pairwise fun i j => i.1 < j.1 ∧ i.2 < j.2
  paired : ∀ i ∈ chunk.contextLineIndices, i.1 < chunk.oldLines.length ∧
    i.2 < chunk.newLines.length ∧ chunk.oldLines[i.1]? = chunk.newLines[i.2]?

lemma UpdateFileChunk.Paired.push {chunk} (h : chunk.Paired) (k : LineKind)
    (text : Str) : (k.push text chunk).Paired := by
  have hkeep : ∀ old new, ∀ i ∈ chunk.contextLineIndices,
      i.1 < (chunk.oldLines ++ old).length ∧ i.2 < (chunk.newLines ++ new).length ∧
        (chunk.oldLines ++ old)[i.1]? = (chunk.newLines ++ new)[i.2]? := by
    intro old new i hi
    obtain ⟨hold, hnew, heq⟩ := h.paired i hi
    rw [getElem?_append_left hold, getElem?_append_left hnew, length_append, length_append]
    exact ⟨by omega, by omega, heq⟩
  cases k with
  | context =>
    constructor
    · refine pairwise_append.mpr ⟨h.increasing, pairwise_singleton _ _, fun i hi j hj => ?_⟩
      obtain ⟨hold, hnew, -⟩ := h.paired i hi
      rw [mem_singleton.mp hj]
      exact ⟨hold, hnew⟩
    · refine forall_mem_append.mpr ⟨hkeep [text] [text], forall_mem_singleton.mpr ?_⟩
      simp [LineKind.push, pushContextLine]
  | add => exact ⟨h.increasing, by simpa [LineKind.push] using hkeep [] [text]⟩
  | remove => exact ⟨h.increasing, by simpa [LineKind.push] using hkeep [text] []⟩

lemma WrittenChunk.paired (w : WrittenChunk) : w.toChunk.Paired := by
  have hfold := w.body.foldl_push { changeContext := w.header, isEndOfFile := w.endOfFile }
  have hnil : Paired { changeContext := w.header, isEndOfFile := w.endOfFile } :=
    ⟨Pairwise.nil, by simp⟩
  have hpaired := foldlRecOn w.body (fun c l => l.1.push l.2 c) hnil fun c hc l _ => hc.push l.1 l.2
  rw [hfold] at hpaired
  exact hpaired

/-! ## Empty chunks -/

namespace Hunk

/-- Of the chunks only the last can be empty. -/
def Open : Hunk → Prop
  | .updateFile _ _ chunks => ∀ c ∈ chunks.dropLast, c.isEmpty = false
  | _ => True

/-- The hunk may be left: if it is an update, it has a chunk and no chunk is empty. -/
def Complete : Hunk → Prop
  | .updateFile _ _ chunks => chunks ≠ [] ∧ ∀ c ∈ chunks, c.isEmpty = false
  | _ => True

lemma Complete.isOpen {hunk : Hunk} (h : hunk.Complete) : hunk.Open := by
  cases hunk with
  | updateFile path movePath chunks => exact fun c hc => h.2 c (dropLast_subset chunks hc)
  | addFile | deleteFile => exact trivial

end Hunk

/-- Of the hunks only the last can be incomplete, and only in the mode for updates. -/
structure StreamingParserState.Filled (s : StreamingParserState) : Prop where
  before : ∀ hunk ∈ s.hunks.dropLast, hunk.Complete
  last : ∀ hunk, s.hunks.getLast? = some hunk →
    hunk.Open ∧ (hunk.Complete ∨ ∃ n, s.mode = .updateFile n)

namespace StreamingParserState

variable {s : StreamingParserState}

lemma Filled.of_complete (h : ∀ hunk ∈ s.hunks, hunk.Complete) : s.Filled := by
  refine ⟨fun hunk hmem => h hunk (dropLast_subset _ hmem), fun hunk hlast => ?_⟩
  have hcomplete := h hunk (mem_of_getLast? hlast)
  exact ⟨hcomplete.isOpen, .inl hcomplete⟩

lemma Filled.concat {hunks hunk} (hhunks : s.hunks = hunks ++ [hunk])
    (h : ∀ hunk ∈ hunks, hunk.Complete) (hopen : hunk.Open)
    (hlast : hunk.Complete ∨ ∃ n, s.mode = .updateFile n) : s.Filled := by
  constructor
  · rw [hhunks, dropLast_concat]
    exact h
  · rw [hhunks, getLast?_concat]
    rintro _ ⟨⟩
    exact ⟨hopen, hlast⟩

end StreamingParserState

lemma mem_dropLast_or {α : Type} {a} {l : List α} (h : a ∈ l) :
    a ∈ l.dropLast ∨ l.getLast? = some a := by
  obtain rfl | ⟨init, last, rfl⟩ := eq_nil_or_concat l
  · cases h
  · simpa [eq_comm] using h

namespace StreamingPatchParser

variable {p p' : StreamingPatchParser} {line : Str}

section

variable (h : p.state.Filled)
include h

lemma complete_of_last (hlast : ∀ hunk, p.state.hunks.getLast? = some hunk → hunk.Complete) :
    ∀ hunk ∈ p.state.hunks, hunk.Complete :=
  fun hunk hmem => (mem_dropLast_or hmem).elim (h.before hunk) (hlast hunk)

lemma complete_of_mode (hmode : ∀ n, p.state.mode ≠ .updateFile n) :
    ∀ hunk ∈ p.state.hunks, hunk.Complete :=
  complete_of_last h fun hunk hlast =>
    (h.last hunk hlast).2.resolve_right fun hopen => hopen.elim hmode

/-- **A hunk is left when it is complete.** -/
theorem complete_of_ensure (hok : p.ensureUpdateHunkIsNotEmpty line = .ok ()) :
    ∀ hunk ∈ p.state.hunks, hunk.Complete := by
  refine complete_of_last h fun hunk hlast => ?_
  obtain ⟨hopen, hcomplete | ⟨n, hmode⟩⟩ := h.last hunk hlast
  · exact hcomplete
  cases hunk with
  | addFile | deleteFile => exact trivial
  | updateFile path movePath chunks =>
    rw [ensureUpdateHunkIsNotEmpty, hlast] at hok
    simp only [hmode] at hok
    rcases hchunk : chunks.getLast? with _ | chunk
    · rw [hchunk] at hok
      cases hok
    · rw [hchunk] at hok
      simp only at hok
      split_ifs at hok with hempty
      refine ⟨ne_nil_of_mem (mem_of_getLast? hchunk), fun c hc => ?_⟩
      obtain hc | hc := mem_dropLast_or hc
      · exact hopen c hc
      · cases hchunk.symm.trans hc
        exact Bool.not_eq_true _ ▸ hempty

end

lemma filled_handle {t} (h : p.handleHunkHeadersAndEndPatch t = .ok (some p'))
    (hp : p.state.Filled) : p'.state.Filled := by
  obtain ⟨i, -, -, -, -, rfl⟩ | ⟨hok, hp'⟩ := handle_cases h
  · exact ⟨hp.before, hp.last⟩
  have hall := complete_of_ensure hp hok
  obtain ⟨-, rfl⟩ | ⟨_, -, rfl⟩ | ⟨_, -, rfl⟩ | ⟨_, -, rfl⟩ := hp'
  · exact .of_complete hall
  · exact .concat rfl hall trivial (.inl trivial)
  · exact .concat rfl hall trivial (.inl trivial)
  · exact .concat rfl hall (by simp [Hunk.Open]) (.inr ⟨_, rfl⟩)

lemma filled_processLine (h : p.processLine line = .ok p') (hp : p.state.Filled) :
    p'.state.Filled := by
  obtain ⟨hmode, -, rfl⟩ | ⟨-, hh⟩ | ⟨_, _, _, -, -, -, -, rfl⟩ | ⟨_, -, hh⟩ |
    ⟨n, path, movePath, chunks, hmode, -, hlast, hu⟩ | ⟨-, -, rfl⟩ := processLine_cases h
  · have hall := complete_of_mode hp (by simp [hmode])
    exact .of_complete hall
  · exact filled_handle hh hp
  · exact .concat rfl hp.before trivial (.inl trivial)
  · exact filled_handle hh hp
  · have hopen : ∀ c ∈ chunks.dropLast, c.isEmpty = false := (hp.last _ hlast).1
    have hset : ∀ movePath' chunks', (∀ c ∈ chunks'.dropLast, c.isEmpty = false) →
        (p.setLastHunk (.updateFile path movePath' chunks')).state.Filled :=
      fun _ _ hchunks => .concat rfl hp.before hchunks (.inr ⟨n, hmode⟩)
    obtain ⟨-, -, rfl⟩ | ⟨_, -, -, -, rfl⟩ | ⟨_, hempty, -, rfl⟩ | ⟨-, -, -, rfl⟩ |
      ⟨_, _, -, -, rfl⟩ := processUpdateLine_cases hu
    · exact hp
    · exact hset _ _ hopen
    · refine hset _ _ fun c hc => ?_
      rw [dropLast_concat] at hc
      obtain hc | hc := mem_dropLast_or hc
      · exact hopen c hc
      · simpa [hc] using hempty
    · refine hset _ _ fun c hc => hopen c ?_
      obtain rfl | ⟨init, last, rfl⟩ := eq_nil_or_concat chunks
      · exact hc
      · simpa [modifyLast_concat] using hc
    · refine hset _ _ fun c hc => hopen c ?_
      rw [onLastChunk] at hc
      split at hc
      · cases hc
      · simpa using hc
  · exact hp

/-- The parsers that `push_delta` and `finish` lead to, whatever they return. -/
inductive Reachable : StreamingPatchParser → Prop
  | new : Reachable {}
  | pushDelta {p : StreamingPatchParser} (h : Reachable p) (delta : Str) :
    Reachable (p.pushDelta delta).1
  | finish {p : StreamingPatchParser} (h : Reachable p) : Reachable p.finish.1

lemma Reachable.invariant (h : Reachable p) : Written p.state.hunks ∧ p.state.Filled := by
  induction h with
  | new => exact ⟨by rintro _ _ _ ⟨⟩, .of_complete (forall_mem_nil _)⟩
  | pushDelta _ delta ih =>
    exact ⟨pushDelta_invariant (fun s => Written s.hunks) written_processLine ih.1 delta,
      pushDelta_invariant _ filled_processLine ih.2 delta⟩
  | finish _ ih =>
    refine ⟨finish_invariant (fun s => Written s.hunks) written_processLine ih.1
      fun _ hp => hp, finish_invariant _ filled_processLine ih.2 fun hok hp => ?_⟩
    have hall := complete_of_ensure hp hok
    exact .of_complete hall

/-- **Context lines are paired in every reachable parser, and no finished hunk is incomplete.** -/
theorem reachable_well_formed (h : Reachable p) :
    (∀ path movePath chunks, Hunk.updateFile path movePath chunks ∈ p.state.hunks →
      ∀ chunk ∈ chunks, chunk.Paired) ∧
    ∀ hunks, p.finish.2 = .ok hunks → ∀ hunk ∈ hunks, hunk.Complete := by
  constructor
  · intro path movePath chunks hmem chunk hchunk
    obtain ⟨w, rfl⟩ := h.invariant.1 path movePath chunks hmem chunk hchunk
    exact w.paired
  · intro hunks hok
    obtain ⟨rfl, hmode⟩ := finish_hunks (p := p) (q := p.finish.1) (Prod.ext rfl hok)
    exact complete_of_mode h.finish.invariant.2 (by simp [hmode])

theorem reachable_well_formed_secondLine :
    (pushDelta {} secondLinePatch).1.finish.2 = .ok [.updateFile "f" none [secondLineChunk]] ∧
      (Hunk.updateFile "f" none [secondLineChunk]).Complete := by
  have hfinish : (pushDelta {} secondLinePatch).1.finish.2 =
      .ok [.updateFile "f" none [secondLineChunk]] := by
    decide
  exact ⟨hfinish, (reachable_well_formed (.pushDelta .new _)).2 _ hfinish _ mem_cons_self⟩

end StreamingPatchParser

end ApplyPatch
