import CodexAgents.ApplyPatch.Seek
import CodexAgents.ApplyPatch.Machine
import CodexAgents.Lib.Splice

/-!
# What an update does to a file that keeps its line endings

In `preserveLineEndings` mode an update is meant to touch nothing but the lines the patch marks.
This file says what that is — `editedFile` — without replacements, sorting or slices:

* a *region* is a body and the index of the line of the file where its old side begins;
* the `-` lines of a region go (`removed`), its `+` lines come in where the change they belong to
  begins (`added`), and its context lines are not looked at;
* `editedFile` goes over the lines of the file, each with its terminator, and inserts and drops by
  position.

The chunks of a patch are placed one after the other (`Placed`).  Where the old side of a chunk is
not in the file and ends in an empty line, the empty line is taken for the newline that ends the
region, and the chunk is placed without it.  `Sentinel` relates the body of such a chunk to the body
it then stands for: an empty line at the end of the new side goes with the one of the old side.

Main results:

* `contextReplacements_eq_blocks` — the loop over the context indices of a chunk finds the changes
  of its body.
* `collectReplacements_spec` — the replacements of a list of chunks, taken together, remove and
  insert what the placed bodies say.
* `preserveLineEndings_edits` — the new contents are those of the edited file.
-/

namespace ApplyPatch

open Text ListSplice List SourceFile StreamingPatchParser

/-! ## Bodies in a file -/

/-- A body, and the line of the file where its old side begins. -/
structure Region where
  start : ℕ
  body : Interleaving

namespace Interleaving

/-- The `-` lines of a body, as lines of the file; `i` is the line its old side has come to. -/
def removed : ℕ → Interleaving → List ℕ
  | _, [] => []
  | i, (.context, _) :: body => removed (i + 1) body
  | i, (.add, _) :: body => removed i body
  | i, (.remove, _) :: body => i :: removed (i + 1) body

/-- The `+` lines of a body, each with the line of the file where its change begins: what stands
between two context lines is one change.  `g` is where the current change began. -/
def added : ℕ → ℕ → Interleaving → List (ℕ × Str)
  | _, _, [] => []
  | _, i, (.context, _) :: body => added (i + 1) (i + 1) body
  | g, i, (.add, text) :: body => (g, text) :: added g i body
  | g, i, (.remove, _) :: body => added g (i + 1) body

end Interleaving

open Interleaving

/-- Is the line of the file a `-` line of the region? -/
def Region.removes (r : Region) (k : ℕ) : Bool := k ∈ removed r.start r.body

/-- The `+` lines of the region that go in front of a line of the file. -/
def Region.insertsAt (r : Region) (k : ℕ) : List Str :=
  ((added r.start r.start r.body).filter fun l => l.1 = k).map Prod.snd

/-- **The edit, line by line.**  The `+` lines come in with the preferred ending, the `-` lines go,
and every other line is as it was, except that a line without a terminator gets one. -/
def editedFile (file : SourceFile) (regions : List Region) : SourceFile :=
  { file with
    lines := (splicePointwise
      (fun k => (regions.flatMap (·.insertsAt k)).map fun text => ⟨text, some file.preferredEnding⟩)
      (fun k => regions.any (·.removes k)) 0 file.lines).map (·.getOrInsert file.preferredEnding) }

/-! ## Placing chunks -/

/-- A chunk, the line where it was found, and whether its last old line had to be left out. -/
structure Placement where
  chunk : WrittenChunk
  start : ℕ
  retried : Bool

/-- The old lines that were found. -/
def Placement.pattern (pl : Placement) : List Str :=
  if pl.retried then pl.chunk.body.oldSide.dropLast else pl.chunk.body.oldSide

section

variable (path : Str) (lines : List Str)

/-- A chunk is placed by a search that begins at one line and leaves off at another. -/
inductive PlacedAt : ℕ → Placement → ℕ → Prop
  /-- A chunk without old lines goes to the end of the file. -/
  | insertion {w : WrittenChunk} {i j : ℕ}
      (header : seekContext lines path w.toChunk i .preserveLineEndings = .ok j)
      (noOld : w.body.oldSide = []) : PlacedAt i ⟨w, lines.length, false⟩ j
  | found {w : WrittenChunk} {i j start : ℕ}
      (header : seekContext lines path w.toChunk i .preserveLineEndings = .ok j)
      (old : w.body.oldSide ≠ [])
      (seek : seekSequence lines w.body.oldSide j w.endOfFile .preserveLineEndings = some start) :
      PlacedAt i ⟨w, start, false⟩ (start + w.body.oldSide.length)
  | retried {w : WrittenChunk} {i j start : ℕ}
      (header : seekContext lines path w.toChunk i .preserveLineEndings = .ok j)
      (last : w.body.oldSide.getLast? = some [])
      (notFound : seekSequence lines w.body.oldSide j w.endOfFile .preserveLineEndings = none)
      (seek : seekSequence lines w.body.oldSide.dropLast j w.endOfFile .preserveLineEndings =
        some start) :
      PlacedAt i ⟨w, start, true⟩ (start + w.body.oldSide.dropLast.length)

/-- The chunks are placed one after the other. -/
inductive Placed : ℕ → List Placement → Prop
  | nil (i : ℕ) : Placed i []
  | cons {i j : ℕ} {pl : Placement} {pls : List Placement} (head : PlacedAt path lines i pl j)
      (tail : Placed j pls) : Placed i (pl :: pls)

end

/-- The old lines of the chunks are in the file, up to whitespace at either end and typographic
variants, in the order of the chunks and without overlap. -/
def Located (lines : List Str) : ℕ → List Placement → Prop
  | i, [] => i ≤ lines.length
  | i, pl :: pls =>
    (pl.pattern = [] ∧ pl.start = lines.length ∧ Located lines i pls) ∨
      (i ≤ pl.start ∧ pl.start + pl.pattern.length ≤ lines.length ∧
        ((lines.drop pl.start).take pl.pattern.length).map normalise = pl.pattern.map normalise ∧
        Located lines (pl.start + pl.pattern.length) pls)

variable {lines : List Str} {pls : List Placement} {i : ℕ}

lemma Located.mono {j} (h : Located lines i pls) (hji : j ≤ i) : Located lines j pls := by
  induction pls with
  | nil => exact hji.trans h
  | cons pl pls ih =>
    obtain ⟨hp, hstart, h⟩ | ⟨hi, hrest⟩ := h
    · exact .inl ⟨hp, hstart, ih h⟩
    · exact .inr ⟨hji.trans hi, hrest⟩

/-- **The body a chunk stands for once its last old line, which is empty, has been taken for a
newline.**  If the line is context it is on the new side too, and has to be the last line there.  If
it is a `-` line and the new side ends in an empty `+` line, that one is taken for a newline as
well. -/
inductive Sentinel : Interleaving → Interleaving → Prop
  | context (body : Interleaving) : Sentinel (body ++ [(.context, [])]) body
  | remove (body adds : Interleaving) (all_add : ∀ l ∈ adds, l.1 = .add)
      (last : (body ++ adds).newSide.getLast? ≠ some []) :
      Sentinel (body ++ (.remove, []) :: adds) (body ++ adds)
  | removeAdd (body adds : Interleaving) (all_add : ∀ l ∈ adds, l.1 = .add) :
      Sentinel (body ++ (.remove, []) :: (adds ++ [(.add, [])])) (body ++ adds)
  | addRemove (body removes : Interleaving) (all_remove : ∀ l ∈ removes, l.1 = .remove) :
      Sentinel (body ++ (.add, []) :: (removes ++ [(.remove, [])])) (body ++ removes)

/-- The one kind of body without such a reading: an empty context line that is the last line of one
side but not of the other. -/
def BlankContext (body : Interleaving) : Prop :=
  ∃ pre post, body = pre ++ (.context, []) :: post ∧ post ≠ [] ∧ ((∀ l ∈ post, l.1 = .add) ∨
      ((∀ l ∈ post, l.1 = .remove) ∧ post.getLast? = some (.remove, [])))

/-- The body a placed chunk stands for. -/
def Placement.Reads (pl : Placement) (body : Interleaving) : Prop :=
  if pl.retried then Sentinel pl.chunk.body body else body = pl.chunk.body

/-! ## Where chunks come from -/

/-- Every chunk of every update hunk is what is kept of a written chunk. -/
def Written (hunks : List Hunk) : Prop :=
  ∀ path movePath chunks, Hunk.updateFile path movePath chunks ∈ hunks →
    ∀ c ∈ chunks, c ∈ Set.range WrittenChunk.toChunk

lemma Written.concat (h : Written hunks) {hunk}
    (hhunk : ∀ path movePath chunks, hunk = .updateFile path movePath chunks →
      ∀ c ∈ chunks, c ∈ Set.range WrittenChunk.toChunk) :
    Written (hunks ++ [hunk]) := by
  intro path movePath chunks hmem
  obtain hmem | hmem := mem_append.mp hmem
  · exact h path movePath chunks hmem
  · exact hhunk path movePath chunks (mem_singleton.mp hmem).symm

variable {path : Str} {chunks : List UpdateFileChunk}

lemma Written.setLast {hunks} (h : Written hunks)
    (hchunks : ∀ c ∈ chunks, c ∈ Set.range WrittenChunk.toChunk) :
    Written (hunks.dropLast ++ [.updateFile path movePath chunks]) := by
  refine Written.concat
    (fun path movePath chunks hmem => h path movePath chunks (dropLast_subset hunks hmem)) ?_
  rintro _ _ _ ⟨⟩
  exact hchunks

lemma header_mem_range (header : Option Str) :
    ({ changeContext := header } : UpdateFileChunk) ∈ Set.range WrittenChunk.toChunk :=
  ⟨⟨header, [], false⟩, rfl⟩

variable {c : UpdateFileChunk}

lemma push_mem_range (h : c ∈ Set.range WrittenChunk.toChunk) (k : LineKind) (text : Str) :
    k.push text c ∈ Set.range WrittenChunk.toChunk := by
  obtain ⟨⟨header, body, eof⟩, rfl⟩ := h
  have hfold := foldl_push (body ++ [(k, text)]) { changeContext := header, isEndOfFile := eof }
  rw [foldl_append, foldl_push body] at hfold
  exact ⟨⟨header, body ++ [(k, text)], eof⟩, hfold.symm⟩

/-- Only the last chunk is changed, or a first one opened. -/
lemma mem_onLastChunk {f} (h : c ∈ onLastChunk chunks f) :
    c ∈ chunks ∨ c = f {} ∨ ∃ c' ∈ chunks, c = f c' := by
  rw [onLastChunk] at h
  split at h
  · exact .inr (.inl (mem_singleton.mp h))
  · rename_i last hlast
    obtain h | h := mem_append.mp h
    · exact .inl (dropLast_subset chunks h)
    · exact .inr (.inr ⟨last, mem_of_getLast? hlast, mem_singleton.mp h⟩)

lemma mem_modifyLast {f} (h : c ∈ chunks.modifyLast f) : c ∈ chunks ∨ ∃ c' ∈ chunks, c = f c' := by
  obtain rfl | ⟨init, last, rfl⟩ := eq_nil_or_concat chunks
  · exact .inl h
  · rw [concat_eq_append] at h ⊢
    rw [modifyLast_concat] at h
    obtain h | h := mem_append.mp h
    · exact .inl (mem_append_left _ h)
    · exact .inr ⟨last, by simp, mem_singleton.mp h⟩

lemma written_handle {t} {p p' : StreamingPatchParser}
    (h : p.handleHunkHeadersAndEndPatch t = .ok (some p')) (hp : Written p.state.hunks) :
    Written p'.state.hunks := by
  obtain ⟨i, -, -, -, -, rfl⟩ | ⟨-, ⟨-, rfl⟩ | ⟨_, -, rfl⟩ | ⟨_, -, rfl⟩ | ⟨_, -, rfl⟩⟩ :=
    handle_cases h
  · exact hp
  · exact hp
  · exact hp.concat (by rintro _ _ _ ⟨⟩)
  · exact hp.concat (by rintro _ _ _ ⟨⟩)
  · exact hp.concat (by rintro _ _ _ ⟨⟩; simp)

lemma written_processLine {p p' : StreamingPatchParser} {line}
    (h : p.processLine line = .ok p') (hp : Written p.state.hunks) : Written p'.state.hunks := by
  obtain ⟨-, -, rfl⟩ | ⟨-, hh⟩ | ⟨_, _, _, -, -, -, -, rfl⟩ | ⟨_, -, hh⟩ |
    ⟨_, path, movePath, chunks, -, -, hlast, hu⟩ | ⟨-, -, rfl⟩ :=
    processLine_cases h
  · exact hp
  · exact written_handle hh hp
  · refine Written.concat (fun path movePath chunks hmem => hp path movePath chunks ?_) ?_
    · exact dropLast_subset _ hmem
    · rintro _ _ _ ⟨⟩
  · exact written_handle hh hp
  · have hchunks := hp path movePath chunks (mem_of_getLast? hlast)
    obtain ⟨-, -, rfl⟩ | ⟨_, -, -, -, rfl⟩ | ⟨header, -, -, rfl⟩ | ⟨-, -, -, rfl⟩ |
      ⟨k, text, -, -, rfl⟩ := processUpdateLine_cases hu
    · exact hp
    · exact hp.setLast hchunks
    · exact hp.setLast
        (forall_mem_append.mpr ⟨hchunks, forall_mem_singleton.mpr (header_mem_range header)⟩)
    · refine hp.setLast fun c hc => ?_
      obtain hc | ⟨c', hc', rfl⟩ := mem_modifyLast hc
      · exact hchunks c hc
      · obtain ⟨w, rfl⟩ := hchunks c' hc'
        exact ⟨{ w with endOfFile := true }, rfl⟩
    · refine hp.setLast fun c hc => ?_
      obtain hc | rfl | ⟨c', hc', rfl⟩ := mem_onLastChunk hc
      · exact hchunks c hc
      · exact push_mem_range (header_mem_range none) k text
      · exact push_mem_range (hchunks c' hc') k text
  · exact hp

/-- **The chunks of a parsed patch are those of written chunks.** -/
theorem exists_written {movePath patch args} (h : parsePatch patch = .ok args)
    (hmem : Hunk.updateFile path movePath chunks ∈ args.hunks) :
    ∃ ws : List WrittenChunk, ws.map WrittenChunk.toChunk = chunks := by
  have hall := parsePatchText_invariant written_processLine (by rintro _ _ _ ⟨⟩) h path movePath
    chunks hmem
  have hrange : chunks ∈ Set.range (map WrittenChunk.toChunk) := by
    rw [Set.range_list_map]
    exact hall
  exact hrange

/-! ## The changes of a body -/

namespace Interleaving

/-- The changes of a body, as replacements: the current one began at line `g` and has these new
lines so far, and the old side has come to line `i`. -/
def blocks : ℕ → ℕ → List Str → Interleaving → List Replacement
  | g, i, new, [] => if g ≠ i ∨ new ≠ [] then [(g, i - g, new)] else []
  | g, i, new, (.context, _) :: body =>
    (if g ≠ i ∨ new ≠ [] then [(g, i - g, new)] else []) ++ blocks (i + 1) (i + 1) [] body
  | g, i, new, (.add, text) :: body => blocks g i (new ++ [text]) body
  | g, i, new, (.remove, _) :: body => blocks g (i + 1) new body

end Interleaving

/-- There is something to replace: as `blocks` asks, and as the code does. -/
lemma change_iff {s oldStart newStart} {pre pre' : List Str} (hnew : newStart ≤ pre'.length) :
    (s + oldStart ≠ s + pre.length ∨ pre'.drop newStart ≠ []) ↔
      (oldStart ≠ pre.length ∨ newStart ≠ pre'.length) := by
  simp only [ne_eq, drop_eq_nil_iff]
  omega

/-- **The loop over the context indices finds the changes.**  `pre` and `pre'` are the parts of the
two sides that have been read; an index that is beyond the old side ends the loop, as if it were
not there. -/
theorem contextReplacements_eq_blocks (s : ℕ) {beyond} (body : Interleaving)
    (pre pre' : List Str) (oldStart newStart : ℕ) (hold : oldStart ≤ pre.length)
    (hnew : newStart ≤ pre'.length)
    (hbeyond : ∀ c ∈ beyond.head?, (pre ++ body.oldSide).length ≤ c.1) :
    contextReplacements s (pre ++ body.oldSide) (pre' ++ body.newSide) oldStart newStart
        (contextIndices pre.length pre'.length body ++ beyond) =
      blocks (s + oldStart) (s + pre.length) (pre'.drop newStart) body := by
  induction body generalizing pre pre' oldStart newStart with
  | nil =>
    have hstop : contextReplacements s (pre ++ oldSide []) (pre' ++ newSide []) oldStart newStart
        beyond = finalReplacement s pre pre' oldStart newStart := by
      obtain _ | ⟨⟨o, n⟩, beyond⟩ := beyond
      · simp [contextReplacements]
      · have ho := hbeyond (o, n) (by simp)
        rw [contextReplacements, if_pos (.inl ho)]
        simp
    rw [contextIndices, nil_append, hstop, finalReplacement, blocks]
    simp only [change_iff hnew, Nat.add_sub_add_left]
  | cons l body ih =>
    obtain ⟨k, t⟩ := l
    obtain _ | _ | _ := k
    · have hgo := ih (pre ++ [t]) (pre' ++ [t]) (pre.length + 1) (pre'.length + 1) (by simp)
        (by simp) (by simpa using hbeyond)
      simp only [append_assoc, singleton_append, length_append, length_singleton] at hgo
      have hinside : ¬ ((pre ++ t :: oldSide body).length ≤ pre.length ∨
          (pre' ++ t :: newSide body).length ≤ pre'.length) := by
        simp only [length_append, length_cons]
        omega
      have hslice : ((pre' ++ t :: newSide body).drop newStart).take (pre'.length - newStart) =
          pre'.drop newStart := by
        rw [drop_append_of_le_length hnew, take_left' (by simp)]
      rw [oldSide_cons_context, newSide_cons_context, contextIndices, cons_append,
        contextReplacements, if_neg hinside, hgo, hslice, blocks]
      simp only [change_iff hnew, Nat.add_sub_add_left, Nat.add_assoc]
      simp
    · have hgo := ih pre (pre' ++ [t]) oldStart newStart hold (by simp; omega)
        (by simpa using hbeyond)
      simp only [append_assoc, singleton_append, length_append,
        length_singleton, drop_append_of_le_length hnew] at hgo
      rw [oldSide_cons_add, newSide_cons_add, contextIndices, hgo, blocks]
    · have hgo := ih (pre ++ [t]) pre' oldStart newStart (by simp; omega) hnew
        (by simpa using hbeyond)
      simp only [append_assoc, singleton_append, length_append, length_singleton] at hgo
      rw [oldSide_cons_remove, newSide_cons_remove, contextIndices, hgo, blocks, Nat.add_assoc]

/-- One change, if there is something to replace. -/
lemma insertedAt_change (g i : ℕ) (new : List Str) (k : ℕ) :
    insertedAt (if g ≠ i ∨ new ≠ [] then [(g, i - g, new)] else []) k =
      if g = k then new else [] := by
  split
  · rw [insertedAt_cons, insertedAt_nil, append_nil]
  · rename_i hno
    obtain ⟨-, rfl⟩ : g = i ∧ new = [] := by simpa using hno
    simp

variable {g : ℕ}

lemma covered_change (h : g ≤ i) (new : List Str) (k : ℕ) :
    covered (if g ≠ i ∨ new ≠ [] then [(g, i - g, new)] else []) k = decide (g ≤ k ∧ k < i) := by
  split_ifs with hno
  · rw [covered_cons, covered_nil, Bool.or_false, ← Bool.decide_and]
    congr 1
    simp only [eq_iff_iff]
    omega
  · obtain ⟨rfl, -⟩ : g = i ∧ new = [] := by simpa using hno
    symm
    simp only [covered_nil, decide_eq_false_iff_not]
    omega

/-- The changes of a body insert its `+` lines. -/
lemma insertedAt_blocks (g i : ℕ) (new : List Str) (body : Interleaving) (k : ℕ) :
    insertedAt (blocks g i new body) k = (if g = k then new else []) ++
        ((added g i body).filter fun l => l.1 = k).map Prod.snd := by
  induction body generalizing g i new with
  | nil => rw [blocks, insertedAt_change, added]; simp
  | cons l body ih =>
    obtain ⟨kind, t⟩ := l
    obtain _ | _ | _ := kind
    · rw [blocks, insertedAt_append, insertedAt_change, ih, added]
      simp
    · rw [blocks, ih, added]
      by_cases hk : g = k <;> simp [hk]
    · rw [blocks, ih, added]

/-- The changes of a body cover its `-` lines. -/
lemma covered_blocks (h : g ≤ i) (new : List Str) (body : Interleaving) (k : ℕ) :
    covered (blocks g i new body) k = (decide (g ≤ k ∧ k < i) || decide (k ∈ removed i body)) := by
  induction body generalizing g i new with
  | nil => rw [blocks, covered_change h, removed]; simp
  | cons l body ih =>
    obtain ⟨kind, t⟩ := l
    obtain _ | _ | _ := kind
    · have hempty : ¬ (i + 1 ≤ k ∧ k < i + 1) := by omega
      rw [blocks, covered_append, covered_change h, ih le_rfl, removed]
      simp only [hempty, decide_false, Bool.false_or]
    · rw [blocks, ih h, removed]
    · have hstep : (g ≤ k ∧ k < i + 1) ↔ ((g ≤ k ∧ k < i) ∨ k = i) := by omega
      rw [blocks, ih (by omega), removed, ← Bool.decide_or, ← Bool.decide_or]
      simp only [mem_cons, hstep, or_assoc]

/-- The changes of a body come in order and stay within its old side. -/
lemma ordered_blocks (h : g ≤ i) (new : List Str) (body : Interleaving) :
    Ordered g (i + body.oldSide.length) (blocks g i new body) := by
  have hchange : ∀ {g i : ℕ} (_ : g ≤ i) (new : List Str),
      Ordered g i (if g ≠ i ∨ new ≠ [] then [(g, i - g, new)] else []) := by
    intro g i h new
    split
    · refine ⟨le_rfl, ?_⟩
      show g + (i - g) ≤ i
      omega
    · exact h
  induction body generalizing g i new with
  | nil => exact hchange h new
  | cons l body ih =>
    obtain ⟨kind, t⟩ := l
    obtain _ | _ | _ := kind
    · have htail := ih (le_refl (i + 1)) []
      rw [oldSide_cons_context, length_cons, blocks, add_comm (oldSide body).length,
        ← add_assoc]
      exact (hchange h new).append (htail.mono (by omega))
    · exact ih h _
    · have htail := ih (show g ≤ i + 1 by omega) new
      rwa [oldSide_cons_remove, length_cons, blocks, add_comm (oldSide body).length,
        ← add_assoc]

/-! ## The trailing empty line -/

lemma oldSide_append (a b : Interleaving) : oldSide (a ++ b) = oldSide a ++ oldSide b := by
  simp [oldSide]

lemma newSide_append (a b : Interleaving) : newSide (a ++ b) = newSide a ++ newSide b := by
  simp [newSide]

lemma contextIndices_append (i j : ℕ) (a b : Interleaving) : contextIndices i j (a ++ b) =
      contextIndices i j a ++ contextIndices (i + a.oldSide.length) (j + a.newSide.length) b := by
  induction a generalizing i j with
  | nil => rfl
  | cons l a ih =>
    obtain ⟨k, t⟩ := l
    rcases k with _ | _ | _ <;>
      simp [contextIndices, ih, add_assoc, add_comm 1]

lemma oldSide_of_all_add {adds : Interleaving} (h : ∀ l ∈ adds, l.1 = .add) :
    adds.oldSide = [] := by
  rw [oldSide, filter_eq_nil_iff.mpr fun l hl => by simp [h l hl], map_nil]

lemma newSide_of_all_remove {removes : Interleaving} (h : ∀ l ∈ removes, l.1 = .remove) :
    removes.newSide = [] := by
  rw [newSide, filter_eq_nil_iff.mpr fun l hl => by simp [h l hl], map_nil]

/-- Without context lines there are no indices. -/
lemma contextIndices_append_of_no_context (a : Interleaving) {b}
    (h : ∀ l ∈ b, l.1 ≠ .context) : contextIndices 0 0 (a ++ b) = contextIndices 0 0 a := by
  have hnone : ∀ i j, contextIndices i j b = [] := by
    induction b with
    | nil => exact fun _ _ => rfl
    | cons l b ih =>
      obtain ⟨k, t⟩ := l
      have hb := ih fun l hl => h l (mem_cons_of_mem _ hl)
      obtain _ | _ | _ := k
      · exact absurd rfl (h (.context, t) mem_cons_self)
      · exact fun i j => hb i (j + 1)
      · exact fun i j => hb (i + 1) j
  rw [contextIndices_append, hnone, append_nil]

variable {body : Interleaving}

/-- The last line of one of the two sides, with what comes after it on the other. -/
lemma exists_last_line {p}
    (h : ((body.filter p).map Prod.snd).getLast? = some t) :
    ∃ pre k post, body = pre ++ (k, t) :: post ∧ p (k, t) ∧ ∀ l ∈ post, p l = false := by
  induction body using reverseRecOn with
  | nil => simp at h
  | append_singleton body l ih =>
    rcases hl : p l with _ | _
    · rw [filter_append, filter_singleton, hl] at h
      obtain ⟨pre, k, post, rfl, hk, hpost⟩ := ih (by simpa using h)
      exact ⟨pre, k, post ++ [l], by simp, hk,
        forall_mem_append.mpr ⟨hpost, forall_mem_singleton.mpr hl⟩⟩
    · obtain ⟨k, t'⟩ := l
      rw [filter_append, filter_singleton, hl] at h
      obtain rfl : t' = t := by simpa using h
      exact ⟨body, k, [], by simp, hl, by simp⟩

/-- **Every body whose old side ends in an empty line has a reading, or a blank context line at the
end of one side.** -/
theorem exists_sentinel_or_blankContext (h : body.oldSide.getLast? = some []) :
    (∃ body', Sentinel body body') ∨ BlankContext body := by
  obtain ⟨pre, k, adds, rfl, hk, hadds⟩ := exists_last_line h
  replace hadds : ∀ l ∈ adds, l.1 = .add := fun l hl => by simpa using hadds l hl
  obtain _ | _ | _ := k
  · obtain rfl | ⟨_, _, hconcat⟩ := eq_nil_or_concat adds
    · exact .inl ⟨pre, .context pre⟩
    · exact .inr ⟨pre, adds, rfl, by simp [hconcat], .inl hadds⟩
  · simp at hk
  · by_cases hlast : (newSide (pre ++ adds)).getLast? = some []
    swap
    · exact .inl ⟨_, .remove pre adds hadds hlast⟩
    obtain rfl | ⟨adds, ⟨k, t⟩, rfl⟩ := eq_nil_or_concat adds
    · -- nothing is added after the empty `-` line, so the new side ends before it
      rw [append_nil] at hlast
      obtain ⟨pre, k, removes, rfl, hk, hremoves⟩ := exists_last_line hlast
      replace hremoves : ∀ l ∈ removes, l.1 = .remove := fun l hl => by simpa using hremoves l hl
      obtain _ | _ | _ := k
      · refine .inr ⟨pre, removes ++ [(.remove, [])], by simp, by simp, .inr ⟨?_, by simp⟩⟩
        exact forall_mem_append.mpr ⟨hremoves, forall_mem_singleton.mpr rfl⟩
      · refine .inl ⟨pre ++ removes, ?_⟩
        rw [append_assoc]
        exact .addRemove pre removes hremoves
      · simp at hk
    · rw [concat_eq_append] at hadds hlast ⊢
      obtain rfl : k = .add := hadds (k, t) (by simp)
      obtain rfl : t = [] := by simpa [newSide_append] using hlast
      exact .inl ⟨_, .removeAdd pre adds fun l hl => hadds l (mem_append_left _ hl)⟩

/-- What a body and the one it stands for have to do with each other. -/
lemma Sentinel.spec {written} (h : Sentinel written body) :
    body.oldSide = written.oldSide.dropLast ∧
    body.newSide =
      (if written.newSide.getLast? = some [] then written.newSide.dropLast else written.newSide) ∧
    ∃ beyond : List (ℕ × ℕ), contextIndices 0 0 written = contextIndices 0 0 body ++ beyond ∧
      ∀ c ∈ beyond.head?, body.oldSide.length ≤ c.1 := by
  obtain body | ⟨body, adds, hadd, hlast⟩ | ⟨body, adds, hadd⟩ | ⟨body, removes, hremove⟩ := h
  · refine ⟨?_, ?_, [(body.oldSide.length, body.newSide.length)], ?_, ?_⟩
    · simp [oldSide_append]
    · simp [newSide_append]
    · rw [contextIndices_append]
      simp [contextIndices]
    · simp
  · refine ⟨?_, ?_, [], ?_, by simp⟩
    · simp [oldSide_append, oldSide_of_all_add hadd]
    · rw [newSide_append] at hlast
      rw [newSide_append, newSide_append, newSide_cons_remove, if_neg hlast]
    · rw [contextIndices_append_of_no_context, append_nil, contextIndices_append_of_no_context]
      · exact fun l hl => by simp [hadd l hl]
      · rintro l (_ | ⟨_, hl⟩)
        · simp
        · simp [hadd l hl]
  · refine ⟨?_, ?_, [], ?_, by simp⟩
    · simp [oldSide_append, oldSide_of_all_add hadd]
    · simp [newSide_append, ← append_assoc]
    · rw [contextIndices_append_of_no_context, append_nil, contextIndices_append_of_no_context]
      · exact fun l hl => by simp [hadd l hl]
      · intro l hl
        simp only [mem_cons, mem_append, not_mem_nil, or_false] at hl
        obtain rfl | hl | rfl := hl
        · simp
        · simp [hadd l hl]
        · simp
  · refine ⟨?_, ?_, [], ?_, by simp⟩
    · simp [oldSide_append, ← append_assoc]
    · simp [newSide_append, newSide_of_all_remove hremove]
    · rw [contextIndices_append_of_no_context, append_nil, contextIndices_append_of_no_context]
      · exact fun l hl => by simp [hremove l hl]
      · intro l hl
        simp only [mem_cons, mem_append, not_mem_nil, or_false] at hl
        obtain rfl | hl | rfl := hl
        · simp
        · simp [hremove l hl]
        · simp

/-! ## The replacements of the chunks -/

/-- The replacements insert and cover what a region adds and removes. -/
def Carries (replacements : List Replacement) (region : Region) : Prop :=
  ∀ k, insertedAt replacements k = region.insertsAt k ∧ covered replacements k = region.removes k

lemma carries_blocks (s : ℕ) (body : Interleaving) : Carries (blocks s s [] body) ⟨s, body⟩ := by
  intro k
  constructor
  · rw [insertedAt_blocks, ite_self, nil_append]
    rfl
  · have hempty : ¬ (s ≤ k ∧ k < s) := by omega
    rw [covered_blocks le_rfl, decide_eq_false hempty, Bool.false_or]
    rfl

/-- A body without old lines is one insertion. -/
lemma carries_insertion (h : body.oldSide = []) (n : ℕ) :
    Carries [(n, 0, body.newSide)] ⟨n, body⟩ := by
  have hadd : added n n body = body.newSide.map (Prod.mk n) ∧ removed n body = [] := by
    induction body with
    | nil => exact ⟨rfl, rfl⟩
    | cons l body ih =>
      obtain ⟨k, t⟩ := l
      obtain _ | _ | _ := k
      · simp at h
      · obtain ⟨hadd, hremoved⟩ := ih (by simpa using h)
        exact ⟨by rw [added, hadd]; simp, hremoved⟩
      · simp at h
  intro k
  constructor
  · rw [Region.insertsAt, hadd.1, insertedAt_cons, insertedAt_nil, append_nil]
    by_cases hk : n = k <;> simp [hk, filter_map, Function.comp_def]
  · rw [Region.removes, hadd.2, covered_cons, covered_nil]
    simp

/-- The loop over the context indices of a body that has been found. -/
lemma carries_contextReplacements (body : Interleaving) {start} (n : ℕ) (hi : i ≤ start)
    (beyond : List (ℕ × ℕ)) (hbeyond : ∀ c ∈ beyond.head?, body.oldSide.length ≤ c.1) :
    Carries (contextReplacements start body.oldSide body.newSide 0 0
        (contextIndices 0 0 body ++ beyond)) ⟨start, body⟩ ∧
      ∀ rest, OrderedUpToEnd (start + body.oldSide.length) n rest →
        OrderedUpToEnd i n (contextReplacements start body.oldSide body.newSide 0 0
          (contextIndices 0 0 body ++ beyond) ++ rest) := by
  have hblocks := contextReplacements_eq_blocks start body [] [] 0 0 le_rfl le_rfl hbeyond
  simp only [nil_append, length_nil, drop_nil, add_zero] at hblocks
  rw [hblocks]
  refine ⟨carries_blocks start body, fun rest hrest => ?_⟩
  exact (((ordered_blocks le_rfl [] body).append_upToEnd hrest).mono hi)

/-- **One chunk.** -/
theorem chunkReplacements_spec {j w} (hi : i ≤ lines.length)
    (h : chunkReplacements lines path .preserveLineEndings i w.toChunk = .ok (j, rs)) :
    ∃ pl : Placement, pl.chunk = w ∧ PlacedAt path lines i pl j ∧ j ≤ lines.length ∧
      ∀ body, pl.Reads body → Carries rs ⟨pl.start, body⟩ ∧
        ∀ rest, OrderedUpToEnd j lines.length rest →
          OrderedUpToEnd i lines.length (rs ++ rest) := by
  simp only [chunkReplacements, bind, Except.bind] at h
  split at h
  · cases h
  rename_i i' header
  obtain ⟨hii', hi'⟩ := seekContext_spec header hi
  split at h
  · rename_i hempty
    cases h
    have hold : w.body.oldSide = [] := isEmpty_iff.mp hempty
    refine ⟨⟨w, lines.length, false⟩, rfl, .insertion header hold, hi', ?_⟩
    rintro body ⟨⟩
    refine ⟨carries_insertion hold _, fun rest hrest => ?_⟩
    exact .inl ⟨rfl, rfl, hrest.mono hii'⟩
  rename_i hne
  have hold : w.body.oldSide ≠ [] := fun h => hne (isEmpty_iff.mpr h)
  split at h
  · rename_i start pattern newSlice hfind
    cases h
    obtain ⟨hseek, rfl, rfl⟩ | ⟨hnone, hlast, hseek, rfl, rfl⟩ := findChunk_cases hfind
    · obtain ⟨hstart, hend, -⟩ := seekSequence_spec hseek hi'
      refine ⟨⟨w, start, false⟩, rfl, .found header hold hseek, hend, ?_⟩
      rintro body ⟨⟩
      have hcarries := carries_contextReplacements w.body lines.length (hii'.trans hstart) []
        (by simp)
      rwa [append_nil] at hcarries
    · obtain ⟨hstart, hend, -⟩ := seekSequence_spec hseek hi'
      refine ⟨⟨w, start, true⟩, rfl, .retried header hlast hnone hseek, hend, ?_⟩
      intro body hreads
      obtain ⟨holdSide, hnewSide, beyond, hindices, hbeyond⟩ := Sentinel.spec hreads
      have hcarries := carries_contextReplacements body lines.length (hii'.trans hstart) beyond
        hbeyond
      rwa [← hindices, holdSide, hnewSide] at hcarries
  · cases h

/-- **All chunks**: they are placed one after the other, and their replacements, taken together,
insert and cover what the bodies say. -/
theorem collectReplacements_spec {rs ws} (hi : i ≤ lines.length)
    (h : collectReplacements lines path .preserveLineEndings i (ws.map WrittenChunk.toChunk) =
      .ok rs) :
    ∃ pls : List Placement, pls.map (·.chunk) = ws ∧ Placed path lines i pls ∧
      ∀ bodies, List.Forall₂ Placement.Reads pls bodies → OrderedUpToEnd i lines.length rs ∧
        ∀ k, insertedAt rs k =
            (zipWith Region.mk (pls.map (·.start)) bodies).flatMap (·.insertsAt k) ∧
          covered rs k = (zipWith Region.mk (pls.map (·.start)) bodies).any (·.removes k) := by
  induction ws generalizing i rs with
  | nil =>
    cases h
    refine ⟨[], rfl, .nil i, ?_⟩
    rintro _ ⟨⟩
    exact ⟨hi, fun k => ⟨rfl, rfl⟩⟩
  | cons w ws ih =>
    simp only [map_cons, collectReplacements, bind, Except.bind] at h
    split at h
    · cases h
    rename_i r hchunk
    obtain ⟨j, rs₁⟩ := r
    simp only at h
    split at h
    · cases h
    rename_i rs₂ hrest
    cases h
    obtain ⟨pl, rfl, hpl, hj, hcarries⟩ := chunkReplacements_spec hi hchunk
    obtain ⟨pls, rfl, hpls, hall⟩ := ih hj hrest
    refine ⟨pl :: pls, rfl, .cons hpl hpls, ?_⟩
    rintro _ (_ | ⟨hbody, hbodies⟩)
    obtain ⟨hcarry, hordered⟩ := hcarries _ hbody
    obtain ⟨hordered', hcarry'⟩ := hall _ hbodies
    refine ⟨hordered _ hordered', fun k => ⟨?_, ?_⟩⟩
    · rw [insertedAt_append, (hcarry k).1, (hcarry' k).1]
      rfl
    · rw [covered_append, (hcarry k).2, (hcarry' k).2]
      rfl

/-- The chunks are where the searches say. -/
lemma Placed.located (h : Placed path lines i pls) (hi : i ≤ lines.length) :
    Located lines i pls := by
  induction h with
  | nil i => exact hi
  | @cons i j pl pls hpl htail ih =>
    have hfound : ∀ {i' start : ℕ} {pattern : List Str} {eof : Bool}, i ≤ i' → i' ≤ lines.length →
        seekSequence lines pattern i' eof .preserveLineEndings = some start →
        i ≤ start ∧ start + pattern.length ≤ lines.length ∧
          ((lines.drop start).take pattern.length).map normalise = pattern.map normalise := by
      intro i' start pattern eof hii' hi' hseek
      obtain ⟨hstart, hend, hmatch⟩ := seekSequence_spec hseek hi'
      exact ⟨hii'.trans hstart, hend, of_decide_eq_true hmatch⟩
    obtain ⟨header, hold⟩ | ⟨header, hold, hseek⟩ | ⟨header, hlast, hnone, hseek⟩ := hpl
    · obtain ⟨hij, hj⟩ := seekContext_spec header hi
      exact .inl ⟨hold, rfl, (ih hj).mono hij⟩
    all_goals
      obtain ⟨hii', hi'⟩ := seekContext_spec header hi
      obtain ⟨hstart, hend, hmatch⟩ := hfound hii' hi' hseek
      exact .inr ⟨hstart, hend, hmatch, ih hend⟩

/-- The chunks stand for bodies, unless one of them ends in a blank context line on one side. -/
lemma Placed.exists_reads (h : Placed path lines i pls) :
    (∃ pl ∈ pls, pl.retried ∧ BlankContext pl.chunk.body) ∨
      ∃ bodies, List.Forall₂ Placement.Reads pls bodies := by
  induction h with
  | nil => exact .inr ⟨[], .nil⟩
  | @cons i j pl pls hpl htail ih =>
    obtain ⟨pl', hmem, hblank⟩ | ⟨bodies, hbodies⟩ := ih
    · exact .inl ⟨pl', mem_cons_of_mem _ hmem, hblank⟩
    obtain ⟨header, hold⟩ | ⟨header, hold, hseek⟩ | ⟨header, hlast, hnone, hseek⟩ := hpl
    · exact .inr ⟨_, .cons rfl hbodies⟩
    · exact .inr ⟨_, .cons rfl hbodies⟩
    · obtain ⟨body, hbody⟩ | hblank := exists_sentinel_or_blankContext hlast
      · exact .inr ⟨body :: bodies, .cons hbody hbodies⟩
      · exact .inl ⟨_, mem_cons_self, rfl, hblank⟩

/-! ## The new contents -/

/-- The walk of the code is a walk over splices. -/
lemma replaceFrom_eq_spliceFrom (ending : LineEnding) (i : ℕ) (lines : List SourceLine)
    (rs : List Replacement) :
    replaceFrom ending i lines rs =
      spliceFrom i lines (rs.map (Splice.map fun text => ⟨text, some ending⟩)) := by
  induction rs generalizing i lines with
  | nil => rfl
  | cons r rest ih =>
    obtain ⟨pos, len, new⟩ := r
    rw [replaceFrom, ih]
    rfl

/-- A text is cut into lines at every terminator, and nowhere else. -/
lemma parseLines_spec (line contents : Str) (hline : '\n' ∉ line ∧ '\r' ∉ line) :
    (parseLines line contents).flatMap
        (fun l => l.text ++ (l.ending.map LineEnding.asStr).getD []) = line ++ contents ∧
      (∀ l ∈ parseLines line contents, '\n' ∉ l.text ∧ '\r' ∉ l.text) ∧
      ∀ l ∈ (parseLines line contents).dropLast, l.ending ≠ none := by
  have hterminated : ∀ {line : Str} {e : LineEnding} {rest : List SourceLine} {s : Str},
      '\n' ∉ line ∧ '\r' ∉ line →
      rest.flatMap (fun l => l.text ++ (l.ending.map LineEnding.asStr).getD []) = s ∧
        (∀ l ∈ rest, '\n' ∉ l.text ∧ '\r' ∉ l.text) ∧ (∀ l ∈ rest.dropLast, l.ending ≠ none) →
      ((⟨line, some e⟩ : SourceLine) :: rest).flatMap
          (fun l => l.text ++ (l.ending.map LineEnding.asStr).getD []) = line ++ (e.asStr ++ s) ∧
        (∀ l ∈ (⟨line, some e⟩ : SourceLine) :: rest, '\n' ∉ l.text ∧ '\r' ∉ l.text) ∧
        ∀ l ∈ ((⟨line, some e⟩ : SourceLine) :: rest).dropLast, l.ending ≠ none := by
    rintro line e rest s hline ⟨rfl, htext, hend⟩
    refine ⟨by simp, by simpa using ⟨hline, htext⟩, fun l hl => ?_⟩
    obtain _ | ⟨x, rest⟩ := rest
    · simp at hl
    · rw [dropLast_cons_of_ne_nil (by simp)] at hl
      obtain rfl | hl := mem_cons.mp hl
      · simp
      · exact hend l hl
  have hnil : '\n' ∉ ([] : Str) ∧ '\r' ∉ ([] : Str) := by simp
  fun_induction parseLines line contents with
  | case1 => simp
  | case2 line h => simpa using hline
  | case3 line contents ih | case4 line contents _ ih | case5 line contents ih =>
    exact hterminated hline (ih hnil)
  | case6 line c contents _ hcr hlf ih =>
    have hc : '\n' ∉ line ++ [c] ∧ '\r' ∉ line ++ [c] := by
      simp only [mem_append, mem_singleton, not_or]
      exact ⟨⟨hline.1, fun h => hlf h.symm⟩, hline.2, fun h => hcr h.symm⟩
    simpa using ih hc

/-- Changes the second line of a file, after a context line. -/
def secondLinePatch : Str :=
  "*** Begin Patch\n*** Update File: f\n@@\n x\n-y\n+z\n*** End Patch"

/-- Changes the second of two lines. -/
def secondLineChunk : UpdateFileChunk :=
  ⟨none, ["x", "y"], ["x", "z"], [(0, 0)], false⟩

/-- Removes the last line of a file, with an empty line for the newline. -/
def newlinePatch : Str :=
  "*** Begin Patch\n*** Update File: f\n@@\n a\n \n-x\n-\n*** End Patch"

/-- Context, a blank line of it, and two lines that go. -/
def newlineBody : Interleaving :=
  [(.context, "a"), (.context, []), (.remove, "x"), (.remove, [])]

/-- Replaces the one line of a file, with an empty line for the newline on either side. -/
def newlinesPatch : Str :=
  "*** Begin Patch\n*** Update File: f\n@@\n-a\n-\n+b\n+\n*** End Patch"

/-- Two lines in place of two, each with a blank one. -/
def newlinesBody : Interleaving :=
  [(.remove, "a"), (.remove, []), (.add, "b"), (.add, [])]

end ApplyPatch
