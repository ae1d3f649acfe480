import CodexAgents.StreamParser.InlineHiddenTag

/-!
# Where a stream of tagged text is cut

The parser of hidden tags is meant for text that is cut anywhere.  With several tags it is right
about all texts and all cuts just if no opening delimiter is complete before another that it stands
inside (`collectChunks_eq_iff`).

If one is, then the parser opens it as soon as it is there, and with the rest of the longer one it
would have opened that.  Cut before its last character, the longer delimiter is read in another way;
and if what is shown and extracted happens to be the same, then it is not with one more character.
-/

namespace StreamParser

open Text Search List

variable {T : Type} {specs : List (InlineTagSpec T)}

namespace InlineHiddenTagParser

/-- All that is put out for the chunks and at the end. -/
def collectChunks (p : InlineHiddenTagParser specs) :
    List Str → StreamTextChunk (ExtractedInlineTag T)
  | [] => p.finish.1
  | chunk :: chunks => (p.pushStr chunk).1 ++ (p.pushStr chunk).2.collectChunks chunks

end InlineHiddenTagParser

open InlineHiddenTagParser

/-! ## Cuts that do not matter -/

lemma collectChunks_flatten (hprompt : Prompt specs) (p : InlineHiddenTagParser specs)
    (chunk : Str) (chunks : List Str) :
    p.collectChunks (chunk :: chunks) = p.collectChunks [chunk ++ chunks.flatten] := by
  induction chunks generalizing p chunk with
  | nil => rw [flatten_nil, append_nil]
  | cons next chunks ih =>
    rw [flatten_cons, ← append_assoc, ← ih, collectChunks, collectChunks, collectChunks,
      pushStr_append hprompt, StreamTextChunk.append_assoc]

/-! ## The next delimiter -/

variable {pending : Str} {pos : Nat} {idx : Fin specs.length}

/-- **The leftmost delimiter is opened, and of those at one place the longest.** -/
theorem findNextOpen_leftmost (h : findNextOpen specs pending = some (pos, idx)) :
    OccursAt (specs.get idx).openDelimiter pending pos ∧
      ∀ (idx' : Fin specs.length) (pos' : Nat),
        OccursAt (specs.get idx').openDelimiter pending pos' → pos < pos' ∨ pos = pos' ∧
          (specs.get idx').openDelimiter.length ≤ (specs.get idx).openDelimiter.length := by
  obtain ⟨hfind, hfirst⟩ := findNextOpen_eq_some_iff.mp h
  refine ⟨((find_eq_some_iff (specs.get idx).open_ne_nil).mp hfind).1, fun idx' pos' hocc => ?_⟩
  have hne' := (specs.get idx').open_ne_nil
  rcases hfind' : find (specs.get idx').openDelimiter pending with _ | first
  · exact absurd hocc ((find_eq_none_iff hne').mp hfind' pos')
  · have hle : first ≤ pos' :=
      not_lt.mp fun hlt => ((find_eq_some_iff hne').mp hfind').2 pos' hlt hocc
    have hprecedes := precedence_le_iff.mp (hfirst idx' first hfind')
    rw [get_eq_getElem, get_eq_getElem]
    dsimp only [Fin.getElem_fin] at hprecedes ⊢
    omega

lemma exists_findNextOpen (h : OccursAt (specs.get idx).openDelimiter pending pos) :
    ∃ pos' idx', findNextOpen specs pending = some (pos', idx') ∧
      OccursAt (specs.get idx').openDelimiter pending pos' ∧
      (pos' < pos ∨ pos' = pos ∧
        (specs.get idx).openDelimiter.length ≤ (specs.get idx').openDelimiter.length) := by
  rcases hnext : findNextOpen specs pending with _ | ⟨pos', idx'⟩
  · have hnone := findNextOpen_eq_none_iff.mp hnext idx
    exact absurd h ((find_eq_none_iff (specs.get idx).open_ne_nil).mp hnone pos)
  · obtain ⟨hocc, hleftmost⟩ := findNextOpen_leftmost hnext
    exact ⟨pos', idx', rfl, hocc, hleftmost idx pos h⟩

/-! ## One chunk -/

section

variable {pending chunk : Str} {active : ActiveTag T}

lemma collectChunks_open {pos idx}
    (h : findNextOpen specs (pending ++ chunk) = some (pos, idx)) (chunks : List Str) :
    (⟨pending, none⟩ : InlineHiddenTagParser specs).collectChunks (chunk :: chunks) =
      ⟨(pending ++ chunk).take pos, []⟩ ++
        (⟨[], some (opened idx)⟩ : InlineHiddenTagParser specs).collectChunks
          ((pending ++ chunk).drop (pos + (specs.get idx).openDelimiter.length) :: chunks) := by
  have hout := pushLoop_append_out specs
    ((pending ++ chunk).drop (pos + (specs.get idx).openDelimiter.length)) (some (opened idx))
    ⟨(pending ++ chunk).take pos, []⟩ {}
  rw [StreamTextChunk.append_empty] at hout
  have hloop : pushLoop specs (pending ++ chunk) none {} = _ := (pushLoop_open h).trans hout
  rw [collectChunks, pushStr]
  dsimp only
  rw [hloop]
  exact StreamTextChunk.append_assoc ..

lemma collectChunks_close {closeIdx}
    (h : find active.close (pending ++ chunk) = some closeIdx) (chunks : List Str) :
    (⟨pending, some active⟩ : InlineHiddenTagParser specs).collectChunks (chunk :: chunks) =
      ⟨[], [⟨active.tag, active.content ++ (pending ++ chunk).take closeIdx⟩]⟩ ++
        ({} : InlineHiddenTagParser specs).collectChunks
          ((pending ++ chunk).drop (closeIdx + active.close.length) :: chunks) := by
  have hout := pushLoop_append_out specs
    ((pending ++ chunk).drop (closeIdx + active.close.length)) none
    ⟨[], [⟨active.tag, active.content ++ (pending ++ chunk).take closeIdx⟩]⟩ {}
  rw [StreamTextChunk.append_empty] at hout
  rw [collectChunks, pushStr]
  dsimp only
  rw [(pushLoop_close h).trans hout]
  exact StreamTextChunk.append_assoc ..

lemma collectChunks_inside (specs : List (InlineTagSpec T))
    (h : find active.close (pending ++ chunk) = none) :
    ∃ pending' content, content ++ pending' = active.content ++ (pending ++ chunk) ∧ ∀ chunks,
      (⟨pending, some active⟩ : InlineHiddenTagParser specs).collectChunks (chunk :: chunks) =
        (⟨pending', some { active with content := content }⟩ :
          InlineHiddenTagParser specs).collectChunks chunks := by
  let take := (pending ++ chunk).length - longestSuffixPrefixLen (pending ++ chunk) active.close
  refine ⟨(pending ++ chunk).drop take, active.content ++ (pending ++ chunk).take take, ?_, ?_⟩
  · rw [append_assoc, take_append_drop]
  · intro chunks
    rw [collectChunks, pushStr]
    dsimp only
    rw [pushLoop_inside h]
    exact StreamTextChunk.empty_append _

lemma collectChunks_outside (h : findNextOpen specs (pending ++ chunk) = none) :
    ∃ visible pending', visible ++ pending' = pending ++ chunk ∧ ∀ chunks,
      (⟨pending, none⟩ : InlineHiddenTagParser specs).collectChunks (chunk :: chunks) =
        ⟨visible, []⟩ ++ (⟨pending', none⟩ : InlineHiddenTagParser specs).collectChunks chunks := by
  let take := (pending ++ chunk).length - maxOpenPrefixSuffixLen specs (pending ++ chunk)
  refine ⟨(pending ++ chunk).take take, (pending ++ chunk).drop take, ?_, ?_⟩
  · exact take_append_drop _ _
  · intro chunks
    rw [collectChunks, pushStr]
    dsimp only
    rw [pushLoop_outside h]
    rfl

end

/-! ## What is put out in all -/

lemma StreamTextChunk.eq_empty {a : StreamTextChunk T} (hvisible : a.visibleText = [])
    (hextracted : a.extracted = []) : a = {} := by
  obtain ⟨visible, extracted⟩ := a
  obtain rfl : visible = [] := hvisible
  obtain rfl : extracted = [] := hextracted
  rfl

lemma StreamTextChunk.append_eq_empty {a b : StreamTextChunk T} (h : a ++ b = {}) :
    a = {} ∧ b = {} := by
  obtain ⟨hvisible, hvisible'⟩ := append_eq_nil_iff.mp (congrArg StreamTextChunk.visibleText h)
  obtain ⟨hextracted, hextracted'⟩ := append_eq_nil_iff.mp (congrArg StreamTextChunk.extracted h)
  exact ⟨eq_empty hvisible hextracted, eq_empty hvisible' hextracted'⟩

/-- A tag that has been opened is extracted, at the end if not before. -/
lemma extracted_ne_nil (pending : Str) (active : ActiveTag T) (chunks : List Str) :
    ((⟨pending, some active⟩ : InlineHiddenTagParser specs).collectChunks chunks).extracted
      ≠ [] := by
  induction chunks generalizing pending active with
  | nil => exact cons_ne_nil _ _
  | cons chunk chunks ih =>
    rcases hclose : find active.close (pending ++ chunk) with _ | closeIdx
    · obtain ⟨pending', content, -, heq⟩ := collectChunks_inside specs hclose
      rw [heq]
      exact ih pending' _
    · rw [collectChunks_close hclose]
      exact cons_ne_nil _ _

variable {chunks : List Str}

/-- **If nothing is put out, there was nothing.** -/
theorem nothing_read (h : (⟨pending, none⟩ : InlineHiddenTagParser specs).collectChunks chunks = {})
    (more : List Str) :
    pending ++ chunks.flatten = [] ∧
      (⟨pending, none⟩ : InlineHiddenTagParser specs).collectChunks (chunks ++ more) =
        ({} : InlineHiddenTagParser specs).collectChunks more := by
  induction chunks generalizing pending with
  | nil =>
    have hpending : pending = [] := congrArg StreamTextChunk.visibleText h
    subst hpending
    exact ⟨rfl, rfl⟩
  | cons chunk chunks ih =>
    rcases hopen : findNextOpen specs (pending ++ chunk) with _ | ⟨pos, idx⟩
    · obtain ⟨visible, pending', htext, heq⟩ := collectChunks_outside hopen
      rw [heq] at h
      obtain ⟨hnone, hrest⟩ := StreamTextChunk.append_eq_empty h
      obtain rfl : visible = [] := congrArg StreamTextChunk.visibleText hnone
      obtain ⟨hempty, hmore⟩ := ih hrest
      refine ⟨?_, ?_⟩
      · rw [flatten_cons, ← append_assoc, ← htext]
        exact hempty
      · rw [cons_append, heq, hmore]
        rfl
    · rw [collectChunks_open hopen] at h
      have hextracted := congrArg StreamTextChunk.extracted (StreamTextChunk.append_eq_empty h).2
      exact absurd hextracted (extracted_ne_nil _ _ _)

/-- **If a tag is all that is put out, and it is empty, then it was closed** at the end of the text:
the parser is as it was at the start. -/
theorem closed_at_end {active tag}
    (htext : active.content ++ (pending ++ chunks.flatten) ≠ [])
    (h : (⟨pending, some active⟩ : InlineHiddenTagParser specs).collectChunks chunks =
      ⟨[], [⟨tag, []⟩]⟩) (more : List Str) :
    (⟨pending, some active⟩ : InlineHiddenTagParser specs).collectChunks (chunks ++ more) =
      ⟨[], [⟨tag, []⟩]⟩ ++ ({} : InlineHiddenTagParser specs).collectChunks more := by
  induction chunks generalizing pending active with
  | nil =>
    have hextracted := congrArg StreamTextChunk.extracted h
    simp only [collectChunks, finish, cons.injEq, ExtractedInlineTag.mk.injEq] at hextracted
    rw [flatten_nil, append_nil] at htext
    exact absurd hextracted.1.2 htext
  | cons chunk chunks ih =>
    rcases hclose : find active.close (pending ++ chunk) with _ | closeIdx
    · obtain ⟨pending', content, hkept, heq⟩ := collectChunks_inside specs hclose
      rw [heq] at h
      rw [cons_append, heq]
      refine ih ?_ h
      rw [← append_assoc, hkept, append_assoc, append_assoc]
      exact htext
    · rw [collectChunks_close hclose] at h
      have hextracted := congrArg StreamTextChunk.extracted h
      have hvisible := congrArg StreamTextChunk.visibleText h
      rw [StreamTextChunk.extracted_append] at hextracted
      obtain ⟨htag, hrest⟩ := cons_eq_cons.mp hextracted
      have hnothing : ({} : InlineHiddenTagParser specs).collectChunks
          ((pending ++ chunk).drop (closeIdx + active.close.length) :: chunks) = {} :=
        StreamTextChunk.eq_empty hvisible hrest
      rw [cons_append, collectChunks_close hclose, htag, ← cons_append,
        (nothing_read hnothing more).2]

/-! ## A delimiter, read at once -/

/-- A delimiter with at most one character behind it is read as one tag. -/
lemma collectChunks_whole (idx : Fin specs.length) (w : Str) (hw : w.length ≤ 1) :
    ∃ tag content, ({} : InlineHiddenTagParser specs).collectChunks
        [(specs.get idx).openDelimiter ++ w] = ⟨[], [⟨tag, content⟩]⟩ ∧
          (w = [] → content = []) := by
  have hocc : OccursAt (specs.get idx).openDelimiter ((specs.get idx).openDelimiter ++ w) 0 :=
    prefix_append _ w
  obtain ⟨pos, idx', hopen, -, hlt | ⟨rfl, hlength⟩⟩ := exists_findNextOpen hocc
  · exact absurd hlt (Nat.not_lt_zero pos)
  -- what is left of the text has one character at most
  let rest := ((specs.get idx).openDelimiter ++ w).drop (0 + (specs.get idx').openDelimiter.length)
  have hrest : rest.length ≤ w.length := by
    simp only [rest, length_drop, length_append]
    omega
  have hnil : w = [] → rest = [] := by
    rintro rfl
    exact eq_nil_of_length_eq_zero (Nat.le_zero.mp hrest)
  have hstart : ({} : InlineHiddenTagParser specs).collectChunks
      [(specs.get idx).openDelimiter ++ w] =
      {} ++ (⟨[], some (opened idx')⟩ : InlineHiddenTagParser specs).collectChunks [rest] :=
    collectChunks_open hopen []
  rw [hstart, StreamTextChunk.empty_append]
  rcases hclose : find (opened idx').close ([] ++ rest) with _ | closeIdx
  · obtain ⟨pending', content, hkept, heq⟩ := collectChunks_inside specs hclose
    refine ⟨(opened idx').tag, rest, (heq []).trans ?_, hnil⟩
    show (⟨[], [⟨(opened idx').tag, content ++ pending'⟩]⟩ :
      StreamTextChunk (ExtractedInlineTag T)) = _
    rw [hkept]
    rfl
  · have hend := add_length_le_of_find (opened idx').close_ne_nil hclose
    have hpos := length_pos_of_ne_nil (opened idx').close_ne_nil
    rw [nil_append] at hend
    obtain rfl : closeIdx = 0 := by omega
    have hdrop : ([] ++ rest).drop (0 + (opened idx').close.length) = [] :=
      drop_eq_nil_of_le (by rw [nil_append]; omega)
    refine ⟨(opened idx').tag, [], (collectChunks_close hclose []).trans ?_, fun _ => rfl⟩
    rw [hdrop, collectChunks, pushStr_nil]
    rfl

/-! ## A delimiter, cut before its end -/

/-- **A delimiter that is complete too early is seen.** -/
theorem prompt_of_collectChunks
    (h : ∀ chunks, ({} : InlineHiddenTagParser specs).collectChunks chunks =
      ({} : InlineHiddenTagParser specs).collectChunks [chunks.flatten]) : Prompt specs := by
  intro i j hwithin
  change (specs.get i).openDelimiter <:+: (specs.get j).openDelimiter.dropLast at hwithin
  obtain ⟨before, last, hopen⟩ : ∃ before last, (specs.get j).openDelimiter = before ++ [last] :=
    ⟨_, _, (dropLast_append_getLast (specs.get j).open_ne_nil).symm⟩
  rw [hopen, dropLast_concat] at hwithin
  obtain ⟨pos, hocc⟩ : ∃ pos, OccursAt (specs.get i).openDelimiter before pos := by
    obtain ⟨left, right, rfl⟩ := hwithin
    refine ⟨left.length, ?_⟩
    rw [OccursAt, append_assoc, drop_left]
    exact prefix_append _ right
  obtain ⟨pos, k, hnext, hocc, -⟩ := exists_findNextOpen hocc
  let rest := before.drop (pos + (specs.get k).openDelimiter.length)
  have hstart : ∀ chunks, ({} : InlineHiddenTagParser specs).collectChunks (before :: chunks) =
      ⟨before.take pos, []⟩ ++
        (⟨[], some (opened k)⟩ : InlineHiddenTagParser specs).collectChunks (rest :: chunks) :=
    collectChunks_open hnext
  -- what is put out is the same only if the tag that was opened early is closed in time
  obtain ⟨tag, content, hwhole, hcontent⟩ := collectChunks_whole j [] (Nat.zero_le 1)
  have hcut := h [before, [last]]
  have hflat : [before, [last]].flatten = (specs.get j).openDelimiter ++ [] := by
    rw [hopen, append_nil]
    rfl
  rw [hflat, hwhole, hcontent rfl, hstart] at hcut
  have hvisible := (append_eq_nil_iff.mp (congrArg StreamTextChunk.visibleText hcut)).1
  dsimp only at hvisible
  rw [hvisible] at hcut hstart
  have htext : (opened k).content ++ ([] ++ [rest, [last]].flatten) ≠ [] := by
    simp [opened]
  have hclosed := closed_at_end htext hcut [['a']]
  -- and then the next character is not part of it
  obtain ⟨tag', content', hwhole', -⟩ := collectChunks_whole j ['a'] (le_refl 1)
  have hcut' := h [before, [last], ['a']]
  have hflat' : [before, [last], ['a']].flatten = (specs.get j).openDelimiter ++ ['a'] := by
    rw [hopen, append_assoc]
    rfl
  rw [hflat', hwhole', hstart] at hcut'
  have hboth := hclosed.symm.trans hcut'
  have hextracted := congrArg StreamTextChunk.extracted hboth
  have hnothing := nothing_read (StreamTextChunk.eq_empty
    (congrArg StreamTextChunk.visibleText hboth) (cons_eq_cons.mp hextracted).2) []
  exact cons_ne_nil _ _ hnothing.1

/-- **Where the text is cut does not matter, just if no delimiter is complete too early.** -/
theorem collectChunks_eq_iff :
    ((∀ pending pos (idx : Fin specs.length), findNextOpen specs pending = some (pos, idx) →
        OccursAt (specs.get idx).openDelimiter pending pos ∧
          ∀ (idx' : Fin specs.length) pos', OccursAt (specs.get idx').openDelimiter pending pos' →
            pos < pos' ∨ pos = pos' ∧
              (specs.get idx').openDelimiter.length ≤ (specs.get idx).openDelimiter.length) ∧
      ∀ chunks, ({} : InlineHiddenTagParser specs).collectChunks chunks =
        ({} : InlineHiddenTagParser specs).collectChunks [chunks.flatten]) ↔
      Prompt specs := by
  refine ⟨fun h => prompt_of_collectChunks h.2, fun hprompt => ⟨?_, ?_⟩⟩
  · exact fun pending pos idx => findNextOpen_leftmost
  · rintro (_ | ⟨chunk, chunks⟩)
    · rw [flatten_nil, collectChunks, collectChunks, pushStr_nil]
      rfl
    · exact collectChunks_flatten hprompt {} chunk chunks

/-- One tag opens with `<a`, another with `<ab`. -/
def earlySpecs : List (InlineTagSpec Bool) :=
  [⟨false, "<a", "</a>", by decide, by decide⟩,
    ⟨true, "<ab", "</ab>", by decide, by decide⟩]

/-- **The second tag is cut**, and the first one is opened. -/
theorem earlySpecs_cut :
    ({} : InlineHiddenTagParser earlySpecs).collectChunks ["<a".toList, "bc".toList] =
      ⟨[], [⟨false, "bc".toList⟩]⟩ ∧
    ({} : InlineHiddenTagParser earlySpecs).collectChunks ["<abc".toList] =
      ⟨[], [⟨true, "c".toList⟩]⟩ := by
  have hfirst : findNextOpen earlySpecs ([] ++ "<a".toList) = some (0, ⟨0, by decide⟩) := by decide
  have hsecond : findNextOpen earlySpecs ([] ++ "<abc".toList) = some (0, ⟨1, by decide⟩) := by
    decide
  constructor
  · rw [collectChunks_open hfirst]
    simp only [collectChunks, pushStr]
    rw [pushLoop_inside (by decide)]
    dsimp only
    rw [pushLoop_inside (by decide)]
    rfl
  · rw [collectChunks_open hsecond]
    simp only [collectChunks, pushStr]
    rw [pushLoop_inside (by decide)]
    rfl

end StreamParser
