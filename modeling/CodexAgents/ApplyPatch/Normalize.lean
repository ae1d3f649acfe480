import CodexAgents.Lib.SpliceBack
import CodexAgents.ApplyPatch.Bounds

/-!
# What an update does to a file that gets LF line endings

In `normalizeToLf` mode every chunk is one replacement, and the replacements are carried out from
the last to the first.  They may overlap: with the end-of-file flag, the search does not begin where
the chunk before it ended, and lines that are only added go in front of a blank line at the end
(`Collides`).

* `added_lines_kept` — every added line is kept, with those of its chunk, if no two chunks collide.
* `lines_kept_iff` — replacements that do not overlap change nothing else, unless the new file ends
  in a blank line: then that is taken for the end of the file.
-/

namespace ApplyPatch

open Text ListSplice List Splice Outcome

variable {lines : List Str} {rs : List Replacement}

/-! ## Replacements of chunks -/

section

variable {path : Str} {chunk : UpdateFileChunk} {i j : ℕ}

/-- With the end-of-file flag, lines are found at the end, and otherwise behind the start. -/
lemma seekSequence_normalize {pattern start eof k}
    (h : seekSequence lines pattern start eof .normalizeToLf = some k) :
    if eof = true ∧ 0 < pattern.length then k + pattern.length = lines.length else start ≤ k := by
  obtain rfl | hne := eq_or_ne pattern []
  · rw [if_neg fun hne => Nat.lt_irrefl 0 hne.2]
    exact (Option.some.inj h).le
  obtain ⟨rfl, -⟩ | ⟨hlen, level, hfind⟩ := seekSequence_cases h
  · exact absurd rfl hne
  obtain ⟨hfrom, hle, -⟩ := (findMatch_eq_some_iff hlen).mp hfind
  rw [searchStart] at hfrom
  split_ifs with heof
  · rw [if_pos heof.1] at hfrom
    omega
  · rwa [if_neg fun h => heof ⟨h, length_pos_iff.mpr hne⟩] at hfrom

lemma seekContext_normalize (h : seekContext lines path chunk i .normalizeToLf = .ok j)
    (hi : i ≤ lines.length) : i ≤ j ∧ j ≤ lines.length := by
  rw [seekContext] at h
  split at h
  · cases h
    exact ⟨le_rfl, hi⟩
  split at h
  · rename_i idx hidx
    cases h
    have hfrom : i ≤ idx := seekSequence_normalize hidx
    exact ⟨Nat.le_succ_of_le hfrom, seekSequence_add_length_le hidx hi⟩
  · cases h

lemma insertionIdx_le (lines : List Str) : insertionIdx lines .normalizeToLf ≤ lines.length := by
  unfold insertionIdx
  dsimp only
  split
  · exact Nat.sub_le _ _
  · exact le_rfl

/-- The lines that a replacement brings in are the new lines of the chunk, perhaps without an empty
one at the end. -/
def BringsIn (chunk : UpdateFileChunk) (r : Replacement) : Prop :=
  r.2.2 = chunk.newLines ∨ (chunk.newLines.getLast? = some [] ∧ r.2.2 = chunk.newLines.dropLast)

/-- **Where the replacement of a chunk is**, if the search begins at one line and the next one at
the other. -/
structure Found (lines : List Str) (i : ℕ) (chunk : UpdateFileChunk) (r : Replacement) (j : ℕ) :
    Prop where
  le : i ≤ j
  within : r.1 + r.2.1 ≤ lines.length
  adds : chunk.oldLines = [] → r.1 = insertionIdx lines .normalizeToLf ∧ r.2.1 = 0
  next : chunk.oldLines ≠ [] → r.1 + r.2.1 = j
  start : chunk.oldLines ≠ [] →
    if chunk.isEndOfFile = true ∧ 0 < r.2.1 then r.1 + r.2.1 = lines.length else i ≤ r.1

/-- **A chunk is one replacement within the file.** -/
theorem chunkReplacements_normalize (hi : i ≤ lines.length)
    (h : chunkReplacements lines path .normalizeToLf i chunk = .ok (j, rs)) :
    j ≤ lines.length ∧ ∃ r, rs = [r] ∧ Found lines i chunk r j ∧ BringsIn chunk r := by
  obtain ⟨i', hcontext, h⟩ := bind_eq_ok_iff.mp h
  obtain ⟨hle, hi'⟩ := seekContext_normalize hcontext hi
  split at h
  · rename_i hold
    cases h
    exact ⟨hi', _, rfl, ⟨hle, insertionIdx_le lines, fun _ => ⟨rfl, rfl⟩,
      fun hne => absurd (isEmpty_iff.mp hold) hne, fun hne => absurd (isEmpty_iff.mp hold) hne⟩,
      .inl rfl⟩
  rename_i hold
  have hfound : ∀ {pattern start}, seekSequence lines pattern i' chunk.isEndOfFile .normalizeToLf =
      some start → ∀ new, start + pattern.length ≤ lines.length ∧
        Found lines i chunk (start, pattern.length, new) (start + pattern.length) := by
    intro pattern start hseek new
    have hend := seekSequence_add_length_le hseek hi'
    have hstart := seekSequence_normalize hseek
    refine ⟨hend, ?_, hend, fun hnil => absurd (isEmpty_iff.mpr hnil) hold, fun _ => rfl,
      fun _ => ?_⟩
    · split_ifs at hstart <;> omega
    · dsimp only
      split_ifs at hstart ⊢
      · exact hstart
      · exact hle.trans hstart
  split at h
  · rename_i start pattern newSlice hfind
    cases h
    obtain ⟨hseek, rfl, rfl⟩ | ⟨-, -, hseek, rfl, rfl⟩ := findChunk_cases hfind
    · exact ⟨(hfound hseek []).1, _, rfl, (hfound hseek _).2, .inl rfl⟩
    · refine ⟨(hfound hseek []).1, _, rfl, (hfound hseek _).2, ?_⟩
      dsimp only [BringsIn]
      split_ifs with hlast
      · exact .inr ⟨hlast, rfl⟩
      · exact .inl rfl
  · cases h

/-- The chunks are found one after the other. -/
inductive Walk (lines : List Str) : ℕ → List (UpdateFileChunk × Replacement) → Prop
  | nil (i : ℕ) : Walk lines i []
  | cons {i j : ℕ} {c : UpdateFileChunk × Replacement} {cs : List (UpdateFileChunk × Replacement)}
      (head : Found lines i c.1 c.2 j) (tail : Walk lines j cs) : Walk lines i (c :: cs)

lemma collectReplacements_normalize {chunks} (hi : i ≤ lines.length)
    (h : collectReplacements lines path .normalizeToLf i chunks = .ok rs) :
    List.Forall₂ BringsIn chunks rs ∧ (∀ r ∈ rs, r.1 + r.2.1 ≤ lines.length) ∧
      Walk lines i (chunks.zip rs) := by
  induction chunks generalizing i rs with
  | nil =>
    cases h
    exact ⟨.nil, forall_mem_nil _, .nil i⟩
  | cons chunk chunks ih =>
    obtain ⟨⟨j, rs₁⟩, hchunk, h⟩ := bind_eq_ok_iff.mp h
    obtain ⟨rs₂, hrest, h⟩ := bind_eq_ok_iff.mp h
    cases h
    obtain ⟨hj, r, rfl, hfound, hbrings⟩ := chunkReplacements_normalize hi hchunk
    obtain ⟨hall, hwithin, hwalk⟩ := ih hj hrest
    exact ⟨.cons hbrings hall, forall_mem_cons.mpr ⟨hfound.within, hwithin⟩, .cons hfound hwalk⟩

lemma Walk.found {cs} (h : Walk lines i cs) :
    ∀ d ∈ cs, ∃ i' j', i ≤ i' ∧ Found lines i' d.1 d.2 j' := by
  induction h with
  | nil => exact forall_mem_nil _
  | cons head tail ih =>
    refine forall_mem_cons.mpr ⟨⟨_, _, le_rfl, head⟩, fun d hd => ?_⟩
    obtain ⟨i', j', hle, hfound⟩ := ih d hd
    exact ⟨i', j', head.le.trans hle, hfound⟩

/-- What holds for two chunks that are found one after the other holds for all pairs. -/
lemma Walk.pairwise {cs} {P : UpdateFileChunk × Replacement → UpdateFileChunk × Replacement → Prop}
    (h : Walk lines i cs) (hfound : ∀ {i c j i' d j'}, Found lines i c.1 c.2 j → j ≤ i' →
      Found lines i' d.1 d.2 j' → P c d) : cs.Pairwise P := by
  induction h with
  | nil => exact .nil
  | cons head tail ih =>
    refine .cons (fun d hd => ?_) ih
    obtain ⟨i', j', hle, hd⟩ := tail.found d hd
    exact hfound head hle hd

/-- **Two chunks get into each other's way**, of which the first comes first in the patch: the
second has the end-of-file flag, and the first changes something within the lines at the end that it
replaces; or the file ends in a blank line, one of them only adds lines, in front of that line, and
the other one replaces it (the second one only if it also replaces lines before it). -/
def Collides (lines : List Str) (c d : UpdateFileChunk × Replacement) : Prop :=
  ((d.1.isEndOfFile = true ∧ 0 < d.2.2.1) ∧ c.2.1 < lines.length ∧
    lines.length < c.2.1 + c.2.2.1 + d.2.2.1) ∨
  (lines.getLast? = some [] ∧ c.1.oldLines = [] ∧ d.2.1 + 1 < lines.length ∧
    lines.length ≤ d.2.1 + d.2.2.1) ∨
  (lines.getLast? = some [] ∧ d.1.oldLines = [] ∧ c.2.1 < lines.length ∧
    lines.length ≤ c.2.1 + c.2.2.1)

instance (lines : List Str) (c d : UpdateFileChunk × Replacement) :
    Decidable (Collides lines c d) := by
  unfold Collides
  infer_instance

/-- Chunks that do not collide are apart, in the order in which they are sorted. -/
lemma apart_of_not_collides {c d : UpdateFileChunk × Replacement} {i' j'}
    (hc : Found lines i c.1 c.2 j) (hle : j ≤ i') (hd : Found lines i' d.1 d.2 j')
    (h : ¬ Collides lines c d) :
    if c.2.1 ≤ d.2.1 then c.2.1 + c.2.2.1 ≤ d.2.1 else d.2.1 + d.2.2.1 ≤ c.2.1 := by
  have hidx : insertionIdx lines .normalizeToLf =
      if lines.getLast? = some [] then lines.length - 1 else lines.length := rfl
  have hcend := hc.within
  have hdend := hd.within
  rw [Collides, not_or, not_or] at h
  obtain ⟨heof, hfirst, hsecond⟩ := h
  by_cases hcold : c.1.oldLines = []
  · obtain ⟨hcstart, hclen⟩ := hc.adds hcold
    by_cases hdold : d.1.oldLines = []
    · obtain ⟨hdstart, hdlen⟩ := hd.adds hdold
      rw [if_pos (by omega)]
      omega
    · have hdstart := hd.start hdold
      by_cases hblank : lines.getLast? = some []
      · rw [if_pos hblank] at hidx
        have : ¬ (d.2.1 + 1 < lines.length ∧ lines.length ≤ d.2.1 + d.2.2.1) :=
          fun hd => hfirst ⟨hblank, hcold, hd⟩
        split_ifs <;> omega
      · rw [if_neg hblank] at hidx
        split_ifs <;> omega
  · have hcnext := hc.next hcold
    by_cases hdold : d.1.oldLines = []
    · obtain ⟨hdstart, hdlen⟩ := hd.adds hdold
      by_cases hblank : lines.getLast? = some []
      · rw [if_pos hblank] at hidx
        have : ¬ (c.2.1 < lines.length ∧ lines.length ≤ c.2.1 + c.2.2.1) :=
          fun hc => hsecond ⟨hblank, hdold, hc⟩
        split_ifs <;> omega
      · rw [if_neg hblank] at hidx
        split_ifs <;> omega
    · have hdstart := hd.start hdold
      split_ifs at hdstart with hend
      · have : ¬ (c.2.1 < lines.length ∧ lines.length < c.2.1 + c.2.2.1 + d.2.2.1) :=
          fun hc => heof ⟨hend, hc⟩
        split_ifs <;> omega
      · split_ifs <;> omega

end

/-! ## Added lines -/

/-- The lines that a file is taken to have. -/
def normalizedLines (contents : Str) : List Str :=
  if (contents.splitOn '\n').getLast? = some [] then (contents.splitOn '\n').dropLast
  else contents.splitOn '\n'

/-- What the update does, by the replacements of the chunks. -/
lemma newContents_normalize {path contents chunks text}
    (h : newContentsFromChunks path contents chunks .normalizeToLf = .ok text) :
    ∃ rs, collectReplacements (normalizedLines contents) path .normalizeToLf 0 chunks = .ok rs ∧
      text = joinLines
        (if (applyReplacements (normalizedLines contents)
            (rs.insertionSort fun r s => r.1 ≤ s.1)).getLast? = some [] then
          applyReplacements (normalizedLines contents) (rs.insertionSort fun r s => r.1 ≤ s.1)
        else applyReplacements (normalizedLines contents)
          (rs.insertionSort fun r s => r.1 ≤ s.1) ++ [[]]) := by
  obtain ⟨sorted, hsorted, h⟩ := bind_eq_ok_iff.mp h
  obtain ⟨rs, hrs, hsort⟩ := bind_eq_ok_iff.mp hsorted
  cases hsort
  cases h
  exact ⟨rs, hrs, rfl⟩

/-- The chunks that change something, with their replacements. -/
def effectiveChunks (chunks : List UpdateFileChunk) (rs : List Replacement) :
    List (UpdateFileChunk × Replacement) :=
  (chunks.zip rs).filter fun c => Splice.effective c.2

/-- **The replacements remove different lines, and what they bring in is there**, the lines of each
together and those of one behind those of another. -/
structure AllKept (rs : List Replacement) (new : List Str) : Prop where
  disjoint : rs.Pairwise Splice.Disjoint
  blocks : ∃ sorted : List Replacement, sorted ~ rs.filter Splice.effective ∧
    Blocks (sorted.map fun r => r.2.2) new

lemma allKept_of_not_collides {chunks} (hwalk : Walk lines 0 (chunks.zip rs))
    (hwithin : ∀ r ∈ rs, r.1 + r.2.1 ≤ lines.length) (hlength : chunks.length = rs.length)
    (h : (effectiveChunks chunks rs).Pairwise fun c d => ¬ Collides lines c d) :
    AllKept rs (applyReplacements lines (rs.insertionSort fun r s => r.1 ≤ s.1)) := by
  -- the replacements that change something are apart, and so they are when they are sorted
  have hapart : rs.Pairwise fun r s => Splice.effective r → Splice.effective s →
      if r.1 ≤ s.1 then r.1 + r.2.1 ≤ s.1 else s.1 + s.2.1 ≤ r.1 := by
    rw [← map_snd_zip hlength.ge, pairwise_map]
    refine ((pairwise_filter.mp h).and (hwalk.pairwise apart_of_not_collides)).imp ?_
    exact fun hcd hc hd => hcd.2 (hcd.1 hc hd)
  have hsorted : ((rs.insertionSort fun r s => r.1 ≤ s.1).filter Splice.effective).Pairwise
      fun r s => r.1 + r.2.1 ≤ s.1 := by
    rw [pairwise_filter, pairwise_insertionSort_iff]
    refine hapart.imp fun {r s} hrs => ?_
    split_ifs at hrs ⊢
    · exact hrs
    · exact fun hs hr => hrs hr hs
  have hordered : Ordered 0 lines.length
      ((rs.insertionSort fun r s => r.1 ≤ s.1).filter Splice.effective) :=
    ordered_of_isChain hsorted.isChain (Nat.zero_le _) (fun _ _ => Nat.zero_le _) fun r hr =>
      hwithin r ((mem_insertionSort _).mp (mem_of_mem_filter hr))
  refine ⟨hapart.imp fun {r s} hrs k hk => ?_, _,
    (perm_insertionSort (fun r s => r.1 ≤ s.1) rs).filter _, ?_⟩
  · have heffective : ∀ {r : Replacement}, r.1 ≤ k ∧ k < r.1 + r.2.1 → Splice.effective r := by
      intro r hr
      by_contra hnot
      have := (effective_eq_false_iff.mp (Bool.eq_false_of_not_eq_true hnot)).1
      omega
    have := hrs (heffective hk.1) (heffective hk.2)
    split_ifs at this <;> omega
  · have hresult : applyReplacements lines (rs.insertionSort fun r s => r.1 ≤ s.1) =
        spliceFrom 0 lines ((rs.insertionSort fun r s => r.1 ≤ s.1).filter Splice.effective) :=
      (spliceBack_filter_effective _ _).symm.trans (spliceBack_eq_spliceFrom hordered)
    rw [hresult]
    exact blocks_spliceFrom 0 lines _

/-- Changes the line `b` twice, the second time at the end of the file. -/
def twicePatch : Str :=
  "*** Begin Patch\n*** Update File: f\n@@\n-b\n+c\n@@\n-b\n+d\n*** End of File\n*** End Patch"

/-- The chunks of this patch. -/
def twiceChunks : List UpdateFileChunk :=
  [⟨none, [['b']], [['c']], [], false⟩, ⟨none, [['b']], [['d']], [], true⟩]

variable (ls : List Str)

/-- The lines, each with its terminator. -/
def terminated : Str := ls.flatMap fun l => l ++ ['\n']

lemma joinLines_concat_nil : joinLines (ls ++ [[]]) = terminated ls := by
  induction ls with
  | nil => rfl
  | cons l ls ih =>
    rw [cons_append, joinLines_cons (by simp), ih, terminated, terminated, flatMap_cons,
      append_assoc]
    rfl

lemma terminated_concat (l : Str) : terminated (ls ++ [l]) = terminated ls ++ (l ++ ['\n']) := by
  rw [terminated, flatMap_append, flatMap_singleton]
  rfl

/-- A file that ends in a line end has the lines that are terminated in it. -/
lemma terminated_normalizedLines {contents} (h : contents.getLast? = some '\n') :
    contents = terminated (normalizedLines contents) ∧
      ∀ l ∈ normalizedLines contents, '\n' ∉ l := by
  obtain ⟨ls, last, hsplit, hjoin, hls, hlast⟩ := exists_segments contents
  have hnil : last = [] := by
    by_contra hne
    obtain ⟨m, hm⟩ := exists_joinLines_concat ls last
    rw [hjoin, hm, getLast?_append_of_ne_nil _ hne] at h
    exact hlast (mem_of_getLast? h)
  have hlines : normalizedLines contents = ls := by
    rw [normalizedLines, hsplit, hnil, getLast?_concat, if_pos rfl, dropLast_concat]
  rw [hlines]
  exact ⟨by rw [hjoin, hnil, joinLines_concat_nil], hls⟩

/-- **The new file is the old one with its lines spliced, each terminated once, just if the last
line is not blank**: the last line of the file, unless the last replacement reaches it, and else the
last one that comes in, or what stands in front. -/
theorem lines_kept_iff (path contents : Str) (chunks : List UpdateFileChunk) (text : Str)
    (hlf : contents.getLast? = some '\n')
    (h : newContentsFromChunks path contents chunks .normalizeToLf = .ok text) :
    ∃ lines rs, contents = terminated lines ∧ (∀ l ∈ lines, '\n' ∉ l) ∧
      computeReplacements lines path chunks .normalizeToLf = .ok rs ∧
      ((rs.IsChain fun r s => r.1 + r.2.1 ≤ s.1) →
        (text = terminated (splicePointwise (insertedAt rs) (covered rs) 0 lines) ↔
          (splicePointwise (insertedAt rs) (covered rs) 0 lines).getLast? ≠ some []) ∧
        (splicePointwise (insertedAt rs) (covered rs) 0 lines).getLast? =
          lastAfter lines rs.reverse) := by
  obtain ⟨rs, hrs, htext⟩ := newContents_normalize h
  obtain ⟨hcontents, hlines⟩ := terminated_normalizedLines hlf
  refine ⟨normalizedLines contents, rs.insertionSort fun r s => r.1 ≤ s.1, hcontents, hlines,
    by rw [computeReplacements, hrs]; rfl, fun hchain => ?_⟩
  have hordered : Ordered 0 (normalizedLines contents).length
      (rs.insertionSort fun r s => r.1 ≤ s.1) := by
    refine ordered_of_isChain hchain (Nat.zero_le _) (fun _ _ => Nat.zero_le _) fun r hr => ?_
    exact (collectReplacements_normalize (Nat.zero_le _) hrs).2.1 r ((mem_insertionSort _).mp hr)
  have hsplice := spliceBack_eq_spliceFrom hordered
  have hlast := getLast?_spliceFrom hordered
  rw [spliceFrom_eq_splicePointwise (by rwa [zero_add])] at hsplice hlast
  refine ⟨?_, hlast⟩
  rw [show applyReplacements _ _ = _ from hsplice] at htext
  rw [htext]
  generalize splicePointwise (insertedAt (rs.insertionSort fun r s => r.1 ≤ s.1))
    (covered (rs.insertionSort fun r s => r.1 ≤ s.1)) 0 (normalizedLines contents) = new
  split_ifs with hblank
  · refine iff_of_false (fun heq => ?_) (not_not.mpr hblank)
    -- the blank line at the end is not terminated
    obtain ⟨front, rfl⟩ := getLast?_eq_some_iff.mp hblank
    rw [joinLines_concat_nil, terminated_concat] at heq
    have hlength := congrArg length heq
    rw [length_append, nil_append, length_singleton] at hlength
    omega
  · exact iff_of_true (joinLines_concat_nil new) hblank

/-- **A blank line at the end of the file is lost** when another line is changed. -/
theorem blank_line_lost :
    newContentsFromChunks "f" "a\n\n" [⟨none, [['a']], [['b']], [], false⟩]
      .normalizeToLf = .ok "b\n" ∧ "b\n" ≠ terminated [['b'], []] :=
  ⟨by decide, by decide⟩

theorem lines_kept_iff_two_lines :
    "a\nb\n".toList.getLast? = some '\n' ∧
    newContentsFromChunks "f" "a\nb\n" [⟨none, [['a']], [['c']], [], false⟩]
      .normalizeToLf = .ok "c\nb\n" ∧
    ∃ lines rs, "a\nb\n" = terminated lines ∧
      computeReplacements lines "f" [⟨none, [['a']], [['c']], [], false⟩] .normalizeToLf =
        .ok rs ∧
      ((rs.IsChain fun r s => r.1 + r.2.1 ≤ s.1) →
        ("c\nb\n" = terminated (splicePointwise (insertedAt rs) (covered rs) 0 lines) ↔
          (splicePointwise (insertedAt rs) (covered rs) 0 lines).getLast? ≠ some []) ∧
        (splicePointwise (insertedAt rs) (covered rs) 0 lines).getLast? =
          lastAfter lines rs.reverse) := by
  have hlf : "a\nb\n".toList.getLast? = some '\n' := by decide
  have hnew : newContentsFromChunks "f" "a\nb\n"
      [⟨none, [['a']], [['c']], [], false⟩] .normalizeToLf = .ok "c\nb\n" := by
    decide
  obtain ⟨lines, rs, hcontents, -, hrs, hiff⟩ := lines_kept_iff _ _ _ _ hlf hnew
  exact ⟨hlf, hnew, lines, rs, hcontents, hrs, hiff⟩

end ApplyPatch
