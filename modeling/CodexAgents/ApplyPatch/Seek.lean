import CodexAgents.ApplyPatch.FileUpdate

/-!
# Looking for lines

`seek_sequence` goes over the lines four times, each time with a looser notion of equality.  What it
finds is a match by the strictest notion for which there is one, and the first of those.

* `MatchLevel` — the four notions.  What matches at one of them matches at all looser ones
  (`MatchLevel.Matches.mono`): trimming a trimmed text changes nothing, and typographic variants are
  looked at after trimming.
* `seekSequence_strictest` — what is found, and when nothing is.
* `seekSequence_spec`, `seekContext_spec` — the bounds that the callers need.
-/

namespace ApplyPatch

open Text List Option

/-! ## Notions of equality -/

lemma trim_trimEnd (s : Str) : trim (trimEnd s) = trim s := by
  induction s using reverseRecOn with
  | nil => rfl
  | append_singleton s c ih =>
    by_cases hc : isWhitespace c = true
    · rw [trimEnd_concat_of_whitespace hc, ih, trim_concat_of_whitespace hc]
    · rw [trimEnd_concat_of_not (by simpa using hc)]

lemma trim_trim (s : Str) : trim (trim s) = trim s := by
  refine trim_eq_self (fun c hc => ?_) (trim_noTrailing s)
  have hnot := head?_dropWhile_not isWhitespace s
  rwa [show (s.dropWhile isWhitespace).head? = some c from head?_trimEnd hc] at hnot

variable {lines : List Str} {pattern : List Str}

/-- A match by a stricter notion of equality is a match by a looser one. -/
lemma matchesAt_mono {f g} (h : ∀ s, g (f s) = g s) {k}
    (hm : matchesAt f lines pattern k) : matchesAt g lines pattern k := by
  simp only [matchesAt, decide_eq_true_eq] at hm ⊢
  have hg := congrArg (map g) hm
  simpa only [List.map_map, Function.comp_def, h] using hg

lemma matchesAt_iff {f i} : matchesAt f lines pattern i ↔
      ∀ (k : ℕ) (pat : Str), pattern[k]? = some pat →
        ∃ line, lines[i + k]? = some line ∧ f line = f pat := by
  rw [matchesAt, decide_eq_true_iff, List.ext_getElem?_iff]
  refine forall_congr' fun k => ?_
  rw [getElem?_map, getElem?_map, getElem?_take, getElem?_drop]
  rcases hpat : pattern[k]? with _ | pat
  · rw [if_neg (by have := getElem?_eq_none_iff.mp hpat; omega)]
    exact iff_of_true rfl fun pat h => absurd h (some_ne_none pat ∘ Eq.symm)
  · rw [if_pos (List.getElem?_eq_some_iff.mp hpat).1]
    simp

/-- How lines are compared, from the strictest notion to the loosest. -/
inductive MatchLevel where
  | exact
  | trimEnd
  | trim
  | normalised

variable {level : MatchLevel}

namespace MatchLevel

/-- Lines are equal at a level if these are. -/
def key : MatchLevel → Str → Str
  | exact => id
  | trimEnd => Text.trimEnd
  | trim => Text.trim
  | normalised => normalise

/-- The order of the comparisons, from the strictest. -/
def rank : MatchLevel → ℕ
  | exact => 0
  | trimEnd => 1
  | trim => 2
  | normalised => 3

/-- The lines from index `i` on are those of the pattern. -/
def Matches (level : MatchLevel) (lines pattern : List Str) (i : ℕ) : Prop :=
  ∀ (k : ℕ) (pat : Str), pattern[k]? = some pat →
    ∃ line, lines[i + k]? = some line ∧ level.key line = level.key pat

variable {i : ℕ}

lemma matchesAt_iff (level : MatchLevel) {lines pattern} :
    matchesAt level.key lines pattern i ↔ level.Matches lines pattern i :=
  ApplyPatch.matchesAt_iff

/-- What a stricter level makes equal, a looser one does not tell apart. -/
lemma key_key {level' : MatchLevel} (h : level.rank < level'.rank) (s : Str) :
    level'.key (level.key s) = level'.key s := by
  rcases level with _ | _ | _ | _ <;> rcases level' with _ | _ | _ | _ <;>
    first | rfl | exact absurd h (by decide) | skip
  · exact trim_trimEnd s
  · exact congrArg (map normaliseChar) (trim_trimEnd s)
  · exact congrArg (map normaliseChar) (trim_trim s)

/-- **A looser level has the matches of a stricter one.** -/
theorem Matches.mono {level' : MatchLevel} (hrank : level.rank ≤ level'.rank)
    {lines pattern} (h : level.Matches lines pattern i) :
    level'.Matches lines pattern i := by
  obtain hlt | heq := hrank.lt_or_eq
  · rw [← matchesAt_iff] at h ⊢
    exact matchesAt_mono (key_key hlt) h
  · have hlevel : level = level' := by
      rcases level <;> rcases level' <;> first | rfl | exact absurd heq (by decide)
    exact hlevel ▸ h

/-- A match lies within the file. -/
lemma Matches.add_length_le {lines pattern} (h : level.Matches lines pattern i)
    (hne : pattern ≠ []) :
    i + pattern.length ≤ lines.length := by
  have hpos := length_pos_of_ne_nil hne
  obtain ⟨pat, hpat⟩ : ∃ pat, pattern[pattern.length - 1]? = some pat :=
    ⟨_, getElem?_eq_getElem (by omega)⟩
  obtain ⟨line, hline, -⟩ := h _ pat hpat
  have hlt := (List.getElem?_eq_some_iff.mp hline).1
  omega

end MatchLevel

/-! ## One pass -/

variable {lines pattern : List Str}

section

variable {start i : ℕ}

/-- A pass finds the first match. -/
lemma findMatch_eq_some_iff (hlen : pattern.length ≤ lines.length) :
    findMatch level.key lines pattern start = some i ↔
      start ≤ i ∧ i + pattern.length ≤ lines.length ∧ level.Matches lines pattern i ∧
        ∀ j, start ≤ j → j < i → ¬ level.Matches lines pattern j := by
  rw [findMatch, find?_range'_eq_some]
  simp only [mem_range'_1, ← MatchLevel.matchesAt_iff, Bool.not_eq_true', Bool.not_eq_true]
  constructor
  · rintro ⟨hmatch, hmem, hfirst⟩
    exact ⟨hmem.1, by omega, hmatch, hfirst⟩
  · rintro ⟨hstart, hend, hmatch, hfirst⟩
    exact ⟨hmatch, by omega, hfirst⟩

/-- A pass finds nothing if there is no match. -/
lemma findMatch_eq_none_iff (hne : pattern ≠ []) (hlen : pattern.length ≤ lines.length) :
    findMatch level.key lines pattern start = none ↔
      ∀ j, start ≤ j → ¬ level.Matches lines pattern j := by
  rw [findMatch, find?_range'_eq_none]
  simp only [← MatchLevel.matchesAt_iff, Bool.not_eq_true', Bool.not_eq_true]
  refine forall_congr' fun j => ?_
  constructor
  · intro h hj
    by_contra hmatch
    have hend := (level.matchesAt_iff.mp (Bool.eq_true_of_not_eq_false hmatch)).add_length_le hne
    exact hmatch (h hj (by omega))
  · exact fun h hj _ => h hj

end

/-! ## All passes -/

section

variable {start k : ℕ} {eof : Bool} {mode : ApplyPatchFileUpdateMode}

/-- Where the passes begin. -/
def searchStart (lines pattern : List Str) (start : ℕ) (eof : Bool) : ApplyPatchFileUpdateMode → ℕ
  | .normalizeToLf => if eof then lines.length - pattern.length else start
  | .preserveLineEndings => if eof then max (lines.length - pattern.length) start else start

/-- The first pass that finds something decides. -/
lemma findMatch_or_cases
    (h : (findMatch id lines pattern start <|> findMatch trimEnd lines pattern start <|>
      findMatch trim lines pattern start <|> findMatch normalise lines pattern start) = some k) :
    ∃ level : MatchLevel, findMatch level.key lines pattern start = some k ∧
      ∀ level' : MatchLevel, level'.rank < level.rank →
        findMatch level'.key lines pattern start = none := by
  simp only [orElse_eq_orElse, orElse_eq_or, or_eq_some_iff] at h
  obtain h | ⟨hexact, h | ⟨htrimEnd, h | ⟨htrim, h⟩⟩⟩ := h
  · refine ⟨.exact, h, fun level' hlt => absurd hlt (Nat.not_lt_zero _)⟩
  · refine ⟨.trimEnd, h, fun level' hlt => ?_⟩
    rcases level' with _ | _ | _ | _ <;> first | exact hexact | exact absurd hlt (by decide)
  · refine ⟨.trim, h, fun level' hlt => ?_⟩
    rcases level' with _ | _ | _ | _ <;>
      first | exact hexact | exact htrimEnd | exact absurd hlt (by decide)
  · refine ⟨.normalised, h, fun level' hlt => ?_⟩
    rcases level' with _ | _ | _ | _ <;>
      first | exact hexact | exact htrimEnd | exact htrim | exact absurd hlt (by decide)

section

variable (h : seekSequence lines pattern start eof mode = some k)

include h

/-- No lines are looked for, or one of the passes finds them. -/
lemma seekSequence_cases :
    (pattern = [] ∧ k = start) ∨ (pattern.length ≤ lines.length ∧ ∃ level : MatchLevel,
        findMatch level.key lines pattern (searchStart lines pattern start eof mode) = some k) := by
  rw [seekSequence] at h
  split at h
  · rename_i hempty
    cases h
    exact .inl ⟨isEmpty_iff.mp hempty, rfl⟩
  split at h
  · cases h
  · rename_i hlen
    obtain ⟨level, hfind, -⟩ := findMatch_or_cases h
    exact .inr ⟨Nat.le_of_not_lt hlen, level, by rcases mode <;> exact hfind⟩

/-- What is found lies within the file. -/
lemma seekSequence_add_length_le
    (hstart : start ≤ lines.length) : k + pattern.length ≤ lines.length := by
  obtain ⟨rfl, rfl⟩ | ⟨hlen, level, hfind⟩ := seekSequence_cases h
  · exact hstart
  · exact ((findMatch_eq_some_iff hlen).mp hfind).2.1

end

/-- **What a search finds**: lines of the file, from the given one on, that are the pattern up to
whitespace at the ends and typographic variants. -/
theorem seekSequence_spec (h : seekSequence lines pattern start eof .preserveLineEndings = some k)
    (hstart : start ≤ lines.length) :
    start ≤ k ∧ k + pattern.length ≤ lines.length ∧ matchesAt normalise lines pattern k := by
  refine ⟨?_, seekSequence_add_length_le h hstart, ?_⟩
  · obtain ⟨-, rfl⟩ | ⟨hlen, level, hfind⟩ := seekSequence_cases h
    · exact le_rfl
    · have hfrom := ((findMatch_eq_some_iff hlen).mp hfind).1
      rw [searchStart] at hfrom
      split at hfrom
      · exact (le_max_right _ _).trans hfrom
      · exact hfrom
  · obtain ⟨rfl, -⟩ | ⟨hlen, level, hfind⟩ := seekSequence_cases h
    · simp [matchesAt]
    · have hrank : level.rank ≤ MatchLevel.normalised.rank := by rcases level <;> decide
      exact MatchLevel.normalised.matchesAt_iff.mpr
        (((findMatch_eq_some_iff hlen).mp hfind).2.2.1.mono hrank)

/-- A match at this level, none at a stricter one, and none before it. -/
structure StrictestMatch (lines pattern : List Str) (start : ℕ) (level : MatchLevel) (i : ℕ) :
    Prop where
  start_le : start ≤ i
  end_le : i + pattern.length ≤ lines.length
  found : level.Matches lines pattern i
  strictest : ∀ level' : MatchLevel, level'.rank < level.rank →
    ∀ j, start ≤ j → ¬ level'.Matches lines pattern j
  earliest : ∀ j, start ≤ j → j < i → ¬ level.Matches lines pattern j

/-- **A search finds the strictest match, and the earliest of those; it finds nothing just if there
is no match at all.** -/
theorem seekSequence_strictest (lines pattern : List Str) (start : ℕ)
    (mode : ApplyPatchFileUpdateMode) (hne : pattern ≠ []) :
    (∀ i, seekSequence lines pattern start false mode = some i →
      ∃ level, StrictestMatch lines pattern start level i) ∧
    (seekSequence lines pattern start false mode = none ↔
      ∀ j, start ≤ j → ¬ MatchLevel.normalised.Matches lines pattern j) ∧
    ∀ level level' : MatchLevel, level.rank ≤ level'.rank → ∀ j,
      level.Matches lines pattern j → level'.Matches lines pattern j := by
  have hempty : ¬ pattern.isEmpty := fun h => hne (isEmpty_iff.mp h)
  refine ⟨fun i h => ?_, ?_, fun level level' hrank j hmatch => hmatch.mono hrank⟩
  · rw [seekSequence, if_neg hempty] at h
    split at h
    · cases h
    · rename_i hlen
      have hlen := Nat.le_of_not_lt hlen
      obtain ⟨level, hfind, hstricter⟩ := findMatch_or_cases h
      obtain ⟨hstart, hend, hmatch, hfirst⟩ := (findMatch_eq_some_iff hlen).mp hfind
      exact ⟨level, hstart, hend, hmatch,
        fun level' hlt => (findMatch_eq_none_iff hne hlen).mp (hstricter level' hlt), hfirst⟩
  · rw [seekSequence, if_neg hempty]
    split
    · rename_i hlen
      refine iff_of_true rfl fun j _ hmatch => ?_
      have hend := hmatch.add_length_le hne
      omega
    · rename_i hlen
      have hlen := Nat.le_of_not_lt hlen
      have hnone (level : MatchLevel) : findMatch level.key lines pattern start = none ↔
          ∀ j, start ≤ j → ¬ level.Matches lines pattern j :=
        findMatch_eq_none_iff hne hlen
      constructor
      · intro h
        simp only [orElse_eq_orElse, orElse_eq_or, or_eq_none_iff] at h
        exact (hnone .normalised).mp h.2.2.2
      · intro h
        have hall (level : MatchLevel) : findMatch level.key lines pattern start = none := by
          refine (hnone level).mpr fun j hj hmatch => h j hj (hmatch.mono ?_)
          rcases level <;> decide
        simp only [orElse_eq_orElse, orElse_eq_or, or_eq_none_iff]
        exact ⟨hall .exact, hall .trimEnd, hall .trim, hall .normalised⟩

/-- A blank at the end makes the later line the better match of the two. -/
theorem seekSequence_strictest_blank :
    [['b']] ≠ ([] : List Str) ∧
    (∀ i, seekSequence [['a'], ['b', ' '], ['b']] [['b']] 0 false .normalizeToLf = some i →
      ∃ level, StrictestMatch [['a'], ['b', ' '], ['b']] [['b']] 0 level i) ∧
    seekSequence [['a'], ['b', ' '], ['b']] [['b']] 0 false .normalizeToLf = some 2 :=
  ⟨by decide, (seekSequence_strictest _ _ 0 .normalizeToLf (by decide)).1, by decide⟩

end

/-! ## Chunks -/

variable {chunk : UpdateFileChunk}

/-- A chunk is found as it is, or without its last old line. -/
lemma findChunk_cases {i start mode newSlice}
    (h : findChunk lines chunk i mode = some (start, pattern, newSlice)) :
    (seekSequence lines chunk.oldLines i chunk.isEndOfFile mode = some start ∧
      pattern = chunk.oldLines ∧ newSlice = chunk.newLines) ∨
    (seekSequence lines chunk.oldLines i chunk.isEndOfFile mode = none ∧
      chunk.oldLines.getLast? = some [] ∧
      seekSequence lines chunk.oldLines.dropLast i chunk.isEndOfFile mode = some start ∧
      pattern = chunk.oldLines.dropLast ∧
      newSlice =
        if chunk.newLines.getLast? = some [] then chunk.newLines.dropLast else chunk.newLines) := by
  rw [findChunk] at h
  split at h
  · rename_i hseek
    cases h
    exact .inl ⟨hseek, rfl, rfl⟩
  · rename_i hnone
    split at h
    · rename_i hlast
      obtain ⟨_, hseek, heq⟩ := map_eq_some_iff.mp h
      cases heq
      exact .inr ⟨hnone, hlast, hseek, rfl, rfl⟩
    · cases h

lemma seekContext_spec {path i j}
    (h : seekContext lines path chunk i .preserveLineEndings = .ok j) (hi : i ≤ lines.length) :
    i ≤ j ∧ j ≤ lines.length := by
  rw [seekContext] at h
  split at h
  · cases h
    exact ⟨le_rfl, hi⟩
  split at h
  · rename_i idx hidx
    cases h
    have hspec := seekSequence_spec hidx hi
    rw [length_singleton] at hspec
    omega
  · cases h

end ApplyPatch
