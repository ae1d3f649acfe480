import CodexAgents.Lib.Search
import CodexAgents.Lib.Streaming
import CodexAgents.Lib.Text

/-!
# Tags hidden in streamed text

`utils/stream-parser/src/inline_hidden_tag.rs`: text comes in chunks, and what stands between an
opening and a closing delimiter is taken out of it.  A delimiter may be cut in two by the end of a
chunk, so the parser holds back (`pending`) whatever may be the beginning of one.

`additive_pushStr` says that this works: two chunks give what the two give as one.  It is enough
that no opening delimiter stands inside another and ends before it (`Prompt`); otherwise the parser,
which takes a delimiter as soon as it has it, would have to wait for a longer one that begins before
or with it.

Lengths and positions are those of lists of characters.  The source counts bytes, and tries the
lengths of overlaps from the longest down; of these it looks at the ones between characters.
-/

namespace StreamParser

open Text Search Streaming Option List

/-! ## Chunks of output -/

/-- What is shown, and what was taken out. -/
structure StreamTextChunk (T : Type) where
  visibleText : Str := []
  extracted : List T := []

instance {T : Type} : Append (StreamTextChunk T) :=
  ⟨fun a b => ⟨a.visibleText ++ b.visibleText, a.extracted ++ b.extracted⟩⟩

variable {T : Type}

section

variable (a b c : StreamTextChunk T)

@[simp] lemma StreamTextChunk.visibleText_append :
    (a ++ b).visibleText = a.visibleText ++ b.visibleText := rfl

@[simp] lemma StreamTextChunk.extracted_append :
    (a ++ b).extracted = a.extracted ++ b.extracted := rfl

@[simp] lemma StreamTextChunk.append_empty : a ++ {} = a := by
  show StreamTextChunk.mk (a.visibleText ++ []) (a.extracted ++ []) = a
  rw [append_nil, append_nil]

@[simp] lemma StreamTextChunk.empty_append : {} ++ a = a := rfl

lemma StreamTextChunk.append_assoc : a ++ b ++ c = a ++ (b ++ c) := by
  show StreamTextChunk.mk (_ ++ _) (_ ++ _) = StreamTextChunk.mk (_ ++ _) (_ ++ _)
  simp [visibleText_append, extracted_append]

end

/-- What stood between delimiters. -/
structure ExtractedInlineTag (T : Type) where
  tag : T
  content : Str

/-! ## The parser -/

/-- A tag and its delimiters; `new` checks that these are not empty. -/
structure InlineTagSpec (T : Type) where
  tag : T
  openDelimiter : Str
  closeDelimiter : Str
  open_ne_nil : openDelimiter ≠ []
  close_ne_nil : closeDelimiter ≠ []

/-- A tag that was opened, and what stands in it so far. -/
structure ActiveTag (T : Type) where
  tag : T
  close : Str
  content : Str
  close_ne_nil : close ≠ []

/-- The parser for the given tags, which are fixed when it is made. -/
structure InlineHiddenTagParser {T : Type} (specs : List (InlineTagSpec T)) where
  pending : Str := []
  active : Option (ActiveTag T) := none

/-- The length of the longest end of the text that is the beginning of the needle, short of all of
it. -/
def longestSuffixPrefixLen (s needle : Str) : Nat :=
  Nat.findGreatest (fun k => needle.take k <:+ s) (min s.length (needle.length - 1))

section

variable (specs : List (InlineTagSpec T)) (pending : Str)

/-- Where each tag opens next, if it does, with the length of the delimiter and the index of the
tag. -/
def nextOpens : List (Nat × Nat × Fin specs.length) :=
  (finRange specs.length).filterMap fun idx =>
    (find specs[idx].openDelimiter pending).map fun pos =>
      (pos, specs[idx].openDelimiter.length, idx)

/-- The first of them is taken; of those in one place the longest; of those the first tag's. -/
def precedence {n : Nat} (candidate : Nat × Nat × Fin n) : Lex (Nat × Lex (Natᵒᵈ × Fin n)) :=
  toLex (candidate.1, toLex (OrderDual.toDual candidate.2.1, candidate.2.2))

/-- The delimiter that is opened next. -/
def findNextOpen : Option (Nat × Fin specs.length) :=
  ((nextOpens specs pending).argmin precedence).map fun candidate => (candidate.1, candidate.2.2)

/-- How much may be the beginning of a delimiter. -/
def maxOpenPrefixSuffixLen : Nat :=
  (specs.map fun spec => longestSuffixPrefixLen pending spec.openDelimiter).foldr max 0

variable {specs : List (InlineTagSpec T)} {pending : Str} {idx : Fin specs.length}

lemma mem_nextOpens {pos len} : (pos, len, idx) ∈ nextOpens specs pending ↔
      find specs[idx].openDelimiter pending = some pos ∧ len = specs[idx].openDelimiter.length := by
  simp only [nextOpens, mem_filterMap, mem_finRange, true_and, map_eq_some_iff, Prod.mk.injEq]
  constructor
  · rintro ⟨_, _, hfind, rfl, rfl, rfl⟩
    exact ⟨hfind, rfl⟩
  · rintro ⟨hfind, hlength⟩
    exact ⟨idx, pos, hfind, rfl, hlength.symm, rfl⟩

lemma precedence_le_iff {n} {a b : Nat × Nat × Fin n} : precedence a ≤ precedence b ↔
      a.1 < b.1 ∨ a.1 = b.1 ∧ (b.2.1 < a.2.1 ∨ b.2.1 = a.2.1 ∧ a.2.2 ≤ b.2.2) := by
  simp only [precedence, Prod.Lex.toLex_le_toLex, OrderDual.toDual_lt_toDual,
    EmbeddingLike.apply_eq_iff_eq]
  tauto

lemma precedence_injective {n} : Function.Injective (precedence (n := n)) := by
  rintro ⟨pos, len, idx⟩ ⟨pos', len', idx'⟩ h
  simpa [precedence] using h

lemma findNextOpen_eq_some_iff {pos} : findNextOpen specs pending = some (pos, idx) ↔
      find specs[idx].openDelimiter pending = some pos ∧
      ∀ (idx' : Fin specs.length) (pos' : Nat), find specs[idx'].openDelimiter pending = some pos' →
        precedence (pos, specs[idx].openDelimiter.length, idx) ≤
          precedence (pos', specs[idx'].openDelimiter.length, idx') := by
  rw [findNextOpen, map_eq_some_iff]
  constructor
  · rintro ⟨⟨pos, len, idx⟩, hmin, heq⟩
    cases heq
    obtain ⟨hmem, hle, -⟩ := argmin_eq_some_iff.mp hmin
    obtain ⟨hfind, rfl⟩ := mem_nextOpens.mp hmem
    refine ⟨hfind, fun idx' pos' hfind' => ?_⟩
    exact hle (pos', specs[idx'].openDelimiter.length, idx') (mem_nextOpens.mpr ⟨hfind', rfl⟩)
  · rintro ⟨hfind, hle⟩
    refine ⟨(pos, specs[idx].openDelimiter.length, idx), argmin_eq_some_iff.mpr
      ⟨mem_nextOpens.mpr ⟨hfind, rfl⟩, ?_, ?_⟩, rfl⟩
    · rintro ⟨pos', len', idx'⟩ hmem
      obtain ⟨hfind', rfl⟩ := mem_nextOpens.mp hmem
      exact hle idx' pos' hfind'
    · rintro ⟨pos', len', idx'⟩ hmem hge
      obtain ⟨hfind', rfl⟩ := mem_nextOpens.mp hmem
      rw [precedence_injective (le_antisymm (hle idx' pos' hfind') hge)]

lemma findNextOpen_eq_none_iff : findNextOpen specs pending = none ↔
      ∀ idx : Fin specs.length, find specs[idx].openDelimiter pending = none := by
  rw [findNextOpen, map_eq_none_iff, argmin_eq_none, eq_nil_iff_forall_not_mem]
  constructor
  · intro h idx
    by_contra hfind
    obtain ⟨pos, hpos⟩ := ne_none_iff_exists'.mp hfind
    exact h (pos, specs[idx].openDelimiter.length, idx) (mem_nextOpens.mpr ⟨hpos, rfl⟩)
  · rintro h ⟨pos, len, idx⟩ hmem
    exact some_ne_none _ ((mem_nextOpens.mp hmem).1.symm.trans (h idx))

/-! ### When more text comes in -/

/-- No opening delimiter stands inside another. -/
def Separate (specs : List (InlineTagSpec T)) : Prop :=
  ∀ i j : Fin specs.length, specs[i].openDelimiter <:+: specs[j].openDelimiter → i = j

/-- No opening delimiter is complete before another that it stands inside. -/
def Prompt (specs : List (InlineTagSpec T)) : Prop :=
  ∀ i j : Fin specs.length, ¬ specs[i].openDelimiter <:+: specs[j].openDelimiter.dropLast

lemma Separate.prompt (h : Separate specs) : Prompt specs := by
  intro i j hwithin
  obtain rfl := h i j <| hwithin.trans <| IsPrefix.isInfix <| dropLast_prefix _
  have hlength := hwithin.length_le
  have hpos := length_pos_of_ne_nil specs[i].open_ne_nil
  rw [length_dropLast] at hlength
  omega

variable {needle : Str}

lemma isOverlap_longestSuffixPrefixLen (s : Str) (hne : needle ≠ []) :
    IsOverlap needle s (longestSuffixPrefixLen s needle) where
  lt := by
    have hle : longestSuffixPrefixLen s needle ≤ min s.length (needle.length - 1) :=
      Nat.findGreatest_le _
    have hpos := length_pos_of_ne_nil hne
    omega
  suffix := by
    have hnil : needle.take 0 <:+ s := nil_suffix
    exact Nat.findGreatest_spec (P := fun k => needle.take k <:+ s) (Nat.zero_le _) hnil
  max k hk hsuffix := by
    have hlength := hsuffix.length_le
    rw [length_take_of_le hk.le] at hlength
    exact Nat.le_findGreatest (P := fun k => needle.take k <:+ s) (by omega) hsuffix

variable {s : Str} {d : Nat}

lemma longestSuffixPrefixLen_append (hne : needle ≠ [])
    (hd : d ≤ s.length - longestSuffixPrefixLen s needle) (b : Str) :
    longestSuffixPrefixLen (s ++ b) needle = longestSuffixPrefixLen (s.drop d ++ b) needle := by
  have hoverlap := isOverlap_longestSuffixPrefixLen s hne
  exact (isOverlap_longestSuffixPrefixLen (s ++ b) hne).unique
    ((hoverlap.append_iff hd b _).mpr (isOverlap_longestSuffixPrefixLen _ hne))

lemma longestSuffixPrefixLen_le_max (specs : List (InlineTagSpec T)) (pending : Str)
    (idx : Fin specs.length) :
    longestSuffixPrefixLen pending specs[idx].openDelimiter ≤
      maxOpenPrefixSuffixLen specs pending := by
  have hmem : specs[idx] ∈ specs := getElem_mem idx.isLt
  exact le_max_of_le (mem_map.mpr ⟨specs[idx], hmem, rfl⟩) (le_refl _)

lemma maxOpenPrefixSuffixLen_le_length (specs : List (InlineTagSpec T)) (pending : Str) :
    maxOpenPrefixSuffixLen specs pending ≤ pending.length := by
  have hle : ∀ k ∈ specs.map fun spec => longestSuffixPrefixLen pending spec.openDelimiter,
      k ≤ pending.length := by
    rw [List.forall_mem_map]
    exact fun spec _ => (isOverlap_longestSuffixPrefixLen pending spec.open_ne_nil).le_length
  exact max_le_of_forall_le _ _ hle

variable {specs : List (InlineTagSpec T)}

section

variable {s : Str} {d : Nat}

lemma maxOpenPrefixSuffixLen_append (hd : d ≤ s.length - maxOpenPrefixSuffixLen specs s) (b : Str) :
    maxOpenPrefixSuffixLen specs (s ++ b) = maxOpenPrefixSuffixLen specs (s.drop d ++ b) := by
  rw [maxOpenPrefixSuffixLen, maxOpenPrefixSuffixLen]
  congr 1
  refine map_congr_left fun spec hspec => longestSuffixPrefixLen_append spec.open_ne_nil ?_ b
  obtain ⟨idx, hidx, rfl⟩ := mem_iff_getElem.mp hspec
  have hle := longestSuffixPrefixLen_le_max specs s ⟨idx, hidx⟩
  simp only [Fin.getElem_fin] at hle
  omega

/-- A tag that has been found stays the next one: another that is found only with more text, and
comes before it, would contain it. -/
lemma findNextOpen_append_of_some (hprompt : Prompt specs) {pos idx}
    (h : findNextOpen specs s = some (pos, idx)) (b : Str) :
    findNextOpen specs (s ++ b) = some (pos, idx) := by
  obtain ⟨hfind, hfirst⟩ := findNextOpen_eq_some_iff.mp h
  have hne := specs[idx].open_ne_nil
  have hfind' := find_append_of_some hne hfind b
  have hend := add_length_le_of_find hne hfind
  refine findNextOpen_eq_some_iff.mpr ⟨hfind', fun idx' pos' hpos' => ?_⟩
  have hne' := specs[idx'].open_ne_nil
  obtain ⟨hocc, hnone⟩ := (find_eq_some_iff hne').mp hpos'
  by_cases hin : pos' + specs[idx'].openDelimiter.length ≤ s.length
  · refine hfirst idx' pos' ((find_eq_some_iff hne').mpr ⟨hocc.of_append hin, ?_⟩)
    exact fun j hj hj' => hnone j hj (hj'.append hne' b)
  · refine precedence_le_iff.mpr (.inl ?_)
    show pos < pos'
    by_contra hle
    have hoccurs := ((find_eq_some_iff hne).mp hfind').1
    have hdrop : specs[idx'].openDelimiter.dropLast <+: specs[idx'].openDelimiter :=
      dropLast_prefix _
    have hocc' : OccursAt specs[idx'].openDelimiter.dropLast (s ++ b) pos' := hdrop.trans hocc
    exact hprompt idx idx'
      (hoccurs.isInfix hocc' (by omega) (by rw [length_dropLast]; omega))

lemma findNextOpen_append_of_none (h : findNextOpen specs s = none)
    (hd : d ≤ s.length - maxOpenPrefixSuffixLen specs s) (b : Str) :
    findNextOpen specs (s ++ b) =
      (findNextOpen specs (s.drop d ++ b)).map fun next => (d + next.1, next.2) := by
  have hfind : ∀ idx : Fin specs.length, find specs[idx].openDelimiter (s ++ b) =
      (find specs[idx].openDelimiter (s.drop d ++ b)).map (d + ·) := by
    intro idx
    have hle := longestSuffixPrefixLen_le_max specs s idx
    exact (isOverlap_longestSuffixPrefixLen s specs[idx].open_ne_nil).find_append_of_none
      (findNextOpen_eq_none_iff.mp h idx) (by omega) b
  rcases hnext : findNextOpen specs (s.drop d ++ b) with _ | ⟨pos, idx⟩
  · rw [map_none, findNextOpen_eq_none_iff]
    intro idx
    rw [hfind, findNextOpen_eq_none_iff.mp hnext idx, map_none]
  · obtain ⟨hpos, hfirst⟩ := findNextOpen_eq_some_iff.mp hnext
    refine findNextOpen_eq_some_iff.mpr ⟨by rw [hfind, hpos, map_some], ?_⟩
    intro idx' pos' hpos'
    rw [hfind, map_eq_some_iff] at hpos'
    obtain ⟨pos', hpos', rfl⟩ := hpos'
    have hle := precedence_le_iff.mp (hfirst idx' pos' hpos')
    refine precedence_le_iff.mpr ?_
    dsimp only at hle ⊢
    omega

end

/-! ## The loop -/

lemma length_drop_lt (hne : needle ≠ []) {i} (h : find needle s = some i) :
    (s.drop (i + needle.length)).length < s.length := by
  have hlength := add_length_le_of_find hne h
  have hpos := length_pos_of_ne_nil hne
  rw [length_drop]
  omega

/-- The loop of `push_str`, on the text that is pending. -/
def pushLoop (specs : List (InlineTagSpec T)) (pending : Str) (active : Option (ActiveTag T))
    (out : StreamTextChunk (ExtractedInlineTag T)) :
    StreamTextChunk (ExtractedInlineTag T) × Str × Option (ActiveTag T) :=
  match active with
  | some active =>
    match hclose : find active.close pending with
    | some closeIdx =>
      let tag : ExtractedInlineTag T := ⟨active.tag, active.content ++ pending.take closeIdx⟩
      pushLoop specs (pending.drop (closeIdx + active.close.length)) none
        { out with extracted := out.extracted ++ [tag] }
    | none =>
      let take := pending.length - longestSuffixPrefixLen pending active.close
      (out, pending.drop take, some { active with content := active.content ++ pending.take take })
  | none =>
    match hopen : findNextOpen specs pending with
    | some (openIdx, specIdx) =>
      let spec := specs[specIdx]
      pushLoop specs (pending.drop (openIdx + spec.openDelimiter.length))
        (some ⟨spec.tag, spec.closeDelimiter, [], spec.close_ne_nil⟩)
        { out with visibleText := out.visibleText ++ pending.take openIdx }
    | none =>
      let take := pending.length - maxOpenPrefixSuffixLen specs pending
      ({ out with visibleText := out.visibleText ++ pending.take take }, pending.drop take, none)
termination_by pending.length
decreasing_by
  · exact length_drop_lt active.close_ne_nil hclose
  · exact length_drop_lt specs[specIdx].open_ne_nil (findNextOpen_eq_some_iff.mp hopen).1

/-- A tag that has just been opened. -/
def opened {specs : List (InlineTagSpec T)} (idx : Fin specs.length) : ActiveTag T :=
  ⟨specs[idx].tag, specs[idx].closeDelimiter, [], specs[idx].close_ne_nil⟩

/-! The four things a turn of the loop can do. -/

section

variable {pending : Str} {active : ActiveTag T}

lemma pushLoop_close {closeIdx} (h : find active.close pending = some closeIdx) :
    pushLoop specs pending (some active) out =
      pushLoop specs (pending.drop (closeIdx + active.close.length)) none
        { out with
          extracted := out.extracted ++
            [⟨active.tag, active.content ++ pending.take closeIdx⟩] } := by
  rw [pushLoop]
  split
  · rename_i h'
    cases h.symm.trans h'
    rfl
  · rename_i h'
    cases h.symm.trans h'

lemma pushLoop_inside {out} (h : find active.close pending = none) :
    pushLoop specs pending (some active) out =
      let take := pending.length - longestSuffixPrefixLen pending active.close
      (out, pending.drop take,
        some { active with content := active.content ++ pending.take take }) := by
  rw [pushLoop]
  split
  · rename_i h'
    cases h.symm.trans h'
  · rfl

lemma pushLoop_open {openIdx specIdx}
    (h : findNextOpen specs pending = some (openIdx, specIdx)) :
    pushLoop specs pending none out =
      pushLoop specs (pending.drop (openIdx + specs[specIdx].openDelimiter.length))
        (some ⟨specs[specIdx].tag, specs[specIdx].closeDelimiter, [], specs[specIdx].close_ne_nil⟩)
        { out with visibleText := out.visibleText ++ pending.take openIdx } := by
  conv_lhs => rw [pushLoop]
  split
  · rename_i h'
    cases h.symm.trans h'
    rfl
  · rename_i h'
    cases h.symm.trans h'

lemma pushLoop_outside {out}
    (h : findNextOpen specs pending = none) : pushLoop specs pending none out =
      let take := pending.length - maxOpenPrefixSuffixLen specs pending
      ({ out with visibleText := out.visibleText ++ pending.take take }, pending.drop take,
        none) := by
  conv_lhs => rw [pushLoop]
  split
  · rename_i h'
    cases h.symm.trans h'
  · rfl

end

/-! Taking a first part out of a text in two steps. -/

lemma drop_add_append (hd : d ≤ s.length) (b : Str) (i : Nat) :
    (s ++ b).drop (d + i) = (s.drop d ++ b).drop i := by
  rw [← drop_drop, drop_append_of_le_length hd]

lemma take_add_append (hd : d ≤ s.length) (b : Str) (i : Nat) :
    (s ++ b).take (d + i) = s.take d ++ (s.drop d ++ b).take i := by
  rw [take_add, take_append_of_le_length hd, drop_append_of_le_length hd]

lemma length_append_sub {b k} (hd : d ≤ s.length) (hk : k ≤ (s.drop d ++ b).length) :
    (s ++ b).length - k = d + ((s.drop d ++ b).length - k) := by
  simp only [length_append, length_drop] at hk ⊢
  omega

/-- **The loop can be interrupted** at any point of the text and taken up again with the rest. -/
theorem pushLoop_append (hprompt : Prompt specs) (pending b : Str) (active : Option (ActiveTag T))
    (out : StreamTextChunk (ExtractedInlineTag T)) :
    pushLoop specs (pending ++ b) active out = let r := pushLoop specs pending active out
      pushLoop specs (r.2.1 ++ b) r.2.2 r.1 := by
  fun_induction pushLoop specs pending active out with
  | case1 pending out active closeIdx hclose tag ih =>
    have hlength := add_length_le_of_find active.close_ne_nil hclose
    rw [← ih, pushLoop_close (find_append_of_some active.close_ne_nil hclose b),
      drop_append_of_le_length hlength, take_append_of_le_length (by omega)]
  | case2 pending out active hclose take =>
    have hoverlap := isOverlap_longestSuffixPrefixLen pending active.close_ne_nil
    have hfind := hoverlap.find_append_of_none hclose (le_refl take) b
    have htake : take ≤ pending.length := Nat.sub_le _ _
    let active' : ActiveTag T := { active with content := active.content ++ pending.take take }
    rcases hrest : find active'.close (pending.drop take ++ b) with _ | i
    · have hkeep := longestSuffixPrefixLen_append active.close_ne_nil (le_refl take) b
      have hle :=
        (isOverlap_longestSuffixPrefixLen (pending.drop take ++ b) active.close_ne_nil).le_length
      rw [hrest, map_none] at hfind
      refine Eq.trans ?_ (pushLoop_inside hrest).symm
      simp only [pushLoop_inside hfind, active', hkeep, length_append_sub htake hle,
        drop_add_append htake, take_add_append htake, append_assoc]
    · rw [hrest, map_some] at hfind
      refine Eq.trans ?_ (pushLoop_close hrest).symm
      simp only [pushLoop_close hfind, active', Nat.add_assoc, drop_add_append htake,
        take_add_append htake, append_assoc]
  | case3 pending out openIdx specIdx hopen spec ih =>
    have hlength := add_length_le_of_find spec.open_ne_nil (findNextOpen_eq_some_iff.mp hopen).1
    rw [← ih, pushLoop_open (findNextOpen_append_of_some hprompt hopen b),
      drop_append_of_le_length hlength, take_append_of_le_length (by omega)]
  | case4 pending out hopen take =>
    have hfind := findNextOpen_append_of_none hopen (le_refl take) b
    have htake : take ≤ pending.length := Nat.sub_le _ _
    rcases hrest : findNextOpen specs (pending.drop take ++ b) with _ | ⟨i, idx⟩
    · have hkeep := maxOpenPrefixSuffixLen_append (le_refl take) b
      have hle := maxOpenPrefixSuffixLen_le_length specs (pending.drop take ++ b)
      rw [hrest, map_none] at hfind
      simp only [pushLoop_outside hfind, pushLoop_outside hrest, hkeep, length_append_sub htake hle,
        drop_add_append htake, take_add_append htake, append_assoc]
    · rw [hrest, map_some] at hfind
      simp only [pushLoop_open hfind, pushLoop_open hrest, Nat.add_assoc, drop_add_append htake,
        take_add_append htake, append_assoc]

/-- The loop adds to what has been put out. -/
lemma pushLoop_append_out (specs : List (InlineTagSpec T)) (pending : Str)
    (active : Option (ActiveTag T)) (before out : StreamTextChunk (ExtractedInlineTag T)) :
    pushLoop specs pending active (before ++ out) = let r := pushLoop specs pending active out
      (before ++ r.1, r.2) := by
  fun_induction pushLoop specs pending active out with
  | case1 pending out active closeIdx hclose tag ih =>
    rw [pushLoop_close hclose, ← ih, StreamTextChunk.extracted_append, append_assoc]
    rfl
  | case2 pending out active hclose take => rw [pushLoop_inside hclose]
  | case3 pending out openIdx specIdx hopen spec ih =>
    rw [pushLoop_open hopen, ← ih, StreamTextChunk.visibleText_append, append_assoc]
    rfl
  | case4 pending out hopen take =>
    rw [pushLoop_outside hopen, StreamTextChunk.visibleText_append]
    simp only [append_assoc]
    rfl

end

namespace InlineHiddenTagParser

variable {specs : List (InlineTagSpec T)}

/-- A chunk of text. -/
def pushStr (p : InlineHiddenTagParser specs) (chunk : Str) :
    StreamTextChunk (ExtractedInlineTag T) × InlineHiddenTagParser specs :=
  let r := pushLoop specs (p.pending ++ chunk) p.active {}
  (r.1, ⟨r.2.1, r.2.2⟩)

/-- At the end, a tag that is open is closed. -/
def finish (p : InlineHiddenTagParser specs) :
    StreamTextChunk (ExtractedInlineTag T) × InlineHiddenTagParser specs :=
  match p.active with
  | some active => ({ extracted := [⟨active.tag, active.content ++ p.pending⟩] }, {})
  | none => ({ visibleText := p.pending }, {})

lemma pushStr_append (hprompt : Prompt specs) (p : InlineHiddenTagParser specs) (a b : Str) :
    p.pushStr (a ++ b) =
      ((p.pushStr a).1 ++ ((p.pushStr a).2.pushStr b).1, ((p.pushStr a).2.pushStr b).2) := by
  have hloop : pushLoop specs (p.pending ++ (a ++ b)) p.active {} =
      let r := pushLoop specs ((p.pushStr a).2.pending ++ b) (p.pushStr a).2.active {}
      ((p.pushStr a).1 ++ r.1, r.2) := by
    rw [← pushLoop_append_out, StreamTextChunk.append_empty, ← append_assoc,
      pushLoop_append hprompt]
    rfl
  rw [pushStr, hloop]
  rfl

/-- **It does not matter where a chunk ends**, for the text that is shown and the tags that are
extracted. -/
theorem additive_pushStr (hprompt : Prompt specs) :
    Additive (pushStr : InlineHiddenTagParser specs → Str → _) StreamTextChunk.visibleText ∧
      Additive (pushStr : InlineHiddenTagParser specs → Str → _) StreamTextChunk.extracted := by
  constructor <;> intro p a b <;> rw [pushStr_append hprompt] <;> exact ⟨rfl, rfl⟩

lemma pushStr_nil : ({} : InlineHiddenTagParser specs).pushStr [] = ({}, {}) := by
  have hnone : findNextOpen specs [] = none :=
    findNextOpen_eq_none_iff.mpr fun idx => if_neg specs[idx].open_ne_nil
  have hloop : pushLoop specs [] none {} = ({}, [], none) := by
    rw [pushLoop_outside hnone]
    simp
  rw [pushStr, append_nil, hloop]

end InlineHiddenTagParser

end StreamParser
