import Mathlib

/-!
# Texts as lists of characters

A text is a `List Char`.  Everything the programs of this development do with one — trimming,
stripping a marker, splitting into lines, looking for a delimiter — is done at character
boundaries, so nothing depends on the UTF-8 bytes behind it, and the list is the view in which the
case analysis on "what does this line start with" is a case analysis on a constructor.

The functions follow the documented behaviour of the Rust standard library:

* `isWhitespace` is the Unicode property `White_Space`, and `trimStart`, `trimEnd`, `trim` remove
  characters that have it;
* `stripPrefix` and `startsWith` look at the front of a text;
* `lines` splits at every `\n`, and takes one `\r` off each line *that had a* `\n`: the last line,
  if it is not terminated, keeps its `\r`.

`Lean`'s own `Char.isWhitespace` is not the right predicate here: it knows only the ASCII blanks.
-/

namespace Text

open List

/-- A text, as its characters. -/
abbrev Str := List Char

instance : LawfulBEq Str := inferInstanceAs (LawfulBEq (List Char))

/-- A literal is the text of its characters. -/
instance : Coe String Str := ⟨String.toList⟩

/-- The size in bytes. -/
def byteLen (s : Str) : Nat := (s.map fun c => c.utf8Size).sum

/-- A number in decimal digits. -/
def natText (n : Nat) : Str := Nat.toDigits 10 n

/-! ## Whitespace -/

/-- The Unicode property `White_Space`. -/
def isWhitespace (c : Char) : Bool :=
  let n := c.toNat
  (9 ≤ n && n ≤ 13) || n == 0x20 || n == 0x85 || n == 0xA0 || n == 0x1680 ||
    (0x2000 ≤ n && n ≤ 0x200A) || n == 0x2028 || n == 0x2029 || n == 0x202F || n == 0x205F ||
    n == 0x3000

variable (s : Str)

/-- The text without its leading whitespace. -/
def trimStart : Str := s.dropWhile isWhitespace

/-- The text without its trailing whitespace. -/
def trimEnd : Str := s.rdropWhile isWhitespace

/-- The text without whitespace at either end. -/
def trim : Str := trimEnd (trimStart s)

/-- The text does not end in whitespace.  The empty text does not. -/
def NoTrailing : Prop := ∀ c, s.getLast? = some c → isWhitespace c = false

instance (s : Str) : Decidable (NoTrailing s) :=
  match h : s.getLast? with
  | none => isTrue fun c hc => by simp [h] at hc
  | some c =>
    if hw : isWhitespace c = false then
      isTrue fun d hd => by rw [h, Option.some_inj] at hd; exact hd ▸ hw
    else isFalse fun hn => hw (hn c h)

@[simp] lemma trimEnd_nil : trimEnd [] = [] := rfl

@[simp] lemma trimStart_nil : trimStart [] = [] := rfl

@[simp] lemma trim_nil : trim [] = [] := rfl

variable {c : Char}

lemma trimStart_cons_of_not (hc : isWhitespace c = false) (s : Str) :
    trimStart (c :: s) = c :: s := by
  simp [trimStart, hc]

lemma trimStart_cons_of_whitespace (hc : isWhitespace c) (s : Str) :
    trimStart (c :: s) = trimStart s := by
  simp [trimStart, hc]

variable {s : Str}

lemma trimStart_append_of_ne_nil (h : trimStart s ≠ []) (t : Str) :
    trimStart (s ++ t) = trimStart s ++ t := by
  induction s with
  | nil => exact absurd rfl h
  | cons c s ih =>
    cases hc : isWhitespace c with
    | true =>
      rw [trimStart_cons_of_whitespace hc] at h
      rw [cons_append, trimStart_cons_of_whitespace hc, trimStart_cons_of_whitespace hc, ih h]
    | false => rw [cons_append, trimStart_cons_of_not hc, trimStart_cons_of_not hc]; rfl

lemma trimStart_append_of_eq_nil (h : trimStart s = []) (t : Str) :
    trimStart (s ++ t) = trimStart t := by
  induction s with
  | nil => rfl
  | cons c s ih =>
    cases hc : isWhitespace c with
    | true =>
      rw [trimStart_cons_of_whitespace hc] at h
      rw [cons_append, trimStart_cons_of_whitespace hc, ih h]
    | false => rw [trimStart_cons_of_not hc] at h; cases h

lemma trimEnd_concat_of_not (hc : isWhitespace c = false) (s : Str) :
    trimEnd (s ++ [c]) = s ++ [c] :=
  rdropWhile_concat_neg _ _ _ (by simp [hc])

lemma trimEnd_concat_of_whitespace (hc : isWhitespace c) (s : Str) :
    trimEnd (s ++ [c]) = trimEnd s :=
  rdropWhile_concat_pos _ _ _ hc

lemma trimEnd_eq_self (h : NoTrailing s) : trimEnd s = s := by
  obtain rfl | ⟨t, c, rfl⟩ := eq_nil_or_concat s
  · rfl
  · rw [concat_eq_append]
    exact trimEnd_concat_of_not (h c (by simp)) t

lemma trimEnd_noTrailing (s : Str) : NoTrailing (trimEnd s) := by
  induction s using reverseRecOn with
  | nil => intro c hc; simp at hc
  | append_singleton s c ih =>
    cases hc : isWhitespace c with
    | true => rw [trimEnd_concat_of_whitespace hc]; exact ih
    | false =>
      rw [trimEnd_concat_of_not hc]
      intro d hd
      rw [getLast?_concat, Option.some_inj] at hd
      exact hd ▸ hc

/-- A leading character that is not whitespace survives `trimEnd`, and so does everything the rest
would keep. -/
lemma trimEnd_cons_of_not (hc : isWhitespace c = false) (s : Str) :
    trimEnd (c :: s) = c :: trimEnd s := by
  induction s using reverseRecOn with
  | nil => exact trimEnd_concat_of_not hc []
  | append_singleton s d ih =>
    rw [← cons_append]
    cases hd : isWhitespace d with
    | true => rw [trimEnd_concat_of_whitespace hd, trimEnd_concat_of_whitespace hd, ih]
    | false => rw [trimEnd_concat_of_not hd, trimEnd_concat_of_not hd, cons_append]

/-- What `trimEnd` leaves of a non-empty text starts where the text starts. -/
lemma head?_trimEnd (h : (trimEnd s).head? = some c) : s.head? = some c := by
  obtain ⟨t, ht⟩ : trimEnd s <+: s := rdropWhile_prefix _ _
  rw [← ht]
  cases hs : trimEnd s with
  | nil => simp [hs] at h
  | cons d r => simpa [hs] using h

lemma trim_cons_of_not (hc : isWhitespace c = false) (s : Str) :
    trim (c :: s) = c :: trimEnd s := by
  rw [trim, trimStart_cons_of_not hc, trimEnd_cons_of_not hc]

/-- A text with no whitespace at either end is its own trim. -/
lemma trim_eq_self (hh : ∀ c, s.head? = some c → isWhitespace c = false) (ht : NoTrailing s) :
    trim s = s := by
  cases s with
  | nil => rfl
  | cons c s => rw [trim, trimStart_cons_of_not (hh c rfl), trimEnd_eq_self ht]

lemma trim_noTrailing (s : Str) : NoTrailing (trim s) := trimEnd_noTrailing _

lemma trim_concat_of_whitespace (hc : isWhitespace c) (s : Str) : trim (s ++ [c]) = trim s := by
  rw [trim, trim]
  by_cases h : trimStart s = []
  · rw [trimStart_append_of_eq_nil h, h, trimStart_cons_of_whitespace hc, trimStart_nil]
  · rw [trimStart_append_of_ne_nil h, trimEnd_concat_of_whitespace hc]

/-- Trimming a text that ends in something visible leaves something. -/
lemma trim_ne_nil (hne : s ≠ []) (ht : NoTrailing s) : trim s ≠ [] := by
  obtain ⟨t, c, rfl⟩ := (eq_nil_or_concat s).resolve_left hne
  rw [concat_eq_append] at ht ⊢
  have hc : isWhitespace c = false := ht c (by simp)
  by_cases h : trimStart t = []
  · rw [trim, trimStart_append_of_eq_nil h, trimStart_cons_of_not hc]
    exact fun hn => by simp [trimEnd_cons_of_not hc] at hn
  · rw [trim, trimStart_append_of_ne_nil h, trimEnd_concat_of_not hc]
    simp

/-! ## Markers at the front of a text -/

/-- The rest of `s` after the marker `p`, if `s` starts with it. -/
def stripPrefix (p s : Str) : Option Str := if p.isPrefixOf s then some (s.drop p.length) else none

/-- Does `s` start with `p`? -/
def startsWith (s p : Str) : Bool := p.isPrefixOf s

lemma stripPrefix_eq_some_iff {p r} : stripPrefix p s = some r ↔ s = p ++ r := by
  rw [stripPrefix]
  constructor
  · intro h
    split at h
    · rename_i hp
      obtain ⟨t, rfl⟩ := isPrefixOf_iff_prefix.mp hp
      rw [drop_left, Option.some_inj] at h
      rw [h]
    · cases h
  · rintro rfl
    rw [if_pos <| isPrefixOf_iff_prefix.mpr ⟨r, rfl⟩, drop_left]

@[simp] lemma stripPrefix_append (p r : Str) : stripPrefix p (p ++ r) = some r :=
  stripPrefix_eq_some_iff.mpr rfl

@[simp] lemma stripPrefix_cons_self (c : Char) (r : Str) : stripPrefix [c] (c :: r) = some r :=
  stripPrefix_append [c] r

/-- Texts with different first characters are not markers of one another. -/
lemma stripPrefix_eq_none_of_head {p} (hp : p.head? = some c) (hs : s.head? ≠ some c) :
    stripPrefix p s = none := by
  rw [Option.eq_none_iff_forall_ne_some]
  intro r hr
  rw [stripPrefix_eq_some_iff] at hr
  subst hr
  cases p with
  | nil => simp at hp
  | cons d p => exact hs (by simpa using hp)

/-- Two markers neither of which begins the other exclude each other. -/
lemma stripPrefix_append_eq_none {p m} (s : Str) (hpm : ¬ p <+: m := by decide)
    (hmp : ¬ m <+: p := by decide) : stripPrefix p (m ++ s) = none := by
  rw [Option.eq_none_iff_forall_ne_some]
  intro r hr
  rw [stripPrefix_eq_some_iff] at hr
  rcases prefix_or_prefix_of_prefix (hr ▸ prefix_append p r) (prefix_append m s) with
    h | h
  · exact hpm h
  · exact hmp h

lemma append_ne_of_not_isPrefix {m t} (s : Str) (h : ¬ m <+: t := by decide) :
    m ++ s ≠ t := by
  rintro rfl
  exact h (prefix_append m s)

lemma stripPrefix_isSome_iff {p} : (stripPrefix p s).isSome ↔ startsWith s p := by
  rw [stripPrefix, startsWith]
  split <;> simp_all

/-! ## Line ends -/

/-- The text without one trailing `\r`. -/
def stripCr (s : Str) : Str := if s.getLast? = some '\r' then s.dropLast else s

lemma stripCr_eq_self (h : s.getLast? ≠ some '\r') : stripCr s = s := if_neg h

@[simp] lemma stripCr_concat_cr (s : Str) : stripCr (s ++ ['\r']) = s := by
  simp [stripCr]

lemma getLast?_ne_of_stripCr_eq (h : stripCr s = s) : s.getLast? ≠ some '\r' := by
  intro hl
  have hlen := congrArg length h
  rw [stripCr, if_pos hl, length_dropLast] at hlen
  cases s with
  | nil => cases hl
  | cons c s => simp at hlen

/-- Either there was no `\r` to take off, or there was exactly the one taken. -/
lemma stripCr_cases (s : Str) : stripCr s = s ∨ s = stripCr s ++ ['\r'] := by
  obtain rfl | ⟨t, c, rfl⟩ := eq_nil_or_concat s
  · exact .inl rfl
  · rw [concat_eq_append]
    by_cases hc : c = '\r'
    · subst hc; exact .inr (by simp)
    · exact .inl (stripCr_eq_self (by simpa using hc))

lemma isWhitespace_cr : isWhitespace '\r' := by decide

lemma trimEnd_concat_cr (s : Str) : trimEnd (s ++ ['\r']) = trimEnd s :=
  trimEnd_concat_of_whitespace isWhitespace_cr s

lemma trim_concat_cr (s : Str) : trim (s ++ ['\r']) = trim s :=
  trim_concat_of_whitespace isWhitespace_cr s

lemma trim_stripCr (s : Str) : trim (stripCr s) = trim s := by
  obtain h | h := stripCr_cases s
  · rw [h]
  · rw [h, stripCr_concat_cr, trim_concat_cr]

lemma stripCr_of_noTrailing (h : NoTrailing s) : stripCr s = s :=
  stripCr_eq_self fun hl => by simpa [isWhitespace_cr] using h _ hl

lemma NoTrailing.append (h : NoTrailing s) (hne : s ≠ []) (m : Str) : NoTrailing (m ++ s) := by
  intro c hc
  rw [getLast?_append_of_ne_nil _ hne] at hc
  exact h c hc

/-! ## Lines -/

/-- The lines of a text.  Splitting at `\n` gives the terminated lines and then what follows the
last terminator, which is a line only if it is not empty. -/
def lines (s : Str) : List Str :=
  let segments := s.splitOn '\n'
  let last := segments.getLastD []
  segments.dropLast.map stripCr ++ if last = [] then [] else [last]

/-- Joining texts with `\n`. -/
def joinLines (ls : List Str) : Str := ['\n'].intercalate ls

lemma not_mem_of_mem_splitOn {a x} (hx : x ∈ s.splitOn a) : a ∉ x := by
  induction s generalizing x with
  | nil => simp_all
  | cons c s ih =>
    rw [splitOn_cons_eq_if_modifyHead] at hx
    split_ifs at hx with hc
    · obtain rfl | hx := mem_cons.mp hx
      · simp
      · exact ih hx
    · -- the first segment grows by `c`, the others are those of `s`
      obtain ⟨y, ys, hys⟩ := exists_cons_of_ne_nil (splitOn_ne_nil a s)
      rw [hys, modifyHead_cons, mem_cons] at hx
      obtain rfl | hx := hx
      · have hy := ih (x := y) (by simp [hys])
        simpa [hy] using fun h => hc (by simp [h])
      · exact ih (by simp [hys, hx])

/-- Every text is joined from its segments. -/
lemma exists_segments (s : Str) : ∃ ls last, s.splitOn '\n' = ls ++ [last] ∧
    s = joinLines (ls ++ [last]) ∧ (∀ x ∈ ls, '\n' ∉ x) ∧ '\n' ∉ last := by
  obtain ⟨ls, last, h⟩ := (eq_nil_or_concat _).resolve_left (splitOn_ne_nil '\n' s)
  rw [concat_eq_append] at h
  have hmem : ∀ x ∈ ls ++ [last], '\n' ∉ x := fun x hx => not_mem_of_mem_splitOn (h ▸ hx)
  refine ⟨ls, last, h, ?_, fun x hx => hmem x (by simp [hx]), hmem last (by simp)⟩
  rw [joinLines, ← h, intercalate_splitOn]

variable {ls : List Str}

/-- **The lines of joined segments**: the last one is a line unless it is empty, and the others
lose a `\r`. -/
theorem lines_joinLines_concat {l} (hls : ∀ x ∈ ls, '\n' ∉ x) (hl : '\n' ∉ l) (hne : l ≠ []) :
    lines (joinLines (ls ++ [l])) = ls.map stripCr ++ [l] := by
  have hsplit : (joinLines (ls ++ [l])).splitOn '\n' = ls ++ [l] := by
    refine splitOn_intercalate _ (forall_mem_append.mpr ⟨hls, ?_⟩) (by simp)
    exact forall_mem_singleton.mpr hl
  simp [lines, hsplit, hne]

lemma joinLines_singleton (l : Str) : joinLines [l] = l := by simp [joinLines]

lemma joinLines_cons (hne : ls ≠ []) (l : Str) :
    joinLines (l :: ls) = l ++ '\n' :: joinLines ls := by
  rw [joinLines, intercalate_cons_of_ne_nil hne]
  simp [joinLines]

/-- Joined texts end in the last of them, after a line end if it is not the only one. -/
lemma joinLines_concat (hne : ls ≠ []) (l : Str) :
    joinLines (ls ++ [l]) = joinLines ls ++ '\n' :: l := by
  induction ls with
  | nil => exact absurd rfl hne
  | cons x ls ih =>
    rw [cons_append, joinLines_cons (by simp)]
    by_cases hls : ls = []
    · simp [hls, joinLines_singleton]
    · rw [ih hls, joinLines_cons hls]; simp

lemma exists_joinLines_concat (ls : List Str) (l : Str) : ∃ m, joinLines (ls ++ [l]) = m ++ l := by
  by_cases hls : ls = []
  · exact ⟨[], by simp [hls, joinLines_singleton]⟩
  · exact ⟨joinLines ls ++ ['\n'], by rw [joinLines_concat hls]; simp⟩

/-- The last segment of a text without trailing whitespace has none either, and is empty only if
the text is. -/
lemma noTrailing_last {last} (h : NoTrailing (joinLines (ls ++ [last]))) :
    NoTrailing last ∧ (last = [] → ls = []) := by
  by_cases hls : ls = []
  · simpa [hls, joinLines_singleton] using h
  · rw [joinLines_concat hls] at h
    have hne : last ≠ [] := by
      rintro rfl
      exact absurd (h '\n' (by simp)) (by decide)
    refine ⟨fun c hc => h c ?_, fun hnil => absurd hnil hne⟩
    rw [append_cons, getLast?_append_of_ne_nil _ hne]
    exact hc

/-! ## Lower case -/

lemma toLower_cases (c : Char) :
    c.toLower = c ∨ 65 ≤ c.toNat ∧ c.toNat ≤ 90 ∧ c.toLower.toNat = c.toNat + 32 := by
  unfold Char.toLower
  split_ifs with h
  · have hle : 65 ≤ c.val.toNat := h.1
    have hge : c.val.toNat ≤ 90 := h.2
    refine .inr ⟨hle, hge, ?_⟩
    have hdiff : 'a'.val - 'A'.val = 32 := by decide
    show (c.val + ('a'.val - 'A'.val)).toNat = c.val.toNat + 32
    rw [hdiff, UInt32.toNat_add]
    show (c.val.toNat + 32) % 2 ^ 32 = c.val.toNat + 32
    omega
  · exact .inl rfl

/-- A letter that is no letter of the alphabet is so in lower case too, and only it. -/
lemma toLower_eq_iff {c d : Char} (hd : d.toNat < 65 ∨ 90 < d.toNat ∧ d.toNat < 97) :
    c.toLower = d ↔ c = d := by
  obtain h | ⟨hle, hge, h⟩ := toLower_cases c
  · rw [h]
  · refine iff_of_false ?_ ?_
    · rintro rfl
      omega
    · rintro rfl
      omega

lemma isWhitespace_toLower (c : Char) : isWhitespace c.toLower = isWhitespace c := by
  obtain h | ⟨hle, hge, h⟩ := toLower_cases c
  · rw [h]
  · have hfalse : ∀ d : Char, 65 ≤ d.toNat → d.toNat ≤ 122 → isWhitespace d = false := by
      intro d hd hd'
      simp only [isWhitespace, Bool.or_eq_false_iff, Bool.and_eq_false_iff, decide_eq_false_iff_not,
        beq_eq_false_iff_ne]
      omega
    rw [hfalse c hle (by omega), hfalse c.toLower (by omega) (by omega)]

end Text
