import CodexAgents.Lib.Text

/-!
# A text without its middle

`utils/string/src/truncate.rs`.  One pass over the characters finds the byte where the beginning
ends and the one where the end starts, and counts the characters between them, which are left out.
-/

namespace UtilsString

open Text List

/-- `&s[..n]` and `&s[n..]`, which panic if `n` is inside of a character. -/
def splitAtByte : Str → Nat → Option (Str × Str)
  | s, 0 => some ([], s)
  | [], _ + 1 => none
  | c :: s, n + 1 =>
    if c.utf8Size ≤ n + 1 then
      (splitAtByte s (n + 1 - c.utf8Size)).map fun (before, after) => (c :: before, after)
    else none

/-- Where the beginning ends and the end starts, in bytes, and the characters between them. -/
structure Split where
  prefixEnd : Nat := 0
  suffixStart : Nat
  removedChars : Nat := 0
  suffixStarted : Bool := false

/-- The loop over the characters, with the position of the next one. -/
def splitLoop (beginningBytes tailStartTarget : Nat) : Nat → Str → Split → Split
  | _, [], split => split
  | idx, ch :: s, split =>
    let charEnd := idx + ch.utf8Size
    splitLoop beginningBytes tailStartTarget charEnd s <|
      if charEnd ≤ beginningBytes then { split with prefixEnd := charEnd }
      else if tailStartTarget ≤ idx then
        if split.suffixStarted then split
        else { split with suffixStart := idx, suffixStarted := true }
      else { split with removedChars := split.removedChars + 1 }

/-- The number of characters that go, and the parts that stay. -/
def splitString (s : Str) (beginningBytes endBytes : Nat) : Option (Nat × Str × Str) :=
  if s = [] then some (0, [], [])
  else do
    let len := byteLen s
    let split := splitLoop beginningBytes (len - endBytes) 0 s { suffixStart := len }
    let before ← splitAtByte s split.prefixEnd
    let after ← splitAtByte s (max split.suffixStart split.prefixEnd)
    return (split.removedChars, before.1, after.2)

/-- The end gets the odd byte. -/
def splitBudget (budget : Nat) : Nat × Nat := (budget / 2, budget - budget / 2)

/-- What stands in the place of what was removed. -/
def formatTruncationMarker (useTokens : Bool) (removedCount : Nat) : Str :=
  "…" ++ natText removedCount ++
    if useTokens then " tokens truncated…" else " chars truncated…"

/-- A token is taken to have four bytes. -/
def removedUnits (useTokens : Bool) (removedBytes removedChars : Nat) : Nat :=
  if useTokens then (removedBytes + 3) / 4 else removedChars

/-- A text that is too long loses its middle. -/
def truncateWithByteEstimate (s : Str) (maxBytes : Nat) (useTokens : Bool) : Option Str :=
  if s = [] then some []
  else if maxBytes = 0 then
    some (formatTruncationMarker useTokens (removedUnits useTokens (byteLen s) s.length))
  else if byteLen s ≤ maxBytes then some s
  else do
    let (leftBudget, rightBudget) := splitBudget maxBytes
    let (removedChars, left, right) ← splitString s leftBudget rightBudget
    return left ++ formatTruncationMarker useTokens
      (removedUnits useTokens (byteLen s - maxBytes) removedChars) ++ right

/-- The removed characters are counted. -/
def truncateMiddleChars (s : Str) (maxBytes : Nat) : Option Str :=
  truncateWithByteEstimate s maxBytes false

@[simp] lemma byteLen_nil : byteLen [] = 0 := rfl

@[simp] lemma byteLen_cons (c : Char) (s : Str) : byteLen (c :: s) = c.utf8Size + byteLen s := rfl

@[simp] lemma byteLen_append (s t : Str) : byteLen (s ++ t) = byteLen s + byteLen t := by
  simp [byteLen]

lemma splitAtByte_append (s t : Str) : splitAtByte (s ++ t) (byteLen s) = some (s, t) := by
  induction s with
  | nil => exact splitAtByte.eq_1 t
  | cons c s ih =>
    obtain ⟨n, hn⟩ : ∃ n, byteLen (c :: s) = n + 1 :=
      Nat.exists_eq_add_one.mpr (Nat.add_pos_left c.utf8Size_pos _)
    rw [hn, cons_append, splitAtByte, ← hn, byteLen_cons, if_pos (Nat.le_add_right _ _),
      Nat.add_sub_cancel_left, ih]
    rfl

section

variable {left target : Nat}

lemma splitLoop_suffix {split : Split} (h : split.suffixStarted) {idx} (hleft : left ≤ idx)
    (htarget : target ≤ idx) (s : Str) : splitLoop left target idx s split = split := by
  induction s generalizing idx with
  | nil => rfl
  | cons c s ih =>
    have hpos := c.utf8Size_pos
    rw [splitLoop, if_neg (by omega), if_pos htarget, if_pos h]
    exact ih (by omega) (by omega)

/-- **What one pass finds**: characters that end within the budget, then characters that start
before the target, then the rest. -/
theorem splitLoop_spec (htarget : left < target) (s : Str) {idx} {split : Split}
    (hnot : split.suffixStarted = false) (hstart : split.suffixStart = idx + byteLen s) :
    ∃ before middle after, s = before ++ middle ++ after ∧
      (∀ c t, middle ++ after = c :: t → left < idx + byteLen before + c.utf8Size) ∧
      (after = [] ∨ target ≤ idx + byteLen (before ++ middle)) ∧
      (∀ init c, before ++ middle = init ++ [c] → idx + byteLen init < target) ∧
      ∃ prefixEnd started, splitLoop left target idx s split =
          ⟨prefixEnd, idx + byteLen (before ++ middle), split.removedChars + middle.length,
            started⟩ ∧
        (before = [] ∧ prefixEnd = split.prefixEnd ∨
          idx + byteLen before ≤ left ∧ prefixEnd = idx + byteLen before) := by
  induction s generalizing idx split with
  | nil =>
    obtain ⟨prefixEnd, suffixStart, removedChars, suffixStarted⟩ := split
    exact ⟨[], [], [], rfl, by simp, .inl rfl, by simp, prefixEnd, suffixStarted,
      Split.mk.injEq .. ▸ ⟨rfl, hstart, rfl, rfl⟩, .inl ⟨rfl, rfl⟩⟩
  | cons c s ih =>
    have hpos := c.utf8Size_pos
    have hlast : ∀ {l : Str}, idx < target →
        (∀ init d, l = init ++ [d] → idx + c.utf8Size + byteLen init < target) →
        ∀ init d, c :: l = init ++ [d] → idx + byteLen init < target := by
      intro l hidx h init d heq
      obtain _ | ⟨e, init⟩ := init
      · exact hidx
      · obtain ⟨rfl, hl⟩ := cons.inj heq
        rw [byteLen_cons, ← Nat.add_assoc]
        exact h init d hl
    rw [byteLen_cons, ← Nat.add_assoc] at hstart
    rw [splitLoop]
    by_cases hleft : idx + c.utf8Size ≤ left
    · rw [if_pos hleft]
      obtain ⟨before, middle, after, rfl, hhead, hafter, hinit, prefixEnd, started, hloop,
        hbefore⟩ :=
        @ih _ { split with prefixEnd := idx + c.utf8Size } hnot hstart
      refine ⟨c :: before, middle, after, rfl, ?_, ?_, hlast (by omega) hinit, prefixEnd, started,
        hloop.trans ?_, .inr ?_⟩
      all_goals simp only [cons_append, byteLen_cons, ← Nat.add_assoc]
      · exact hhead
      · exact hafter
      · obtain ⟨rfl, rfl⟩ | h := hbefore
        · exact ⟨hleft, rfl⟩
        · exact h
    rw [if_neg hleft]
    by_cases hidx : target ≤ idx
    · rw [if_pos hidx, if_neg (by simp [hnot]), splitLoop_suffix rfl (by omega) (by omega)]
      exact ⟨[], [], c :: s, rfl, by simpa using hleft, .inr hidx, by simp, _, _, rfl,
        .inl ⟨rfl, rfl⟩⟩
    · rw [if_neg hidx]
      obtain ⟨before, middle, after, rfl, hhead, hafter, hinit, prefixEnd, started, hloop,
        hbefore⟩ :=
        @ih _ { split with removedChars := split.removedChars + 1 } hnot hstart
      obtain ⟨rfl, rfl⟩ : before = [] ∧ prefixEnd = split.prefixEnd :=
        hbefore.resolve_right fun h => hleft (by omega)
      refine ⟨[], c :: middle, after, rfl, ?_, ?_, hlast (by omega) hinit, split.prefixEnd, started,
        hloop.trans ?_, .inl ⟨rfl, rfl⟩⟩
      · simpa using hleft
      · simpa [Nat.add_assoc] using hafter
      · simp [Nat.add_assoc, Nat.add_comm 1]

end

/-- **The middle is as short as the budget allows, and all of it is counted.** -/
theorem truncate_middle_spec (s : Str) (b : Nat) (hb : 0 < b) (hs : b < byteLen s) :
    ∃ before middle after, s = before ++ middle ++ after ∧
      splitString s (splitBudget b).1 (splitBudget b).2 = some (middle.length, before, after) ∧
      byteLen before ≤ b / 2 ∧ (∀ c, before ++ [c] <+: s → b / 2 < byteLen (before ++ [c])) ∧
      byteLen after ≤ b - b / 2 ∧ (∀ c, c :: after <:+ s → b - b / 2 < byteLen (c :: after)) ∧
      byteLen before + byteLen after ≤ b ∧
      truncateMiddleChars s b =
        some (before ++ formatTruncationMarker false middle.length ++ after) := by
  have hne : s ≠ [] := by rintro rfl; exact absurd hs (Nat.not_lt_zero b)
  obtain ⟨before, middle, after, rfl, hhead, hafter, hinit, prefixEnd, started, hloop, hbefore⟩ :=
    @splitLoop_spec (b / 2) (byteLen s - (b - b / 2)) (by omega) s 0
      { suffixStart := byteLen s } rfl (Nat.zero_add _).symm
  simp only [Nat.zero_add] at *
  obtain ⟨hle, rfl⟩ : byteLen before ≤ b / 2 ∧ prefixEnd = byteLen before := by
    obtain ⟨rfl, rfl⟩ | h := hbefore
    · exact ⟨Nat.zero_le _, rfl⟩
    · exact h
  have hsplit : splitString (before ++ middle ++ after) (b / 2) (b - b / 2) =
      some (middle.length, before, after) := by
    have hmax : max (byteLen (before ++ middle)) (byteLen before) = byteLen (before ++ middle) := by
      simp
    have hprefix : splitAtByte (before ++ middle ++ after) (byteLen before) =
        some (before, middle ++ after) := by
      rw [append_assoc, splitAtByte_append]
    simp only [splitString, if_neg hne, hloop, hmax, hprefix, splitAtByte_append]
    rfl
  have hright : byteLen after ≤ b - b / 2 := by
    obtain rfl | h := hafter
    · exact Nat.zero_le _
    · simp only [byteLen_append] at *
      omega
  refine ⟨before, middle, after, rfl, hsplit, hle, fun c h => ?_, hright,
    fun c h => ?_, by omega, ?_⟩
  · rw [append_assoc, prefix_append_right_inj] at h
    obtain ⟨t, ht⟩ := h
    simpa using hhead c t ht.symm
  · obtain ⟨init, h⟩ := h
    rw [← singleton_append, ← append_assoc, append_cancel_right_eq] at h
    have := hinit init c h.symm
    have := congrArg byteLen h
    simp only [byteLen_append, byteLen_cons, byteLen_nil] at *
    omega
  · rw [truncateMiddleChars, truncateWithByteEstimate, if_neg hne, if_neg hb.ne', if_neg (by omega)]
    simp only [splitBudget, hsplit]
    rfl

theorem truncate_middle_spec_euro : 2 < byteLen "a€b" ∧ ∃ before middle after : Str,
    "a€b" = before ++ middle ++ after ∧ truncateMiddleChars "a€b" 2 =
      some (before ++ formatTruncationMarker false middle.length ++ after) := by
  have hlt : 2 < byteLen "a€b" := by decide
  obtain ⟨before, middle, after, hs, -, -, -, -, -, -, htruncated⟩ :=
    truncate_middle_spec "a€b" 2 (by decide) hlt
  exact ⟨hlt, before, middle, after, hs, htruncated⟩

end UtilsString
