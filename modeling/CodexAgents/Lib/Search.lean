import Mathlib

/-!
# Searching a text that is still coming in

`find` looks for the first occurrence of a needle in a list.  When the list is the beginning of a
longer one, which part of it can be let go?  If the needle has been found, whatever follows makes no
difference (`find_append_of_some`).  If not, an occurrence may have begun: the end of the list may
be the beginning of the needle.  The longest such overlap (`IsOverlap`) must be kept, and it is
enough: without what comes before it, the needle is found in the same place
(`find_append_of_none`), and the next overlap is the same (`IsOverlap.append_iff`).
-/

namespace Search

open List Option

variable {α : Type*} {needle s b : List α}

/-! ## Occurrences -/

/-- The needle is at the position. -/
def OccursAt (needle s : List α) (i : Nat) : Prop := needle <+: s.drop i

variable {i : Nat}

namespace OccursAt

lemma add_length_le (h : OccursAt needle s i) (hne : needle ≠ []) :
    i + needle.length ≤ s.length := by
  have hlength := List.IsPrefix.length_le h
  have hpos := length_pos_of_ne_nil hne
  rw [length_drop] at hlength
  omega

lemma append (h : OccursAt needle s i) (hne : needle ≠ []) (b : List α) :
    OccursAt needle (s ++ b) i := by
  have hi := h.add_length_le hne
  rw [OccursAt, drop_append_of_le_length (by omega)]
  exact List.IsPrefix.trans h (prefix_append _ b)

/-- An occurrence that ends within the first part is one of the first part. -/
lemma of_append (h : OccursAt needle (s ++ b) i) (hi : i + needle.length ≤ s.length) :
    OccursAt needle s i := by
  rw [OccursAt, drop_append_of_le_length (by omega)] at h
  refine prefix_of_prefix_length_le h (prefix_append _ b) ?_
  rw [length_drop]
  omega

lemma drop_iff {d} : OccursAt needle (s.drop d) i ↔ OccursAt needle s (d + i) := by
  rw [OccursAt, drop_drop, OccursAt]

/-- The shorter of two occurrences, within the longer one. -/
lemma isInfix {needle' j} (h : OccursAt needle s i) (h' : OccursAt needle' s j)
    (hji : j ≤ i) (hend : i + needle.length ≤ j + needle'.length) : needle <:+: needle' := by
  obtain ⟨rest, hrest⟩ := h'
  have hdrop : s.drop i = needle'.drop (i - j) ++ rest := by
    have hdrop' : s.drop i = (s.drop j).drop (i - j) := by
      rw [drop_drop, Nat.add_sub_cancel' hji]
    rw [hdrop', ← hrest, drop_append_of_le_length (by omega)]
  rw [OccursAt, hdrop] at h
  have hpre : needle <+: needle'.drop (i - j) := by
    refine prefix_of_prefix_length_le h (prefix_append _ rest) ?_
    rw [length_drop]
    omega
  exact hpre.isInfix.trans (drop_suffix _ needle').isInfix

end OccursAt

/-! ## The first occurrence -/

section

variable [DecidableEq α]

/-- Where the needle occurs for the first time. -/
def find (needle : List α) : List α → Option Nat
  | [] => if needle = [] then some 0 else none
  | a :: s => if needle.isPrefixOf (a :: s) then some 0 else (find needle s).map (· + 1)

variable (hne : needle ≠ [])
include hne

lemma find_eq_none_iff : find needle s = none ↔ ∀ i, ¬ OccursAt needle s i := by
  induction s with
  | nil =>
    rw [find, if_neg hne]
    refine iff_of_true rfl fun i h => hne ?_
    rwa [OccursAt, drop_nil, prefix_nil] at h
  | cons a s ih =>
    rw [find]
    split
    · rename_i hpre
      exact iff_of_false (some_ne_none 0) fun h => h 0 <| isPrefixOf_iff_prefix.mp hpre
    · rename_i hpre
      rw [map_eq_none_iff, ih]
      constructor
      · rintro h (_ | i) hi
        · exact hpre <| isPrefixOf_iff_prefix.mpr hi
        · exact h i hi
      · exact fun h i => h (i + 1)

lemma find_eq_some_iff :
    find needle s = some i ↔ OccursAt needle s i ∧ ∀ j < i, ¬ OccursAt needle s j := by
  induction s generalizing i with
  | nil =>
    rw [find, if_neg hne]
    refine iff_of_false (some_ne_none i).symm fun h => hne ?_
    simpa [OccursAt] using h.1
  | cons a s ih =>
    rw [find]
    split_ifs with hpre
    · have hzero : OccursAt needle (a :: s) 0 := isPrefixOf_iff_prefix.mp hpre
      rw [some_inj]
      constructor
      · rintro rfl
        exact ⟨hzero, by simp⟩
      · intro h
        by_contra hi
        exact h.2 0 (by omega) hzero
    · have hzero : ¬ OccursAt needle (a :: s) 0 := fun h =>
        hpre <| isPrefixOf_iff_prefix.mpr h
      rw [map_eq_some_iff]
      constructor
      · rintro ⟨j, hj, rfl⟩
        obtain ⟨hocc, hfirst⟩ := ih.mp hj
        refine ⟨hocc, ?_⟩
        rintro (_ | j') hj'
        · exact hzero
        · exact hfirst j' (by omega)
      · rintro ⟨hocc, hfirst⟩
        obtain _ | i := i
        · exact absurd hocc hzero
        · exact ⟨i, ih.mpr ⟨hocc, fun j hj => hfirst (j + 1) (by omega)⟩, rfl⟩

lemma add_length_le_of_find (h : find needle s = some i) : i + needle.length ≤ s.length :=
  ((find_eq_some_iff hne).mp h).1.add_length_le hne

/-- What comes after the first occurrence makes no difference. -/
lemma find_append_of_some (h : find needle s = some i) (b : List α) :
    find needle (s ++ b) = some i := by
  have hi := add_length_le_of_find hne h
  obtain ⟨hocc, hfirst⟩ := (find_eq_some_iff hne).mp h
  refine (find_eq_some_iff hne).mpr ⟨hocc.append hne b, fun j hj hj' => ?_⟩
  exact hfirst j hj (hj'.of_append (by omega))

/-- A part in which no occurrence begins can be left out. -/
lemma find_drop {d} (h : ∀ i < d, ¬ OccursAt needle s i) :
    find needle s = (find needle (s.drop d)).map (d + ·) := by
  rcases hfind : find needle (s.drop d) with _ | i
  · rw [find_eq_none_iff hne] at hfind
    rw [map_none, find_eq_none_iff hne]
    intro i hi
    by_cases hd : i < d
    · exact h i hd hi
    · refine hfind (i - d) (OccursAt.drop_iff.mpr ?_)
      rwa [Nat.add_sub_cancel' (Nat.le_of_not_lt hd)]
  · obtain ⟨hocc, hfirst⟩ := (find_eq_some_iff hne).mp hfind
    rw [map_some, find_eq_some_iff hne]
    refine ⟨OccursAt.drop_iff.mp hocc, fun j hj hj' => ?_⟩
    by_cases hd : j < d
    · exact h j hd hj'
    · refine hfirst (j - d) (by omega) (OccursAt.drop_iff.mpr ?_)
      rwa [Nat.add_sub_cancel' (Nat.le_of_not_lt hd)]

end

/-! ## Overlaps -/

/-- **The longest overlap**: `k` elements at the end of the list are the beginning of the needle,
and no more than `k`, short of all of it. -/
structure IsOverlap (needle s : List α) (k : Nat) : Prop where
  lt : k < needle.length
  suffix : needle.take k <:+ s
  max : ∀ k' < needle.length, needle.take k' <:+ s → k' ≤ k

namespace IsOverlap

lemma unique {k k'} (h : IsOverlap needle s k) (h' : IsOverlap needle s k') : k = k' :=
  le_antisymm (h'.max k h.lt h.suffix) (h.max k' h'.lt h'.suffix)

variable {k d : Nat} (h : IsOverlap needle s k)

include h

lemma le_length : k ≤ s.length := by
  have hlength := h.suffix.length_le
  rwa [length_take_of_le h.lt.le] at hlength

/-- No occurrence begins before the overlap. -/
lemma not_occursAt (hnone : ∀ i, ¬ OccursAt needle s i) (b : List α) {i}
    (hi : i < s.length - k) : ¬ OccursAt needle (s ++ b) i := by
  intro hocc
  rw [OccursAt, drop_append_of_le_length (by omega)] at hocc
  obtain hin | hover := prefix_or_prefix_of_prefix hocc (prefix_append _ b)
  · exact hnone i hin
  · have hlength : (s.drop i).length = s.length - i := length_drop
    have htake : needle.take (s.length - i) = s.drop i := by
      rw [← hlength]
      exact (prefix_iff_eq_take.mp hover).symm
    have hlt : s.length - i < needle.length := by
      by_contra hge
      refine hnone i ?_
      rw [OccursAt, ← htake, take_of_length_le (by omega)]
    have hmax := h.max _ hlt (htake ▸ drop_suffix i s)
    omega

/-- **What comes before the overlap can be left out** of a list without the needle. -/
theorem find_append_of_none [DecidableEq α] (hnone : find needle s = none) (hd : d ≤ s.length - k)
    (b : List α) : find needle (s ++ b) = (find needle (s.drop d ++ b)).map (d + ·) := by
  have hne : needle ≠ [] := ne_nil_of_length_pos (Nat.zero_lt_of_lt h.lt)
  rw [find_eq_none_iff hne] at hnone
  rw [← drop_append_of_le_length (by omega)]
  exact find_drop hne fun i hi => h.not_occursAt hnone b (by omega)

lemma take_suffix_append_iff (hd : d ≤ s.length - k) (b : List α) {k'}
    (hk' : k' < needle.length) : needle.take k' <:+ s ++ b ↔ needle.take k' <:+ s.drop d ++ b := by
  have hdrop : s.drop d ++ b <:+ s ++ b := ⟨s.take d, by rw [← append_assoc, take_append_drop]⟩
  refine ⟨fun hsuffix => ?_, fun hsuffix => hsuffix.trans hdrop⟩
  obtain hshort | ⟨u, hu⟩ := suffix_or_suffix_of_suffix hsuffix hdrop
  · exact hshort
  · -- the part of it in front of `b` overlaps the list, so it is no longer than `k`
    have hover : needle.take (u ++ s.drop d).length = u ++ s.drop d := by
      refine (prefix_iff_eq_take.mp ?_).symm
      refine List.IsPrefix.trans ?_ <| take_prefix k' needle
      rw [← hu, ← append_assoc]
      exact prefix_append _ b
    have hin : u ++ s.drop d <:+ s := by
      obtain ⟨v, hv⟩ := hsuffix
      rw [← hu, ← append_assoc u, ← append_assoc v] at hv
      exact ⟨v, append_cancel_right hv⟩
    have hlength : (needle.take k').length = k' := length_take_of_le hk'.le
    rw [← hu, ← append_assoc, length_append] at hlength
    have hmax := h.max _ (by omega) (hover.symm ▸ hin)
    rw [length_append, length_drop] at hmax
    have hk := h.le_length
    have hnil : u = [] := eq_nil_of_length_eq_zero (by omega)
    rw [← hu, hnil, nil_append]

/-- **The next overlap** is the same as well. -/
theorem append_iff (hd : d ≤ s.length - k) (b : List α) (k' : Nat) :
    IsOverlap needle (s ++ b) k' ↔ IsOverlap needle (s.drop d ++ b) k' := by
  constructor
  · rintro ⟨hlt, hsuffix, hmax⟩
    refine ⟨hlt, (h.take_suffix_append_iff hd b hlt).mp hsuffix, fun j hj hjs => ?_⟩
    exact hmax j hj ((h.take_suffix_append_iff hd b hj).mpr hjs)
  · rintro ⟨hlt, hsuffix, hmax⟩
    refine ⟨hlt, (h.take_suffix_append_iff hd b hlt).mpr hsuffix, fun j hj hjs => ?_⟩
    exact hmax j hj ((h.take_suffix_append_iff hd b hj).mp hjs)

end IsOverlap

end Search
