import Mathlib

/-!
# Putting a numbered sequence back in order

Elements of a sequence arrive with their numbers, in any order and any number of times.  Of those
that have arrived, one can hand on the elements before the first number that is missing
(`firstMissing`), and of several elements with one number the one that arrived first (`firstSeen`).
What has been handed on stays the same when more arrives (`upTo_concat`).
-/

namespace Reorder

open List Option

/-! ## The first number that is missing -/

variable (got : List Nat)

/-- The first number that is not among them. -/
def firstMissing : Nat := ((List.range (got.length + 1)).find? (· ∉ got)).getD 0

lemma exists_missing : ∃ k ∈ range (got.length + 1), k ∉ got := by
  by_contra hall
  push Not at hall
  have hsub : Finset.range (got.length + 1) ⊆ got.toFinset := fun k hk =>
    mem_toFinset.mpr (hall k (mem_range.mpr (Finset.mem_range.mp hk)))
  have hcard := (Finset.card_le_card hsub).trans (toFinset_card_le got)
  rw [Finset.card_range] at hcard
  omega

lemma firstMissing_spec : (∀ k < firstMissing got, k ∈ got) ∧ firstMissing got ∉ got := by
  obtain ⟨k, hk, hmiss⟩ := exists_missing got
  have hsome : ((range (got.length + 1)).find? (· ∉ got)).isSome :=
    find?_isSome.mpr ⟨k, hk, decide_eq_true hmiss⟩
  obtain ⟨e, he⟩ := isSome_iff_exists.mp hsome
  have heq : firstMissing got = e := by rw [firstMissing, he, getD_some]
  have hnot : e ∉ got := by simpa using find?_some he
  rw [heq]
  refine ⟨fun j hj => ?_, hnot⟩
  obtain ⟨-, i, hi, hie, hbefore⟩ := find?_eq_some_iff_getElem.mp he
  rw [getElem_range] at hie
  subst hie
  have := hbefore j hj
  rw [getElem_range] at this
  simpa using this

lemma firstMissing_eq {got e} (hbelow : ∀ k < e, k ∈ got) (he : e ∉ got) :
    firstMissing got = e := by
  obtain ⟨hspec, hnot⟩ := firstMissing_spec got
  obtain h | h | h := Nat.lt_trichotomy (firstMissing got) e
  · exact absurd (hbelow _ h) hnot
  · exact h
  · exact absurd (hspec _ h) he

/-! ## What arrived first -/

variable {β : Type*}

/-- What came first with a number. -/
def firstSeen (got : List (Nat × β)) (k : Nat) : Option β := (got.find? (·.1 = k)).map Prod.snd

/-- The numbers. -/
abbrev numbers (got : List (Nat × β)) : List Nat := got.map Prod.fst

variable {got : List (Nat × β)} {k : Nat}

lemma firstSeen_eq_none_iff : firstSeen got k = none ↔ k ∉ numbers got := by
  rw [firstSeen, map_eq_none_iff, find?_eq_none]
  constructor
  · intro h hk
    obtain ⟨p, hp, rfl⟩ := mem_map.mp hk
    exact h p hp (decide_eq_true rfl)
  · intro h p hp hpk
    exact h (of_decide_eq_true hpk ▸ mem_map_of_mem hp)

lemma firstSeen_isSome_iff : (firstSeen got k).isSome ↔ k ∈ numbers got := by
  rw [← not_iff_not, ← firstSeen_eq_none_iff, not_isSome_iff_eq_none]

lemma firstSeen_concat_of_mem (h : k ∈ numbers got) (p : Nat × β) :
    firstSeen (got ++ [p]) k = firstSeen got k := by
  obtain ⟨b, hb⟩ := isSome_iff_exists.mp (firstSeen_isSome_iff.mpr h)
  obtain ⟨q, hq, -⟩ := map_eq_some_iff.mp hb
  rw [firstSeen, find?_append, hq, some_or, firstSeen, hq]

lemma firstSeen_concat_of_ne {p} (h : p.1 ≠ k) :
    firstSeen (got ++ [p]) k = firstSeen got k := by
  rw [firstSeen, find?_append, find?_cons_of_neg (by simpa using h), find?_nil, or_none, firstSeen]

lemma firstSeen_concat_self {p} (h : p.1 ∉ numbers got) :
    firstSeen (got ++ [p]) p.1 = some p.2 := by
  have hnone : got.find? (·.1 = p.1) = none := by
    rw [← map_eq_none_iff (f := Prod.snd)]
    exact firstSeen_eq_none_iff.mpr h
  rw [firstSeen, find?_append, hnone, none_or, find?_cons_of_pos (by simp)]
  rfl

lemma mem_of_firstSeen {b} (h : firstSeen got k = some b) : (k, b) ∈ got := by
  obtain ⟨⟨j, c⟩, hq, rfl⟩ := map_eq_some_iff.mp h
  have hj : j = k := by simpa using find?_some hq
  exact hj ▸ mem_of_find?_eq_some hq

/-! ## What can be handed on -/

/-- The elements with numbers below `e`. -/
def upTo (got : List (Nat × β)) (e : Nat) : List β := (List.range e).filterMap (firstSeen got)

lemma upTo_add (got : List (Nat × β)) (e n : Nat) :
    upTo got (e + n) = upTo got e ++ (range' e n).filterMap (firstSeen got) := by
  rw [upTo, upTo, range_eq_range', ← range'_append_1, filterMap_append,
    ← range_eq_range', zero_add]

/-- What has been handed on stays the same. -/
lemma upTo_concat {e} (h : ∀ k < e, k ∈ numbers got) (p : Nat × β) :
    upTo (got ++ [p]) e = upTo got e :=
  filterMap_congr fun k hk => firstSeen_concat_of_mem (h k (mem_range.mp hk)) p

end Reorder
