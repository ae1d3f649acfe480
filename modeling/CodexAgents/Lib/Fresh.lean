import Mathlib

/-!
# Fresh names by trying

Candidates `f 0`, `f 1`, … are tried until one is not in use.  If the candidates are different,
there is one among the first `used.length + 1` (`exists_first`).
-/

namespace Fresh

open List

variable {α : Type*} [DecidableEq α]

/-- The first candidate that is not in use, within a number of attempts. -/
def first (used : List α) (f : Nat → α) (attempts : Nat) : Option Nat :=
  (List.range' 0 attempts).find? fun k => f k ∉ used

variable {used : List α} {f : Nat → α} {attempts : Nat}

lemma not_mem_of_first {k : Nat} (h : first used f attempts = some k) : f k ∉ used := by
  have := find?_some h
  simpa using this

/-- **Different candidates do not run out.** -/
theorem exists_first (hinj : ∀ j ≤ used.length, ∀ k ≤ used.length, f j = f k → j = k)
    (hattempts : used.length < attempts) : ∃ k, first used f attempts = some k := by
  by_contra hnone
  have hall : ∀ k ≤ used.length, f k ∈ used := by
    intro k hk
    have hfirst := Option.eq_none_iff_forall_ne_some.mpr (not_exists.mp hnone)
    have := find?_eq_none.mp hfirst k (mem_range'_1.mpr ⟨Nat.zero_le k, by omega⟩)
    simpa using this
  have hnodup : ((range (used.length + 1)).map f).Nodup := by
    refine List.Nodup.map_on (fun j hj k hk => ?_) nodup_range
    exact hinj j (Nat.le_of_lt_succ (mem_range.mp hj)) k (Nat.le_of_lt_succ (mem_range.mp hk))
  have hsub : (range (used.length + 1)).map f ⊆ used := by
    intro a ha
    obtain ⟨k, hk, rfl⟩ := mem_map.mp ha
    exact hall k (Nat.le_of_lt_succ (mem_range.mp hk))
  have hlength := (subperm_of_subset hnodup hsub).length_le
  rw [length_map, length_range] at hlength
  exact absurd hlength (Nat.not_succ_le_self _)

end Fresh
