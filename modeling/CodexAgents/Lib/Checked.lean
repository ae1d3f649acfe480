import Mathlib

/-!
# Indices that are checked

A program that indexes outside of a list, or subtracts more than there is, ends.  Here such a
program is one that gives an `Option`: it gives nothing if it ends.  `sub` and `slice` are checked;
`xs[i]?` is checked already.  Where nothing goes wrong, a search with a checked condition is the
search without (`findM?_eq_some`, `allM_eq_some`, `mapM_eq_some`).
-/

namespace Checked

variable {α : Type}

/-- `a - b`, if that is not negative. -/
def sub (a b : ℕ) : Option ℕ := if b ≤ a then some (a - b) else none

/-- `xs[i..j]`. -/
def slice (xs : List α) (i j : ℕ) : Option (List α) :=
  if i ≤ j ∧ j ≤ xs.length then some ((xs.drop i).take (j - i)) else none

lemma sub_eq_some {a b : ℕ} (h : b ≤ a) : sub a b = some (a - b) := if_pos h

variable {xs : List α}

lemma slice_eq_some {i j : ℕ} (hij : i ≤ j) (hj : j ≤ xs.length) :
    slice xs i j = some ((xs.drop i).take (j - i)) := if_pos ⟨hij, hj⟩

/-- A slice to the end. -/
lemma slice_length {i : ℕ} (hi : i ≤ xs.length) : slice xs i xs.length = some (xs.drop i) := by
  rw [slice_eq_some hi le_rfl, List.take_of_length_le (by rw [List.length_drop])]

/-- A slice without the last element. -/
lemma slice_dropLast (xs : List α) : slice xs 0 (xs.length - 1) = some xs.dropLast := by
  rw [slice_eq_some (Nat.zero_le _) (Nat.sub_le _ _), List.drop_zero, List.dropLast_eq_take]
  rfl

variable {p : α → Bool} {q : α → Option Bool}

lemma findM?_eq_some (h : ∀ x ∈ xs, q x = some (p x)) : xs.findM? q = some (xs.find? p) := by
  induction xs with
  | nil => rfl
  | cons x xs ih =>
    rw [List.forall_mem_cons] at h
    rw [List.findM?, h.1, List.find?_cons]
    obtain _ | _ := p x
    · exact ih h.2
    · rfl

lemma allM_eq_some (h : ∀ x ∈ xs, q x = some (p x)) : xs.allM q = some (xs.all p) := by
  induction xs with
  | nil => rfl
  | cons x xs ih =>
    rw [List.forall_mem_cons] at h
    rw [List.allM, h.1, List.all_cons]
    obtain _ | _ := p x
    · rfl
    · exact ih h.2

end Checked
