import Mathlib

/-!
# Cutting a list into parts

`chunks size l` cuts `l` into parts of `size` elements, of which the last can be shorter.  Together
they are the list (`chunks_flatten`), and none is too long (`chunksRounds_length_le`).
-/

namespace Slice

open List

variable {α : Type*}

/-- The parts of the list, in rounds. -/
def chunksRounds (size : Nat) : Nat → List α → List (List α)
  | 0, _ => []
  | _ + 1, [] => []
  | rounds + 1, l => l.take size :: chunksRounds size rounds (l.drop size)

/-- The list in pieces of a size. -/
def chunks (size : Nat) (l : List α) : List (List α) := chunksRounds size l.length l

variable {size : Nat}

lemma chunksRounds_flatten (hsize : 0 < size) (rounds : Nat) (l : List α)
    (h : l.length ≤ rounds) : (chunksRounds size rounds l).flatten = l := by
  induction rounds generalizing l with
  | zero => rw [eq_nil_of_length_eq_zero (by omega : l.length = 0)]; rfl
  | succ rounds ih =>
    cases l with
    | nil => rfl
    | cons a l =>
      rw [chunksRounds, flatten_cons, ih, take_append_drop]
      · rw [length_drop]
        rw [length_cons] at h ⊢
        omega
      · exact cons_ne_nil a l

lemma chunksRounds_length_le {rounds : Nat} {l chunk : List α}
    (h : chunk ∈ chunksRounds size rounds l) : chunk.length ≤ size := by
  induction rounds generalizing l with
  | zero => cases h
  | succ rounds ih =>
    cases l with
    | nil => cases h
    | cons a l =>
      rw [chunksRounds] at h
      · obtain rfl | h := mem_cons.mp h
        · rw [length_take]
          exact min_le_left _ _
        · exact ih h
      · exact cons_ne_nil a l

lemma length_chunksRounds_le (size rounds : Nat) (l : List α) :
    (chunksRounds size rounds l).length ≤ rounds := by
  induction rounds generalizing l with
  | zero => exact le_refl 0
  | succ rounds ih =>
    cases l with
    | nil => exact Nat.zero_le _
    | cons a l =>
      rw [chunksRounds, length_cons]
      · exact Nat.succ_le_succ (ih _)
      · exact cons_ne_nil a l

/-- There are not more parts than elements. -/
lemma length_chunks_le (size : Nat) (l : List α) : (chunks size l).length ≤ l.length :=
  length_chunksRounds_le size l.length l

lemma length_chunksRounds (hsize : 0 < size) (rounds : Nat) (l : List α) (h : l.length ≤ rounds) :
    (chunksRounds size rounds l).length = l.length ⌈/⌉ size := by
  induction rounds generalizing l with
  | zero => rw [eq_nil_of_length_eq_zero (by omega : l.length = 0), length_nil, zero_ceilDiv]; rfl
  | succ rounds ih =>
    cases l with
    | nil => rw [length_nil, zero_ceilDiv]; rfl
    | cons a l =>
      rw [chunksRounds, length_cons, ih, length_drop]
      · rw [length_cons, Nat.ceilDiv_eq_add_pred_div, Nat.ceilDiv_eq_add_pred_div,
          ← Nat.add_div_right _ hsize]
        obtain hle | hle := Nat.le_total size (l.length + 1)
        · congr 1
          omega
        · rw [Nat.div_eq_of_lt_le (k := 1) (by omega) (by omega),
            Nat.div_eq_of_lt_le (k := 1) (by omega) (by omega)]
      · rw [length_drop]
        rw [length_cons] at h ⊢
        omega
      · exact cons_ne_nil a l

/-- As many parts as it takes. -/
lemma length_chunks (hsize : 0 < size) (l : List α) : (chunks size l).length = l.length ⌈/⌉ size :=
  length_chunksRounds hsize _ l (le_refl _)

lemma chunks_ne_nil (size : Nat) {l : List α} (h : l ≠ []) : chunks size l ≠ [] := by
  cases l with
  | nil => exact absurd rfl h
  | cons a l =>
    rw [chunks, length_cons, chunksRounds]
    · exact cons_ne_nil _ _
    · exact h

lemma chunks_flatten (hsize : 0 < size) (l : List α) : (chunks size l).flatten = l :=
  chunksRounds_flatten hsize _ l (le_refl _)

end Slice
