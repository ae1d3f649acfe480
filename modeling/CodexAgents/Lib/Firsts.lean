import Mathlib.Data.List.Sort

/-!
# First occurrences

A loop that goes over a list and passes over what it has seen goes over the first occurrences.  They
are in the order of the list (`firsts_sublist`), and each is there once (`nodup_firsts`).  A part of
them is what a loop over that part of the list would go over (`filter_firsts`).

A list that was sorted with a stable sort has the elements of a tie in the order they had before
(`filter_insertionSort`).
-/

namespace Firsts

open List

variable {α : Type*} [DecidableEq α]

/-- The first occurrences of what has not been seen. -/
def firsts (seen : List α) : List α → List α
  | [] => []
  | a :: l => if a ∈ seen then firsts seen l else a :: firsts (a :: seen) l

lemma mem_firsts {seen l} {a : α} : a ∈ firsts seen l ↔ a ∈ l ∧ a ∉ seen := by
  induction l generalizing seen with
  | nil => simp [firsts]
  | cons b l ih =>
    rw [firsts]
    split_ifs with hb
    · rw [ih, mem_cons]
      constructor
      · exact fun h => ⟨.inr h.1, h.2⟩
      · rintro ⟨rfl | h, ha⟩
        · exact absurd hb ha
        · exact ⟨h, ha⟩
    · rw [mem_cons, ih, mem_cons, mem_cons]
      constructor
      · rintro (rfl | ⟨h, ha⟩)
        · exact ⟨.inl rfl, hb⟩
        · exact ⟨.inr h, fun hseen => ha (.inr hseen)⟩
      · rintro ⟨h, ha⟩
        by_cases hab : a = b
        · exact .inl hab
        · exact .inr ⟨h.resolve_left hab, fun h => h.elim hab ha⟩

lemma nodup_firsts (seen l : List α) : (firsts seen l).Nodup := by
  induction l generalizing seen with
  | nil => exact nodup_nil
  | cons b l ih =>
    rw [firsts]
    split
    · exact ih seen
    · refine nodup_cons.mpr ⟨fun hb => ?_, ih _⟩
      exact (mem_firsts.mp hb).2 mem_cons_self

lemma firsts_sublist (seen l : List α) : (firsts seen l).Sublist l := by
  induction l generalizing seen with
  | nil => exact List.Sublist.refl _
  | cons b l ih =>
    rw [firsts]
    split
    · exact (ih seen).cons b
    · exact (ih _).cons_cons b

/-- What has been seen besides `p` does not matter for `p`. -/
lemma filter_firsts {p seen seen'}
    (h : ∀ a, p a → (a ∈ seen ↔ a ∈ seen')) (l : List α) :
    (firsts seen l).filter p = firsts seen' (l.filter p) := by
  induction l generalizing seen seen' with
  | nil => rfl
  | cons b l ih =>
    by_cases hp : p b = true
    · rw [filter_cons_of_pos hp, firsts, firsts]
      by_cases hb : b ∈ seen
      · rw [if_pos hb, if_pos ((h b hp).mp hb)]
        exact ih h
      · rw [if_neg hb, if_neg (mt (h b hp).mpr hb), filter_cons_of_pos hp]
        refine congrArg (b :: ·) (ih fun a ha => ?_)
        rw [mem_cons, mem_cons, h a ha]
    · rw [filter_cons_of_neg hp, firsts]
      split
      · exact ih h
      · rw [filter_cons_of_neg hp]
        refine ih fun a ha => ?_
        have hab : a ≠ b := fun hab => hp (hab ▸ ha)
        rw [mem_cons, or_iff_right hab, h a ha]

/-- The same for what is gone over. -/
lemma firsts_filter_congr {p seen seen'}
    (h : ∀ a, p a → (a ∈ seen ↔ a ∈ seen')) (l : List α) :
    firsts seen (l.filter p) = firsts seen' (l.filter p) :=
  (filter_firsts (fun _ _ => Iff.rfl) l).symm.trans (filter_firsts h l)

lemma firsts_congr {seen seen'} (h : ∀ a, a ∈ seen ↔ a ∈ seen') (l : List α) :
    firsts seen l = firsts seen' l := by
  have hfilter := firsts_filter_congr (p := fun _ => true) (fun a _ => h a) l
  rwa [filter_true] at hfilter

lemma firsts_append (seen l l' : List α) :
    firsts seen (l ++ l') = firsts seen l ++ firsts (l ++ seen) l' := by
  induction l generalizing seen with
  | nil => rfl
  | cons a l ih =>
    rw [cons_append, firsts, firsts]
    split_ifs with ha
    · rw [ih]
      refine congrArg _ (firsts_congr (fun b => ?_) l')
      rw [cons_append, mem_cons]
      refine (or_iff_right_of_imp ?_).symm
      rintro rfl
      exact mem_append_right l ha
    · rw [ih, cons_append]
      refine congrArg _ (congrArg _ (firsts_congr (fun b => ?_) l'))
      simp only [cons_append, mem_append, mem_cons]
      exact or_left_comm

/-- **A stable sort.** -/
theorem filter_insertionSort {β : Type*} {r} [DecidableRel r] {p}
    (hties : ∀ a b, p a → p b → r a b) (l : List β) :
    (l.insertionSort r).filter p = l.filter p := by
  have hsorted : (l.filter p).Pairwise r :=
    pairwise_of_forall_mem_list fun a ha b hb =>
      hties a b (mem_filter.mp ha).2 (mem_filter.mp hb).2
  have hsub := (sublist_insertionSort hsorted filter_sublist).filter p
  rw [filter_filter, filter_congr fun a _ => Bool.and_self (p a)] at hsub
  refine (hsub.eq_of_length ?_).symm
  exact ((perm_insertionSort r l).filter p).length_eq.symm

end Firsts
