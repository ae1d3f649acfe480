import CodexAgents.Lib.Splice

/-!
# Splices carried out from the last to the first

Splices that are sorted can also be carried out one by one, beginning with the last, so that none
moves another (`spliceBack`).  For splices that do not overlap this is the walk
(`spliceBack_eq_spliceFrom`), and what comes in is found in the result, one after the other
(`blocks_spliceFrom`).
-/

namespace ListSplice

open List Splice

variable {α : Type*}

/-- Carry out the splices from the last to the first. -/
def spliceBack (xs : List α) (rs : List (Splice α)) : List α :=
  rs.foldr (fun r ys => ys.take r.1 ++ r.2.2 ++ ys.drop (r.1 + r.2.1)) xs

lemma spliceBack_cons (xs : List α) (r : Splice α) (rs : List (Splice α)) :
    spliceBack xs (r :: rs) = (spliceBack xs rs).take r.1 ++ r.2.2 ++
      (spliceBack xs rs).drop (r.1 + r.2.1) := rfl

/-! ## Ordered splices -/

variable {rs : List (Splice α)}

section

variable {R : Splice α → Splice α → Prop}

lemma pairwise_orderedInsert_iff (r : Splice α) (h : rs.Pairwise fun r s => r.1 ≤ s.1) :
    (rs.orderedInsert (fun r s => r.1 ≤ s.1) r).Pairwise R ↔
      (∀ s ∈ rs, if r.1 ≤ s.1 then R r s else R s r) ∧ rs.Pairwise R := by
  induction rs with
  | nil => simp
  | cons s rest ih =>
    rw [pairwise_cons] at h
    rw [orderedInsert_cons]
    split_ifs with hle
    · -- all others come behind it
      rw [pairwise_cons]
      refine and_congr_left fun _ => forall₂_congr fun t ht => ?_
      obtain rfl | ht := mem_cons.mp ht
      · rw [if_pos hle]
      · rw [if_pos (hle.trans (h.1 t ht))]
    · rw [pairwise_cons, pairwise_cons, forall_mem_cons, if_neg hle, ih h.2]
      simp only [mem_orderedInsert, forall_eq_or_imp]
      tauto

/-- A relation between sorted splices is one of the splices as they come, the earlier one first
among those that start together. -/
lemma pairwise_insertionSort_iff (rs : List (Splice α)) :
    (rs.insertionSort fun r s => r.1 ≤ s.1).Pairwise R ↔
      rs.Pairwise fun r s => if r.1 ≤ s.1 then R r s else R s r := by
  induction rs with
  | nil => simp
  | cons r rest ih =>
    rw [insertionSort_cons, pairwise_orderedInsert_iff r (pairwise_insertionSort _ _), ih,
      pairwise_cons]
    simp only [mem_insertionSort]

end

lemma spliceBack_append {ys xs} (h : Ordered ys.length (ys.length + xs.length) rs) :
    spliceBack (ys ++ xs) rs = ys ++ spliceFrom ys.length xs rs := by
  induction rs generalizing ys xs with
  | nil => rfl
  | cons r rest ih =>
    obtain ⟨pos, len, new⟩ := r
    obtain ⟨hpos, hrest⟩ := h
    have hle := hrest.le
    -- what is in front of the rest of the splices
    have hsplit : ys ++ xs = (ys ++ xs.take (pos + len - ys.length)) ++
        xs.drop (pos + len - ys.length) := by
      rw [append_assoc, take_append_drop]
    have hlength : (ys ++ xs.take (pos + len - ys.length)).length = pos + len := by
      rw [length_append, length_take]
      omega
    have htail : spliceBack (ys ++ xs) rest = (ys ++ xs.take (pos + len - ys.length)) ++
        spliceFrom (pos + len) (xs.drop (pos + len - ys.length)) rest := by
      have hordered : Ordered (ys ++ xs.take (pos + len - ys.length)).length
          ((ys ++ xs.take (pos + len - ys.length)).length +
            (xs.drop (pos + len - ys.length)).length) rest := by
        rw [hlength, length_drop, show pos + len + (xs.length - (pos + len - ys.length)) =
          ys.length + xs.length by omega]
        exact hrest
      rw [hsplit, ih hordered, hlength]
    rw [spliceBack_cons, htail, spliceFrom]
    dsimp only
    rw [take_append_of_le_length (by omega), drop_append_of_le_length (by omega),
      drop_of_length_le (by omega), nil_append, take_append,
      take_of_length_le hpos, take_take, drop_drop,
      show min (pos - ys.length) (pos + len - ys.length) = pos - ys.length by omega,
      show pos - ys.length + len = pos + len - ys.length by omega, append_assoc,
      append_assoc]
    simp [append_assoc]

/-- **Splices that do not overlap can be carried out either way.** -/
theorem spliceBack_eq_spliceFrom {xs} (h : Ordered 0 xs.length rs) :
    spliceBack xs rs = spliceFrom 0 xs rs := by
  have happend : spliceBack ([] ++ xs) rs = [] ++ spliceFrom ([] : List α).length xs rs :=
    spliceBack_append (by rwa [length_nil, zero_add])
  exact happend

/-- The list has the blocks in it, one after the other. -/
inductive Blocks : List (List α) → List α → Prop
  | nil (xs : List α) : Blocks [] xs
  | cons {blocks : List (List α)} {rest : List α} (front block : List α)
      (tail : Blocks blocks rest) : Blocks (block :: blocks) (front ++ block ++ rest)

lemma blocks_spliceFrom (i : ℕ) (xs : List α) (rs : List (Splice α)) :
    Blocks (rs.map fun r => r.2.2) (spliceFrom i xs rs) := by
  induction rs generalizing i xs with
  | nil => exact .nil _
  | cons r rest ih => exact .cons _ _ (ih _ _)

/-! ## The last element -/

/-- The last element after splices, which are given from the last to the first: the last one comes
in at the end, or leaves it as it is, or takes away the end and nothing comes in. -/
def lastAfter (xs : List α) : List (Splice α) → Option α
  | [] => xs.getLast?
  | r :: rs =>
    if r.1 + r.2.1 = xs.length then r.2.2.getLast?.or (lastAfter (xs.take r.1) rs) else xs.getLast?

section

variable {i n : ℕ} {r : Splice α}

lemma ordered_concat_iff : Ordered i n (rs ++ [r]) ↔ Ordered i r.1 rs ∧ r.1 + r.2.1 ≤ n := by
  induction rs generalizing i with
  | nil => rfl
  | cons s rest ih =>
    show s.1 ≥ i ∧ Ordered (s.1 + s.2.1) n (rest ++ [r]) ↔
      (s.1 ≥ i ∧ Ordered (s.1 + s.2.1) r.1 rest) ∧ _
    rw [ih, and_assoc]

/-- The last splice, carried out on its own. -/
lemma spliceFrom_concat {xs} (h : Ordered i r.1 rs) : spliceFrom i xs (rs ++ [r]) =
    spliceFrom i (xs.take (r.1 - i)) rs ++ r.2.2 ++ xs.drop (r.1 - i + r.2.1) := by
  induction rs generalizing i xs with
  | nil => rw [nil_append, spliceFrom, spliceFrom, spliceFrom, drop_drop]
  | cons s rest ih =>
    obtain ⟨pos, len, new⟩ := s
    obtain ⟨hpos, hrest⟩ := h
    have hle := hrest.le
    rw [cons_append, spliceFrom, ih hrest, spliceFrom, take_take, drop_drop, drop_take, drop_take,
      drop_drop, drop_drop,
      show min (pos - i) (r.1 - i) = pos - i by omega,
      show r.1 - i - (pos - i) - len = r.1 - (pos + len) by omega,
      show pos - i + len + (r.1 - (pos + len) + r.2.1) = r.1 - i + r.2.1 by omega]
    simp only [append_assoc]

lemma getLast?_spliceFrom {xs} (h : Ordered 0 xs.length rs) :
    (spliceFrom 0 xs rs).getLast? = lastAfter xs rs.reverse := by
  induction rs using reverseRecOn generalizing xs with
  | nil => rfl
  | append_singleton rs r ih =>
    obtain ⟨hrs, hle⟩ := ordered_concat_iff.mp h
    rw [spliceFrom_concat hrs, reverse_concat, lastAfter, Nat.sub_zero, getLast?_append,
      getLast?_append]
    split_ifs with hend
    · rw [drop_of_length_le hend.ge, ih]
      · rfl
      · rwa [length_take, min_eq_left (by omega)]
    · -- the end stays
      obtain ⟨x, hx⟩ : ∃ x, (xs.drop (r.1 + r.2.1)).getLast? = some x := by
        rw [← Option.isSome_iff_exists, getLast?_isSome, ne_eq, drop_eq_nil_iff]
        omega
      rw [hx, Option.some_or, ← hx, getLast?_drop, if_neg (by omega)]

end

/-! ## Splices without effect -/

/-- The splice changes something. -/
def Splice.effective (r : Splice α) : Bool := r.2.1 != 0 || !r.2.2.isEmpty

lemma Splice.effective_eq_false_iff {r : Splice α} :
    r.effective = false ↔ r.2.1 = 0 ∧ r.2.2 = [] := by
  rw [effective, Bool.or_eq_false_iff, bne_eq_false_iff_eq, Bool.not_eq_false',
    List.isEmpty_iff]

lemma spliceBack_filter_effective (xs : List α) (rs : List (Splice α)) :
    spliceBack xs (rs.filter effective) = spliceBack xs rs := by
  induction rs with
  | nil => rfl
  | cons r rs ih =>
    rw [filter_cons]
    split_ifs with heffective
    · rw [spliceBack_cons, ih, spliceBack_cons]
    · obtain ⟨hlen, hnew⟩ := effective_eq_false_iff.mp (Bool.eq_false_of_not_eq_true heffective)
      rw [ih, spliceBack_cons, hlen, hnew, append_nil, add_zero, take_append_drop]

/-! ## What is removed -/

/-- The splices remove different elements. -/
def Splice.Disjoint (r s : Splice α) : Prop :=
  ∀ k, ¬ ((r.1 ≤ k ∧ k < r.1 + r.2.1) ∧ s.1 ≤ k ∧ k < s.1 + s.2.1)

end ListSplice
