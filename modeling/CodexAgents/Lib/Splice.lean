import Mathlib
import CodexAgents.Lib.Firsts

/-!
# Replacing stretches of a list

A *splice* is a position, a number of elements that go, and a list of elements that come in their
place.  Several of them can be carried out in one walk over the list (`spliceFrom`), provided they
come in order and do not overlap (`Ordered`).

What the walk amounts to does not depend on the order they were given in.  Seen from the list it is
a matter of each position on its own: `splicePointwise` puts in front of every element what is to be
inserted there, and keeps the element unless it is covered by a splice.

* `spliceFrom_eq_splicePointwise` — the walk over ordered splices is the pointwise one.
* `insertedAt_insertionSort`, `covered_insertionSort` — the pointwise view does not see a stable
  sort.
* `OrderedUpToEnd.insertionSort` — splices that are in order but for insertions at the end are in
  order once they have been sorted.
* `spliceFrom_insertionSort` — the two together.
-/

namespace ListSplice

open List

variable {α β : Type*}

/-- Position, number of elements that go, elements that come. -/
abbrev Splice (α : Type*) := ℕ × ℕ × List α

/-- Carry out the splices in one walk; `i` is the index of the first element of the list. -/
def spliceFrom : ℕ → List α → List (Splice α) → List α
  | _, xs, [] => xs
  | i, xs, (pos, len, new) :: rest =>
    xs.take (pos - i) ++ new ++ spliceFrom (pos + len) ((xs.drop (pos - i)).drop len) rest

/-- The splices start at `i`, come in order, do not overlap, and end before `n`. -/
def Ordered : ℕ → ℕ → List (Splice α) → Prop
  | i, n, [] => i ≤ n
  | i, n, (pos, len, _) :: rest => i ≤ pos ∧ Ordered (pos + len) n rest

/-- What is to be inserted at a position, in the order of the splices. -/
def insertedAt (rs : List (Splice α)) (k : ℕ) : List α :=
  (rs.filter fun r => r.1 = k).flatMap fun r => r.2.2

/-- Is the element at the position one of those that go? -/
def covered (rs : List (Splice α)) (k : ℕ) : Bool := rs.any fun r => r.1 ≤ k && k < r.1 + r.2.1

/-- **Position by position**: what is inserted in front of an element, and the element if it
stays. -/
def splicePointwise (ins : ℕ → List α) (gone : ℕ → Bool) : ℕ → List α → List α
  | i, [] => ins i
  | i, x :: xs => ins i ++ (if gone i then [] else [x]) ++ splicePointwise ins gone (i + 1) xs

/-! ## Ordered splices -/

variable {rs : List (Splice α)} {i n : ℕ}

lemma Ordered.le (h : Ordered i n rs) : i ≤ n := by
  induction rs generalizing i with
  | nil => exact h
  | cons r rest ih =>
    obtain ⟨hpos, hrest⟩ := h
    have := ih hrest
    omega

variable {j : ℕ}

lemma Ordered.mono (h : Ordered i n rs) (hji : j ≤ i) : Ordered j n rs := by
  cases rs with
  | nil => exact hji.trans h
  | cons r rest => exact ⟨hji.trans h.1, h.2⟩

lemma Ordered.le_pos (h : Ordered i n rs) {r} (hr : r ∈ rs) : i ≤ r.1 := by
  induction rs generalizing i with
  | nil => simp at hr
  | cons s rest ih =>
    obtain rfl | hr := mem_cons.mp hr
    · exact h.1
    · have := ih h.2 hr
      have := h.1
      omega

variable {ss : List (Splice α)}

lemma Ordered.append (hr : Ordered i j rs) (hs : Ordered j n ss) : Ordered i n (rs ++ ss) := by
  induction rs generalizing i with
  | nil => exact hs.mono hr
  | cons r rest ih => exact ⟨hr.1, ih hr.2⟩

lemma Ordered.sorted (h : Ordered i n rs) : rs.Pairwise fun r s => r.1 ≤ s.1 := by
  induction rs generalizing i with
  | nil => exact .nil
  | cons r rest ih =>
    exact (ih h.2).cons fun s hs => (Nat.le_add_right r.1 r.2.1).trans (h.2.le_pos hs)

lemma Ordered.end_le (h : Ordered i n rs) : ∀ r ∈ rs, r.1 + r.2.1 ≤ n := by
  induction rs generalizing i with
  | nil => exact forall_mem_nil _
  | cons r rest ih => exact forall_mem_cons.mpr ⟨h.2.le, ih h.2⟩

lemma Ordered.isChain (h : Ordered i n rs) : rs.IsChain fun r s => r.1 + r.2.1 ≤ s.1 := by
  induction rs generalizing i with
  | nil => exact .nil
  | cons r rest ih =>
    obtain _ | ⟨s, rest⟩ := rest
    · exact .singleton _
    · exact .cons_cons h.2.1 (ih h.2)

/-- Splices are in order if each begins behind the one before it, and all are within the list. -/
lemma ordered_of_isChain (h : rs.IsChain fun r s => r.1 + r.2.1 ≤ s.1) (hi : i ≤ n)
    (hfrom : ∀ r ∈ rs.head?, i ≤ r.1) (hwithin : ∀ r ∈ rs, r.1 + r.2.1 ≤ n) : Ordered i n rs := by
  induction rs generalizing i with
  | nil => exact hi
  | cons r rest ih =>
    rw [forall_mem_cons] at hwithin
    refine ⟨hfrom r rfl, ih h.tail hwithin.1 (fun s hs => ?_) hwithin.2⟩
    obtain _ | ⟨s', rest⟩ := rest
    · cases hs
    · obtain rfl := Option.some.inj hs
      exact h.rel

variable {k : ℕ}

/-- Nothing happens at a position in front of all splices. -/
lemma Ordered.insertedAt_eq_nil (h : Ordered i n rs) (hk : k < i) : insertedAt rs k = [] := by
  rw [insertedAt, filter_eq_nil_iff.mpr]
  · rfl
  · intro r hr
    have := h.le_pos hr
    simp only [decide_eq_true_eq]
    omega

lemma Ordered.covered_eq_false (h : Ordered i n rs) (hk : k < i) : covered rs k = false := by
  rw [covered, any_eq_false]
  intro r hr
  have := h.le_pos hr
  simp only [Bool.and_eq_true, decide_eq_true_eq]
  omega

lemma insertedAt_cons (r : Splice α) (rs : List (Splice α)) (k : ℕ) :
    insertedAt (r :: rs) k = (if r.1 = k then r.2.2 else []) ++ insertedAt rs k := by
  by_cases h : r.1 = k <;> simp [insertedAt, h]

lemma covered_cons (r : Splice α) (rs : List (Splice α)) (k : ℕ) :
    covered (r :: rs) k = ((r.1 ≤ k && k < r.1 + r.2.1) || covered rs k) := rfl

@[simp] lemma insertedAt_nil (k : ℕ) : insertedAt ([] : List (Splice α)) k = [] := rfl

@[simp] lemma covered_nil (k : ℕ) : covered ([] : List (Splice α)) k = false := rfl

lemma insertedAt_append (rs ss : List (Splice α)) (k : ℕ) :
    insertedAt (rs ++ ss) k = insertedAt rs k ++ insertedAt ss k := by
  simp [insertedAt]

lemma covered_append (rs ss : List (Splice α)) (k : ℕ) :
    covered (rs ++ ss) k = (covered rs k || covered ss k) :=
  any_append

/-! ## The walk is pointwise -/

variable {ins : ℕ → List α} {gone : ℕ → Bool} {xs : List α} {ins' : ℕ → List α}

lemma splicePointwise_congr {gone'}
    (hins : ∀ k, i ≤ k → k ≤ i + xs.length → ins k = ins' k)
    (hgone : ∀ k, i ≤ k → k < i + xs.length → gone k = gone' k) :
    splicePointwise ins gone i xs = splicePointwise ins' gone' i xs := by
  induction xs generalizing i with
  | nil => exact hins i le_rfl le_rfl
  | cons x xs ih =>
    have hlen : (x :: xs).length = xs.length + 1 := rfl
    rw [splicePointwise, splicePointwise, hins i le_rfl (by omega), hgone i le_rfl (by omega),
      ih (fun k hk hk' => hins k (by omega) (by omega)) fun k hk hk' =>
        hgone k (by omega) (by omega)]

variable {m : ℕ}

/-- Elements that stay and have nothing inserted in front of them stay in one piece. -/
lemma splicePointwise_take (hm : m ≤ xs.length) (hins : ∀ k, i ≤ k → k < i + m → ins k = [])
    (hgone : ∀ k, i ≤ k → k < i + m → gone k = false) :
    splicePointwise ins gone i xs = xs.take m ++ splicePointwise ins gone (i + m) (xs.drop m) := by
  induction m generalizing i xs with
  | zero => simp
  | succ m ih =>
    cases xs with
    | nil => simp at hm
    | cons x xs =>
      rw [splicePointwise, hins i le_rfl (by omega), hgone i le_rfl (by omega),
        ih (by simpa using hm) (fun k hk hk' => hins k (by omega) (by omega))
          fun k hk hk' => hgone k (by omega) (by omega)]
      simp [add_assoc, add_comm 1 m]

/-- Elements that go, with nothing inserted between them, are gone. -/
lemma splicePointwise_drop (hm : m ≤ xs.length) (hpos : 0 < m)
    (hins : ∀ k, i < k → k < i + m → ins k = []) (hgone : ∀ k, i ≤ k → k < i + m → gone k) :
    splicePointwise ins gone i xs = ins i ++ splicePointwise ins gone (i + m) (xs.drop m) := by
  induction m generalizing i xs with
  | zero => omega
  | succ m ih =>
    cases xs with
    | nil => simp at hm
    | cons x xs =>
      rw [splicePointwise, hgone i le_rfl (by omega), if_pos rfl, append_nil]
      obtain rfl | hpos' := Nat.eq_zero_or_pos m
      · simp
      · rw [ih (by simpa using hm) hpos' (fun k hk hk' => hins k (by omega) (by omega))
          fun k hk hk' => hgone k (by omega) (by omega), hins (i + 1) (by omega) (by omega)]
        simp [add_assoc, add_comm 1 m]

variable {new : List α}

/-- What is inserted in front of the first position comes first. -/
lemma splicePointwise_insert (hi : ins i = new ++ ins' i) (hins : ∀ k, i < k → ins k = ins' k) :
    splicePointwise ins gone i xs = new ++ splicePointwise ins' gone i xs := by
  cases xs with
  | nil => exact hi
  | cons x xs =>
    have htail : splicePointwise ins gone (i + 1) xs = splicePointwise ins' gone (i + 1) xs :=
      splicePointwise_congr (fun k hk _ => hins k (by omega)) fun k _ _ => rfl
    rw [splicePointwise, splicePointwise, hi, htail]
    simp

/-- The first of several ordered splices, seen from its own position. -/
lemma splicePointwise_cons {rest pos len ys}
    (hrest : Ordered (pos + len) n rest) (hlen : len ≤ ys.length) :
    splicePointwise (insertedAt ((pos, len, new) :: rest)) (covered ((pos, len, new) :: rest))
        pos ys =
      new ++ splicePointwise (insertedAt rest) (covered rest) (pos + len) (ys.drop len) := by
  have hins : ∀ k, k ≠ pos → insertedAt ((pos, len, new) :: rest) k = insertedAt rest k := by
    intro k hk
    rw [insertedAt_cons, if_neg (fun h => hk h.symm)]
    rfl
  have hgone : ∀ k, pos + len ≤ k → covered ((pos, len, new) :: rest) k = covered rest k := by
    intro k hk
    have hno : (decide (pos ≤ k) && decide (k < pos + len)) = false := by
      simp only [Bool.and_eq_false_iff, decide_eq_false_iff_not]
      omega
    rw [covered_cons]
    simp [hno]
  have hhere : insertedAt ((pos, len, new) :: rest) pos = new ++ insertedAt rest pos := by
    rw [insertedAt_cons, if_pos rfl]
  obtain rfl | hpos := Nat.eq_zero_or_pos len
  · refine (splicePointwise_insert hhere fun k hk => hins k (by omega)).trans ?_
    congr 1
    exact splicePointwise_congr (fun k _ _ => rfl) fun k hk _ => hgone k (by omega)
  · refine (splicePointwise_drop hlen hpos (fun k hk hk' => ?_) fun k hk hk' => ?_).trans ?_
    · rw [hins k (by omega), hrest.insertedAt_eq_nil hk']
    · rw [covered_cons]
      simp [hk, hk']
    · rw [hhere, hrest.insertedAt_eq_nil (by omega), append_nil]
      congr 1
      exact splicePointwise_congr (fun k hk _ => hins k (by omega)) fun k hk _ => hgone k hk

/-- **The walk over ordered splices is the pointwise one.** -/
theorem spliceFrom_eq_splicePointwise (h : Ordered i (i + xs.length) rs) :
    spliceFrom i xs rs = splicePointwise (insertedAt rs) (covered rs) i xs := by
  induction rs generalizing i xs with
  | nil =>
    have hstay : splicePointwise (insertedAt []) (covered ([] : List (Splice α)))
        i xs = xs.take xs.length ++ splicePointwise (insertedAt []) (covered []) (i + xs.length)
          (xs.drop xs.length) :=
      splicePointwise_take le_rfl (fun k _ _ => rfl) fun k _ _ => rfl
    rw [hstay, take_length, drop_length]
    simp [spliceFrom, splicePointwise, insertedAt]
  | cons r rest ih =>
    obtain ⟨pos, len, new⟩ := r
    obtain ⟨hpos, hrest⟩ : i ≤ pos ∧ Ordered (pos + len) (i + xs.length) rest := h
    have hle := hrest.le
    have hback : pos + len + ((xs.drop (pos - i)).drop len).length = i + xs.length := by
      simp only [length_drop]
      omega
    -- nothing happens in front of the first splice
    have hfront : splicePointwise (insertedAt ((pos, len, new) :: rest))
        (covered ((pos, len, new) :: rest)) i xs = xs.take (pos - i) ++
          splicePointwise (insertedAt ((pos, len, new) :: rest)) (covered ((pos, len, new) :: rest))
            (i + (pos - i)) (xs.drop (pos - i)) := by
      refine splicePointwise_take (by omega) (fun k hk hk' => ?_) fun k hk hk' => ?_
      · rw [insertedAt_cons, if_neg (by simp only; omega), hrest.insertedAt_eq_nil (by omega)]
        rfl
      · rw [covered_cons, hrest.covered_eq_false (by omega)]
        simp only [Bool.or_false, Bool.and_eq_false_iff, decide_eq_false_iff_not]
        omega
    rw [spliceFrom, ih (hback ▸ hrest), append_assoc, hfront, Nat.add_sub_cancel' hpos,
      splicePointwise_cons hrest (by simp only [length_drop]; omega)]

/-! ## Sorting -/

/-- The splices are in order but for some that only insert, at the very end `n`. -/
def OrderedUpToEnd : ℕ → ℕ → List (Splice α) → Prop
  | i, n, [] => i ≤ n
  | i, n, (pos, len, _) :: rest =>
    (pos = n ∧ len = 0 ∧ OrderedUpToEnd i n rest) ∨ (i ≤ pos ∧ OrderedUpToEnd (pos + len) n rest)

lemma OrderedUpToEnd.mono (h : OrderedUpToEnd i n rs) (hji : j ≤ i) : OrderedUpToEnd j n rs := by
  induction rs with
  | nil => exact hji.trans h
  | cons r rest ih =>
    obtain ⟨hn, hlen, h⟩ | ⟨hi, h⟩ := h
    · exact .inl ⟨hn, hlen, ih h⟩
    · exact .inr ⟨hji.trans hi, h⟩

lemma Ordered.append_upToEnd (hr : Ordered i j rs) (hs : OrderedUpToEnd j n ss) :
    OrderedUpToEnd i n (rs ++ ss) := by
  induction rs generalizing i with
  | nil => exact hs.mono hr
  | cons r rest ih => exact .inr ⟨hr.1, ih hr.2⟩

/-- Sorting an insertion at the end into ordered splices keeps them ordered. -/
lemma Ordered.orderedInsert_end (h : Ordered i n rs) (new : List α) :
    Ordered i n (rs.orderedInsert (fun r s => r.1 ≤ s.1) (n, 0, new)) := by
  induction rs generalizing i with
  | nil => exact ⟨h, le_rfl⟩
  | cons s rest ih =>
    rw [orderedInsert_cons]
    split_ifs with hs
    · exact ⟨Ordered.le h, hs, h.2⟩
    · exact ⟨h.1, ih h.2⟩

/-- A splice in front of ordered splices stays where it is. -/
lemma Ordered.orderedInsert_front {pos len} (h : Ordered (pos + len) n rs) :
    rs.orderedInsert (fun r s => r.1 ≤ s.1) (pos, len, new) = (pos, len, new) :: rs := by
  cases rs with
  | nil => rfl
  | cons s rest =>
    have hs := h.1
    rw [orderedInsert_cons, if_pos (by show pos ≤ s.1; omega)]

/-- **Sorting puts the insertions at the end where they belong.** -/
theorem OrderedUpToEnd.insertionSort (h : OrderedUpToEnd i n rs) :
    Ordered i n (rs.insertionSort fun r s => r.1 ≤ s.1) := by
  induction rs generalizing i with
  | nil => exact h
  | cons r rest ih =>
    obtain ⟨pos, len, new⟩ := r
    rw [insertionSort_cons]
    obtain ⟨rfl, rfl, h⟩ | ⟨hi, h⟩ := h
    · exact (ih h).orderedInsert_end new
    · rw [(ih h).orderedInsert_front]
      exact ⟨hi, ih h⟩

lemma insertedAt_insertionSort (rs : List (Splice α)) (k : ℕ) :
    insertedAt (rs.insertionSort fun r s => r.1 ≤ s.1) k = insertedAt rs k := by
  rw [insertedAt, Firsts.filter_insertionSort, insertedAt]
  intro r s hr hs
  rw [of_decide_eq_true hr, of_decide_eq_true hs]

lemma covered_insertionSort (rs : List (Splice α)) (k : ℕ) :
    covered (rs.insertionSort fun r s => r.1 ≤ s.1) k = covered rs k :=
  (perm_insertionSort _ rs).any_eq

/-- **What sorting and walking amounts to.** -/
theorem spliceFrom_insertionSort (h : OrderedUpToEnd 0 xs.length rs) :
    spliceFrom 0 xs (rs.insertionSort fun r s => r.1 ≤ s.1) =
      splicePointwise (insertedAt rs) (covered rs) 0 xs := by
  have hsorted := h.insertionSort
  rw [spliceFrom_eq_splicePointwise (by rwa [zero_add])]
  exact splicePointwise_congr (fun k _ _ => insertedAt_insertionSort rs k)
    fun k _ _ => covered_insertionSort rs k

/-! ## Other elements -/

/-- The same splice with other elements coming in. -/
def Splice.map (f : α → β) (r : Splice α) : Splice β := (r.1, r.2.1, r.2.2.map f)

variable (f : α → β)

lemma insertedAt_map (rs : List (Splice α)) (k : ℕ) :
    insertedAt (rs.map (Splice.map f)) k = (insertedAt rs k).map f := by
  induction rs with
  | nil => rfl
  | cons r rest ih =>
    rw [map_cons, insertedAt_cons, insertedAt_cons, ih, map_append]
    by_cases h : r.1 = k <;> simp [Splice.map, h]

lemma covered_map (rs : List (Splice α)) (k : ℕ) :
    covered (rs.map (Splice.map f)) k = covered rs k := by
  rw [covered, any_map]
  rfl

lemma insertionSort_map (rs : List (Splice α)) :
    (rs.map (Splice.map f)).insertionSort (fun r s => r.1 ≤ s.1) =
      (rs.insertionSort fun r s => r.1 ≤ s.1).map (Splice.map f) :=
  (map_insertionSort (fun r s : Splice α => r.1 ≤ s.1) (fun r s : Splice β => r.1 ≤ s.1)
    (Splice.map f) rs fun _ _ _ _ => Iff.rfl).symm

lemma OrderedUpToEnd.map (h : OrderedUpToEnd i n rs) :
    OrderedUpToEnd i n (rs.map (Splice.map f)) := by
  induction rs generalizing i with
  | nil => exact h
  | cons r rest ih =>
    obtain ⟨hn, hlen, h⟩ | ⟨hi, h⟩ := h
    · exact .inl ⟨hn, hlen, ih h⟩
    · exact .inr ⟨hi, ih h⟩

/-- **Sorting, then walking, with other elements**: again a matter of each position. -/
theorem spliceFrom_map_insertionSort {xs} (h : OrderedUpToEnd 0 xs.length rs) :
    spliceFrom 0 xs ((rs.insertionSort fun r s => r.1 ≤ s.1).map (Splice.map f)) =
      splicePointwise (fun k => (insertedAt rs k).map f) (covered rs) 0 xs := by
  rw [← insertionSort_map, spliceFrom_insertionSort (h.map f)]
  exact splicePointwise_congr (fun k _ _ => insertedAt_map f rs k) fun k _ _ => covered_map f rs k

end ListSplice
