import Mathlib

/-!
# Association lists

A map that keeps the order of insertion, as the list of its entries.  A list may have a key twice;
of those that have not (`(keys t).Nodup`), what is seen is `get`.

`mergeWith` goes over the entries of a second map: what both have is combined, and what only the
second one has is added.
-/

namespace Assoc

open List Option

variable {K V : Type} [DecidableEq K]

/-- The keys, in order. -/
def keys (t : List (K × V)) : List K := t.map Prod.fst

/-- The first value of a key. -/
def get (k : K) : List (K × V) → Option V
  | [] => none
  | e :: t => if e.1 = k then some e.2 else get k t

/-- The key is there. -/
def has (k : K) (t : List (K × V)) : Bool := (get k t).isSome

/-- An entry keeps its place. -/
def insert (k : K) (v : V) : List (K × V) → List (K × V)
  | [] => [(k, v)]
  | e :: t => if e.1 = k then (k, v) :: t else e :: insert k v t

/-- Without a key. -/
def remove (k : K) (t : List (K × V)) : List (K × V) := t.filter fun e => e.1 ≠ k

/-- One more entry, combined with what is there. -/
def mergeEntry (combine : K → V → V → V) (add : K → V → V) (t : List (K × V)) (e : K × V) :
    List (K × V) :=
  match get e.1 t with
  | some v => insert e.1 (combine e.1 v e.2) t
  | none => insert e.1 (add e.1 e.2) t

/-- The entries of the second list are merged into the first. -/
def mergeWith (combine : K → V → V → V) (add : K → V → V) (t u : List (K × V)) : List (K × V) :=
  u.foldl (mergeEntry combine add) t

/-! ## Entries and `get` -/

omit [DecidableEq K] in
@[simp] lemma keys_cons (e : K × V) (t : List (K × V)) : keys (e :: t) = e.1 :: keys t := rfl

variable {t : List (K × V)} {k : K}

lemma get_eq_none_iff : get k t = none ↔ k ∉ keys t := by
  induction t with
  | nil => exact iff_of_true rfl not_mem_nil
  | cons e t ih =>
    rw [get, keys_cons, mem_cons, not_or]
    split
    · rename_i heq
      exact iff_of_false (some_ne_none _) fun h => h.1 heq.symm
    · rename_i hne
      rw [ih, and_iff_right (Ne.symm hne)]

variable {v : V}

lemma mem_of_get (h : get k t = some v) : (k, v) ∈ t := by
  induction t with
  | nil => cases h
  | cons e t ih =>
    rw [get] at h
    split_ifs at h with heq
    · obtain rfl := some.inj h
      rw [← heq]
      exact mem_cons_self
    · exact mem_cons_of_mem _ (ih h)

lemma mem_keys_of_get (h : get k t = some v) : k ∈ keys t := mem_map.mpr ⟨(k, v), mem_of_get h, rfl⟩

lemma get_of_mem (hnodup : (keys t).Nodup) (h : (k, v) ∈ t) : get k t = some v := by
  induction t with
  | nil => cases h
  | cons e t ih =>
    rw [keys_cons, nodup_cons] at hnodup
    rw [get]
    obtain rfl | h := mem_cons.mp h
    · exact if_pos rfl
    · have hne : e.1 ≠ k := fun heq =>
        hnodup.1 (heq ▸ mem_map.mpr ⟨(k, v), h, rfl⟩)
      rw [if_neg hne]
      exact ih hnodup.2 h

/-- What holds of all entries, as what holds of what `get` gives. -/
lemma forall_mem_iff (hnodup : (keys t).Nodup) {P : K → V → Prop} :
    (∀ e ∈ t, P e.1 e.2) ↔ ∀ k v, get k t = some v → P k v := by
  constructor
  · exact fun h k v hget => h (k, v) (mem_of_get hget)
  · exact fun h e he => h e.1 e.2 (get_of_mem hnodup he)

/-! ## Insertion and removal -/

lemma get_insert (k : K) (v : V) (t : List (K × V)) (k' : K) :
    get k' (insert k v t) = if k = k' then some v else get k' t := by
  induction t with
  | nil => rfl
  | cons e t ih =>
    rw [insert]
    split
    · rename_i heq
      rw [get, get, heq]
      split
      · rfl
      · rfl
    · rename_i hne
      rw [get, get, ih]
      split
      · rename_i heq
        rw [if_neg fun h => hne (heq.trans h.symm)]
      · rfl

lemma mem_insert {e} (h : e ∈ insert k v t) : e = (k, v) ∨ e ∈ t := by
  induction t with
  | nil => exact .inl (mem_singleton.mp h)
  | cons e' t ih =>
    rw [insert] at h
    split at h
    · exact (mem_cons.mp h).imp_right (mem_cons_of_mem _)
    · obtain rfl | h := mem_cons.mp h
      · exact .inr mem_cons_self
      · exact (ih h).imp_right (mem_cons_of_mem _)

lemma mem_keys_insert {k'} : k' ∈ keys (insert k v t) ↔ k' = k ∨ k' ∈ keys t := by
  rw [← not_iff_not, not_or, ← get_eq_none_iff, ← get_eq_none_iff, get_insert]
  split
  · rename_i heq
    exact iff_of_false (some_ne_none _) fun h => h.1 heq.symm
  · rename_i hne
    exact (and_iff_right (Ne.symm hne)).symm

lemma nodup_keys_insert (h : (keys t).Nodup) (k : K) (v : V) : (keys (insert k v t)).Nodup := by
  induction t with
  | nil => exact nodup_singleton k
  | cons e t ih =>
    rw [keys_cons, nodup_cons] at h
    rw [insert]
    split
    · rename_i heq
      rw [keys_cons, nodup_cons, ← heq]
      exact h
    · rename_i hne
      rw [keys_cons, nodup_cons]
      exact ⟨fun hmem => (mem_keys_insert.mp hmem).elim hne h.1, ih h.2⟩

lemma get_remove (k : K) (t : List (K × V)) (k' : K) :
    get k' (remove k t) = if k = k' then none else get k' t := by
  induction t with
  | nil =>
    show none = _
    split <;> rfl
  | cons e t ih =>
    rw [remove, filter_cons]
    split
    · rename_i hne
      rw [decide_eq_true_iff] at hne
      rw [get, get, ← remove, ih]
      split
      · rename_i heq
        rw [if_neg fun h => hne (heq.trans h.symm)]
      · rfl
    · rename_i hdec
      rw [decide_eq_true_iff, not_not] at hdec
      rw [← remove, ih, get, hdec]
      split
      · rfl
      · rfl

lemma nodup_keys_remove (h : (keys t).Nodup) (k : K) : (keys (remove k t)).Nodup :=
  h.sublist (filter_sublist.map Prod.fst)

/-! ## Merging -/

section

variable (combine : K → V → V → V) (add : K → V → V)

/-- What is merged to under one key. -/
def mergeValue (k : K) : Option V → Option V → Option V
  | some v, some w => some (combine k v w)
  | none, some w => some (add k w)
  | v, none => v

lemma get_mergeEntry (t : List (K × V)) (e : K × V) (k : K) : get k (mergeEntry combine add t e) =
      if e.1 = k then mergeValue combine add k (get k t) (some e.2) else get k t := by
  unfold mergeEntry
  split
  · rename_i v hget
    rw [get_insert]
    split_ifs with heq
    · rw [← heq, hget]
      rfl
    · rfl
  · rename_i hget
    rw [get_insert]
    split_ifs with heq
    · rw [← heq, hget]
      rfl
    · rfl

lemma get_mergeWith (t : List (K × V)) {u} (hnodup : (keys u).Nodup) (k : K) :
    get k (mergeWith combine add t u) = mergeValue combine add k (get k t) (get k u) := by
  induction u generalizing t with
  | nil => cases h : get k t <;> exact h
  | cons e u ih =>
    rw [keys_cons, nodup_cons] at hnodup
    show get k (mergeWith combine add (mergeEntry combine add t e) u) = _
    rw [ih _ hnodup.2, get_mergeEntry, get]
    split_ifs with heq
    · have hnone : get k u = none := get_eq_none_iff.mpr (heq ▸ hnodup.1)
      rw [hnone]
      cases mergeValue combine add k (get k t) (some e.2) <;> rfl
    · rfl

lemma mem_keys_mergeWith {t u} (hnodup : (keys u).Nodup) {k} :
    k ∈ keys (mergeWith combine add t u) ↔ k ∈ keys t ∨ k ∈ keys u := by
  rw [← not_iff_not, not_or, ← get_eq_none_iff, ← get_eq_none_iff, ← get_eq_none_iff,
    get_mergeWith combine add t hnodup]
  cases get k t <;> cases get k u <;> simp [mergeValue]

lemma nodup_keys_mergeWith {t} (h : (keys t).Nodup) (u : List (K × V)) :
    (keys (mergeWith combine add t u)).Nodup := by
  induction u generalizing t with
  | nil => exact h
  | cons e u ih =>
    refine ih (t := mergeEntry combine add t e) ?_
    unfold mergeEntry
    split <;> exact nodup_keys_insert h _ _

lemma mergeWith_congr {combine combine'} {add : K → V → V} {t u}
    (h : ∀ e ∈ u, ∀ v, combine e.1 v e.2 = combine' e.1 v e.2) :
    mergeWith combine add t u = mergeWith combine' add t u := by
  induction u generalizing t with
  | nil => rfl
  | cons e u ih =>
    have hentry : mergeEntry combine add t e = mergeEntry combine' add t e := by
      unfold mergeEntry
      split
      · rw [h e mem_cons_self]
      · rfl
    show mergeWith combine add (mergeEntry combine add t e) u = _
    rw [hentry]
    exact ih fun e' he' => h e' (mem_cons_of_mem _ he')

end

/-! ## Other keys

Of entries whose keys become the same, the last one stays. -/

/-- Keys are renamed; of those that become one, the last counts. -/
def mapKeys (f : K → K) (t : List (K × V)) : List (K × V) :=
  t.foldl (fun t e => insert (f e.1) e.2 t) []

lemma nodup_keys_mapKeys (f : K → K) (t : List (K × V)) : (keys (mapKeys f t)).Nodup := by
  suffices h : ∀ u : List (K × V), (keys u).Nodup →
      (keys (t.foldl (fun t e => insert (f e.1) e.2 t) u)).Nodup from h [] nodup_nil
  induction t with
  | nil => exact fun u h => h
  | cons e t ih => exact fun u h => ih _ (nodup_keys_insert h _ _)

/-- Every value is one that the list had. -/
lemma exists_get_of_mapKeys {f} (h : get k (mapKeys f t) = some v) : ∃ e ∈ t, e.2 = v := by
  suffices hgen : ∀ u : List (K × V), get k (t.foldl (fun t e => insert (f e.1) e.2 t) u) = some v →
      (∃ e ∈ t, e.2 = v) ∨ get k u = some v from
    (hgen [] h).elim id fun h => absurd h.symm (some_ne_none v)
  clear h
  induction t with
  | nil => exact fun u h => .inr h
  | cons e t ih =>
    intro u h
    obtain ⟨e', he', heq⟩ | h := ih _ h
    · exact .inl ⟨e', mem_cons_of_mem _ he', heq⟩
    · rw [get_insert] at h
      split at h
      · exact .inl ⟨e, mem_cons_self, some.inj h⟩
      · exact .inr h

end Assoc
