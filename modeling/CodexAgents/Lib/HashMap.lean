import Mathlib

/-!
# Hash maps

A hash map is an association list without repeated keys (`AList`), read through `get`.  As a
function of the key, `get` turns the operations of the map into those of functions: an insertion or
a removal is a `Function.update` (`get_insert`, `get_erase`).

What a program sees of a map beyond `get` is the order in which it iterates over the entries, and
that order is not its to choose.  An `Order` is one such choice: anything that rearranges a list.
-/

/-- A map with keys in some order. -/
abbrev HashMap (K V : Type*) := AList (fun _ : K => V)

namespace HashMap

open List Function Option AList

variable {K V : Type*} [DecidableEq K] (m : HashMap K V)

/-- The value of a key. -/
def get (k : K) : Option V := m.lookup k

@[simp] lemma get_empty : get (∅ : HashMap K V) = fun _ => none :=
  funext lookup_empty

@[simp] lemma get_insert (k : K) (v : V) : get (m.insert k v) = update (get m) k (some v) :=
  eq_update_iff.mpr ⟨lookup_insert m, fun _ => lookup_insert_ne⟩

@[simp] lemma get_erase (k : K) : get (m.erase k) = update (get m) k none :=
  eq_update_iff.mpr ⟨lookup_erase k m, fun _ => lookup_erase_ne⟩

variable {m : HashMap K V} {k : K} {v : V} {k' : K} {w : V}

lemma get_insert_eq_some :
    get (m.insert k v) k' = some w ↔ (k' = k ∧ w = v) ∨ (k' ≠ k ∧ get m k' = some w) := by
  rw [get_insert]
  obtain rfl | hne := eq_or_ne k' k
  · rw [update_self, some_inj]
    exact ⟨fun h => .inl ⟨rfl, h.symm⟩, fun h => h.elim (·.2.symm) fun h => absurd rfl h.1⟩
  · rw [update_of_ne hne]
    exact ⟨fun h => .inr ⟨hne, h⟩, fun h => h.elim (fun h => absurd h.1 hne) (·.2)⟩

lemma get_erase_eq_some : get (m.erase k) k' = some w ↔ k' ≠ k ∧ get m k' = some w := by
  rw [get_erase]
  obtain rfl | hne := eq_or_ne k' k
  · rw [update_self]
    exact ⟨fun h => (nomatch h), fun h => absurd rfl h.1⟩
  · rw [update_of_ne hne]
    exact ⟨fun h => ⟨hne, h⟩, (·.2)⟩

lemma notMem_iff : k ∉ m ↔ get m k = none := lookup_eq_none.symm

lemma mem_entries_iff : (⟨k, v⟩ : Sigma fun _ => V) ∈ m.entries ↔ get m k = some v :=
  mem_lookup_iff.symm

lemma get_unique (hv : get m k = some v) (hw : get m k = some w) : v = w :=
  some_inj.mp (hv.symm.trans hw)

/-! ## Several entries -/

/-- Of several entries with one key, the last one stays. -/
def insertAll (m : HashMap K V) (entries : List (K × V)) : HashMap K V :=
  entries.foldl (fun m e => m.insert e.1 e.2) m

/-- The map of some entries; the last of a key counts. -/
def collect (entries : List (K × V)) : HashMap K V := insertAll ∅ entries

lemma insertAll_concat (m : HashMap K V) (entries : List (K × V)) (e : K × V) :
    insertAll m (entries ++ [e]) = (insertAll m entries).insert e.1 e.2 := by
  simp [insertAll]

/-- The value of a key is one of those that were inserted, or nothing was inserted for the key. -/
lemma get_insertAll_cases (m : HashMap K V) (entries : List (K × V)) (k : K) :
    (∃ v, (k, v) ∈ entries ∧ get (insertAll m entries) k = some v) ∨
      ((∀ v, (k, v) ∉ entries) ∧ get (insertAll m entries) k = get m k) := by
  induction entries using reverseRecOn with
  | nil => exact .inr ⟨fun v => not_mem_nil, rfl⟩
  | append_singleton entries e ih =>
    simp only [insertAll_concat, get_insert, mem_append, mem_singleton]
    obtain rfl | hne := eq_or_ne k e.1
    · exact .inl ⟨e.2, .inr rfl, update_self ..⟩
    · have hother : ∀ v, (k, v) ≠ e := fun v he => hne (congrArg Prod.fst he)
      simp only [update_of_ne hne, hother, or_false]
      exact ih

variable {entries : List (K × V)}

lemma mem_of_get_collect (h : get (collect entries) k = some v) : (k, v) ∈ entries := by
  obtain ⟨w, hmem, hget⟩ | ⟨_, hget⟩ := get_insertAll_cases ∅ entries k
  · rwa [get_unique h hget]
  · rw [get_empty] at hget
    cases h.symm.trans hget

lemma exists_get_collect (h : (k, v) ∈ entries) : ∃ w, get (collect entries) k = some w := by
  obtain ⟨w, _, hget⟩ | ⟨hnone, _⟩ := get_insertAll_cases ∅ entries k
  · exact ⟨w, hget⟩
  · exact absurd h (hnone v)

/-! ## Iteration -/

/-- **An order of iteration**, as a rearrangement of the list the iteration goes over. -/
structure Order (α : Type*) where
  arrange : List α → List α
  perm : ∀ l, (arrange l).Perm l

/-- The order in which the entries are kept. -/
def Order.kept (α : Type*) : Order α := ⟨id, fun l => List.Perm.refl l⟩

lemma Order.mem_arrange {α : Type*} (order : Order α) {l a} :
    a ∈ order.arrange l ↔ a ∈ l :=
  (order.perm l).mem_iff

/-- An order that comes to `a` after everything else. -/
def Order.last {α : Type*} [DecidableEq α] (a : α) : Order α where
  arrange l := l.filter (fun b => ¬ b = a) ++ l.filter (· = a)
  perm l := perm_append_comm.trans (by simpa using filter_append_perm (fun b => decide (b = a)) l)

/-- The entries as pairs. -/
def pairs (m : HashMap K V) : List (K × V) := m.entries.map fun e => (e.1, e.2)

lemma mem_pairs : (k, v) ∈ pairs m ↔ get m k = some v := by
  rw [← mem_entries_iff, pairs, List.mem_map]
  constructor
  · rintro ⟨e, hmem, heq⟩
    cases heq
    exact hmem
  · exact fun hmem => ⟨_, hmem, rfl⟩

/-- A sum over the entries, with the entry of one key apart. -/
lemma sum_pairs_eq (m : HashMap K V) (k : K) (w : K × V → Nat) : ((pairs m).map w).sum =
      ((get m k).elim 0 fun v => w (k, v)) + ((pairs (m.erase k)).map w).sum := by
  by_cases hk : k ∈ m
  · obtain ⟨v, before, after, hnot, hentries, herase⟩ := exists_of_kerase hk
    have hget : get m k = some v := mem_entries_iff.mp (hentries ▸ mem_append_right _ mem_cons_self)
    have hsum : ((pairs (m.erase k)).map w).sum =
        (((before ++ after).map fun e => (e.1, e.2)).map w).sum := by
      rw [← herase]
      rfl
    rw [hsum, pairs, hentries, hget]
    simp only [map_append, map_cons, sum_append, sum_cons, elim_some]
    omega
  · have herase : m.erase k = m := ext (kerase_of_notMem_keys hk)
    rw [herase, notMem_iff.mp hk, elim_none, zero_add]

variable (p : V → Bool)

/-- How many values have a property. -/
def count (m : HashMap K V) : Nat := ((pairs m).map fun e => (p e.2).toNat).sum

lemma count_insert (m : HashMap K V) (k : K) (v : V) :
    count p (m.insert k v) = (p v).toNat + count p (m.erase k) := rfl

lemma count_eq (m : HashMap K V) (k : K) :
    count p m = ((get m k).any p).toNat + count p (m.erase k) := by
  rw [count, sum_pairs_eq m k]
  cases get m k <;> rfl

/-- `Extend::extend`: the entries of the second map replace those of the first. -/
def extend (order : Order (K × V)) (m m' : HashMap K V) : HashMap K V :=
  insertAll m (order.arrange (pairs m'))

lemma get_extend (order : Order (K × V)) (m m' : HashMap K V) (k : K) :
    get (extend order m m') k = (get m' k).or (get m k) := by
  obtain ⟨v, hmem, hget⟩ | ⟨hnone, hget⟩ := get_insertAll_cases m (order.arrange (pairs m')) k
  · rw [order.mem_arrange, mem_pairs] at hmem
    rw [extend, hget, hmem, some_or]
  · have hget' : get m' k = none := by
      by_contra hne
      obtain ⟨v, hv⟩ := ne_none_iff_exists'.mp hne
      exact hnone v (order.mem_arrange.mpr (mem_pairs.mpr hv))
    rw [extend, hget, hget', none_or]

/-! ## Several values for one key

A `MultiMap` keeps a list of values for each key, in the order in which they came in. -/

/-- The values of a key. -/
def values (m : HashMap K (List V)) (k : K) : List V := (get m k).getD []

/-- One more value for a key. -/
def push (m : HashMap K (List V)) (k : K) (v : V) : HashMap K (List V) :=
  m.insert k (values m k ++ [v])

lemma values_push (m : HashMap K (List V)) (k : K) (v : V) (k' : K) :
    values (push m k v) k' = if k' = k then values m k ++ [v] else values m k' := by
  rw [values, push, get_insert]
  split
  · rename_i heq
    rw [heq, update_self, getD_some]
  · rename_i hne
    rw [update_of_ne hne, ← values]

/-- More values for some keys. -/
def pushAll (m : HashMap K (List V)) (entries : List (K × List V)) : HashMap K (List V) :=
  entries.foldl (fun m e => e.2.foldl (fun m v => push m e.1 v) m) m

lemma values_foldl_push (m : HashMap K (List V)) (k : K) (vs : List V) (k' : K) :
    values (vs.foldl (fun m v => push m k v) m) k' =
      if k' = k then values m k ++ vs else values m k' := by
  induction vs generalizing m with
  | nil =>
    rw [foldl_nil, append_nil]
    split_ifs with heq
    · rw [heq]
    · rfl
  | cons v vs ih =>
    rw [foldl_cons, ih, values_push, values_push, if_pos rfl, append_assoc, singleton_append]
    split <;> rfl

lemma values_pushAll (m : HashMap K (List V)) (entries : List (K × List V)) (k : K) :
    values (pushAll m entries) k = values m k ++ (entries.filter (·.1 = k)).flatMap (·.2) := by
  induction entries generalizing m with
  | nil => exact (append_nil _).symm
  | cons e entries ih =>
    have hstep := ih (e.2.foldl (fun m v => push m e.1 v) m)
    rw [values_foldl_push] at hstep
    rw [filter_cons]
    obtain rfl | hne := eq_or_ne k e.1
    · rw [if_pos rfl, append_assoc] at hstep
      rw [if_pos (decide_eq_true rfl), flatMap_cons]
      exact hstep
    · rw [if_neg hne] at hstep
      rw [if_neg (by rw [decide_eq_true_iff]; exact hne.symm)]
      exact hstep

/-- A key has at most one entry, wherever it stands. -/
lemma filter_arrange_pairs (order : Order (K × V)) (m : HashMap K V) (k : K) :
    (order.arrange (pairs m)).filter (·.1 = k) = ((get m k).map fun v => (k, v)).toList := by
  have hnodup : ((order.arrange (pairs m)).filter (·.1 = k)).Nodup := by
    refine ((order.perm _).nodup_iff.mpr ?_).filter _
    refine m.nodupKeys.nodup.map fun e e' h => ?_
    exact Sigma.ext (congrArg Prod.fst h) (heq_of_eq (congrArg Prod.snd h))
  have hmem : ∀ e, e ∈ (order.arrange (pairs m)).filter (·.1 = k) ↔
      e ∈ ((get m k).map fun v => (k, v)).toList := by
    rintro ⟨k', v⟩
    simp only [mem_filter, order.mem_arrange, mem_pairs, decide_eq_true_iff,
      mem_toList, map_eq_some_iff, Prod.mk.injEq]
    constructor
    · rintro ⟨hget, rfl⟩
      exact ⟨v, hget, rfl, rfl⟩
    · rintro ⟨v', hget, rfl, rfl⟩
      exact ⟨hget, rfl⟩
  have hperm := (perm_ext_iff_of_nodup hnodup (by cases get m k <;> simp)).mpr hmem
  rcases hget : get m k with _ | v
  · rw [hget] at hperm
    exact hperm.eq_nil
  · rw [hget] at hperm
    exact perm_singleton.mp hperm

/-- In whatever order the keys of the second map are gone over, the values of a key are those of the
first map and then those of the second. -/
lemma values_pushAll_arrange (order : Order (K × List V)) (m m' : HashMap K (List V)) (k : K) :
    values (pushAll m (order.arrange (pairs m'))) k = values m k ++ values m' k := by
  rw [values_pushAll, filter_arrange_pairs, values, values]
  obtain _ | vs := get m' k
  · rfl
  · simp

lemma values_insert (m : HashMap K (List V)) (k : K) (vs : List V) (k' : K) :
    values (m.insert k vs) k' = if k' = k then vs else values m k' := by
  rw [values, get_insert]
  split
  · rename_i heq
    rw [heq, update_self, getD_some]
  · rename_i hne
    rw [update_of_ne hne, ← values]

lemma values_erase (m : HashMap K (List V)) (k k' : K) :
    values (m.erase k) k' = if k' = k then [] else values m k' := by
  rw [values, get_erase]
  split
  · rename_i heq
    rw [heq, update_self, getD_none]
  · rename_i hne
    rw [update_of_ne hne, ← values]

/-- If every value knows its key, then those of a key can be found among all of them. -/
lemma filter_flatMap_arrange (order : Order (K × List V)) (m : HashMap K (List V)) {key : V → K}
    (hkey : ∀ k, ∀ v ∈ values m k, key v = k) (k : K) :
    ((order.arrange (pairs m)).flatMap (·.2)).filter (key · = k) = values m k := by
  have hentry : ∀ e ∈ order.arrange (pairs m),
      e.2.filter (key · = k) = if e.1 = k then e.2 else [] := by
    intro e he
    have hvalues : values m e.1 = e.2 := by
      rw [values, mem_pairs.mp (order.mem_arrange.mp he), getD_some]
    have hkey' : ∀ v ∈ e.2, key v = e.1 := hvalues ▸ hkey e.1
    split
    · rename_i heq
      exact filter_eq_self.mpr fun v hv => decide_eq_true ((hkey' v hv).trans heq)
    · rename_i hne
      exact filter_eq_nil_iff.mpr fun v hv =>
        fun h => hne ((hkey' v hv).symm.trans (of_decide_eq_true h))
  have hflat : ∀ l : List (K × List V), (l.flatMap fun e => if e.1 = k then e.2 else []) =
      (l.filter (·.1 = k)).flatMap (·.2) := by
    intro l
    induction l with
    | nil => rfl
    | cons e l ih =>
      rw [flatMap_cons, ih, filter_cons]
      by_cases h : e.1 = k
      · rw [if_pos h, if_pos (decide_eq_true h), flatMap_cons]
      · rw [if_neg h, if_neg (fun h' => h (of_decide_eq_true h')), nil_append]
  rw [filter_flatMap, flatMap_congr hentry, hflat, filter_arrange_pairs, values]
  cases get m k with
  | none => rfl
  | some vs => exact flatMap_singleton _ _

/-- How many values there are. -/
def size (m : HashMap K (List V)) : Nat := ((pairs m).map (·.2.length)).sum

lemma size_insert (m : HashMap K (List V)) (k : K) (vs : List V) :
    size (m.insert k vs) = vs.length + size (m.erase k) := rfl

lemma size_eq (m : HashMap K (List V)) (k : K) :
    size m = (values m k).length + size (m.erase k) := by
  rw [size, sum_pairs_eq m k, values]
  cases get m k <;> rfl

/-- The sum over the keys that have values. -/
lemma size_eq_sum {m : HashMap K (List V)} {ks : Finset K} (h : ∀ k, k ∈ ks ↔ (get m k).isSome) :
    size m = ∑ k ∈ ks, (values m k).length := by
  have hks : ks = m.keys.toFinset := by
    ext k
    rw [h, List.mem_toFinset]
    exact AList.lookup_isSome.trans AList.mem_keys
  have hlength : ∀ e ∈ pairs m, e.2.length = (values m e.1).length := fun e he => by
    rw [values, mem_pairs.mp he, getD_some]
  rw [hks, List.sum_toFinset _ m.keys_nodup, size, map_congr_left hlength]
  simp only [pairs, AList.keys, List.keys, List.map_map]
  rfl

lemma size_push (m : HashMap K (List V)) (k : K) (v : V) : size (push m k v) = size m + 1 := by
  rw [push, size_insert, size_eq m k, length_append, length_singleton]
  omega

/-! ## Listings

The entries in the order of their keys, like the files of a directory.  The order in which the map
holds them is no longer seen (`listing_congr`), and an insertion leaves all the others where they
are (`listing_insert`). -/

section

variable [LinearOrder K] (p : K → Bool)

/-- The entries whose keys satisfy `p`, in the order of the keys. -/
def listing (m : HashMap K V) : List (K × V) :=
  ((pairs m).filter fun e => p e.1).insertionSort fun e e' => e.1 ≤ e'.1

lemma mem_listing {p m} {k : K} {v : V} :
    (k, v) ∈ listing p m ↔ get m k = some v ∧ p k := by
  rw [listing, (perm_insertionSort _ _).mem_iff, mem_filter, mem_pairs]

omit [LinearOrder K] [DecidableEq K] in
lemma nodup_pairs (m : HashMap K V) : (pairs m).Nodup := by
  refine List.Nodup.map ?_ m.nodupKeys.nodup
  rintro ⟨k, v⟩ ⟨k', v'⟩ h
  cases h
  rfl

omit [DecidableEq K] in
lemma nodup_listing (m : HashMap K V) : (listing p m).Nodup :=
  (perm_insertionSort _ _).nodup_iff.mpr ((nodup_pairs m).filter _)

omit [DecidableEq K] in
lemma pairwise_listing (m : HashMap K V) : (listing p m).Pairwise fun e e' => e.1 ≤ e'.1 :=
  haveI : Std.Total fun e e' : K × V => e.1 ≤ e'.1 := ⟨fun e e' => le_total e.1 e'.1⟩
  haveI : IsTrans (K × V) fun e e' => e.1 ≤ e'.1 := ⟨fun _ _ _ => le_trans⟩
  pairwise_insertionSort _ _

lemma listing_congr {m m' : HashMap K V} (h : get m = get m') : listing p m = listing p m' := by
  have hperm : (listing p m).Perm (listing p m') := by
    rw [perm_ext_iff_of_nodup (nodup_listing p m) (nodup_listing p m')]
    rintro ⟨k, v⟩
    rw [mem_listing, mem_listing, h]
  refine hperm.eq_of_pairwise ?_ (pairwise_listing p m) (pairwise_listing p m')
  rintro ⟨k, v⟩ ⟨k', v'⟩ hv hv' hle hle'
  obtain rfl : k = k' := le_antisymm hle hle'
  obtain rfl : v = v' := get_unique (h ▸ (mem_listing.mp hv).1) (mem_listing.mp hv').1
  rfl

lemma listing_insert (m : HashMap K V) {k} (hk : p k) :
    ∃ before after, listing p m = before ++ (get m k).toList.map (k, ·) ++ after ∧
      ∀ v, listing p (m.insert k v) = before ++ (k, v) :: after := by
  have hinsert : ∀ v, listing p (m.insert k v) =
      (listing p (m.erase k)).takeWhile (fun e => decide ¬ k ≤ e.1) ++
        (k, v) :: (listing p (m.erase k)).dropWhile (fun e => decide ¬ k ≤ e.1) := by
    intro v
    rw [← orderedInsert_eq_take_drop (fun e e' : K × V => e.1 ≤ e'.1) (k, v)]
    simp only [listing, pairs, entries_insert, map_cons, filter_cons, hk, if_true,
      insertionSort_cons]
    rfl
  refine ⟨_, _, ?_, hinsert⟩
  rcases hget : get m k with _ | w
  · rw [toList_none, map_nil, append_nil, takeWhile_append_dropWhile]
    refine listing_congr p ?_
    rw [get_erase, ← hget, update_eq_self]
  · have hsame : get m = get (m.insert k w) := by
      rw [get_insert, ← hget, update_eq_self]
    rw [listing_congr p hsame, hinsert w, toList_some, map_singleton, append_assoc,
      singleton_append]

end

end HashMap
