import Mathlib

/-!
# Journals of a partial map

A journal is a list of entries, each of which says that one key went from one value to another; a
key without a value has the value `none`.  A journal can be carried out (`redo`) and taken back,
from its last entry to its first (`undo`).

A journal is `Faithful` to a map if each entry records what was there when it was carried out.  Then
taking it back after carrying it out gives the map it began with (`undo_redo`).

A ledger keeps the net effect only: of every key that was ever set, the first value and the last.
`Net` says that it does, and `Net.set` that it goes on doing so if the value a key has is noted
before the key is set for the first time.
-/

namespace Journal

open Function

variable {K V : Type*}

/-- What a key had before and has after a change. -/
structure Entry (K V : Type*) where
  key : K
  before : Option V
  after : Option V

variable [DecidableEq K] (m : K → Option V)

/-- The changes are made. -/
def redo (es : List (Entry K V)) : K → Option V := es.foldl (fun m e => update m e.key e.after) m

/-- The last entry is taken back first. -/
def undo (es : List (Entry K V)) : K → Option V := es.foldr (fun e m => update m e.key e.before) m

/-- Every entry records the value its key had. -/
def Faithful : (K → Option V) → List (Entry K V) → Prop
  | _, [] => True
  | m, e :: es => m e.key = e.before ∧ Faithful (update m e.key e.after) es

lemma redo_append (es fs : List (Entry K V)) : redo m (es ++ fs) = redo (redo m es) fs :=
  List.foldl_append

lemma faithful_append {m : K → Option V} {es fs} :
    Faithful m (es ++ fs) ↔ Faithful m es ∧ Faithful (redo m es) fs := by
  induction es generalizing m with
  | nil => simp [Faithful, redo]
  | cons e es ih => simp only [List.cons_append, Faithful, ih, and_assoc]; rfl

/-- **A faithful journal can be taken back.** -/
theorem undo_redo {m : K → Option V} {es} (h : Faithful m es) :
    undo (redo m es) es = m := by
  induction es generalizing m with
  | nil => rfl
  | cons e es ih =>
    obtain ⟨hkey, hes⟩ := h
    have hback : undo (redo m (e :: es)) es = update m e.key e.after := ih hes
    show update (undo (redo m (e :: es)) es) e.key e.before = m
    rw [hback, update_idem, ← hkey, update_eq_self]

/-! ## Ledgers -/

/-- **The net effect.**  `first` and `last` hold the value a key had in the beginning and the value
it has now, for every key they say anything about; the other keys have the value they had. -/
def Net (m₀ m first last : K → Option V) : Prop :=
  ∀ k, (m₀ k = first k ∧ m k = last k) ∨ (first k = none ∧ last k = none ∧ m₀ k = m k)

/-- A value is noted as the first one of a key the ledger says nothing about. -/
def note (first last : K → Option V) (k : K) (v : Option V) : K → Option V :=
  if first k = none ∧ last k = none then update first k v else first

lemma note_of_ne {first last} {k k' : K} {v : Option V} (h : k' ≠ k) :
    note first last k v k' = first k' := by
  rw [note]
  split
  · rw [update_of_ne h]
  · rfl

lemma note_note (first last : K → Option V) (k : K) (v : Option V) :
    note (note first last k v) last k v = note first last k v := by
  by_cases h : first k = none ∧ last k = none
  · have hnote : note first last k v = update first k v := if_pos h
    rw [hnote, note, update_idem, ite_self]
  · have hnote : note first last k v = first := if_neg h
    rw [hnote, hnote]

lemma note_update_of_ne {first last} {k k' : K} {v w : Option V} (h : k' ≠ k) :
    note first (update last k w) k' v = note first last k' v := by
  rw [note, note, update_of_ne h]

namespace Net

omit [DecidableEq K] in
lemma refl (m : K → Option V) : Net m m (fun _ => none) (fun _ => none) :=
  fun _ => .inr ⟨rfl, rfl, rfl⟩

variable {m₀ m first last : K → Option V} (h : Net m₀ m first last)

include h

lemma set (k : K) (v : Option V) :
    Net m₀ (update m k v) (note first last k (m k)) (update last k v) := by
  intro k'
  obtain rfl | hne := eq_or_ne k' k
  · rw [update_self, update_self]
    refine .inl ⟨?_, rfl⟩
    rw [note]
    split
    · rename_i hnew
      rw [update_self]
      obtain ⟨hfirst, hlast⟩ | ⟨_, _, hsame⟩ := h k'
      · rw [hfirst, hlast, hnew.1, hnew.2]
      · exact hsame
    · rename_i hold
      obtain ⟨hfirst, _⟩ | ⟨hfirst, hlast, _⟩ := h k'
      · exact hfirst
      · exact absurd ⟨hfirst, hlast⟩ hold
  · rw [update_of_ne hne, update_of_ne hne, note_of_ne hne]
    exact h k'

/-- A value is moved from one key to another, or stays where it is, and both keys are noted
before. -/
lemma move (k k' : K) (v : Option V) : Net m₀ (update (update m k none) k' v)
      (note (note first last k (m k)) last k' (m k'))
      (update (update last k none) k' v) := by
  obtain rfl | hne := eq_or_ne k' k
  · rw [update_idem, update_idem, note_note]
    exact h.set k' v
  · have hnet := (h.set k none).set k' v
    rwa [note_update_of_ne hne, update_of_ne hne] at hnet

omit [DecidableEq K]

lemma eq_iff (k : K) : first k = last k ↔ m₀ k = m k := by
  obtain ⟨hfirst, hlast⟩ | ⟨hfirst, hlast, hsame⟩ := h k
  · rw [hfirst, hlast]
  · rw [hfirst, hlast]
    exact iff_of_true rfl hsame

/-- A key that was lost is in the ledger, with its first value. -/
lemma lost_iff (k : K) : first k ≠ none ∧ last k = none ↔ m₀ k ≠ none ∧ m k = none := by
  obtain ⟨hfirst, hlast⟩ | ⟨hfirst, hlast, hsame⟩ := h k
  · rw [hfirst, hlast]
  · rw [hfirst, hsame]
    exact iff_of_false (fun h => h.1 rfl) fun h => h.1 h.2

/-- A key that was gained is in the ledger, with its last value. -/
lemma gained_iff (k : K) : first k = none ∧ last k ≠ none ↔ m₀ k = none ∧ m k ≠ none := by
  obtain ⟨hfirst, hlast⟩ | ⟨hfirst, hlast, hsame⟩ := h k
  · rw [hfirst, hlast]
  · rw [hlast, hsame]
    exact iff_of_false (fun h => h.2 rfl) fun h => h.2 h.1

lemma first_eq {k} (hk : first k ≠ none ∨ last k ≠ none) : m₀ k = first k := by
  obtain ⟨hfirst, _⟩ | ⟨hfirst, hlast, _⟩ := h k
  · exact hfirst
  · exact absurd hk (not_or.mpr ⟨not_not_intro hfirst, not_not_intro hlast⟩)

lemma last_eq {k} (hk : first k ≠ none ∨ last k ≠ none) : m k = last k := by
  obtain ⟨_, hlast⟩ | ⟨hfirst, hlast, _⟩ := h k
  · exact hlast
  · exact absurd hk (not_or.mpr ⟨not_not_intro hfirst, not_not_intro hlast⟩)

end Net

end Journal
