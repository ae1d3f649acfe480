import Mathlib

/-!
# Decisions by the longest prefix

Entries are paths with a value.  A path is decided by the longest entry that is a prefix of it, and
among entries for one path by the greatest value: that entry *governs* the path.

* `best` computes the governing length and value as a maximum, and `best_eq_some_iff` says that they
  are those of the entry that governs.
* `Governs.of_le` says that an entry governs everything between itself and a path it governs, and
  `Governs.congr` that only the entries on the way to a path matter for it.

The length of a path counts its root, so that the empty path has length one.
-/

namespace LongestPrefix

open List

variable {α β : Type*}

/-! ## Prefixes of one path -/

section

variable {v w p : List α}

lemma prefix_or_strict (hv : v <+: p) (hw : w <+: p) : v <+: w ∨ w <+: v ∧ w ≠ v := by
  obtain h | h := le_or_gt v.length w.length
  · exact .inl (prefix_of_prefix_length_le hv hw h)
  · exact .inr ⟨prefix_of_prefix_length_le hw hv h.le, fun heq => h.ne (congrArg length heq)⟩

lemma length_lt_of_strict (h : v <+: w) (hne : v ≠ w) : v.length < w.length :=
  lt_of_le_of_ne h.length_le fun hlen => hne (h.eq_of_length hlen)

/-- A proper prefix goes on with the next component. -/
lemma concat_prefix_of_strict {a : α} (hv : v ++ [a] <+: p) (hw : w <+: p) (h : v <+: w)
    (hne : v ≠ w) : v ++ [a] <+: w :=
  prefix_of_prefix_length_le hv hw (by
    rw [length_append, length_singleton]
    exact length_lt_of_strict h hne)

lemma not_concat_prefix_self {a : α} : ¬ v ++ [a] <+: v := fun h => by
  have := h.length_le
  rw [length_append, length_singleton] at this
  omega

lemma concat_prefix_unique {a b : α} (ha : v ++ [a] <+: p) (hb : v ++ [b] <+: p) : a = b := by
  have h : v ++ [a] <+: v ++ [b] := prefix_of_prefix_length_le ha hb (by simp)
  have heq := h.eq_of_length (by simp)
  exact (cons_eq_cons.mp (append_cancel_left heq)).1

end

variable [LinearOrder β]

/-! ## The governing entry -/

/-- **The entry `(w, b)` governs `p`.** -/
structure Governs (entries : List (List α × β)) (w : List α) (b : β) (p : List α) : Prop where
  mem : (w, b) ∈ entries
  le : w <+: p
  longest : ∀ v c, (v, c) ∈ entries → v <+: p → v <+: w
  greatest : ∀ c, (w, c) ∈ entries → c ≤ b

namespace Governs

variable {entries : List (List α × β)} {v w p : List α} {b c : β}

section

variable (h : Governs entries w b p)
include h

lemma unique (h' : Governs entries v c p) : v = w ∧ c = b := by
  have hvw : v = w := (h.longest v c h'.mem h'.le).eq_of_length_le
    (h'.longest w b h.mem h.le).length_le
  subst hvw
  exact ⟨rfl, le_antisymm (h.greatest c h'.mem) (h'.greatest b h.mem)⟩

/-- It governs everything in between. -/
lemma of_le {q} (hw : w <+: q) (hq : q <+: p) : Governs entries w b q :=
  ⟨h.mem, hw, fun v c hv hvq => h.longest v c hv (hvq.trans hq), h.greatest⟩

/-- It governs itself. -/
lemma self : Governs entries w b w := h.of_le (prefix_refl w) h.le

lemma congr {entries'}
    (hsame : ∀ v c, v <+: p → ((v, c) ∈ entries ↔ (v, c) ∈ entries')) : Governs entries' w b p :=
  ⟨(hsame w b h.le).mp h.mem, h.le, fun v c hv hp => h.longest v c ((hsame v c hp).mpr hv) hp,
    fun c hc => h.greatest c ((hsame w c h.le).mpr hc)⟩

end

/-- It governs what no other entry on the way is between. -/
lemma extend (h : Governs entries w b w) (hw : w <+: p)
    (hnone : ∀ v c, (v, c) ∈ entries → v <+: p → v <+: w) : Governs entries w b p :=
  ⟨h.mem, hw, hnone, h.greatest⟩

end Governs

/-! ## The maximum -/

variable [DecidableEq α]

/-- Length and value of the entry that governs a path. -/
def best (entries : List (List α × β)) (p : List α) : Option (Nat ×ₗ β) :=
  ((entries.filter fun e => e.1 <+: p).map fun e => toLex (e.1.length + 1, e.2)).max?

variable {entries : List (List α × β)} {w p : List α}

lemma best_eq_some_iff {n : Nat} :
    best entries p = some (toLex (n, b)) ↔ ∃ w, w.length + 1 = n ∧ Governs entries w b p := by
  rw [best, max?_eq_some_iff, mem_map, forall_mem_map]
  constructor
  · rintro ⟨⟨⟨w, b'⟩, hmem, hkey⟩, hmax⟩
    obtain ⟨hmem, hw⟩ := mem_filter.mp hmem
    obtain ⟨rfl, rfl⟩ : w.length + 1 = n ∧ b' = b := Prod.mk_inj.mp hkey
    have hkeys : ∀ v c, (v, c) ∈ entries → v <+: p →
        v.length < w.length ∨ v.length = w.length ∧ c ≤ b' := fun v c hv hvp => by
      have hle := hmax (v, c) (mem_filter.mpr ⟨hv, by simpa using hvp⟩)
      obtain hlt | ⟨heq, hle⟩ := Prod.Lex.toLex_le_toLex.mp hle
      · exact .inl (Nat.lt_of_succ_lt_succ hlt)
      · exact .inr ⟨Nat.succ.inj heq, hle⟩
    have hw : w <+: p := by simpa using hw
    refine ⟨w, rfl, hmem, hw, fun v c hv hvp => ?_, fun c hc => ?_⟩
    · refine prefix_of_prefix_length_le hvp hw ?_
      obtain hlt | ⟨heq, -⟩ := hkeys v c hv hvp
      · exact hlt.le
      · exact heq.le
    · obtain hlt | ⟨-, hle⟩ := hkeys w c hc hw
      · exact absurd hlt (lt_irrefl _)
      · exact hle
  · rintro ⟨w, rfl, h⟩
    refine ⟨⟨(w, b), mem_filter.mpr ⟨h.mem, by simpa using h.le⟩, rfl⟩, ?_⟩
    rintro ⟨v, c⟩ hv
    obtain ⟨hv, hvp⟩ := mem_filter.mp hv
    have hvw := h.longest v c hv (by simpa using hvp)
    rw [Prod.Lex.toLex_le_toLex]
    obtain rfl | hne := eq_or_ne v w
    · exact .inr ⟨rfl, h.greatest c hv⟩
    · exact .inl (Nat.succ_lt_succ (length_lt_of_strict hvw hne))

lemma best_eq_none_iff : best entries p = none ↔ ∀ w b, (w, b) ∈ entries → ¬ w <+: p := by
  rw [best, max?_eq_none_iff, map_eq_nil_iff, filter_eq_nil_iff]
  simp

lemma best_congr {entries' : List (List α × β)} (h : ∀ e, e ∈ entries ↔ e ∈ entries') :
    best entries p = best entries' p := by
  rcases hbest : best entries' p with _ | ⟨n, b⟩
  · rw [best_eq_none_iff] at hbest ⊢
    exact fun w b hw => hbest w b ((h (w, b)).mp hw)
  · obtain ⟨w, hn, hw⟩ := best_eq_some_iff.mp hbest
    exact best_eq_some_iff.mpr ⟨w, hn, hw.congr fun v c _ => (h (v, c)).symm⟩

/-- A path with an entry on the way to it is governed. -/
lemma exists_governs {b} (hmem : (w, b) ∈ entries) (hw : w <+: p) :
    ∃ v c, Governs entries v c p ∧ w <+: v := by
  rcases hbest : best entries p with _ | ⟨n, c⟩
  · exact absurd hw (best_eq_none_iff.mp hbest w b hmem)
  · obtain ⟨v, -, hv⟩ := best_eq_some_iff.mp hbest
    exact ⟨v, c, hv, hv.longest w b hmem hw⟩

end LongestPrefix
