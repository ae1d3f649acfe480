import Mathlib

/-!
# Wildcards

A pattern is a list of tokens: `any` stands for any text, `one` for any single letter, and `lit` for
a letter.  `isMatch` runs a pattern on a text, and `isMatch_append` says that a text matches two
patterns one after the other if it can be cut into two parts that match them.
-/

namespace Wildcard

open List

variable {α : Type*}

/-- Any elements, one element, or a certain one. -/
inductive Token (α : Type*) where
  | any
  | one
  | lit (a : α)

variable [DecidableEq α]

/-- The pattern fits the list. -/
def isMatch : List (Token α) → List α → Bool
  | [], s => s.isEmpty
  | .any :: p, s => s.tails.any (isMatch p)
  | .one :: p, s =>
    match s with
    | [] => false
    | _ :: s => isMatch p s
  | .lit a :: p, s =>
    match s with
    | [] => false
    | b :: s => b = a && isMatch p s

variable {s : List α}

lemma isMatch_nil_iff : isMatch [] s ↔ s = [] := isEmpty_iff

variable {p : List (Token α)}

lemma isMatch_any_iff : isMatch (.any :: p) s ↔ ∃ s₁ s₂, s = s₁ ++ s₂ ∧ isMatch p s₂ := by
  rw [isMatch, any_eq_true]
  constructor
  · rintro ⟨s₂, hs, hp⟩
    obtain ⟨s₁, rfl⟩ := (mem_tails _ _).mp hs
    exact ⟨s₁, s₂, rfl, hp⟩
  · rintro ⟨s₁, s₂, rfl, hp⟩
    exact ⟨s₂, (mem_tails _ _).mpr (suffix_append s₁ s₂), hp⟩

lemma isMatch_one_iff : isMatch (.one :: p) s ↔ ∃ a t, s = a :: t ∧ isMatch p t := by
  cases s with
  | nil => exact iff_of_false Bool.false_ne_true fun ⟨_, _, h, _⟩ => nomatch h
  | cons a t =>
    constructor
    · exact fun h => ⟨a, t, rfl, h⟩
    · rintro ⟨_, _, h, hp⟩
      cases h
      exact hp

lemma isMatch_lit_iff {a : α} : isMatch (.lit a :: p) s ↔ ∃ t, s = a :: t ∧ isMatch p t := by
  cases s with
  | nil => exact iff_of_false Bool.false_ne_true fun ⟨_, h, _⟩ => nomatch h
  | cons b t =>
    rw [isMatch, Bool.and_eq_true, decide_eq_true_iff]
    constructor
    · rintro ⟨rfl, hp⟩
      exact ⟨t, rfl, hp⟩
    · rintro ⟨_, h, hp⟩
      cases h
      exact ⟨rfl, hp⟩

/-- **Patterns one after the other** match texts one after the other. -/
theorem isMatch_append {q : List (Token α)} :
    isMatch (p ++ q) s ↔ ∃ s₁ s₂, s = s₁ ++ s₂ ∧ isMatch p s₁ ∧ isMatch q s₂ := by
  induction p generalizing s with
  | nil =>
    rw [nil_append]
    constructor
    · exact fun h => ⟨[], s, rfl, rfl, h⟩
    · rintro ⟨s₁, s₂, rfl, h₁, h₂⟩
      rwa [isMatch_nil_iff.mp h₁, nil_append]
  | cons t p ih =>
    rw [cons_append]
    cases t with
    | any =>
      simp only [isMatch_any_iff, ih]
      constructor
      · rintro ⟨s₀, _, rfl, s₁, s₂, rfl, h₁, h₂⟩
        exact ⟨s₀ ++ s₁, s₂, (append_assoc s₀ s₁ s₂).symm, ⟨s₀, s₁, rfl, h₁⟩, h₂⟩
      · rintro ⟨_, s₂, rfl, ⟨s₀, s₁, rfl, h₁⟩, h₂⟩
        exact ⟨s₀, s₁ ++ s₂, append_assoc s₀ s₁ s₂, s₁, s₂, rfl, h₁, h₂⟩
    | one =>
      simp only [isMatch_one_iff, ih]
      constructor
      · rintro ⟨a, _, rfl, s₁, s₂, rfl, h₁, h₂⟩
        exact ⟨a :: s₁, s₂, rfl, ⟨a, s₁, rfl, h₁⟩, h₂⟩
      · rintro ⟨_, s₂, rfl, ⟨a, s₁, rfl, h₁⟩, h₂⟩
        exact ⟨a, s₁ ++ s₂, rfl, s₁, s₂, rfl, h₁, h₂⟩
    | lit a =>
      simp only [isMatch_lit_iff, ih]
      constructor
      · rintro ⟨_, rfl, s₁, s₂, rfl, h₁, h₂⟩
        exact ⟨a :: s₁, s₂, rfl, ⟨s₁, rfl, h₁⟩, h₂⟩
      · rintro ⟨_, s₂, rfl, ⟨s₁, rfl, h₁⟩, h₂⟩
        exact ⟨s₁ ++ s₂, rfl, s₁, s₂, rfl, h₁, h₂⟩

/-- `?*` matches every text that is not empty. -/
lemma isMatch_one_any_iff : isMatch [.one, .any] s ↔ s ≠ [] := by
  rw [isMatch_one_iff]
  constructor
  · rintro ⟨a, t, rfl, -⟩
    exact cons_ne_nil a t
  · intro h
    obtain ⟨a, t, rfl⟩ := exists_cons_of_ne_nil h
    exact ⟨a, t, rfl, isMatch_any_iff.mpr ⟨t, [], (append_nil t).symm, rfl⟩⟩

/-- A pattern with something other than `*` in it matches no empty text. -/
lemma ne_nil_of_isMatch {t : Token α} (ht : t ∈ p) (hne : t ≠ .any) (h : isMatch p s) : s ≠ [] := by
  obtain ⟨p₁, p₂, rfl⟩ := append_of_mem ht
  obtain ⟨s₁, s₂, rfl, -, h₂⟩ := isMatch_append.mp h
  cases t with
  | any => exact absurd rfl hne
  | one =>
    obtain ⟨a, t, rfl, -⟩ := isMatch_one_iff.mp h₂
    exact append_ne_nil_of_right_ne_nil s₁ (cons_ne_nil a t)
  | lit a =>
    obtain ⟨t, rfl, -⟩ := isMatch_lit_iff.mp h₂
    exact append_ne_nil_of_right_ne_nil s₁ (cons_ne_nil a t)

end Wildcard
