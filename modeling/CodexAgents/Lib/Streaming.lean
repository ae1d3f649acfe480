import Mathlib

/-!
# Machines that are fed in pieces

A machine takes a list in one go (`push : S → List A → O × S`) and may be given the next one
afterwards.  What it puts out is looked at through lists of some kind (`O → List B`).  The machine
is `Additive` if feeding it two lists is the same as feeding it the two as one: it ends in the same
state, and what it puts out adds up.  Then it does not matter how its input is cut into pieces
(`Additive.run_eq_push`, `Additive.run_congr`).

A machine that goes over its input element by element is additive (`additive_of_steps`), and so is
one that is made of two additive ones (`Piped.additive_first`, `Piped.additive_second`).
-/

namespace Streaming

variable {S A O B : Type*} (push : S → List A → O × S)

/-- It does not matter where the input is cut. -/
def Additive (view : O → List B) : Prop :=
  ∀ s a b, (push s (a ++ b)).2 = (push (push s a).2 b).2 ∧
    view (push s (a ++ b)).1 = view (push s a).1 ++ view (push (push s a).2 b).1

/-- The pieces one after the other, with what is put out for each of them. -/
def run (push : S → List A → O × S) : S → List (List A) → List O × S
  | s, [] => ([], s)
  | s, piece :: pieces =>
    let first := push s piece
    let rest := run push first.2 pieces
    (first.1 :: rest.1, rest.2)

lemma run_append (s : S) (pieces : List (List A)) (piece : List A) :
    run push s (pieces ++ [piece]) =
      ((run push s pieces).1 ++ [(push (run push s pieces).2 piece).1],
        (push (run push s pieces).2 piece).2) := by
  induction pieces generalizing s with
  | nil => rfl
  | cons first pieces ih =>
    rw [List.cons_append, run, ih]
    rfl

/-- Empty input changes nothing. -/
def Settled (view : O → List B) (s : S) : Prop := (push s []).2 = s ∧ view (push s []).1 = []

variable {push : S → List A → O × S} {view : O → List B}

section

variable (h : Additive push view) {s : S} (hs : Settled push view s)

include h hs

/-- **The pieces do not matter, only what they make together.** -/
theorem Additive.run_eq_push (pieces : List (List A)) :
    (run push s pieces).2 = (push s pieces.flatten).2 ∧
      (run push s pieces).1.flatMap view = view (push s pieces.flatten).1 := by
  induction pieces using List.reverseRecOn with
  | nil => exact ⟨hs.1.symm, hs.2.symm⟩
  | append_singleton pieces piece ih =>
    obtain ⟨hstate, hview⟩ := h s pieces.flatten piece
    rw [run_append, List.flatten_append, List.flatten_singleton, List.flatMap_append,
      List.flatMap_singleton, ih.1, ih.2, hstate, hview]
    exact ⟨rfl, rfl⟩

lemma Additive.run_congr {pieces pieces'} (heq : pieces.flatten = pieces'.flatten) :
    (run push s pieces).2 = (run push s pieces').2 ∧
      (run push s pieces).1.flatMap view = (run push s pieces').1.flatMap view := by
  obtain ⟨hstate, hview⟩ := h.run_eq_push hs pieces
  obtain ⟨hstate', hview'⟩ := h.run_eq_push hs pieces'
  rw [hstate, hview, hstate', hview', heq]
  exact ⟨rfl, rfl⟩

end

/-! ## Element by element -/

/-- The steps of a machine that takes its input element by element. -/
def steps (step : S → A → List B × S) : S → List A → List B × S
  | s, [] => ([], s)
  | s, a :: as =>
    let first := step s a
    let rest := steps step first.2 as
    (first.1 ++ rest.1, rest.2)

lemma steps_append (step : S → A → List B × S) (s : S) (a b : List A) :
    steps step s (a ++ b) = ((steps step s a).1 ++ (steps step (steps step s a).2 b).1,
      (steps step (steps step s a).2 b).2) := by
  induction a generalizing s with
  | nil => rfl
  | cons x a ih =>
    rw [List.cons_append, steps, ih, steps]
    simp [List.append_assoc]

variable {push : S → List A → O × S} {view : O → List B}

lemma additive_of_steps (step : S → A → List B × S)
    (h : ∀ s a, view (push s a).1 = (steps step s a).1 ∧ (push s a).2 = (steps step s a).2) :
    Additive push view := by
  intro s a b
  rw [(h s (a ++ b)).1, (h s (a ++ b)).2, (h s a).1, (h s a).2, (h _ b).1, (h _ b).2, steps_append]
  exact ⟨rfl, rfl⟩

/-! ## Other views -/

/-- A view that is made from another one element by element. -/
lemma Additive.of_view (h : Additive push view) {O' B' : Type*} {push'}
    {view' : O' → List B'} (g : B → List B') (heq : ∀ s a, (push' s a).2 = (push s a).2 ∧
      view' (push' s a).1 = (view (push s a).1).flatMap g) : Additive push' view' := by
  intro s a b
  obtain ⟨hstate, hview⟩ := h s a b
  rw [(heq s (a ++ b)).1, (heq s (a ++ b)).2, (heq s a).1, (heq s a).2, (heq _ b).1, (heq _ b).2,
    hstate, hview, List.flatMap_append]
  exact ⟨rfl, rfl⟩

/-! ## One behind the other -/

section

variable {S₁ O₁ M S₂ O₂ : Type*}

/-- A machine that is made of two: what the first puts out is the input of the second. -/
structure Piped (push : S → List A → O × S) (push₁ : S₁ → List A → O₁ × S₁) (mid : O₁ → List M)
    (push₂ : S₂ → List M → O₂ × S₂) (fst : S → S₁) (snd : S → S₂) : Prop where
  ext : ∀ {s t}, fst s = fst t → snd s = snd t → s = t
  fst_push : ∀ s a, fst (push s a).2 = (push₁ (fst s) a).2
  snd_push : ∀ s a, snd (push s a).2 = (push₂ (snd s) (mid (push₁ (fst s) a).1)).2

variable {push₁ : S₁ → List A → O₁ × S₁} {mid : O₁ → List M} {push₂ : S₂ → List M → O₂ × S₂}
  {fst : S → S₁} {snd : S → S₂} (h : Piped push push₁ mid push₂ fst snd) (h₁ : Additive push₁ mid)

include h h₁

lemma Piped.state {B₂ : Type*} {view₂ : O₂ → List B₂} (h₂ : Additive push₂ view₂) (s : S)
    (a b : List A) : (push s (a ++ b)).2 = (push (push s a).2 b).2 := by
  apply h.ext
  · simp only [h.fst_push, (h₁ (fst s) a b).1]
  · simp only [h.snd_push, h.fst_push, (h₁ (fst s) a b).2, (h₂ (snd s) _ _).1]

/-- What is seen of the second machine. -/
lemma Piped.additive_second {view₂} (h₂ : Additive push₂ view₂)
    (hview : ∀ s a, view (push s a).1 = view₂ (push₂ (snd s) (mid (push₁ (fst s) a).1)).1) :
    Additive push view := by
  refine fun s a b => ⟨h.state h₁ h₂ s a b, ?_⟩
  simp only [hview, h.snd_push, h.fst_push, (h₁ (fst s) a b).2, (h₂ (snd s) _ _).2]

/-- What else is seen of the first machine. -/
lemma Piped.additive_first {B₂ : Type*} {view₂ : O₂ → List B₂} (h₂ : Additive push₂ view₂)
    {view₁} (h₁' : Additive push₁ view₁)
    (hview : ∀ s a, view (push s a).1 = view₁ (push₁ (fst s) a).1) : Additive push view := by
  refine fun s a b => ⟨h.state h₁ h₂ s a b, ?_⟩
  simp only [hview, h.fst_push, (h₁' (fst s) a b).2]

end

end Streaming
