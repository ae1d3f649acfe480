import Mathlib

/-!
# Properties along a run

A run is a fold of a step function over a list of moves.  If a property that holds before a move
holds after it just in case the move meets a condition, then it holds all along a run just in case
all moves of the run meet the condition, each in the state it is made in (`always_iff`).
-/

namespace Run

variable {σ μ : Type} {step : σ → μ → σ}

/-- The property holds in every state of the run. -/
def Always (step : σ → μ → σ) (P : σ → Prop) (s : σ) (moves : List μ) : Prop :=
  ∀ made, made <+: moves → P (made.foldl step s)

/-- Every move meets the condition, in the state it is made in. -/
def EachMove (step : σ → μ → σ) (C : σ → μ → Prop) (s : σ) (moves : List μ) : Prop :=
  ∀ made move, made ++ [move] <+: moves → C (made.foldl step s) move

variable {P : σ → Prop} {s : σ}

lemma always_nil : Always step P s [] ↔ P s := by
  simp [Always]

variable {moves : List μ}

lemma always_cons {move : μ} :
    Always step P s (move :: moves) ↔ P s ∧ Always step P (step s move) moves := by
  constructor
  · intro h
    refine ⟨h [] (List.nil_prefix), fun made hmade => ?_⟩
    exact h (move :: made) (List.cons_prefix_cons.mpr ⟨rfl, hmade⟩)
  · rintro ⟨hs, h⟩ made hmade
    obtain _ | ⟨m, made⟩ := made
    · exact hs
    · obtain ⟨rfl, hmade'⟩ := List.cons_prefix_cons.mp hmade
      exact h made hmade'

variable {C : σ → μ → Prop}

lemma eachMove_nil : EachMove step C s [] := by
  intro made move h
  simp at h

lemma eachMove_cons {move : μ} :
    EachMove step C s (move :: moves) ↔ C s move ∧ EachMove step C (step s move) moves := by
  constructor
  · intro h
    refine ⟨h [] move ⟨moves, rfl⟩, fun made m hmade => ?_⟩
    exact h (move :: made) m (List.cons_prefix_cons.mpr ⟨rfl, hmade⟩)
  · rintro ⟨hmove, h⟩ made m hmade
    obtain _ | ⟨m', made⟩ := made
    · obtain ⟨rfl, -⟩ := List.cons_prefix_cons.mp hmade
      exact hmove
    · obtain ⟨rfl, hmade'⟩ := List.cons_prefix_cons.mp hmade
      exact h made m hmade'

/-- **A property that the moves of a run keep just in case they meet a condition.**  What a move
needs to keep it is an invariant; a move that does not meet the condition breaks the property. -/
theorem always_iff_of_invariant {Inv : σ → Prop} (hinv : ∀ s, Inv s → P s)
    (hkeep : ∀ s move, Inv s → C s move → Inv (step s move))
    (hbreak : ∀ s move, Inv s → ¬ C s move → ¬ P (step s move)) (hs : Inv s) (moves : List μ) :
    Always step P s moves ↔ EachMove step C s moves := by
  induction moves generalizing s with
  | nil => exact iff_of_true (always_nil.mpr (hinv s hs)) eachMove_nil
  | cons move moves ih =>
    rw [always_cons, eachMove_cons, and_iff_right (hinv s hs)]
    by_cases hmove : C s move
    · rw [and_iff_right hmove]
      exact ih (hkeep s move hs hmove)
    · refine iff_of_false (fun h => hbreak s move hs hmove ?_) fun h => hmove h.1
      exact h [] List.nil_prefix

/-- An invariant along a run all of whose moves meet the condition. -/
lemma EachMove.invariant {Inv : σ → Prop}
    (hkeep : ∀ s move, Inv s → C s move → Inv (step s move)) (hs : Inv s)
    (h : EachMove step C s moves) : Always step Inv s moves := by
  induction moves generalizing s with
  | nil => exact always_nil.mpr hs
  | cons move moves ih =>
    obtain ⟨hmove, h⟩ := eachMove_cons.mp h
    exact always_cons.mpr ⟨hs, ih (hkeep s move hs hmove) h⟩

/-- The special case of a property that is its own invariant. -/
lemma always_iff (hstep : ∀ s move, P s → (P (step s move) ↔ C s move)) (hs : P s)
    (moves : List μ) :
    Always step P s moves ↔ EachMove step C s moves :=
  always_iff_of_invariant (fun _ => id) (fun s move h => (hstep s move h).mpr)
    (fun s move h => mt (hstep s move h).mp) hs moves

end Run
