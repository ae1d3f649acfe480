import Mathlib

/-!
# Pre- and postconditions for programs that can fail

A program over a state that can fail is an `EStateM ε σ α`: run from a state it ends in a value and
a state, or in an error and a state — the state of a failed run is not lost.  `Ensures m s Q E` says
that the run of `m` from `s` ends in what `Q` allows if it succeeds and in what `E` allows if it
fails.

The rules are those of a weakest precondition: one equivalence for each way to build a program
(`ensures_pure`, `ensures_bind`, `ensures_throw`, `ensures_modify`), a rule of consequence
(`Ensures.mono`), and an invariant rule for loops (`ensures_forM`).  `attempt` runs a program on a
part of the state and hands its failure over as a value.
-/

namespace Outcome

universe u v

variable {ε ε' σ τ α β : Type u}

/-- **The run of `m` from `s` ends as `Q` says if it succeeds, and as `E` says if it fails.** -/
def Ensures (m : EStateM ε σ α) (s : σ) (Q : α → σ → Prop) (E : ε → σ → Prop) : Prop :=
  match m s with
  | .ok a t => Q a t
  | .error e t => E e t

section

variable {m : EStateM ε σ α} {s : σ} {Q : α → σ → Prop} {E : ε → σ → Prop} {t : σ}

lemma Ensures.of_ok (h : Ensures m s Q E) {a} (hm : m s = .ok a t) : Q a t := by
  rwa [Ensures, hm] at h

variable {e : ε}

lemma Ensures.of_error (h : Ensures m s Q E) (hm : m s = .error e t) : E e t := by
  rwa [Ensures, hm] at h

lemma ensures_iff : Ensures m s Q E ↔
    (∀ a t, m s = .ok a t → Q a t) ∧ ∀ e t, m s = .error e t → E e t := by
  refine ⟨fun h => ⟨fun _ _ => h.of_ok, fun _ _ => h.of_error⟩, fun h => ?_⟩
  rw [Ensures]
  split
  · rename_i hm
    exact h.1 _ _ hm
  · rename_i hm
    exact h.2 _ _ hm

/-- **Consequence.** -/
theorem Ensures.mono {Q' E'} (h : Ensures m s Q E) (hQ : ∀ a t, Q a t → Q' a t)
    (hE : ∀ e t, E e t → E' e t) : Ensures m s Q' E' :=
  ensures_iff.mpr ⟨fun _ _ hm => hQ _ _ (h.of_ok hm), fun _ _ hm => hE _ _ (h.of_error hm)⟩

lemma Ensures.and {E'} (h : Ensures m s Q E) (h' : Ensures m s Q' E') :
    Ensures m s (fun a t => Q a t ∧ Q' a t) fun e t => E e t ∧ E' e t :=
  ensures_iff.mpr ⟨fun _ _ hm => ⟨h.of_ok hm, h'.of_ok hm⟩,
    fun _ _ hm => ⟨h.of_error hm, h'.of_error hm⟩⟩

lemma ensures_throw : Ensures (throw e : EStateM ε σ α) s Q E ↔ E e s := Iff.rfl

lemma ensures_modify {f Q} :
    Ensures (modify f : EStateM ε σ PUnit) s Q E ↔ Q ⟨⟩ (f s) := Iff.rfl

variable {f : α → EStateM ε σ β}

lemma ensures_bind {Q} :
    Ensures (m >>= f) s Q E ↔ Ensures m s (fun a t => Ensures (f a) t Q E) E := by
  simp only [Ensures, bind, EStateM.bind]
  cases m s <;> rfl

/-- **Sequence**: what holds after the first program has to be enough for the second. -/
theorem Ensures.bind {R} (h : Ensures m s Q E) (hf : ∀ a t, Q a t → Ensures (f a) t R E) :
    Ensures (m >>= f) s R E :=
  ensures_bind.mpr (h.mono hf fun _ _ => id)

/-- Sequence, after a program that does not fail. -/
lemma Ensures.bind_total {R} (h : Ensures m s Q fun _ _ => False)
    (hf : ∀ a t, Q a t → Ensures (f a) t R E) :
    Ensures (m >>= f) s R E :=
  (h.mono (fun _ _ => id) fun _ _ => False.elim).bind hf

end

/-- **Loops**: what every turn keeps holds at the end, and what a failing turn leaves behind is what
a failing loop leaves behind. -/
theorem ensures_forM {γ : Type v} {l : List γ} {f s} {Inv : σ → Prop}
    {E : ε → σ → Prop} (hs : Inv s)
    (hf : ∀ a ∈ l, ∀ t, Inv t → Ensures (f a) t (fun _ t' => Inv t') E) :
    Ensures (l.forM f) s (fun _ t => Inv t) E := by
  induction l generalizing s with
  | nil => exact hs
  | cons a l ih =>
    show Ensures (f a >>= fun _ => l.forM f) s (fun _ t => Inv t) E
    exact (hf a List.mem_cons_self s hs).bind fun _ t ht =>
      ih ht fun b hb => hf b (List.mem_cons_of_mem a hb)

/-! ## Programs on a part of the state -/

/-- Run a program on the part of the state that `get` and `set` give access to, with its failure as
a value. -/
def attempt (get : τ → σ) (set : τ → σ → τ) (m : EStateM ε σ α) : EStateM ε' τ (Except ε α) :=
  fun s =>
    match m (get s) with
    | .ok a t => .ok (.ok a) (set s t)
    | .error e t => .ok (.error e) (set s t)

lemma ensures_attempt {get : τ → σ} {set : τ → σ → τ} {m : EStateM ε σ α} {s Q}
    {E : ε' → τ → Prop} :
    Ensures (attempt get set m) s Q E ↔
      Ensures m (get s) (fun a t => Q (.ok a) (set s t)) fun e t => Q (.error e) (set s t) := by
  simp only [Ensures, attempt]
  cases m (get s) <;> rfl

/-! ## Programs without a state -/

section

variable {ε ε' α β : Type*} {m : Except ε α} {b : β}

lemma bind_eq_ok_iff {f} : m.bind f = .ok b ↔ ∃ a, m = .ok a ∧ f a = .ok b := by
  obtain e | a := m
  · exact iff_of_false (fun h => nomatch h) fun ⟨_, h, _⟩ => nomatch h
  · exact ⟨fun h => ⟨a, rfl, h⟩, fun ⟨_, ha, h⟩ => by cases ha; exact h⟩

/-- A check that fails is not passed. -/
lemma ite_error_eq_ok_iff {p : Prop} [Decidable p] {f : α → Except ε β} {m} :
    (if p then (Except.error e).bind f else m) = .ok b ↔ ¬ p ∧ m = .ok b := by
  split <;> simp_all [Except.bind]

lemma mapError_eq_ok_iff {f : ε → ε'} {a} : m.mapError f = .ok a ↔ m = .ok a := by
  obtain e | a' := m
  · exact iff_of_false (fun h => nomatch h) fun h => nomatch h
  · exact ⟨fun h => by cases h; rfl, fun h => by cases h; rfl⟩

/-- A loop of which every turn can give one thing only. -/
lemma eq_map_of_mapM_eq_ok {α : Type v} {ε β : Type u} {f : α → Except ε β} {g}
    (hf : ∀ a b, f a = .ok b → b = g a) {l : List α} {bs} (h : l.mapM f = .ok bs) :
    bs = l.map g := by
  induction l generalizing bs with
  | nil =>
    cases h
    rfl
  | cons a l ih =>
    rw [List.mapM_cons] at h
    obtain ⟨b, hb, h⟩ := bind_eq_ok_iff.mp h
    obtain ⟨bs', hbs, h⟩ := bind_eq_ok_iff.mp h
    cases h
    rw [List.map_cons, hf a b hb, ih hbs]

/-- **A loop that collects**: if every turn adds just what belongs to its element, the loop adds
what belongs to any of them. -/
theorem mem_foldlM_iff {f : List β → α → Except ε (List β)} {P : List β → Prop} {S : α → β → Prop}
    (hstep : ∀ b a b', P b → f b a = .ok b' → P b' ∧ ∀ x, x ∈ b' ↔ x ∈ b ∨ S a x)
    {l : List α} {b b'} (hP : P b) (h : l.foldlM f b = .ok b') :
    P b' ∧ ∀ x, x ∈ b' ↔ x ∈ b ∨ ∃ a ∈ l, S a x := by
  induction l generalizing b with
  | nil =>
    cases h
    exact ⟨hP, fun x => by simp⟩
  | cons a l ih =>
    rw [List.foldlM_cons] at h
    obtain ⟨b₁, h₁, h₂⟩ := bind_eq_ok_iff.mp h
    obtain ⟨hP₁, hmem₁⟩ := hstep b a b₁ hP h₁
    obtain ⟨hP₂, hmem₂⟩ := ih hP₁ h₂
    refine ⟨hP₂, fun x => ?_⟩
    simp [hmem₂, hmem₁, or_assoc]

end

end Outcome
