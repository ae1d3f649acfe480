import Mathlib

/-!
# A log that is sent over connections that break

A log grows at its end and is sent in its order.  When the connection breaks, sending starts again
somewhere in the log, so that elements go out more than once.  If nothing is ever left out — what
stands before the place where sending starts again has been sent before — then the elements go out
for the first time in the order of the log (`InOrder`).

`Sending log wire pending` is the state in between: `pending` is the part of the log that is still
to be sent.  It is kept by sending an element (`Sending.send`) and by adding to a log that has been
sent (`Sending.extend`).
-/

namespace Resend

open List

variable {α : Type*} [DecidableEq α]

/-! ## What comes for the first time -/

variable {l : List α} {a : α}

lemma eraseDups_concat_of_mem (h : a ∈ l) : (l ++ [a]).eraseDups = l.eraseDups := by
  have hremove : [a].removeAll l = [] := by simp [removeAll, h]
  rw [eraseDups_append, hremove, eraseDups_nil, append_nil]

lemma eraseDups_concat_of_notMem (h : a ∉ l) : (l ++ [a]).eraseDups = l.eraseDups ++ [a] := by
  have hremove : [a].removeAll l = [a] := by simp [removeAll, h]
  rw [eraseDups_append, hremove]
  rfl

/-- One element, any number of times. -/
lemma eraseDups_append_const {l'} (hne : l' ≠ []) (hl' : ∀ x ∈ l', x = a) (ha : a ∉ l) :
    (l ++ l').eraseDups = l.eraseDups ++ [a] := by
  have hremove : l'.removeAll l = l' := filter_eq_self.mpr fun x hx => by simp [hl' x hx, ha]
  rw [eraseDups_append, hremove]
  cases l' with
  | nil => exact absurd rfl hne
  | cons b l' =>
    have hb : b = a := hl' b mem_cons_self
    have hrest : l'.filter (fun x => !x == b) = [] :=
      filter_eq_nil_iff.mpr fun x hx => by simp [hl' x (mem_cons_of_mem b hx), hb]
    rw [eraseDups_cons, hrest, eraseDups_nil, hb]

lemma eraseDups_prefix {l'} (h : l <+: l') : l.eraseDups <+: l'.eraseDups := by
  obtain ⟨t, rfl⟩ := h
  rw [eraseDups_append]
  exact prefix_append _ _

/-! ## Sending in order -/

/-- What has been sent, each element counted when it was sent first, is the beginning of the log. -/
def InOrder (log wire : List α) : Prop := wire.eraseDups <+: log

lemma InOrder.extend {log wire} (h : InOrder log wire) (new : List α) :
    InOrder (log ++ new) wire :=
  h.trans (prefix_append log new)

/-- What is on the wire, and what is left to send. -/
structure Sending (log wire pending : List α) : Prop where
  inOrder : InOrder log wire
  rest : ∃ sent, log = sent ++ pending ∧ ∀ a ∈ sent, a ∈ wire

/-- The first element that has not been sent yet is the next one of the log. -/
lemma eraseDups_eq_of_notMem {log wire sent pending} (hnodup : log.Nodup)
    (horder : InOrder log wire) (hlog : log = sent ++ a :: pending) (hsent : ∀ x ∈ sent, x ∈ wire)
    (ha : a ∉ wire) : wire.eraseDups = sent := by
  obtain h | h := prefix_or_prefix_of_prefix horder (hlog ▸ prefix_append sent _)
  · -- Nothing of `sent` is missing, as all of it is on the wire.
    obtain ⟨t, ht⟩ := h
    have hdisjoint : ∀ x ∈ wire.eraseDups, ∀ y ∈ t, x ≠ y := by
      have hsub : (wire.eraseDups ++ t).Nodup := by
        rw [ht]
        exact hnodup.sublist (hlog ▸ sublist_append_left sent _)
      exact (nodup_append.mp hsub).2.2
    cases t with
    | nil => rw [← ht, append_nil]
    | cons b t =>
      have hb : b ∈ wire := hsent b (ht ▸ mem_append_right _ mem_cons_self)
      exact absurd rfl (hdisjoint b (mem_eraseDups.mpr hb) b mem_cons_self)
  · -- If there were more, it would begin with `a`.
    obtain ⟨t, ht⟩ := h
    have hnext : t <+: a :: pending := by
      have horder : wire.eraseDups <+: log := horder
      rw [← ht, hlog] at horder
      exact (prefix_append_right_inj sent).mp horder
    cases t with
    | nil => rw [← ht, append_nil]
    | cons b t =>
      have hb : b = a := (cons_prefix_cons.mp hnext).1
      have hmem : b ∈ wire.eraseDups := ht ▸ mem_append_right _ mem_cons_self
      exact absurd (mem_eraseDups.mp (hb ▸ hmem)) ha

/-- **One element is sent.** -/
theorem Sending.send {log wire pending} (h : Sending log wire (a :: pending))
    (hnodup : log.Nodup) : Sending log (wire ++ [a]) pending := by
  obtain ⟨sent, hlog, hsent⟩ := h.rest
  have hlog' : log = sent ++ [a] ++ pending := by
    rw [hlog, append_assoc, singleton_append]
  refine ⟨?_, sent ++ [a], hlog', fun x hx => ?_⟩
  · rw [InOrder]
    by_cases ha : a ∈ wire
    · rw [eraseDups_concat_of_mem ha]
      exact h.inOrder
    · rw [eraseDups_concat_of_notMem ha,
        eraseDups_eq_of_notMem hnodup h.inOrder hlog hsent ha, hlog']
      exact prefix_append _ _
  · obtain hx | hx := mem_append.mp hx
    · exact mem_append_left _ (hsent x hx)
    · exact mem_append_right _ hx

/-- **The log grows when all of it has been sent.** -/
theorem Sending.extend {log wire} (h : Sending log wire []) (new : List α) :
    Sending (log ++ new) wire new := by
  obtain ⟨sent, hlog, hsent⟩ := h.rest
  rw [append_nil] at hlog
  exact ⟨h.inOrder.extend new, log, rfl, hlog ▸ hsent⟩

/-! ## Where sending starts again -/

omit [DecidableEq α] in
/-- What satisfies `p` stands in front if with an element all earlier ones do. -/
lemma filter_not_eq_dropWhile {p} (h : l.Pairwise fun a b => p b = true → p a = true) :
    l.filter (fun a => !p a) = l.dropWhile p := by
  induction l with
  | nil => rfl
  | cons a l ih =>
    obtain ⟨hfirst, hrest⟩ := pairwise_cons.mp h
    cases ha : p a with
    | true =>
      rw [filter_cons_of_neg (by rw [ha]; decide), dropWhile_cons_of_pos ha]
      exact ih hrest
    | false =>
      have hall : ∀ b ∈ a :: l, (!p b) := by
        intro b hb
        obtain rfl | hb := mem_cons.mp hb
        · rw [ha]
          rfl
        · rw [Bool.not_eq_true', ← Bool.not_eq_true]
          intro hpb
          rw [hfirst b hb hpb] at ha
          cases ha
      rw [filter_eq_self.mpr hall, dropWhile_cons_of_neg (by rw [ha]; decide)]

/-- **Sending starts again** at the first element that does not satisfy `p`, if those that do have
been sent. -/
theorem sending_restart {p : α → Bool} {log wire} (horder : InOrder log wire)
    (hp : log.Pairwise fun a b => p b = true → p a = true)
    (hsent : ∀ a ∈ log, p a → a ∈ wire) :
    Sending log wire (log.filter fun a => !p a) := by
  refine ⟨horder, log.takeWhile p, ?_, fun a ha => ?_⟩
  · rw [filter_not_eq_dropWhile hp, takeWhile_append_dropWhile]
  · exact hsent a (takeWhile_subset p ha) (mem_takeWhile_imp ha)

end Resend
