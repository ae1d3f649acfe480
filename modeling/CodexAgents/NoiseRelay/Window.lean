import CodexAgents.NoiseRelay.OrderedCiphertext

/-!
# Records of a relay that is not trusted

Whatever numbers and payloads are pushed, what is pending stays within the window and the limit, and
what is given out are the first copies of the records in the order of their numbers.  A record that
is refused counts as not seen.
-/

namespace NoiseRelay

namespace OrderedCiphertextFrames

open Reorder HashMap Option

variable {s : OrderedCiphertextFrames}

/-- Records that were pushed one after the other: the state, those that were not refused, and what
was given out. -/
structure Relayed where
  frames : OrderedCiphertextFrames := {}
  taken : List (Nat × Bytes) := []
  released : List Bytes := []

variable (r : Relayed)

/-- One more record; one that is refused is not taken. -/
def Relayed.push (record : Nat × Bytes) : Relayed :=
  match r.frames.push record.1 record.2 with
  | (.ok run, frames) => ⟨frames, r.taken ++ [record], r.released ++ run⟩
  | (.error _, frames) => { r with frames := frames }

/-- What was given out are the records below a number, each as it came first.  It is the next
number, unless there are no more numbers. -/
def Relayed.InOrder : Prop :=
  ∃ e ≤ r.frames.nextSeq, (∀ k < e, k ∈ numbers r.taken) ∧ r.released = upTo r.taken e ∧
    (e = r.frames.nextSeq ∧ Settled r.taken r.frames ∨ u32Max ≤ r.frames.nextSeq)

/-- With no number left, nothing is given out. -/
lemma push_exhausted (hmax : u32Max ≤ s.nextSeq) (seq : Nat) (payload : Bytes) :
    (s.push seq payload).2.nextSeq = s.nextSeq ∧
      ∀ run, (s.push seq payload).1 = .ok run → run = [] := by
  have hadvance : s.advance = none := if_neg (not_lt.mpr hmax)
  unfold OrderedCiphertextFrames.push
  split
  · simp
  · split
    · split
      · simp
      · split <;> simp
    · simp [hadvance]

/-- Why a push is refused. -/
lemma Settled.refused {got message} (h : Settled got s) {seq : Nat} {payload : Bytes}
    (hmessage : (s.push seq payload).1 = .error message) :
    s.nextSeq + maxReorderDistance < seq ∨
      s.nextSeq < seq ∧ maxPendingBytes < s.pendingBytes + payload.length ∨
      u32Max ≤ (s.push seq payload).2.nextSeq := by
  rcases push_cases h seq payload with
    ⟨hfar, -⟩ | ⟨-, hlt, hfull, -⟩ | ⟨n, s', -, ⟨hpush, -⟩ | ⟨hpush, hmax, -⟩⟩
  · exact .inl hfar
  · exact .inr (.inl ⟨hlt, by rwa [h.bytes, h.size]⟩)
  · cases (congrArg Prod.fst hpush).symm.trans hmessage
  · exact .inr (.inr (by rwa [hpush]))

lemma Relayed.InOrder.push {r : Relayed} (h : r.InOrder) (record : Nat × Bytes) :
    (r.push record).InOrder := by
  obtain ⟨e, hle, hnumbers, hreleased, ⟨rfl, hsettled⟩ | hmax⟩ := h
  · rcases push_cases hsettled record.1 record.2 with
      ⟨-, hpush⟩ | ⟨-, -, -, hpush⟩ | ⟨n, s', hnext, ⟨hpush, hs'⟩ | ⟨hpush, hmax, -⟩⟩
    · rw [Relayed.push, hpush]
      exact ⟨_, le_rfl, hnumbers, hreleased, .inl ⟨rfl, hsettled⟩⟩
    · rw [Relayed.push, hpush]
      exact ⟨_, le_rfl, hnumbers, hreleased, .inl ⟨rfl, hsettled⟩⟩
    · rw [Relayed.push, hpush]
      refine ⟨s'.nextSeq, le_rfl, hs'.below, ?_, .inl ⟨rfl, hs'⟩⟩
      rw [hnext, upTo_add, upTo_concat hnumbers, hreleased]
    · rw [Relayed.push, hpush]
      exact ⟨_, hnext ▸ Nat.le_add_right _ _, hnumbers, hreleased, .inr hmax⟩
  · obtain ⟨hnext, hrun⟩ := push_exhausted hmax record.1 record.2
    unfold Relayed.push
    rcases hpush : r.frames.push record.1 record.2 with ⟨message | run, s'⟩
    · rw [hpush] at hnext
      exact ⟨e, hnext ▸ hle, hnumbers, hreleased, .inr (hnext ▸ hmax)⟩
    · rw [hpush] at hnext hrun
      obtain rfl := hrun run rfl
      refine ⟨e, hnext ▸ hle, fun k hk => ?_, ?_, .inr (hnext ▸ hmax)⟩
      · exact (numbers_concat _ _ _).mpr (.inl (hnumbers k hk))
      · simp [upTo_concat hnumbers, hreleased]

lemma Relayed.frames_push (record : Nat × Bytes) :
    (r.push record).frames = (r.frames.push record.1 record.2).2 := by
  unfold Relayed.push
  split <;> simp [*]

/-- **Whatever is pushed**, the numbers of what is pending lie above the next one and within the
window, its bytes are counted and within the limit, and what was given out are the first copies of
the records in the order of their numbers, without a gap and up to the first number that did not
come, unless there are no more numbers.  One more push does not count
below zero, is refused only if it is too far ahead, if there is no room for it or if the numbers are
used up, and changes nothing if it is refused for its number or its size. -/
theorem relayed_in_order (records : List (Nat × Bytes)) :
    let r : Relayed := records.foldl Relayed.push {}
    (∀ k, (r.frames.pending.get k).isSome →
      r.frames.nextSeq < k ∧ k ≤ r.frames.nextSeq + maxReorderDistance) ∧
    r.frames.pendingBytes = r.frames.pending.size ∧
    r.frames.pendingBytes ≤ maxPendingBytes ∧
    (∃ e ≤ r.frames.nextSeq, (∀ k < e, k ∈ numbers r.taken) ∧
      r.released = (List.range e).filterMap (firstSeen r.taken) ∧
      (e = r.frames.nextSeq ∧ e ∉ numbers r.taken ∨ u32Max ≤ r.frames.nextSeq)) ∧
    ∀ seq payload,
      (∀ s, r.frames.advance = some s → drainChecked s.pending.keys.length s [payload] =
        some (drain s.pending.keys.length s [payload])) ∧
      ((r.frames.push seq payload).1 = .error reorderWindowError ∨
        (r.frames.push seq payload).1 = .error bufferFullError →
        (r.frames.push seq payload).2 = r.frames) ∧
      ∀ message, (r.frames.push seq payload).1 = .error message →
        r.frames.nextSeq + maxReorderDistance < seq ∨
        r.frames.nextSeq < seq ∧ maxPendingBytes < r.frames.pendingBytes + payload.length ∨
        u32Max ≤ (r.frames.push seq payload).2.nextSeq := by
  have hstart : Kept ({} : Relayed).frames ∧ ({} : Relayed).InOrder :=
    ⟨kept_empty, 0, le_rfl, by simp, rfl, .inl ⟨rfl, settled_nil⟩⟩
  have hrun : ∀ r : Relayed, Kept r.frames ∧ r.InOrder →
      Kept (records.foldl Relayed.push r).frames ∧ (records.foldl Relayed.push r).InOrder := by
    induction records with
    | nil => exact fun r h => h
    | cons record records ih =>
      intro r h
      refine ih _ ⟨?_, h.2.push record⟩
      rw [Relayed.frames_push]
      exact (h.1.push _ _).1
  obtain ⟨hkept, e, hle, hnumbers, hreleased, he⟩ := hrun {} hstart
  refine ⟨fun k hk => ?_, hkept.bytes, hkept.limit,
    ⟨e, hle, hnumbers, hreleased, he.imp_left fun hnext => ⟨hnext.1, ?_⟩⟩,
    fun seq payload => ⟨fun s hs => ?_, (hkept.push seq payload).2, fun message hmessage => ?_⟩⟩
  · obtain ⟨hge, hwindow⟩ := hkept.window k hk
    refine ⟨lt_of_le_of_ne hge ?_, hwindow⟩
    rintro rfl
    simp [hkept.next] at hk
  · rw [hnext.1]
    exact hnext.2.missing
  · obtain ⟨-, hs⟩ := ite_none_right_eq_some.mp hs
    obtain rfl := some.inj hs
    exact ((hkept.toBounded.advance hkept.next).drain _ le_rfl [payload]).1
  · exact he.elim (fun hnext => hnext.2.refused hmessage) fun hmax =>
      .inr (.inr (hmax.trans (push_exhausted hmax seq payload).1.ge))

end OrderedCiphertextFrames

end NoiseRelay
