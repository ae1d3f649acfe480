import CodexAgents.Lib.Checked
import CodexAgents.Lib.HashMap
import CodexAgents.Lib.Reorder
import CodexAgents.Lib.Text

/-!
# Ciphertexts in the order of their numbers

`exec-server/src/noise_relay/ordered_ciphertext.rs`.  Records of a relay come in any order and more
than once, but they can be decrypted only in the order of their numbers.  `push` takes one and gives
out those that have become contiguous.  What comes too early is kept, within a window of numbers and
a limit of bytes.

`Kept s` bounds what is pending, whatever was pushed.  `Holds got s` says what a state knows of the
records `got` that it has taken: the numbers below `nextSeq` have all come, and of the others the
first copy of each is pending.  `push_cases` is what one push does to this.
-/

namespace NoiseRelay

open Text Reorder HashMap Option List Finset

/-- What is sent and received. -/
abbrev Bytes := List UInt8

/-- How far a record may be ahead. -/
def maxReorderDistance : Nat := 64

/-- How many bytes may wait. -/
def maxPendingBytes : Nat := 1024 * 1024

/-- `u32::MAX`. -/
def u32Max : Nat := 2 ^ 32 - 1

/-- The next number, and the records behind it that came early. -/
structure OrderedCiphertextFrames where
  nextSeq : Nat := 0
  pending : HashMap Nat Bytes := ∅
  pendingBytes : Nat := 0

namespace OrderedCiphertextFrames

def reorderWindowError : Str := "Noise relay ciphertext exceeds reorder window"

def bufferFullError : Str := "Noise relay pending ciphertext buffer is full"

def sequenceExhaustedError : Str := "Noise relay sequence number exhausted"

/-- `advance`, or `none` if there is no number left. -/
def advance (s : OrderedCiphertextFrames) : Option OrderedCiphertextFrames :=
  if s.nextSeq < u32Max then some { s with nextSeq := s.nextSeq + 1 } else none

/-- The loop over what has become contiguous.  It ends after as many rounds as there are pending
records. -/
def drain : Nat → OrderedCiphertextFrames → List Bytes →
    Except Str (List Bytes) × OrderedCiphertextFrames
  | 0, s, ready => (.ok ready, s)
  | rounds + 1, s, ready =>
    match s.pending.get s.nextSeq with
    | none => (.ok ready, s)
    | some payload =>
      let s :=
        { s with
          pending := s.pending.erase s.nextSeq
          pendingBytes := s.pendingBytes - payload.length }
      match s.advance with
      | some s' => drain rounds s' (ready ++ [payload])
      | none => (.error sequenceExhaustedError, s)

/-- A record is dropped, waits, or is released with those that waited for it. -/
def push (s : OrderedCiphertextFrames) (seq : Nat) (payload : Bytes) :
    Except Str (List Bytes) × OrderedCiphertextFrames :=
  if seq < s.nextSeq ∨ (s.pending.get seq).isSome then (.ok [], s)
  else if s.nextSeq < seq then
    if maxReorderDistance < seq - s.nextSeq then (.error reorderWindowError, s)
    else if maxPendingBytes < s.pendingBytes + payload.length then (.error bufferFullError, s)
    else
      (.ok [], { s with
          pending := s.pending.insert seq payload
          pendingBytes := s.pendingBytes + payload.length })
  else
    match s.advance with
    | some s' => drain s'.pending.keys.length s' [payload]
    | none => (.error sequenceExhaustedError, s)

/-! ## Bounds -/

/-- The loop of `push`, which gives nothing if `pending_bytes` became negative. -/
def drainChecked : Nat → OrderedCiphertextFrames → List Bytes →
    Option (Except Text.Str (List Bytes) × OrderedCiphertextFrames)
  | 0, s, ready => some (.ok ready, s)
  | rounds + 1, s, ready =>
    match s.pending.get s.nextSeq with
    | none => some (.ok ready, s)
    | some payload => do
      let pendingBytes ← Checked.sub s.pendingBytes payload.length
      let s := { s with pending := s.pending.erase s.nextSeq, pendingBytes := pendingBytes }
      match s.advance with
      | some s' => drainChecked rounds s' (ready ++ [payload])
      | none => some (.error sequenceExhaustedError, s)

/-- What is pending is near the next number, and its bytes are counted. -/
structure Bounded (s : OrderedCiphertextFrames) : Prop where
  window : ∀ k, (s.pending.get k).isSome → s.nextSeq ≤ k ∧ k ≤ s.nextSeq + maxReorderDistance
  bytes : s.pendingBytes = s.pending.size

variable {s : OrderedCiphertextFrames} {payload : Bytes}

lemma size_of_get {k : Nat} (hget : s.pending.get k = some payload) :
    s.pending.size = payload.length + size (s.pending.erase k) := by
  rw [size_eq _ k, values, hget, getD_some]

lemma Bounded.erase (h : Bounded s) (hget : s.pending.get s.nextSeq = some payload) :
    Bounded ⟨s.nextSeq, s.pending.erase s.nextSeq, s.pendingBytes - payload.length⟩ := by
  refine ⟨fun k hk => ?_, ?_⟩
  · obtain ⟨w, hw⟩ := isSome_iff_exists.mp hk
    exact h.window k (isSome_of_eq_some (get_erase_eq_some.mp hw).2)
  · dsimp only
    rw [h.bytes, size_of_get hget, Nat.add_sub_cancel_left]

lemma Bounded.advance (h : Bounded s) (hget : s.pending.get s.nextSeq = none) :
    Bounded { s with nextSeq := s.nextSeq + 1 } := by
  refine ⟨fun k hk => ?_, h.bytes⟩
  have hne : k ≠ s.nextSeq := by
    rintro rfl
    simp [hget] at hk
  have := h.window k hk
  dsimp only
  omega

lemma length_keys_erase {m : HashMap Nat Bytes} {k} (h : m.get k = some payload) :
    (m.erase k).keys.length + 1 = m.keys.length := by
  have hmem : k ∈ m.keys := AList.mem_keys.mp (AList.lookup_isSome.mp (by
    rw [show m.lookup k = some payload from h]; rfl))
  rw [AList.keys_erase, length_erase_of_mem hmem]
  have := length_pos_of_mem hmem
  omega

/-- **The loop does not count below zero.**  It ends with a number that is not pending, or for want
of numbers. -/
theorem Bounded.drain (rounds : Nat) (h : Bounded s)
    (hrounds : s.pending.keys.length ≤ rounds) (ready : List Bytes) :
    drainChecked rounds s ready = some (drain rounds s ready) ∧ Bounded (drain rounds s ready).2 ∧
      (drain rounds s ready).2.pending.get (drain rounds s ready).2.nextSeq = none ∧
      (drain rounds s ready).2.pendingBytes ≤ s.pendingBytes ∧
      ∀ message, (drain rounds s ready).1 = .error message → message = sequenceExhaustedError := by
  induction rounds generalizing s ready with
  | zero =>
    have hkeys := List.eq_nil_of_length_eq_zero (Nat.le_zero.mp hrounds)
    refine ⟨rfl, h, notMem_iff.mp fun hmem => ?_, le_rfl, ?_⟩
    · exact List.not_mem_nil (hkeys ▸ AList.mem_keys.mp hmem)
    · simp [OrderedCiphertextFrames.drain]
  | succ rounds ih =>
    cases hget : s.pending.get s.nextSeq with
    | none => simp [drainChecked, OrderedCiphertextFrames.drain, hget, h]
    | some payload =>
      have hle : payload.length ≤ s.pendingBytes := by
        rw [h.bytes, size_of_get hget]
        exact Nat.le_add_right _ _
      have herase := h.erase hget
      have hnone : get (s.pending.erase s.nextSeq) s.nextSeq = none := by simp
      have hlength := length_keys_erase hget
      simp only [drainChecked, OrderedCiphertextFrames.drain, hget, Checked.sub_eq_some hle,
        bind_eq_bind, bind_some, OrderedCiphertextFrames.advance]
      by_cases hlt : s.nextSeq < u32Max
      · simp only [if_pos hlt]
        obtain ⟨hchecked, hbounded, hnone, hbytes, herror⟩ := ih (herase.advance hnone)
          (by dsimp only; omega) (ready ++ [payload])
        exact ⟨hchecked, hbounded, hnone, hbytes.trans (Nat.sub_le _ _), herror⟩
      · simp only [if_neg hlt]
        exact ⟨trivial, herase, hnone, Nat.sub_le _ _, fun _ h => (Except.error.inj h).symm⟩

/-- Between two pushes. -/
structure Kept (s : OrderedCiphertextFrames) : Prop extends Bounded s where
  next : s.pending.get s.nextSeq = none
  limit : s.pendingBytes ≤ maxPendingBytes

lemma kept_empty : Kept {} where
  window k hk := by simp at hk
  bytes := rfl
  next := rfl
  limit := Nat.zero_le _

/-- A record that comes too early, within the window and the limit. -/
lemma Kept.insert (h : Kept s) {seq : Nat} (hfresh : s.pending.get seq = none)
    (hlt : s.nextSeq < seq) (hwindow : ¬ maxReorderDistance < seq - s.nextSeq)
    (hlimit : ¬ maxPendingBytes < s.pendingBytes + payload.length) :
    Kept ⟨s.nextSeq, s.pending.insert seq payload, s.pendingBytes + payload.length⟩ := by
  refine ⟨⟨fun k hk => ?_, ?_⟩, ?_, not_lt.mp hlimit⟩
  · obtain ⟨w, hw⟩ := isSome_iff_exists.mp hk
    obtain ⟨rfl, -⟩ | ⟨-, hw⟩ := get_insert_eq_some.mp hw
    · dsimp only
      omega
    · exact h.window k (isSome_of_eq_some hw)
  · rw [size_insert, h.bytes, size_eq s.pending seq, values, hfresh]
    simp [add_comm]
  · rw [get_insert, Function.update_of_ne hlt.ne, h.next]

/-- **One push keeps the bounds**, and changes nothing if it is refused for the number or the size
of the record. -/
theorem Kept.push (h : Kept s) (seq : Nat) (payload : Bytes) : Kept (s.push seq payload).2 ∧
      ((s.push seq payload).1 = .error reorderWindowError ∨
        (s.push seq payload).1 = .error bufferFullError → (s.push seq payload).2 = s) := by
  have hdrain := (h.toBounded.advance h.next).drain s.pending.keys.length le_rfl [payload]
  unfold OrderedCiphertextFrames.push OrderedCiphertextFrames.advance
  split
  · simp [h]
  · rename_i hfresh
    rw [not_or, Bool.not_eq_true, isSome_eq_false_iff, isNone_iff_eq_none] at hfresh
    split
    · split
      · simp [h]
      · split
        · simp [h]
        · simpa using h.insert hfresh.2 ‹_› ‹_› ‹_›
    · by_cases hlt : s.nextSeq < u32Max
      · simp only [if_pos hlt]
        obtain ⟨-, hbounded, hnone, hbytes, herror⟩ := hdrain
        refine ⟨⟨hbounded, hnone, hbytes.trans h.limit⟩, ?_⟩
        rintro (hwindow | hfull)
        · exact absurd (herror _ hwindow) (by decide)
        · exact absurd (herror _ hfull) (by decide)
      · simp [if_neg hlt, h]

/-! ## What a state knows -/

/-- The numbers from `e` on that have come. -/
def waiting (got : List (Nat × Bytes)) (e : Nat) : Finset Nat :=
  (numbers got).toFinset.filter (e ≤ ·)

/-- The bytes of the first copies of the records from `e` on. -/
def waitingBytes (got : List (Nat × Bytes)) (e : Nat) : Nat :=
  ∑ k ∈ waiting got e, ((firstSeen got k).getD []).length

/-- The numbers below the next one have come, and of the others the first copy of each is
pending. -/
structure Holds (got : List (Nat × Bytes)) (s : OrderedCiphertextFrames) : Prop where
  below : ∀ k < s.nextSeq, k ∈ numbers got
  pending : ∀ k, s.pending.get k = if s.nextSeq ≤ k then firstSeen got k else none

variable {got : List (Nat × Bytes)}

lemma Holds.size (h : Holds got s) : s.pending.size = waitingBytes got s.nextSeq := by
  have hmem : ∀ k, k ∈ waiting got s.nextSeq ↔ (s.pending.get k).isSome := fun k => by
    rw [waiting, Finset.mem_filter, List.mem_toFinset, h.pending, ← firstSeen_isSome_iff]
    split <;> simp [*]
  rw [size_eq_sum hmem]
  refine sum_congr rfl fun k hk => ?_
  rw [values, h.pending, if_pos (Finset.mem_filter.mp hk).2]

lemma numbers_concat (got : List (Nat × Bytes)) (p : Nat × Bytes) (k : Nat) :
    k ∈ numbers (got ++ [p]) ↔ k ∈ numbers got ∨ k = p.1 := by
  simp [numbers]

variable {seq : Nat}

/-! ## Taking a record -/

/-- Between two pushes the next number has not come. -/
structure Settled (got : List (Nat × Bytes)) (s : OrderedCiphertextFrames) : Prop extends
    Kept s, Holds got s where
  missing : s.nextSeq ∉ numbers got

lemma settled_nil : Settled [] {} where
  toKept := kept_empty
  below := by simp
  pending k := by simp [firstSeen]
  missing := not_mem_nil

lemma Settled.nextSeq_eq (h : Settled got s) : firstMissing (numbers got) = s.nextSeq :=
  firstMissing_eq h.below h.missing

lemma Holds.get_nextSeq (h : Holds got s) : s.pending.get s.nextSeq = firstSeen got s.nextSeq := by
  rw [h.pending, if_pos (le_refl _)]

/-- One round of the loop: the next record is not pending any more. -/
lemma Holds.next (h : Holds got s) (hseen : firstSeen got s.nextSeq = some payload) (n : Nat) :
    Holds got ⟨s.nextSeq + 1, s.pending.erase s.nextSeq, n⟩ where
  below := by
    intro k hk
    obtain hlt | rfl := Nat.lt_succ_iff_lt_or_eq.mp hk
    · exact h.below k hlt
    · exact firstSeen_isSome_iff.mp (by rw [hseen]; rfl)
  pending := by
    intro k
    rw [get_erase]
    obtain rfl | hne := eq_or_ne k s.nextSeq
    · rw [Function.update_self, if_neg (by simp)]
    · rw [Function.update_of_ne hne, h.pending]
      by_cases hle : s.nextSeq ≤ k
      · rw [if_pos hle, if_pos (by dsimp only; omega)]
      · rw [if_neg hle, if_neg (by dsimp only; omega)]

/-- The loop gives out the records up to the next number that is missing, unless it runs out of
numbers. -/
lemma drain_cases (rounds : Nat) (h : Holds got s) (hrounds : s.pending.keys.length ≤ rounds)
    (ready : List Bytes) :
    ∃ n s', s'.nextSeq = s.nextSeq + n ∧ (drain rounds s ready =
          (.ok (ready ++ (range' s.nextSeq n).filterMap (firstSeen got)), s') ∧
          Holds got s' ∧ s'.nextSeq ∉ numbers got ∨
        drain rounds s ready = (.error sequenceExhaustedError, s') ∧ u32Max ≤ s'.nextSeq ∧
          s'.nextSeq ∈ numbers got) := by
  induction rounds generalizing s ready with
  | zero =>
    have hempty : s.pending.get s.nextSeq = none := by
      have hkeys : s.pending.keys = [] := eq_nil_of_length_eq_zero (by omega)
      refine notMem_iff.mp fun hmem => ?_
      rw [AList.mem_keys, hkeys] at hmem
      exact not_mem_nil hmem
    refine ⟨0, s, rfl, .inl ⟨by simp [drain], h, ?_⟩⟩
    rw [← firstSeen_eq_none_iff, ← h.get_nextSeq, hempty]
  | succ rounds ih =>
    cases hget : s.pending.get s.nextSeq with
    | none =>
      refine ⟨0, s, rfl, .inl ⟨by simp [drain, hget], h, ?_⟩⟩
      rw [← firstSeen_eq_none_iff, ← h.get_nextSeq, hget]
    | some payload =>
      have hseen : firstSeen got s.nextSeq = some payload := h.get_nextSeq ▸ hget
      have hlength := length_keys_erase hget
      simp only [drain, hget, advance]
      by_cases hlt : s.nextSeq < u32Max
      · obtain ⟨n, s', hnext, hdrain⟩ :=
          ih (h.next hseen _) (by dsimp only; omega) (ready ++ [payload])
        rw [append_assoc] at hdrain
        refine ⟨n + 1, s', by rw [hnext]; dsimp only; omega, ?_⟩
        rwa [if_pos hlt, range'_succ, filterMap_cons_some hseen]
      · rw [if_neg hlt]
        refine ⟨0, ⟨s.nextSeq, _, _⟩, rfl, .inr ⟨rfl, not_lt.mp hlt, ?_⟩⟩
        exact firstSeen_isSome_iff.mp (Option.isSome_of_eq_some hseen)

variable (h : Settled got s)
include h

/-- What has come is known, for a record that comes again. -/
lemma Settled.concat_known (hmem : seq ∈ numbers got) (payload : Bytes) :
    Settled (got ++ [(seq, payload)]) s := by
  have hnumbers : ∀ k, k ∈ numbers (got ++ [(seq, payload)]) ↔ k ∈ numbers got := fun k => by
    rw [numbers_concat]
    exact ⟨fun hk => hk.elim id fun hk => hk ▸ hmem, .inl⟩
  refine ⟨h.toKept, ⟨fun k hk => (hnumbers k).mpr (h.below k hk), fun k => ?_⟩, fun hk =>
    h.missing ((hnumbers _).mp hk)⟩
  rw [h.pending]
  obtain rfl | hne := eq_or_ne seq k
  · rw [firstSeen_concat_of_mem hmem]
  · rw [firstSeen_concat_of_ne hne]

/-- The same for a record that comes too early. -/
lemma Settled.concat_early (hnew : seq ∉ numbers got) (hlt : s.nextSeq < seq) (payload : Bytes)
    (n : Nat) : Holds (got ++ [(seq, payload)]) ⟨s.nextSeq, s.pending.insert seq payload, n⟩ := by
  refine ⟨fun k hk => (numbers_concat _ _ _).mpr (.inl (h.below k hk)), fun k => ?_⟩
  rw [get_insert]
  obtain rfl | hne := eq_or_ne k seq
  · have hself := firstSeen_concat_self (p := (k, payload)) hnew
    rw [Function.update_self, if_pos hlt.le, hself]
  · rw [Function.update_of_ne hne, h.pending, firstSeen_concat_of_ne hne.symm]

/-- And for the record that has been waited for. -/
lemma Settled.concat_next (payload : Bytes) :
    Holds (got ++ [(s.nextSeq, payload)]) { s with nextSeq := s.nextSeq + 1 } := by
  refine ⟨fun k hk => ?_, fun k => ?_⟩
  · rw [numbers_concat]
    obtain hlt | rfl := Nat.lt_succ_iff_lt_or_eq.mp hk
    · exact .inl (h.below k hlt)
    · exact .inr rfl
  · rw [h.pending]
    obtain rfl | hne := eq_or_ne s.nextSeq k
    · rw [if_pos (le_refl _), if_neg (by simp), firstSeen_eq_none_iff]
      exact h.missing
    · rw [firstSeen_concat_of_ne hne]
      by_cases hle : s.nextSeq ≤ k
      · rw [if_pos hle, if_pos (by dsimp only; omega)]
      · rw [if_neg hle, if_neg (by dsimp only; omega)]

/-- **One push.**  A record that is not within the window or the limit is refused.  Else what is
given out are the records from the next number on, up to the first that is missing, unless there is
no number left. -/
theorem push_cases (seq : Nat) (payload : Bytes) :
    (s.nextSeq + maxReorderDistance < seq ∧ s.push seq payload = (.error reorderWindowError, s)) ∨
    (seq ∉ numbers got ∧ s.nextSeq < seq ∧
      maxPendingBytes < waitingBytes got s.nextSeq + payload.length ∧
      s.push seq payload = (.error bufferFullError, s)) ∨
    ∃ n s', s'.nextSeq = s.nextSeq + n ∧ (s.push seq payload =
          (.ok ((range' s.nextSeq n).filterMap (firstSeen (got ++ [(seq, payload)]))), s') ∧
          Settled (got ++ [(seq, payload)]) s' ∨
        s.push seq payload = (.error sequenceExhaustedError, s') ∧ u32Max ≤ s'.nextSeq ∧
          s'.nextSeq ∈ numbers (got ++ [(seq, payload)])) := by
  have hkept := (h.toKept.push seq payload).1
  by_cases hknown : seq ∈ numbers got
  · refine .inr (.inr ⟨0, s, rfl, .inl ⟨?_, h.concat_known hknown payload⟩⟩)
    rw [OrderedCiphertextFrames.push, if_pos, range'_zero, filterMap_nil]
    obtain hlt | hge := lt_or_ge seq s.nextSeq
    · exact .inl hlt
    · refine .inr ?_
      rw [h.pending, if_pos hge]
      exact firstSeen_isSome_iff.mpr hknown
  · have hfresh : ¬ (seq < s.nextSeq ∨ (s.pending.get seq).isSome) := by
      rintro (hlt | hsome)
      · exact hknown (h.below seq hlt)
      · rw [h.pending] at hsome
        split at hsome
        · exact hknown (firstSeen_isSome_iff.mp hsome)
        · cases hsome
    rw [OrderedCiphertextFrames.push, if_neg hfresh] at hkept ⊢
    obtain hlt | hge := lt_or_ge s.nextSeq seq
    · rw [if_pos hlt] at hkept ⊢
      by_cases hfar : maxReorderDistance < seq - s.nextSeq
      · exact .inl ⟨by omega, if_pos hfar⟩
      rw [if_neg hfar] at hkept ⊢
      by_cases hfull : maxPendingBytes < s.pendingBytes + payload.length
      · rw [← h.size, ← h.bytes]
        exact .inr (.inl ⟨hknown, hlt, hfull, if_pos hfull⟩)
      rw [if_neg hfull] at hkept ⊢
      refine .inr (.inr ⟨0, ⟨s.nextSeq, _, _⟩, rfl, .inl ⟨rfl, hkept, ?_, ?_⟩⟩)
      · exact h.concat_early hknown hlt payload _
      · rw [numbers_concat, not_or]
        exact ⟨h.missing, hlt.ne⟩
    · obtain rfl : seq = s.nextSeq := by
        refine Nat.le_antisymm hge (Nat.le_of_not_lt fun hlt => hfresh (.inl hlt))
      have hself := firstSeen_concat_self (p := (s.nextSeq, payload)) hknown
      rw [if_neg (lt_irrefl _), advance] at hkept ⊢
      refine .inr (.inr ?_)
      by_cases hlt : s.nextSeq < u32Max
      · rw [if_pos hlt] at hkept ⊢
        obtain ⟨n, s', hnext, hdrain⟩ :=
          drain_cases s.pending.keys.length (h.concat_next payload) (le_refl _) [payload]
        refine ⟨n + 1, s', by rw [hnext]; dsimp only; omega, ?_⟩
        rw [range'_succ, filterMap_cons_some hself]
        refine hdrain.imp_left fun hok => ⟨hok.1, ?_, hok.2.1, hok.2.2⟩
        simpa only [hok.1] using hkept
      · rw [if_neg hlt]
        exact ⟨0, s, rfl, .inr ⟨rfl, not_lt.mp hlt, (numbers_concat _ _ _).mpr (.inr rfl)⟩⟩

/-- A record within the window and the limit is taken, as long as there are numbers. -/
lemma push_spec (hmax : ∀ k ∈ numbers (got ++ [(seq, payload)]), k < u32Max)
    (hwindow : seq ≤ s.nextSeq + maxReorderDistance)
    (hbytes : seq ∉ numbers got → s.nextSeq < seq →
      waitingBytes got s.nextSeq + payload.length ≤ maxPendingBytes) :
    ∃ n s', s.push seq payload =
        (.ok ((range' s.nextSeq n).filterMap (firstSeen (got ++ [(seq, payload)]))), s') ∧
      s'.nextSeq = s.nextSeq + n ∧ Settled (got ++ [(seq, payload)]) s' := by
  obtain ⟨hfar, -⟩ | ⟨hnew, hlt, hfull, -⟩ | ⟨n, s', hnext, htaken⟩ := push_cases h seq payload
  · omega
  · exact absurd (hbytes hnew hlt) (not_le.mpr hfull)
  · obtain ⟨hpush, hsettled⟩ | ⟨-, hexhausted, hmem⟩ := htaken
    · exact ⟨n, s', hpush, hnext, hsettled⟩
    · exact absurd (hmax _ hmem) (not_lt.mpr hexhausted)

end OrderedCiphertextFrames

end NoiseRelay
