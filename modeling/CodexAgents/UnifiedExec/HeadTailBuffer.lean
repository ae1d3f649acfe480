import Mathlib

/-!
# The head and the tail of an output

`core/src/unified_exec/head_tail_buffer.rs`: a buffer of a fixed capacity keeps the beginning and
the end of what it is fed and counts the bytes between them.  It is fed chunks, and the contents of
other buffers that have been drained.  Either way it comes to depend on the bytes alone: it is
`ofStream` of them (`fed_eq_ofStream`).

Counters are natural numbers; the source's saturate at the end of `usize`.
-/

namespace UnifiedExec

open List

/-- The beginning and the end of an output, and how much is missing between them. -/
structure HeadTailBuffer where
  maxBytes : Nat
  headBudget : Nat
  tailBudget : Nat
  head : List UInt8 := []
  tail : List UInt8 := []
  omittedBytes : Nat := 0

namespace HeadTailBuffer

/-- Half of the bytes are for the beginning. -/
def new (maxBytes : Nat) : HeadTailBuffer where
  maxBytes
  headBudget := maxBytes / 2
  tailBudget := maxBytes - maxBytes / 2

variable (b : HeadTailBuffer)

/-- How many bytes are kept. -/
def retainedBytes : Nat := b.head.length + b.tail.length

/-- How many bytes have been fed. -/
def totalBytes : Nat := b.retainedBytes + b.omittedBytes

/-- What does not fit goes from the front of the end. -/
def trimTailToBudget : HeadTailBuffer :=
  let excess := b.tail.length - b.tailBudget
  if excess > 0 then
    { b with tail := b.tail.drop excess, omittedBytes := b.omittedBytes + excess }
  else b

/-- Bytes behind the beginning; a chunk as large as the budget replaces what was there. -/
def pushToTail (chunk : List UInt8) : HeadTailBuffer :=
  if chunk = [] then b
  else if b.tailBudget = 0 then { b with omittedBytes := b.omittedBytes + chunk.length }
  else if chunk.length ≥ b.tailBudget then
    let kept := chunk.drop (chunk.length - b.tailBudget)
    let dropped := chunk.length - kept.length
    { b with tail := kept, omittedBytes := b.omittedBytes + b.tail.length + dropped }
  else { b with tail := b.tail ++ chunk }.trimTailToBudget

/-- A chunk fills the beginning first. -/
def pushChunk (chunk : List UInt8) : HeadTailBuffer :=
  if chunk = [] then b
  else if b.maxBytes = 0 then { b with omittedBytes := b.omittedBytes + chunk.length }
  else
    let remainingHead := b.headBudget - b.head.length
    let headLen := min remainingHead chunk.length
    { b with head := b.head ++ chunk.take headLen }.pushToTail (chunk.drop headLen)

/-- What was in the buffer, and the buffer afterwards. -/
def drain : HeadTailBuffer × HeadTailBuffer :=
  (b, { b with head := [], tail := [], omittedBytes := 0 })

/-- The contents of another buffer are fed, and what it omitted stays omitted. -/
def pushBuffer (b buffer : HeadTailBuffer) : HeadTailBuffer :=
  let fed := (b.pushChunk buffer.head).pushChunk buffer.tail
  { fed with omittedBytes := fed.omittedBytes + buffer.omittedBytes }

/-! ## The buffer of a stream -/

/-- The beginning and the end of a stream, half of the capacity each. -/
def ofStream (maxBytes : Nat) (stream : List UInt8) : HeadTailBuffer :=
  { new maxBytes with
    head := stream.take (maxBytes / 2)
    tail := (stream.drop (maxBytes / 2)).rtake (maxBytes - maxBytes / 2)
    omittedBytes := (stream.drop (maxBytes / 2)).length - (maxBytes - maxBytes / 2) }

/-- **The ways to feed a buffer**, with the bytes it has been fed since it was last empty. -/
inductive Fed (maxBytes : Nat) : List UInt8 → HeadTailBuffer → Prop
  | new : Fed maxBytes [] (new maxBytes)
  | pushChunk {stream : List UInt8} {b : HeadTailBuffer} (chunk : List UInt8) :
    Fed maxBytes stream b → Fed maxBytes (stream ++ chunk) (b.pushChunk chunk)
  | drained {stream : List UInt8} {b : HeadTailBuffer} :
    Fed maxBytes stream b → Fed maxBytes [] b.drain.2
  | pushBuffer {stream stream' : List UInt8} {b buffer : HeadTailBuffer} :
    Fed maxBytes stream b → Fed maxBytes stream' buffer →
      Fed maxBytes (stream ++ stream') (b.pushBuffer buffer.drain.1)

section

variable {α : Type} {n : Nat} {l : List α}

lemma length_rtake (n : Nat) (l : List α) : (l.rtake n).length = min n l.length := by
  rw [rtake, length_drop]
  omega

lemma rtake_of_length_le (h : l.length ≤ n) : l.rtake n = l := by
  rw [rtake, Nat.sub_eq_zero_of_le h, drop_zero]

/-- The end of a list is that of its own end. -/
lemma rtake_append_right (m : List α) (h : n ≤ l.length) : (m ++ l).rtake n = l.rtake n := by
  rw [rtake, rtake, length_append, Nat.add_sub_assoc h, ← drop_drop, drop_left]

/-- What was dropped before does not come back. -/
lemma rtake_rtake_append (m : List α) : (l.rtake n ++ m).rtake n = (l ++ m).rtake n := by
  simp only [rtake_eq_reverse_take_reverse, reverse_append, reverse_reverse, take_append, take_take]
  rw [min_eq_left (Nat.sub_le n _)]

end

variable {b : HeadTailBuffer} {maxBytes : Nat}

lemma pushToTail_eq (h : b.tail.length ≤ b.tailBudget) (chunk : List UInt8) : b.pushToTail chunk =
      { b with
        tail := (b.tail ++ chunk).rtake b.tailBudget
        omittedBytes := b.omittedBytes + (b.tail.length + chunk.length - b.tailBudget) } := by
  rw [pushToTail]
  split
  · rename_i hnil
    subst hnil
    rw [append_nil, rtake_of_length_le h, length_nil, Nat.add_zero,
      Nat.sub_eq_zero_of_le h, Nat.add_zero]
  split
  · rename_i hzero
    have htail : b.tail = [] := length_eq_zero_iff.mp (by omega)
    rw [hzero, rtake_zero, htail, length_nil, Nat.zero_add, Nat.sub_zero]
  split_ifs with hlong
  · have hkept : (chunk.drop (chunk.length - b.tailBudget)).length = b.tailBudget := by
      rw [length_drop]
      omega
    rw [rtake_append_right b.tail hlong, rtake, Nat.add_sub_assoc hlong]
    simp only [hkept, Nat.add_assoc]
  · rw [trimTailToBudget]
    simp only [length_append, rtake]
    split_ifs with hfits
    · rfl
    · rw [Nat.eq_zero_of_not_pos hfits, drop_zero, Nat.add_zero]

/-- **One chunk more.** -/
theorem ofStream_pushChunk (maxBytes : Nat) (stream chunk : List UInt8) :
    (ofStream maxBytes stream).pushChunk chunk = ofStream maxBytes (stream ++ chunk) := by
  rw [pushChunk]
  split
  · rename_i hnil
    rw [hnil, append_nil]
  split
  · rename_i hzero
    obtain rfl : maxBytes = 0 := hzero
    simp [ofStream, new]
  -- The head takes what it has room for, and the tail is fed the rest.
  have htaken : min (maxBytes / 2 - (stream.take (maxBytes / 2)).length) chunk.length =
      min (maxBytes / 2 - stream.length) chunk.length := by
    rw [length_take]
    omega
  have hroom : ((stream.drop (maxBytes / 2)).rtake (maxBytes - maxBytes / 2)).length ≤
      maxBytes - maxBytes / 2 := by
    rw [length_rtake]
    exact min_le_left _ _
  refine (pushToTail_eq hroom _).trans ?_
  simp only [ofStream, new, htaken]
  have hhead : chunk.take (min (maxBytes / 2 - stream.length) chunk.length) =
      chunk.take (maxBytes / 2 - stream.length) := by
    rw [← take_eq_take_min]
  have hrest : chunk.drop (min (maxBytes / 2 - stream.length) chunk.length) =
      chunk.drop (maxBytes / 2 - stream.length) := by
    rw [← drop_eq_drop_min]
  rw [hhead, hrest, take_append, drop_append, rtake_rtake_append, length_rtake, length_append]
  congr 1
  omega

/-- A hole between head and tail is one of the whole: the head before it is full, and so is the tail
behind it. -/
lemma ofStream_pushBuffer (maxBytes : Nat) (stream stream' : List UInt8) :
    (ofStream maxBytes stream).pushBuffer (ofStream maxBytes stream') =
      ofStream maxBytes (stream ++ stream') := by
  rw [pushBuffer]
  simp only [ofStream_pushChunk]
  have hstream' : stream'.take (maxBytes / 2) ++ stream'.drop (maxBytes / 2) = stream' :=
    take_append_drop _ _
  have hhead : (ofStream maxBytes stream').head = stream'.take (maxBytes / 2) := rfl
  have htail : (ofStream maxBytes stream').tail =
      (stream'.drop (maxBytes / 2)).rtake (maxBytes - maxBytes / 2) := rfl
  have homitted : (ofStream maxBytes stream').omittedBytes =
      (stream'.drop (maxBytes / 2)).length - (maxBytes - maxBytes / 2) := rfl
  have hlen : (stream'.take (maxBytes / 2)).length = maxBytes / 2 ∨
      stream'.drop (maxBytes / 2) = [] := by
    rw [length_take, drop_eq_nil_iff]
    omega
  rw [hhead, htail, homitted]
  conv_rhs => rw [← hstream', ← append_assoc]
  generalize stream'.take (maxBytes / 2) = first, stream'.drop (maxBytes / 2) = rest at hlen
  obtain hall | hhole := le_or_gt rest.length (maxBytes - maxBytes / 2)
  · rw [rtake_of_length_le hall, Nat.sub_eq_zero_of_le hall, add_zero]
  · have hlast : (rest.rtake (maxBytes - maxBytes / 2)).length = maxBytes - maxBytes / 2 := by
      rw [length_rtake, min_eq_left hhole.le]
    have hover : maxBytes / 2 ≤ (stream ++ first).length := by
      rw [length_append, hlen.resolve_right (ne_nil_of_length_pos (by omega))]
      exact Nat.le_add_left _ _
    simp only [ofStream, new, take_append_of_le_length hover, drop_append_of_le_length hover]
    rw [rtake_append_right _ hhole.le, rtake_append_right _ hlast.ge, rtake_of_length_le hlast.le,
      length_append, length_append, hlast]
    congr 1
    omega

lemma fed_eq_ofStream {stream : List UInt8} (h : Fed maxBytes stream b) :
    b = ofStream maxBytes stream := by
  induction h with
  | new => simp [ofStream, HeadTailBuffer.new, rtake]
  | pushChunk chunk _ ih => rw [ih, ofStream_pushChunk]
  | drained _ ih =>
    rw [ih]
    simp [ofStream, drain, HeadTailBuffer.new, rtake]
  | pushBuffer _ _ ih ih' => rw [ih, ih', drain, ofStream_pushBuffer]

/-- **The buffer depends only on the bytes**, whichever way it has been fed. -/
theorem fed_spec {stream : List UInt8} (h : Fed maxBytes stream b) :
    b.head = stream.take (min stream.length (maxBytes / 2)) ∧
      b.tail = (stream.drop b.head.length).rtake
        (min (stream.length - b.head.length) (maxBytes - maxBytes / 2)) ∧
      b.omittedBytes = stream.length - b.retainedBytes ∧
      b.retainedBytes ≤ maxBytes ∧ b.totalBytes = stream.length := by
  have hhead : b.head = stream.take (maxBytes / 2) := congrArg head (fed_eq_ofStream h)
  have htail : b.tail = (stream.drop (maxBytes / 2)).rtake (maxBytes - maxBytes / 2) :=
    congrArg tail (fed_eq_ofStream h)
  have homitted : b.omittedBytes = stream.length - maxBytes / 2 - (maxBytes - maxBytes / 2) := by
    rw [← length_drop]
    exact congrArg omittedBytes (fed_eq_ofStream h)
  have hheadLen : b.head.length = min (maxBytes / 2) stream.length := by
    rw [hhead, length_take]
  have htailLen : b.tail.length = min (maxBytes - maxBytes / 2) (stream.length - maxBytes / 2) := by
    rw [htail, length_rtake, length_drop]
  refine ⟨?_, ?_, ?_, ?_, ?_⟩
  · rw [hhead, min_comm, ← take_eq_take_min]
  · have hdrop : stream.drop b.head.length = stream.drop (maxBytes / 2) := by
      rw [hheadLen, ← drop_eq_drop_min]
    rw [htail, hdrop, rtake, rtake, length_drop]
    congr 1
    omega
  all_goals
    simp only [totalBytes, retainedBytes]
    omega

/-- Five bytes for a capacity of four, the last three of them from a buffer of their own. -/
theorem fed_spec_five :
    Fed 4 [1, 2, 3, 4, 5] (((new 4).pushChunk [1, 2]).pushBuffer ((new 4).pushChunk [3, 4, 5])) ∧
      (((new 4).pushChunk [1, 2]).pushBuffer ((new 4).pushChunk [3, 4, 5])).totalBytes = 5 := by
  have hfed : Fed 4 ([] ++ [1, 2] ++ ([] ++ [3, 4, 5]))
      (((new 4).pushChunk [1, 2]).pushBuffer ((new 4).pushChunk [3, 4, 5]).drain.1) :=
    .pushBuffer (.pushChunk _ .new) (.pushChunk _ .new)
  exact ⟨hfed, (fed_spec hfed).2.2.2.2⟩

end HeadTailBuffer

end UnifiedExec
