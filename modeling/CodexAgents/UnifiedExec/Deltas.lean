import CodexAgents.StreamParser.Utf8Stream
import CodexAgents.UnifiedExec.HeadTailBuffer

/-!
# The output of a command in pieces

`process_chunk` of `core/src/unified_exec/async_watcher.rs`.  The output of a command is received in
chunks.  Each is cut into pieces, and these go to the transcript and, up to a number of them, to the
client as deltas.  A piece should be valid UTF-8 on its own.

It ends where a character is not complete, but has one byte at least.  So no byte waits for the next
chunk, and a character that comes in two chunks is cut (`deltas_valid_iff`).  The pieces of a chunk
are those of its valid part and those of the rest (`pieces_append`).
-/

namespace UnifiedExec

open StreamParser Decoding List

/-- How many bytes a piece has at most. -/
def unifiedExecOutputDeltaMaxBytes : Nat := 8192

/-- How many deltas are emitted at most. -/
def maxExecOutputDeltasPerCall : Nat := 10000

/-- What is taken off the buffer, and what is left of it. -/
def splitValidUtf8PrefixWithMax (buffer : List UInt8) (maxBytes : Nat) :
    Option (List UInt8 × List UInt8) :=
  if buffer = [] then none
  else
    let maxLen := min buffer.length maxBytes
    let split :=
      match fromUtf8 (buffer.take maxLen) with
      | .ok _ => maxLen
      | .error error => max error.validUpTo 1
    some (buffer.take split, buffer.drop split)

/-- One piece, of the size of a delta. -/
def splitValidUtf8Prefix (buffer : List UInt8) : Option (List UInt8 × List UInt8) :=
  splitValidUtf8PrefixWithMax buffer unifiedExecOutputDeltaMaxBytes

/-- The bytes are those of a text. -/
def IsUtf8 (bytes : List UInt8) : Prop := ∃ text, fromUtf8 bytes = .ok text

variable {bytes buffer piece rest : List UInt8}

lemma isUtf8_iff : IsUtf8 bytes ↔ (utf8.scan bytes).rest = [] := by
  rw [IsUtf8, fromUtf8]
  split_ifs with h <;> simp [h]

lemma isUtf8_append_iff (h : IsUtf8 piece) : IsUtf8 (piece ++ rest) ↔ IsUtf8 rest := by
  rw [isUtf8_iff] at h
  rw [isUtf8_iff, isUtf8_iff, Decoder.scan_append, h, nil_append]

/-- No character begins the bytes. -/
def NoCharacter (bytes : List UInt8) : Prop := ∀ part, part <+: bytes → IsUtf8 part → part = []

/-- A character has four bytes at most. -/
lemma length_of_utf8Front {c : Char} (h : utf8Front bytes = .code c rest) :
    bytes.length ≤ rest.length + 4 := by
  obtain _ | ⟨first, bytes⟩ := bytes
  · cases h
  have hshort : ∀ ranges, sequenceRanges first.toNat = some ranges → ranges.length ≤ 3 := by
    unfold sequenceRanges
    intro ranges hranges
    split_ifs at hranges <;> cases hranges <;> decide
  rcases hranges : sequenceRanges first.toNat with _ | ranges
  · simp [utf8Front, hranges] at h
  · simp only [utf8Front, hranges] at h
    obtain ⟨used, rfl, hlength, -⟩ := readSequence_code h
    have := hshort ranges hranges
    rw [length_cons, length_append]
    omega

/-- No character begins the bytes if none begins as many of them as a piece may have. -/
lemma noCharacter_of_take {n : Nat} (hn : 4 ≤ n)
    (h : (utf8.scan (buffer.take n)).rest = buffer.take n) : NoCharacter buffer := by
  intro bytes hpre hbytes
  by_contra hne
  rw [isUtf8_iff] at hbytes
  rcases hfront : utf8.front bytes with ⟨c, rest⟩ | _ | length
  · obtain ⟨used, hused, rfl, hcode⟩ := utf8.code_used hfront
    have hlen := length_of_utf8Front hfront
    rw [length_append] at hlen
    obtain ⟨more, hmore⟩ : used <+: buffer.take n :=
      prefix_take_iff.mpr ⟨(prefix_append _ _).trans hpre, by omega⟩
    rw [← hmore, Decoder.scan_code (hcode more)] at h
    obtain ⟨decoded, hdecoded, -⟩ := utf8.exists_used more
    have := congrArg length h
    have := congrArg length hdecoded
    have := length_pos_of_ne_nil hused
    simp only [length_append] at *
    omega
  · exact hne (by rw [Decoder.scan_incomplete hfront] at hbytes; exact hbytes)
  · exact hne (by rw [Decoder.scan_invalid hfront] at hbytes; exact hbytes)

/-- How many bytes are taken. -/
def pieceLength (buffer : List UInt8) : Nat :=
  let bytes := buffer.take unifiedExecOutputDeltaMaxBytes
  max (bytes.length - (utf8.scan bytes).rest.length) 1

lemma splitValidUtf8Prefix_eq (h : buffer ≠ []) : splitValidUtf8Prefix buffer =
    some (buffer.take (pieceLength buffer), buffer.drop (pieceLength buffer)) := by
  have hmin : buffer.take (min buffer.length unifiedExecOutputDeltaMaxBytes) =
      buffer.take unifiedExecOutputDeltaMaxBytes := by
    rw [min_comm, ← take_eq_take_min]
  rw [splitValidUtf8Prefix, splitValidUtf8PrefixWithMax, if_neg h]
  dsimp only
  rw [hmin, pieceLength, fromUtf8]
  by_cases hrest : (utf8.scan (buffer.take unifiedExecOutputDeltaMaxBytes)).rest = []
  · have hpos : 1 ≤ min unifiedExecOutputDeltaMaxBytes buffer.length :=
      le_min (by decide) (length_pos_of_ne_nil h)
    rw [if_pos hrest, hrest, length_nil, Nat.sub_zero, length_take, max_eq_left hpos, min_comm]
  · rw [if_neg hrest]

/-- **A piece is valid, or no character begins the buffer.** -/
theorem split_spec (h : splitValidUtf8Prefix buffer = some (piece, rest)) :
    buffer = piece ++ rest ∧ (1 ≤ piece.length ∧ piece.length ≤ unifiedExecOutputDeltaMaxBytes) ∧
      (IsUtf8 piece ∨ NoCharacter buffer) := by
  have hne : buffer ≠ [] := by
    rintro rfl
    cases h
  have hpos := length_pos_of_ne_nil hne
  rw [splitValidUtf8Prefix_eq hne] at h
  obtain ⟨rfl, rfl⟩ := Prod.mk.inj (Option.some.inj h)
  have hmax : 4 ≤ unifiedExecOutputDeltaMaxBytes := by decide
  rw [pieceLength]
  generalize unifiedExecOutputDeltaMaxBytes = maxBytes at hmax ⊢
  obtain ⟨used, hused, hscan⟩ := utf8.exists_used (buffer.take maxBytes)
  have hlength : (buffer.take maxBytes).length - (utf8.scan (buffer.take maxBytes)).rest.length =
      used.length := by
    rw [hused, length_append, ← hused, Nat.add_sub_cancel]
  have hpre : used <+: buffer.take maxBytes := ⟨_, hused.symm⟩
  have hle : used.length ≤ maxBytes := hpre.length_le.trans (length_take_le _ _)
  rw [hlength, length_take]
  refine ⟨(take_append_drop _ _).symm, ⟨le_min (le_max_right _ _) hpos,
    (min_le_left _ _).trans (max_le hle (by omega))⟩, ?_⟩
  obtain rfl | hne := eq_or_ne used []
  · exact .inr (noCharacter_of_take hmax hused.symm)
  · have hvalid := hscan []
    rw [append_nil] at hvalid
    rw [max_eq_left (length_pos_of_ne_nil hne),
      ← prefix_iff_eq_take.mp <| hpre.trans <| take_prefix _ _]
    exact .inl (isUtf8_iff.mpr (by rw [hvalid, Decoder.scan_nil]))

/-! ## Pieces -/

/-- The pieces that a buffer is cut into. -/
def pieces (buffer : List UInt8) : List (List UInt8) :=
  match _h : splitValidUtf8Prefix buffer with
  | none => []
  | some (piece, rest) => piece :: pieces rest
termination_by buffer.length
decreasing_by
  obtain ⟨hbuffer, ⟨hpos, -⟩, -⟩ := split_spec _h
  rw [hbuffer, length_append]
  exact Nat.lt_add_of_pos_left hpos

lemma pieces_of_some (h : splitValidUtf8Prefix buffer = some (piece, rest)) :
    pieces buffer = piece :: pieces rest := by
  rw [pieces]
  split
  · rename_i hnone
    rw [h] at hnone
    cases hnone
  · rename_i hsome
    rw [h] at hsome
    cases hsome
    rfl

@[simp] lemma pieces_nil : pieces [] = [] := by
  rw [pieces]
  split
  · rfl
  · rename_i hsome
    cases hsome

lemma eq_nil_of_split_eq_none (h : splitValidUtf8Prefix buffer = none) : buffer = [] := by
  by_contra hne
  rw [splitValidUtf8Prefix, splitValidUtf8PrefixWithMax, if_neg hne] at h
  cases h

lemma flatten_pieces (buffer : List UInt8) : (pieces buffer).flatten = buffer := by
  fun_induction pieces buffer with
  | case1 buffer h => exact (eq_nil_of_split_eq_none h).symm
  | case2 buffer piece rest h ih => rw [flatten_cons, ih, (split_spec h).1]

lemma length_of_mem_pieces (buffer : List UInt8) : ∀ piece ∈ pieces buffer,
    1 ≤ piece.length ∧ piece.length ≤ unifiedExecOutputDeltaMaxBytes := by
  fun_induction pieces buffer with
  | case1 buffer h => exact forall_mem_nil _
  | case2 buffer piece rest h ih => exact forall_mem_cons.mpr ⟨(split_spec h).2.1, ih⟩

lemma isUtf8_of_mem_pieces (hbuffer : IsUtf8 buffer) : ∀ piece ∈ pieces buffer, IsUtf8 piece := by
  fun_induction pieces buffer with
  | case1 buffer h => exact forall_mem_nil _
  | case2 buffer piece rest h ih =>
    obtain ⟨rfl, ⟨hpos, -⟩, hpiece | hnone⟩ := split_spec h
    · exact forall_mem_cons.mpr ⟨hpiece, ih ((isUtf8_append_iff hpiece).mp hbuffer)⟩
    · have hnil := append_eq_nil_iff.mp (hnone _ prefix_rfl hbuffer)
      exact absurd hnil.1 (ne_nil_of_length_pos hpos)

lemma isUtf8_pieces_iff : (∀ piece ∈ pieces bytes, IsUtf8 piece) ↔ IsUtf8 bytes := by
  refine ⟨fun h => ?_, isUtf8_of_mem_pieces⟩
  have hflatten : ∀ pieces : List (List UInt8), (∀ piece ∈ pieces, IsUtf8 piece) →
      IsUtf8 pieces.flatten := by
    intro pieces hpieces
    induction pieces with
    | nil => exact isUtf8_iff.mpr (by rw [flatten_nil, Decoder.scan_nil])
    | cons piece pieces ih =>
      rw [forall_mem_cons] at hpieces
      rw [flatten_cons, isUtf8_append_iff hpieces.1]
      exact ih hpieces.2
  exact flatten_pieces bytes ▸ hflatten _ h

/-! ### The valid part -/

/-- The characters that the bytes begin with. -/
def validPart (bytes : List UInt8) : List UInt8 :=
  bytes.take (bytes.length - (utf8.scan bytes).rest.length)

lemma exists_validPart (bytes : List UInt8) :
    ∃ rest, bytes = validPart bytes ++ rest ∧ IsUtf8 (validPart bytes) ∧ NoCharacter rest := by
  obtain ⟨used, hbytes, hused⟩ := utf8.exists_used bytes
  have hpart : validPart bytes = used := by
    have hlength := congrArg length hbytes
    rw [length_append] at hlength
    rw [validPart, hlength, Nat.add_sub_cancel, hbytes, take_left]
  refine ⟨(utf8.scan bytes).rest, hpart ▸ hbytes, isUtf8_iff.mpr ?_, ?_⟩
  · have hscan := hused []
    rw [append_nil] at hscan
    rw [hpart, hscan, Decoder.scan_nil]
  · rintro part ⟨more, hmore⟩ hvalid
    have hfront := utf8.front_rest bytes
    rw [← hmore] at hfront
    rw [isUtf8_iff] at hvalid
    rcases hpart : utf8.front part with ⟨c, rest⟩ | _ | length
    · obtain ⟨first, -, rfl, hcode⟩ := utf8.code_used hpart
      rw [append_assoc, hcode] at hfront
      split at hfront <;> cases hfront
    · rwa [Decoder.scan_incomplete hpart] at hvalid
    · rwa [Decoder.scan_invalid hpart] at hvalid

/-- Where no character begins, none is decoded. -/
lemma NoCharacter.rest_take (h : NoCharacter rest) (n : Nat) :
    (utf8.scan (rest.take n)).rest = rest.take n := by
  obtain ⟨used, hbytes, hused⟩ := utf8.exists_used (rest.take n)
  have hscan := hused []
  rw [append_nil] at hscan
  have hpre : used <+: rest := (hbytes ▸ prefix_append _ _).trans <| take_prefix _ _
  have hnil : used = [] := h used hpre (isUtf8_iff.mpr (by rw [hscan, Decoder.scan_nil]))
  rw [hnil, nil_append] at hbytes
  exact hbytes.symm

/-- **Behind characters, bytes that begin none change nothing.** -/
lemma pieceLength_append (hbytes : IsUtf8 bytes) (hne : bytes ≠ []) (hrest : NoCharacter rest) :
    pieceLength (bytes ++ rest) = pieceLength bytes ∧ pieceLength bytes ≤ bytes.length := by
  have hpos := length_pos_of_ne_nil hne
  refine ⟨?_, max_le ((Nat.sub_le _ _).trans (length_take_le' _ _)) hpos⟩
  rw [pieceLength, pieceLength]
  obtain hle | hlt := le_or_gt unifiedExecOutputDeltaMaxBytes bytes.length
  · rw [take_append_of_le_length hle]
  · rw [isUtf8_iff] at hbytes
    rw [take_append, take_of_length_le hlt.le, Decoder.scan_append, hbytes, nil_append,
      hrest.rest_take, length_append, Nat.add_sub_cancel, length_nil, Nat.sub_zero]

/-- **The pieces of the characters come first.** -/
theorem pieces_append (hbytes : IsUtf8 bytes) (hrest : NoCharacter rest) :
    pieces (bytes ++ rest) = pieces bytes ++ pieces rest := by
  fun_induction pieces bytes with
  | case1 bytes h =>
    obtain rfl := eq_nil_of_split_eq_none h
    rfl
  | case2 bytes piece more h ih =>
    have hne : bytes ≠ [] := by
      rintro rfl
      cases h
    obtain ⟨hlength, hle⟩ := pieceLength_append hbytes hne hrest
    have hpiece : IsUtf8 piece :=
      isUtf8_of_mem_pieces hbytes piece (by rw [pieces_of_some h]; exact mem_cons_self)
    have hmore : IsUtf8 more := (isUtf8_append_iff hpiece).mp ((split_spec h).1 ▸ hbytes)
    rw [splitValidUtf8Prefix_eq hne] at h
    obtain ⟨rfl, rfl⟩ := Prod.mk.inj (Option.some.inj h)
    have hsplit := splitValidUtf8Prefix_eq (append_ne_nil_of_left_ne_nil hne rest)
    rw [hlength, take_append_of_le_length hle, drop_append_of_le_length hle] at hsplit
    rw [pieces_of_some hsplit, ih hmore, cons_append]

/-- **The first pieces are valid**, if the bytes are or there are no more of them than the valid
part has. -/
theorem valid_pieces_iff (bytes : List UInt8) (n : Nat) :
    (∀ piece ∈ (pieces bytes).take n, IsUtf8 piece) ↔
      IsUtf8 bytes ∨ n ≤ (pieces (validPart bytes)).length := by
  obtain ⟨rest, hbytes, hvalid, hrest⟩ := exists_validPart bytes
  have hpieces : pieces bytes = pieces (validPart bytes) ++ pieces rest := by
    nth_rewrite 1 [hbytes]
    exact pieces_append hvalid hrest
  have hfirst := isUtf8_of_mem_pieces hvalid
  rcases hmore : pieces rest with _ | ⟨piece, more⟩
  · -- everything is valid
    have hnil := flatten_pieces rest
    rw [hmore, flatten_nil] at hnil
    rw [← hnil, append_nil] at hbytes
    rw [hpieces, hmore, append_nil]
    exact iff_of_true (fun piece h => hfirst piece (mem_of_mem_take h)) (.inl (hbytes ▸ hvalid))
  · have hflatten := flatten_pieces rest
    have hlength := length_of_mem_pieces rest piece (by rw [hmore]; exact mem_cons_self)
    rw [hmore, flatten_cons] at hflatten
    have hpiece : ¬ IsUtf8 piece := fun h =>
      ne_nil_of_length_pos hlength.1 (hrest piece ⟨_, hflatten⟩ h)
    have hinvalid : ¬ IsUtf8 bytes := by
      rw [hbytes, isUtf8_append_iff hvalid]
      intro h
      have hnil := hrest rest prefix_rfl h
      rw [hnil, pieces_nil] at hmore
      cases hmore
    rw [or_iff_right hinvalid, hpieces, hmore]
    refine ⟨fun h => ?_, fun hle piece h => ?_⟩
    · by_contra hlt
      refine hpiece (h piece (mem_take_iff_getElem.mpr ⟨(pieces (validPart bytes)).length, ?_, ?_⟩))
      · simp only [length_append, length_cons]
        omega
      · simp
    · rw [take_append_of_le_length hle] at h
      exact hfirst piece (mem_of_mem_take h)

/-! ## The loop -/

/-- `emitted_deltas` is the number of the deltas. -/
structure Watcher where
  pending : List UInt8 := []
  transcript : HeadTailBuffer
  /-- All pieces, also those that are not emitted. -/
  taken : List (List UInt8) := []
  deltas : List (List UInt8) := []

namespace Watcher

variable (s : Watcher)

/-- A piece goes to the transcript, and to the deltas unless there are enough. -/
def take (piece : List UInt8) : Watcher :=
  let s := { s with transcript := s.transcript.pushChunk piece, taken := s.taken ++ [piece] }
  if maxExecOutputDeltasPerCall ≤ s.deltas.length then s
  else { s with deltas := s.deltas ++ [piece] }

/-- Pieces are taken as long as something is pending. -/
def takeAll (s : Watcher) : Watcher :=
  match _h : splitValidUtf8Prefix s.pending with
  | none => s
  | some (piece, rest) => takeAll { s.take piece with pending := rest }
termination_by s.pending.length
decreasing_by
  obtain ⟨hpending, ⟨hpos, -⟩, -⟩ := split_spec _h
  rw [hpending, length_append]
  exact Nat.lt_add_of_pos_left hpos

/-- What is received joins what is pending. -/
def processChunk (chunk : List UInt8) : Watcher := { s with pending := s.pending ++ chunk }.takeAll

/-! ## Runs -/

variable {s}

lemma foldl_take (pieces : List (List UInt8)) : pieces.foldl take s = { s with
        transcript := pieces.foldl HeadTailBuffer.pushChunk s.transcript
        taken := s.taken ++ pieces
        deltas := s.deltas ++ pieces.take (maxExecOutputDeltasPerCall - s.deltas.length) } := by
  induction pieces generalizing s with
  | nil => simp
  | cons piece pieces ih =>
    rw [foldl_cons, ih, take]
    dsimp only
    split_ifs with hmax
    · simp [Nat.sub_eq_zero_of_le hmax]
    · obtain ⟨k, hk⟩ := Nat.exists_eq_add_of_lt (Nat.not_le.mp hmax)
      simp [hk, add_assoc, Nat.add_sub_add_left]

lemma takeAll_eq (s : Watcher) :
    s.takeAll = (pieces s.pending).foldl take { s with pending := [] } := by
  fun_induction takeAll s with
  | case1 s h =>
    have hpending := eq_nil_of_split_eq_none h
    rw [hpending, pieces_nil, foldl_nil, ← hpending]
  | case2 s piece rest h ih =>
    rw [ih, pieces_of_some h, foldl_cons, take, take]
    dsimp only
    split <;> rfl

end Watcher

/-- The watcher after some chunks. -/
def watched (maxBytes : Nat) (received : List (List UInt8)) : Watcher :=
  received.foldl Watcher.processChunk { transcript := .new maxBytes }

variable (maxBytes : Nat) (received : List (List UInt8))

/-- The watcher after one more chunk, if nothing is pending. -/
lemma watched_concat (chunk : List UInt8) (h : (watched maxBytes received).pending = []) :
    watched maxBytes (received ++ [chunk]) =
      (pieces chunk).foldl Watcher.take (watched maxBytes received) := by
  have hnext : watched maxBytes (received ++ [chunk]) =
      (watched maxBytes received).processChunk chunk := foldl_concat ..
  rw [hnext, Watcher.processChunk, Watcher.takeAll_eq, h, nil_append, ← h]

lemma pending_watched : (watched maxBytes received).pending = [] := by
  induction received using reverseRecOn with
  | nil => rfl
  | append_singleton received chunk ih => rw [watched_concat _ _ _ ih, Watcher.foldl_take, ih]

lemma taken_watched_concat (chunk : List UInt8) :
    (watched maxBytes (received ++ [chunk])).taken =
      (watched maxBytes received).taken ++ pieces chunk := by
  rw [watched_concat _ _ _ (pending_watched _ _), Watcher.foldl_take]

/-- **The deltas are valid just in case the chunks are**, up to the limit: of a chunk that is not
valid, only pieces of its valid part are emitted. -/
theorem deltas_valid_iff : (watched maxBytes received).pending = [] ∧
    let s := watched maxBytes received
    s.taken.flatten = received.flatten ∧
    (∀ piece ∈ s.taken, 1 ≤ piece.length ∧ piece.length ≤ unifiedExecOutputDeltaMaxBytes) ∧
    s.transcript = s.taken.foldl HeadTailBuffer.pushChunk (.new maxBytes) ∧
    s.deltas = s.taken.take maxExecOutputDeltasPerCall ∧
    ((∀ piece ∈ s.taken, IsUtf8 piece) ↔ ∀ chunk ∈ received, IsUtf8 chunk) ∧
    ((∀ delta ∈ s.deltas, IsUtf8 delta) ↔ ∀ older chunk, older ++ [chunk] <+: received →
      IsUtf8 chunk ∨ maxExecOutputDeltasPerCall ≤
        (watched maxBytes (older ++ [validPart chunk])).taken.length) := by
  refine ⟨pending_watched maxBytes received, ?_⟩
  induction received using reverseRecOn with
  | nil => exact ⟨rfl, by simp [watched], rfl, rfl, by simp [watched], by simp [watched]⟩
  | append_singleton received chunk ih =>
    obtain ⟨hflat, hlen, htranscript, hdeltas, htaken, hemitted⟩ := ih
    simp only [watched_concat _ _ _ (pending_watched maxBytes received), Watcher.foldl_take,
      flatten_append, forall_mem_append, foldl_append]
    refine ⟨?_, ⟨hlen, length_of_mem_pieces chunk⟩, ?_, ?_, ?_, ?_⟩
    · rw [hflat, flatten_pieces, flatten_singleton]
    · rw [← htranscript]
    · rw [take_append, hdeltas, length_take]
      congr 2
      omega
    · rw [htaken, isUtf8_pieces_iff, forall_mem_singleton]
    · have hlimit : maxExecOutputDeltasPerCall - (watched maxBytes received).deltas.length =
          maxExecOutputDeltasPerCall - (watched maxBytes received).taken.length := by
        rw [hdeltas, length_take]
        omega
      have hlast : maxExecOutputDeltasPerCall - (watched maxBytes received).taken.length ≤
          (pieces (validPart chunk)).length ↔ maxExecOutputDeltasPerCall ≤
            (watched maxBytes (received ++ [validPart chunk])).taken.length := by
        rw [taken_watched_concat, length_append]
        omega
      rw [hemitted, hlimit, valid_pieces_iff, hlast]
      refine ⟨fun h older chunk' hpre => ?_, fun h => ⟨fun older chunk' hpre => ?_, ?_⟩⟩
      · obtain heq | hpre := prefix_concat_iff.mp hpre
        · obtain ⟨rfl, hchunk⟩ := append_inj' heq rfl
          cases hchunk
          exact h.2
        · exact h.1 older chunk' hpre
      · exact h older chunk' (hpre.trans (prefix_append _ _))
      · exact h received chunk prefix_rfl

/-- The two bytes of a character come one after the other. -/
theorem character_cut : IsUtf8 [[0xC3], [0xA9]].flatten ∧
    (watched 0 [[0xC3], [0xA9]]).deltas = [[0xC3], [0xA9]] ∧ ¬ IsUtf8 [0xC3] := by
  have hscan : utf8.scan [0xC3] = { rest := [0xC3] } := Decoder.scan_incomplete rfl
  have hscan' : utf8.scan [0xA9] = { rest := [0xA9], error := some 1 } := Decoder.scan_invalid rfl
  refine ⟨isUtf8_iff.mpr ?_, ?_, ?_⟩
  · have hfront : utf8.front [0xC3, 0xA9] = .code (Char.ofNat 0xE9) [] := rfl
    show (utf8.scan [0xC3, 0xA9]).rest = []
    rw [Decoder.scan_code hfront, Decoder.scan_nil]
  · simp [watched, Watcher.processChunk, Watcher.takeAll, Watcher.take, splitValidUtf8Prefix,
      splitValidUtf8PrefixWithMax, unifiedExecOutputDeltaMaxBytes, maxExecOutputDeltasPerCall,
      fromUtf8, hscan, hscan']
  · rw [isUtf8_iff, hscan]
    exact cons_ne_nil _ _

end UnifiedExec
