import CodexAgents.Lib.Decoder
import CodexAgents.StreamParser.AssistantText

/-!
# Streams of bytes

`utils/stream-parser/src/utf8_stream.rs`: a parser of text is given bytes.  The bytes of a character
may come in several chunks, so that those of one that is not complete are kept for the next chunk.
A chunk that cannot be right is refused as a whole.

`str::from_utf8` is the decoder `utf8`, by the table of well-formed byte sequences.  What the parser
keeps is what the decoder leaves of the bytes so far (`pushAll_spec`), and the rest follows from
this (`utf8Stream_decodes`).
-/

namespace StreamParser

open Text Decoding List Decoder

/-! ## UTF-8 -/

/-- The ranges of the bytes that may follow the first byte of a character. -/
def sequenceRanges (first : Nat) : Option (List (Nat × Nat)) :=
  if first < 0x80 then some []
  else if 0xC2 ≤ first ∧ first ≤ 0xDF then some [(0x80, 0xBF)]
  else if first = 0xE0 then some [(0xA0, 0xBF), (0x80, 0xBF)]
  else if first = 0xED then some [(0x80, 0x9F), (0x80, 0xBF)]
  else if 0xE1 ≤ first ∧ first ≤ 0xEF then some [(0x80, 0xBF), (0x80, 0xBF)]
  else if first = 0xF0 then some [(0x90, 0xBF), (0x80, 0xBF), (0x80, 0xBF)]
  else if 0xF1 ≤ first ∧ first ≤ 0xF3 then some [(0x80, 0xBF), (0x80, 0xBF), (0x80, 0xBF)]
  else if first = 0xF4 then some [(0x80, 0x8F), (0x80, 0xBF), (0x80, 0xBF)]
  else none

/-- The bits of the first byte that belong to the character. -/
def firstBits (first : Nat) : Nat :=
  if first < 0x80 then first
  else if first < 0xE0 then first % 0x20
  else if first < 0xF0 then first % 0x10
  else first % 0x08

/-- The bytes after the first, with the value and the number of the bytes so far. -/
def readSequence : List (Nat × Nat) → Nat → Nat → List UInt8 → Front UInt8 Char
  | [], value, _, bytes => .code (Char.ofNat value) bytes
  | _ :: _, _, _, [] => .incomplete
  | (low, high) :: ranges, value, count, byte :: bytes =>
    if low ≤ byte.toNat ∧ byte.toNat ≤ high then
      readSequence ranges (value * 64 + byte.toNat % 64) (count + 1) bytes
    else .invalid count

/-- The first character. -/
def utf8Front : List UInt8 → Front UInt8 Char
  | [] => .incomplete
  | first :: bytes =>
    match sequenceRanges first.toNat with
    | some ranges => readSequence ranges (firstBits first.toNat) 1 bytes
    | none => .invalid 1

section

variable {ranges : List (Nat × Nat)} {value count : Nat} {bytes : List UInt8}

lemma readSequence_code {c rest}
    (h : readSequence ranges value count bytes = .code c rest) :
    ∃ used, bytes = used ++ rest ∧ used.length = ranges.length ∧
      ∀ more, readSequence ranges value count (used ++ more) = .code c more := by
  induction ranges generalizing value count bytes with
  | nil =>
    simp only [readSequence, Front.code.injEq] at h
    exact ⟨[], h.2, rfl, by simp [readSequence, h.1]⟩
  | cons range ranges ih =>
    obtain _ | ⟨byte, bytes⟩ := bytes
    · simp [readSequence] at h
    rw [readSequence] at h
    split at h
    · rename_i hrange
      obtain ⟨used, rfl, hlength, hused⟩ := ih h
      refine ⟨byte :: used, rfl, congrArg (· + 1) hlength, fun more => ?_⟩
      rw [cons_append, readSequence, if_pos hrange, hused]
    · simp at h

lemma readSequence_invalid {length}
    (h : readSequence ranges value count bytes = .invalid length) (more : List UInt8) :
    readSequence ranges value count (bytes ++ more) = .invalid length := by
  induction ranges generalizing value count bytes with
  | nil => simp [readSequence] at h
  | cons range ranges ih =>
    obtain _ | ⟨byte, bytes⟩ := bytes
    · simp [readSequence] at h
    rw [readSequence] at h
    rw [cons_append, readSequence]
    split_ifs at h with hrange
    · rw [if_pos hrange, ih h]
    · rw [if_neg hrange, h]

end

/-- The decoder of UTF-8. -/
def utf8 : Decoder UInt8 Char where
  front := utf8Front
  front_nil := rfl
  code_used := by
    intro bytes c rest h
    obtain _ | ⟨first, bytes⟩ := bytes
    · simp [utf8Front] at h
    rcases hranges : sequenceRanges first.toNat with _ | ranges
    · simp [utf8Front, hranges] at h
    · simp only [utf8Front, hranges] at h
      obtain ⟨used, rfl, -, hused⟩ := readSequence_code h
      exact ⟨first :: used, by simp, rfl, fun more => by simp [utf8Front, hranges, hused]⟩
  invalid_append := by
    intro bytes length more h
    obtain _ | ⟨first, bytes⟩ := bytes
    · simp [utf8Front] at h
    rcases hranges : sequenceRanges first.toNat with _ | ranges
    · simpa [utf8Front, hranges] using h
    · simp only [utf8Front, hranges] at h
      simp [utf8Front, hranges, readSequence_invalid h]

/-- `Utf8Error`. -/
structure Utf8Error where
  validUpTo : Nat
  errorLen : Option Nat

/-- `str::from_utf8`. -/
def fromUtf8 (bytes : List UInt8) : Except Utf8Error Str :=
  let scan := utf8.scan bytes
  if scan.rest = [] then .ok scan.codes
  else .error ⟨bytes.length - scan.rest.length, scan.error⟩

/-! ## The parser -/

/-- The trait of parsers that are fed text. -/
structure StreamTextParser (P E : Type) where
  pushStr : P → Str → StreamTextChunk E × P
  finish : P → StreamTextChunk E × P

/-- Why bytes are refused. -/
inductive Utf8StreamParserError where
  | invalidUtf8 (validUpTo errorLen : Nat)
  | incompleteUtf8AtEof

/-- A parser of text that is fed bytes. -/
structure Utf8StreamParser (P : Type) where
  inner : P
  pendingUtf8 : List UInt8 := []

section

variable {P E : Type} (text : StreamTextParser P E) (p : Utf8StreamParser P)

/-- A chunk of bytes. -/
def pushBytes (chunk : List UInt8) :
    Except Utf8StreamParserError (StreamTextChunk E) × Utf8StreamParser P :=
  let oldLen := p.pendingUtf8.length
  let pending := p.pendingUtf8 ++ chunk
  match fromUtf8 pending with
  | .ok decoded =>
    let out := text.pushStr p.inner decoded
    (.ok out.1, { inner := out.2 })
  | .error err =>
    match err.errorLen with
    | some errorLen =>
      (.error (.invalidUtf8 err.validUpTo errorLen), { p with pendingUtf8 := pending.take oldLen })
    | none =>
      if err.validUpTo = 0 then (.ok {}, { p with pendingUtf8 := pending })
      else
        match fromUtf8 (pending.take err.validUpTo) with
        | .ok decoded =>
          let out := text.pushStr p.inner decoded
          (.ok out.1, { inner := out.2, pendingUtf8 := pending.drop err.validUpTo })
        | .error prefixErr =>
          (.error (.invalidUtf8 prefixErr.validUpTo (prefixErr.errorLen.getD 0)),
            { p with pendingUtf8 := pending.take oldLen })

/-- The end of the bytes. -/
def finishBytes : Except Utf8StreamParserError (StreamTextChunk E) × Utf8StreamParser P :=
  if p.pendingUtf8 = [] then
    let tail := text.finish p.inner
    (.ok ({} ++ tail.1), { p with inner := tail.2 })
  else
    match fromUtf8 p.pendingUtf8 with
    | .ok decoded =>
      let out := text.pushStr p.inner decoded
      let tail := text.finish out.2
      (.ok (out.1 ++ tail.1), { inner := tail.2 })
    | .error err =>
      match err.errorLen with
      | some errorLen => (.error (.invalidUtf8 err.validUpTo errorLen), p)
      | none => (.error .incompleteUtf8AtEof, p)

/-! ## Runs -/

/-- What the inner parser puts out for some texts. -/
def feed : P → List Str → StreamTextChunk E × P
  | p, [] => ({}, p)
  | p, decoded :: texts =>
    let first := text.pushStr p decoded
    let rest := feed first.2 texts
    (first.1 ++ rest.1, rest.2)

/-- All that the inner parser puts out, with the end. -/
def total (p : P) (texts : List Str) : StreamTextChunk E :=
  (feed text p texts).1 ++ (text.finish (feed text p texts).2).1

/-- It does not matter where the texts are cut. -/
def ChunkIndependent (p : P) : Prop := ∀ texts, total text p texts = total text p [texts.flatten]

/-- What is put out for some chunks of bytes, the chunks that are accepted, and the parser then. -/
structure Pushed (P E : Type) where
  output : StreamTextChunk E := {}
  accepted : List (List UInt8) := []
  parser : Utf8StreamParser P

/-- Several chunks; one that is refused is passed over. -/
def pushAll : Utf8StreamParser P → List (List UInt8) → Pushed P E
  | p, [] => { parser := p }
  | p, chunk :: chunks =>
    match pushBytes text p chunk with
    | (.ok out, p) =>
      let rest := pushAll p chunks
      { rest with output := out ++ rest.output, accepted := chunk :: rest.accepted }
    | (.error _, p) => pushAll p chunks

/-! ## What the parser does -/

@[simp] lemma feed_singleton (p : P) (decoded : Str) :
    feed text p [decoded] = text.pushStr p decoded := by
  simp [feed]

lemma feed_append (p : P) (a b : List Str) : feed text p (a ++ b) =
      ((feed text p a).1 ++ (feed text (feed text p a).2 b).1,
        (feed text (feed text p a).2 b).2) := by
  induction a generalizing p with
  | nil => rfl
  | cons decoded a ih =>
    rw [cons_append, feed, ih, feed]
    simp [StreamTextChunk.append_assoc]

/-- **A chunk is refused, or the inner parser gets what is complete.** -/
theorem pushBytes_spec (chunk : List UInt8) :
    (∃ length err, (utf8.scan (p.pendingUtf8 ++ chunk)).error = some length ∧
      pushBytes text p chunk = (.error err, p)) ∨
    ((utf8.scan (p.pendingUtf8 ++ chunk)).error = none ∧ ∃ texts,
      texts.flatten = (utf8.scan (p.pendingUtf8 ++ chunk)).codes ∧
      pushBytes text p chunk = (.ok (feed text p.inner texts).1,
        ⟨(feed text p.inner texts).2, (utf8.scan (p.pendingUtf8 ++ chunk)).rest⟩)) := by
  obtain ⟨used, hpending, hused⟩ := utf8.exists_used (p.pendingUtf8 ++ chunk)
  have hscan := hused []
  have hne : ∀ {length}, (utf8.scan (p.pendingUtf8 ++ chunk)).error = some length →
      (utf8.scan (p.pendingUtf8 ++ chunk)).rest ≠ [] := rest_ne_nil
  have htake : (p.pendingUtf8 ++ chunk).take p.pendingUtf8.length = p.pendingUtf8 := take_left
  rcases hbytes : utf8.scan (p.pendingUtf8 ++ chunk) with ⟨codes, rest, error⟩
  rw [hbytes] at hpending hscan hne
  rw [append_nil, scan_nil] at hscan
  dsimp only at hpending hscan hne
  rw [append_nil] at hscan
  have hlength : (p.pendingUtf8 ++ chunk).length - rest.length = used.length := by
    rw [hpending, length_append, Nat.add_sub_cancel]
  obtain _ | length := error
  · refine .inr ⟨rfl, ?_⟩
    by_cases hrest : rest = []
    · exact ⟨[codes], by simp, by simp [pushBytes, fromUtf8, hbytes, hrest]⟩
    by_cases hzero : used.length = 0
    · obtain rfl := length_eq_zero_iff.mp hzero
      rw [scan_nil] at hscan
      refine ⟨[], by simpa using congrArg Scan.codes hscan, ?_⟩
      simp only [pushBytes, fromUtf8, hbytes, if_neg hrest, hlength, if_pos hzero, feed]
      rw [hpending, nil_append]
    · refine ⟨[codes], by simp, ?_⟩
      simp only [pushBytes, fromUtf8, hbytes, if_neg hrest, hlength, if_neg hzero, feed_singleton]
      rw [hpending, take_left, drop_left, hscan]
      simp
  · refine .inl ⟨length, .invalidUtf8 used.length length, rfl, ?_⟩
    simp only [pushBytes, fromUtf8, hbytes, if_neg (hne rfl), htake, hlength]

/-- A chunk that is refused leaves the parser as it was. -/
lemma pushBytes_error {p chunk err}
    (h : (pushBytes text p chunk).1 = .error err) : (pushBytes text p chunk).2 = p := by
  obtain ⟨_, _, -, hpush⟩ | ⟨-, _, -, hpush⟩ := pushBytes_spec text p chunk
  · rw [hpush]
  · simp [hpush] at h

/-- **What the parser has seen**: the inner parser has got the characters of the bytes that were
accepted, and what is pending is what is left of them. -/
theorem pushAll_spec (hpending : utf8.scan p.pendingUtf8 = { rest := p.pendingUtf8 })
    (chunks : List (List UInt8)) : ∃ texts, feed text p.inner texts =
        ((pushAll text p chunks).output, (pushAll text p chunks).parser.inner) ∧
      utf8.scan (p.pendingUtf8 ++ (pushAll text p chunks).accepted.flatten) =
        ⟨texts.flatten, (pushAll text p chunks).parser.pendingUtf8, none⟩ ∧
      ((utf8.scan (p.pendingUtf8 ++ chunks.flatten)).error = none →
        (pushAll text p chunks).accepted = chunks) := by
  induction chunks generalizing p with
  | nil => exact ⟨[], rfl, by simp [pushAll, hpending], fun _ => rfl⟩
  | cons chunk chunks ih =>
    rw [pushAll, flatten_cons, ← append_assoc]
    rcases pushBytes_spec text p chunk with
      ⟨length, err, herror, hpush⟩ | ⟨herror, texts, htexts, hpush⟩
    · rw [hpush]
      obtain ⟨texts, hfeed, hscan, -⟩ := ih p hpending
      refine ⟨texts, hfeed, hscan, fun hnone => ?_⟩
      rw [error_append herror] at hnone
      simp at hnone
    · rw [hpush]
      obtain ⟨texts', hfeed, hscan, hall⟩ :=
        ih ⟨(feed text p.inner texts).2, _⟩ (scan_rest herror)
      dsimp only at hfeed hscan hall ⊢
      refine ⟨texts ++ texts', ?_, ?_, fun hnone => ?_⟩
      · rw [feed_append, hfeed]
      · rw [flatten_cons, ← append_assoc, scan_append, hscan, ← htexts, flatten_append]
      · rw [scan_append] at hnone
        rw [hall hnone]

/-- The end is reached if nothing is pending. -/
lemma finishBytes_eq_ok_iff {p}
    (hpending : utf8.scan p.pendingUtf8 = { rest := p.pendingUtf8 }) {out} :
    (finishBytes text p).1 = .ok out ↔ p.pendingUtf8 = [] ∧ out = (text.finish p.inner).1 := by
  rw [finishBytes]
  split
  · rename_i hnil
    simp only [hnil, true_and, Except.ok.injEq]
    exact eq_comm
  · rename_i hne
    simp [fromUtf8, hpending, hne]

end

/-! ## Parsers that can be cut -/

/-- A parser that does not mind the end of a chunk does not mind any number of them. -/
lemma chunkIndependent_of_append {P E : Type} {text : StreamTextParser P E}
    (happend : ∀ p a b, text.pushStr p (a ++ b) =
      ((text.pushStr p a).1 ++ (text.pushStr (text.pushStr p a).2 b).1,
        (text.pushStr (text.pushStr p a).2 b).2))
    {p : P} (hnil : text.pushStr p [] = ({}, p)) : ChunkIndependent text p := by
  have hfeed : ∀ texts p decoded,
      feed text p (decoded :: texts) = feed text p [decoded ++ texts.flatten] := by
    intro texts
    induction texts with
    | nil => simp
    | cons next texts ih =>
      intro p decoded
      rw [feed, ih, feed_singleton, feed_singleton, flatten_cons, happend p decoded]
  rintro (_ | ⟨decoded, texts⟩)
  · rw [total, total, flatten_nil, feed_singleton, hnil, feed]
  · rw [total, total, flatten_cons, hfeed]

/-- The parser of citations, as one that is fed text. -/
def citationText : StreamTextParser CitationStreamParser Str :=
  ⟨CitationStreamParser.pushStr, CitationStreamParser.finish⟩

lemma chunkIndependent_citationText : ChunkIndependent citationText {} := by
  refine chunkIndependent_of_append (fun p a b => ?_) CitationStreamParser.pushStr_nil
  show CitationStreamParser.pushStr p (a ++ b) = _
  rw [CitationStreamParser.pushStr,
    InlineHiddenTagParser.pushStr_append CitationStreamParser.separate.prompt]
  exact Prod.ext (CitationStreamParser.contents_append _ _) rfl

/-- **Bytes in chunks are text in chunks**, as far as they are valid.  A chunk that is refused
leaves no trace.  The end is reached if what was accepted is valid.  If all of it is, every chunk is
accepted, and what is put out is what the inner parser gives for the text. -/
theorem utf8Stream_decodes {P E : Type} (text : StreamTextParser P E) (inner : P) :
    (∀ p chunk err, (pushBytes text p chunk).1 = .error err → (pushBytes text p chunk).2 = p) ∧
    (∀ chunks, (∃ out, (finishBytes text (pushAll text { inner := inner } chunks).parser).1 =
        .ok out) ↔
      ∃ decoded, fromUtf8 (pushAll text { inner := inner } chunks).accepted.flatten = .ok decoded) ∧
    (ChunkIndependent text inner → ∀ chunks decoded, fromUtf8 chunks.flatten = .ok decoded →
      (pushAll text { inner := inner } chunks).accepted = chunks ∧
      ∃ out, (finishBytes text (pushAll text { inner := inner } chunks).parser).1 = .ok out ∧
        (pushAll text { inner := inner } chunks).output ++ out = total text inner [decoded]) := by
  have hspec := pushAll_spec text { inner := inner } scan_nil
  have hwaiting : ∀ {chunks texts},
      utf8.scan (pushAll text { inner := inner } chunks).accepted.flatten =
        ⟨texts, (pushAll text { inner := inner } chunks).parser.pendingUtf8, none⟩ →
      utf8.scan (pushAll text { inner := inner } chunks).parser.pendingUtf8 =
        { rest := (pushAll text { inner := inner } chunks).parser.pendingUtf8 } := by
    intro chunks texts hscan
    have := scan_rest (congrArg Scan.error hscan)
    rwa [hscan] at this
  refine ⟨fun p chunk err => pushBytes_error text, fun chunks => ?_,
    fun hindependent chunks decoded hdecoded => ?_⟩
  · obtain ⟨texts, -, hscan, -⟩ := hspec chunks
    rw [nil_append] at hscan
    simp only [finishBytes_eq_ok_iff text (hwaiting hscan), fromUtf8, hscan]
    by_cases hnil : (pushAll text { inner := inner } chunks).parser.pendingUtf8 = [] <;> simp [hnil]
  · obtain ⟨texts, hfeed, hscan, hall⟩ := hspec chunks
    rw [nil_append] at hscan hall
    have hrest : (utf8.scan chunks.flatten).rest = [] := by
      by_contra hne
      simp [fromUtf8, hne] at hdecoded
    have hnone : (utf8.scan chunks.flatten).error = none := by
      by_contra hsome
      obtain ⟨length, hlength⟩ := Option.ne_none_iff_exists'.mp hsome
      exact rest_ne_nil hlength hrest
    have hwait := hwaiting hscan
    rw [hall hnone] at hscan
    rw [hscan] at hrest
    have htexts : texts.flatten = decoded := by
      simpa [fromUtf8, hscan, hrest] using hdecoded
    refine ⟨hall hnone, _, (finishBytes_eq_ok_iff text hwait).mpr ⟨hrest, rfl⟩, ?_⟩
    rw [← htexts, ← hindependent texts, total, hfeed]

/-- Citations in a text whose first character comes in two chunks. -/
theorem citations_decoded :
    let pushed := pushAll citationText { inner := {} } [[0xC3], [0xA9, 0x3C]]
    pushed.accepted = [[0xC3], [0xA9, 0x3C]] ∧
      ∃ out, (finishBytes citationText pushed.parser).1 = .ok out ∧
        pushed.output ++ out = total citationText {} ["é<".toList] := by
  have hscan : utf8.scan [0xC3, 0xA9, 0x3C] = { codes := "é<".toList, rest := [] } := by
    rw [scan_code (show utf8.front _ = .code 'é' [0x3C] from rfl),
      scan_code (show utf8.front _ = .code '<' [] from rfl), scan_nil]
    rfl
  refine (utf8Stream_decodes citationText {}).2.2 chunkIndependent_citationText _ _ ?_
  show fromUtf8 [0xC3, 0xA9, 0x3C] = _
  rw [fromUtf8, hscan]
  rfl

end StreamParser
