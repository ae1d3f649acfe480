import CodexAgents.Lib.Streaming
import CodexAgents.Lib.Text

/-!
# Tags on lines of their own

`utils/stream-parser/src/tagged_line_parser.rs`: text comes in chunks, and a line that holds nothing
but an opening or closing tag begins or ends a block.  While the beginning of a line may still be
that of a tag, it is held back in `lineBuffer`; as soon as it is not, the rest of the line is passed
on without being looked at.

What comes out is a list of segments, and where a chunk ends can be seen in it: a text that goes on
in the next chunk is two segments.  The texts of segments are therefore looked at character by
character (`TaggedLineSegment.atoms`), and of these `additive_parse` says that it does not matter
where a chunk ends.  As no segment is empty (`solid_parse`, `solid_finish`), the atoms determine the
segments up to merging adjacent ones.
-/

namespace StreamParser

open Text Streaming List

/-- The two lines of a tag. -/
structure TagSpec (T : Type) where
  openTag : Str
  closeTag : Str
  tag : T

/-- A part of a text with tags. -/
inductive TaggedLineSegment (T : Type) where
  | normal (text : Str)
  | tagStart (tag : T)
  | tagDelta (tag : T) (text : Str)
  | tagEnd (tag : T)

/-- The parser for the given tags, which are fixed when it is made. -/
structure TaggedLineParser {T : Type} (specs : List (TagSpec T)) where
  activeTag : Option T := none
  detectTag : Bool := true
  lineBuffer : Str := []

variable {T : Type} [DecidableEq T]

/-- Text goes to the last segment, if that is of the same kind. -/
def pushSegment (segments : List (TaggedLineSegment T)) :
    TaggedLineSegment T → List (TaggedLineSegment T)
  | .normal delta =>
    if delta = [] then segments
    else match segments.getLast? with
      | some (.normal existing) => segments.dropLast ++ [.normal (existing ++ delta)]
      | _ => segments ++ [.normal delta]
  | .tagDelta tag delta =>
    if delta = [] then segments
    else match segments.getLast? with
      | some (.tagDelta existingTag existing) =>
        if existingTag = tag then segments.dropLast ++ [.tagDelta existingTag (existing ++ delta)]
        else segments ++ [.tagDelta tag delta]
      | _ => segments ++ [.tagDelta tag delta]
  | .tagStart tag => segments ++ [.tagStart tag]
  | .tagEnd tag => segments ++ [.tagEnd tag]

variable {specs : List (TagSpec T)}

namespace TaggedLineParser

variable (p : TaggedLineParser specs)

/-- Text belongs to the tag that is open. -/
def pushText (text : Str) (segments : List (TaggedLineSegment T)) : List (TaggedLineSegment T) :=
  match p.activeTag with
  | some tag => pushSegment segments (.tagDelta tag text)
  | none => pushSegment segments (.normal text)

/-- The line may become a tag. -/
def isTagPrefix (specs : List (TagSpec T)) (slug : Str) : Bool :=
  let slug := trimEnd slug
  specs.any fun spec => startsWith spec.openTag slug || startsWith spec.closeTag slug

/-- The tag that the line opens. -/
def matchOpen (specs : List (TagSpec T)) (slug : Str) : Option T :=
  (specs.find? fun spec => spec.openTag = slug).map (·.tag)

/-- The tag that the line closes. -/
def matchClose (specs : List (TagSpec T)) (slug : Str) : Option T :=
  (specs.find? fun spec => spec.closeTag = slug).map (·.tag)

/-- `strip_suffix('\n')`, if there is one. -/
def withoutNewline (line : Str) : Str := if line.getLast? = some '\n' then line.dropLast else line

/-- The buffered line is a tag, or it is text.  `finish` does the same with the last line. -/
def finishLine (segments : List (TaggedLineSegment T)) :
    List (TaggedLineSegment T) × TaggedLineParser specs :=
  let line := p.lineBuffer
  let slug := trimEnd (trimStart (withoutNewline line))
  match matchOpen specs slug, p.activeTag with
  | some tag, none => (pushSegment segments (.tagStart tag), { activeTag := some tag })
  | _, _ =>
    match matchClose specs slug with
    | some tag =>
      if p.activeTag = some tag then
        (pushSegment segments (.tagEnd tag), {})
      else (p.pushText line segments, { activeTag := p.activeTag })
    | none => (p.pushText line segments, { activeTag := p.activeTag })

/-- The state of the loop of `parse`. -/
structure Loop (specs : List (TagSpec T)) where
  parser : TaggedLineParser specs
  segments : List (TaggedLineSegment T) := []
  run : Str := []

/-- The text that has been collected is passed on. -/
def Loop.flush (l : Loop specs) : Loop specs :=
  if l.run ≠ [] then { l with segments := l.parser.pushText l.run l.segments, run := [] } else l

/-- One character, by whether the line may be a tag. -/
def parseChar (l : Loop specs) (ch : Char) : Loop specs :=
  if l.parser.detectTag then
    let l := l.flush
    let p := { l.parser with lineBuffer := l.parser.lineBuffer ++ [ch] }
    if ch = '\n' then
      let (segments, p) := p.finishLine l.segments
      { l with parser := p, segments := segments }
    else
      let slug := trimStart p.lineBuffer
      if slug = [] ∨ isTagPrefix specs slug then { l with parser := p }
      else
        let buffered := p.lineBuffer
        let p := { p with lineBuffer := [], detectTag := false }
        { l with parser := p, segments := p.pushText buffered l.segments }
  else
    let l := { l with run := l.run ++ [ch] }
    if ch = '\n' then
      { l with
        parser := { l.parser with detectTag := true }
        segments := l.parser.pushText l.run l.segments
        run := [] }
    else l

/-- A chunk of text. -/
def parse (delta : Str) : List (TaggedLineSegment T) × TaggedLineParser specs :=
  let l := (delta.foldl parseChar { parser := p }).flush
  (l.segments, l.parser)

/-- The last line, and the end of a tag that is open. -/
def finish : List (TaggedLineSegment T) × TaggedLineParser specs :=
  let (segments, p) := if p.lineBuffer ≠ [] then p.finishLine [] else ([], p)
  match p.activeTag with
  | some tag => (pushSegment segments (.tagEnd tag), {})
  | none => (segments, {})

end TaggedLineParser

/-! ## Atoms -/

/-- A segment, one character at a time. -/
def TaggedLineSegment.atoms : TaggedLineSegment T → List (TaggedLineSegment T)
  | .normal text => text.map fun c => .normal [c]
  | .tagStart tag => [.tagStart tag]
  | .tagDelta tag text => text.map fun c => .tagDelta tag [c]
  | .tagEnd tag => [.tagEnd tag]

variable (segments : List (TaggedLineSegment T))

/-- The parts, one character each. -/
abbrev atoms : List (TaggedLineSegment T) := segments.flatMap (·.atoms)

variable (segment : TaggedLineSegment T)

/-- The text of the segment, if it has one, is not empty. -/
def TaggedLineSegment.Solid : Prop := segment.atoms ≠ []

/-- **What pushing a segment does**: nothing, or it is put at the end, or joined to the last. -/
theorem pushSegment_cases : (segment.atoms = [] ∧ pushSegment segments segment = segments) ∨
    (segment.Solid ∧ pushSegment segments segment = segments ++ [segment]) ∨
    (segment.Solid ∧ ∃ init last joined, segments = init ++ [last] ∧
      pushSegment segments segment = init ++ [joined] ∧
      joined.atoms = last.atoms ++ segment.atoms) := by
  have hsolid : ∀ {text : Str} (f : Char → TaggedLineSegment T), text ≠ [] → text.map f ≠ [] :=
    fun f h hnil => h (map_eq_nil_iff.mp hnil)
  obtain delta | tag | ⟨tag, delta⟩ | tag := segment
  · rw [pushSegment]
    split
    · rename_i hnil
      exact .inl ⟨map_eq_nil_iff.mpr hnil, rfl⟩
    · rename_i hne
      split
      · rename_i existing hlast
        obtain ⟨init, rfl⟩ := getLast?_eq_some_iff.mp hlast
        rw [dropLast_concat]
        exact .inr (.inr ⟨hsolid _ hne, init, _, _, rfl, rfl, map_append⟩)
      · exact .inr (.inl ⟨hsolid _ hne, rfl⟩)
  · exact .inr (.inl ⟨cons_ne_nil _ _, rfl⟩)
  · rw [pushSegment]
    split
    · rename_i hnil
      exact .inl ⟨map_eq_nil_iff.mpr hnil, rfl⟩
    · rename_i hne
      split
      · rename_i existingTag existing hlast
        split_ifs with htag
        · obtain ⟨init, rfl⟩ := getLast?_eq_some_iff.mp hlast
          rw [dropLast_concat, htag]
          exact .inr (.inr ⟨hsolid _ hne, init, _, _, rfl, rfl, map_append⟩)
        · exact .inr (.inl ⟨hsolid _ hne, rfl⟩)
      · exact .inr (.inl ⟨hsolid _ hne, rfl⟩)
  · exact .inr (.inl ⟨cons_ne_nil _ _, rfl⟩)

omit [DecidableEq T] in
lemma atoms_concat : atoms (segments ++ [segment]) = atoms segments ++ segment.atoms := by
  rw [atoms, flatMap_append, flatMap_singleton]

/-- A segment that is pushed adds its atoms. -/
lemma atoms_pushSegment :
    atoms (pushSegment segments segment) = atoms segments ++ segment.atoms := by
  rcases pushSegment_cases segments segment with
    ⟨hnil, h⟩ | ⟨_, h⟩ | ⟨_, init, last, joined, rfl, h, hjoined⟩
  · rw [h, hnil, append_nil]
  · rw [h, atoms_concat]
  · rw [h, atoms_concat, atoms_concat, hjoined, append_assoc]

lemma solid_pushSegment {segments : List (TaggedLineSegment T)}
    (hsolid : ∀ segment ∈ segments, segment.Solid) (segment : TaggedLineSegment T) :
    ∀ segment' ∈ pushSegment segments segment, segment'.Solid := by
  rcases pushSegment_cases segments segment with
    ⟨_, h⟩ | ⟨hnew, h⟩ | ⟨hnew, init, last, joined, rfl, h, hjoined⟩
  · rwa [h]
  · rw [h, forall_mem_append, forall_mem_singleton]
    exact ⟨hsolid, hnew⟩
  · rw [forall_mem_append] at hsolid
    rw [h, forall_mem_append, forall_mem_singleton]
    refine ⟨hsolid.1, fun hnil => hnew ?_⟩
    rw [hjoined] at hnil
    exact (append_eq_nil_iff.mp hnil).2

namespace TaggedLineParser

variable (p : TaggedLineParser specs)

/-- The segment that text is pushed as. -/
def textSegment (text : Str) : TaggedLineSegment T :=
  match p.activeTag with
  | some tag => .tagDelta tag text
  | none => .normal text

lemma pushText_eq (text : Str) (segments : List (TaggedLineSegment T)) :
    p.pushText text segments = pushSegment segments (p.textSegment text) := by
  rw [pushText, textSegment]
  rcases p.activeTag with _ | tag <;> rfl

omit [DecidableEq T] in
lemma atoms_textSegment_append (a b : Str) :
    (p.textSegment (a ++ b)).atoms = (p.textSegment a).atoms ++ (p.textSegment b).atoms := by
  rw [textSegment, textSegment, textSegment]
  rcases p.activeTag with _ | tag <;> exact map_append

omit [DecidableEq T] in
lemma atoms_textSegment_nil : (p.textSegment []).atoms = [] := by
  rw [textSegment]
  rcases p.activeTag with _ | tag <;> rfl

/-- The end of a line pushes one segment. -/
lemma finishLine_cases :
    ∃ segment p', ∀ segments, p.finishLine segments = (pushSegment segments segment, p') := by
  simp only [finishLine, pushText_eq]
  split
  · exact ⟨_, _, fun segments => rfl⟩
  · split
    · split
      · exact ⟨_, _, fun segments => rfl⟩
      · exact ⟨_, _, fun segments => rfl⟩
    · exact ⟨_, _, fun segments => rfl⟩

/-! ## The loop -/

variable (l : Loop specs)

/-- What the loop has put out so far, with the text it has collected. -/
def Loop.seen : List (TaggedLineSegment T) := atoms l.segments ++ (l.parser.textSegment l.run).atoms

lemma Loop.flush_spec :
    l.flush.parser = l.parser ∧ l.flush.run = [] ∧ atoms l.flush.segments = l.seen := by
  rw [Loop.flush]
  split_ifs with hnil
  · exact ⟨rfl, rfl, by rw [pushText_eq, atoms_pushSegment, Loop.seen]⟩
  · rw [ne_eq, not_not] at hnil
    refine ⟨rfl, hnil, ?_⟩
    rw [Loop.seen, hnil, atoms_textSegment_nil, append_nil]

variable (ch : Char)

/-- **What a character does** depends on the parser only, not on what the loop has seen. -/
theorem parseChar_cases : ∃ p' new, ∀ l : Loop specs, l.parser = p →
      (parseChar l ch).parser = p' ∧ (parseChar l ch).seen = l.seen ++ new := by
  by_cases hdetect : p.detectTag = true
  · by_cases hnewline : ch = '\n'
    · obtain ⟨segment, p', hfinish⟩ :=
        finishLine_cases { p with lineBuffer := p.lineBuffer ++ [ch] }
      refine ⟨p', segment.atoms, ?_⟩
      rintro l rfl
      obtain ⟨hparser, hrun, hseen⟩ := l.flush_spec
      rw [parseChar, if_pos hdetect, if_pos hnewline]
      simp only [hparser, hfinish, Loop.seen, hrun, atoms_pushSegment, hseen,
        atoms_textSegment_nil, append_nil, and_self]
    · by_cases hslug : trimStart (p.lineBuffer ++ [ch]) = [] ∨
          isTagPrefix specs (trimStart (p.lineBuffer ++ [ch]))
      · refine ⟨{ p with lineBuffer := p.lineBuffer ++ [ch] }, [], ?_⟩
        rintro l rfl
        obtain ⟨hparser, hrun, hseen⟩ := l.flush_spec
        rw [parseChar, if_pos hdetect, if_neg hnewline]
        simp only [hparser, if_pos hslug, Loop.seen, hrun, hseen, atoms_textSegment_nil,
          append_nil, and_self]
      · refine ⟨{ p with lineBuffer := [], detectTag := false },
          (p.textSegment (p.lineBuffer ++ [ch])).atoms, ?_⟩
        rintro l rfl
        obtain ⟨hparser, hrun, hseen⟩ := l.flush_spec
        rw [parseChar, if_pos hdetect, if_neg hnewline]
        simp only [hparser, if_neg hslug, Loop.seen, hrun, hseen, pushText_eq, atoms_pushSegment,
          atoms_textSegment_nil, append_nil, true_and]
        rfl
  · refine ⟨{ p with detectTag := decide (ch = '\n') }, (p.textSegment [ch]).atoms, ?_⟩
    rintro l rfl
    rw [parseChar, if_neg hdetect]
    split_ifs with hnewline
    · simp only [hnewline, decide_true, Loop.seen, pushText_eq, atoms_pushSegment,
        atoms_textSegment_append, atoms_textSegment_nil, append_nil, append_assoc,
        and_self]
    · have hparser : l.parser = { l.parser with detectTag := decide (ch = '\n') } := by
        rw [decide_eq_false hnewline, ← eq_false_of_ne_true hdetect]
      refine ⟨hparser, ?_⟩
      simp only [Loop.seen, atoms_textSegment_append, append_assoc]

/-- The step for one character. -/
def stepChar : List (TaggedLineSegment T) × TaggedLineParser specs :=
  ((parseChar { parser := p } ch).seen, (parseChar { parser := p } ch).parser)

lemma parseChar_eq_stepChar : (parseChar l ch).parser = (stepChar l.parser ch).2 ∧
      (parseChar l ch).seen = l.seen ++ (stepChar l.parser ch).1 := by
  obtain ⟨p', new, h⟩ := parseChar_cases l.parser ch
  obtain ⟨hparser, hseen⟩ := h l rfl
  obtain ⟨hparser', hseen'⟩ := h { parser := l.parser } rfl
  have hnil : ({ parser := l.parser } : Loop specs).seen = [] := atoms_textSegment_nil _
  rw [hnil, nil_append] at hseen'
  rw [stepChar, hparser, hparser', hseen, hseen']
  exact ⟨rfl, rfl⟩

lemma foldl_parseChar (delta : Str) :
    (delta.foldl parseChar l).parser = (steps stepChar l.parser delta).2 ∧
      (delta.foldl parseChar l).seen = l.seen ++ (steps stepChar l.parser delta).1 := by
  induction delta generalizing l with
  | nil => exact ⟨rfl, (append_nil _).symm⟩
  | cons ch delta ih =>
    obtain ⟨hparser, hseen⟩ := parseChar_eq_stepChar l ch
    obtain ⟨hparser', hseen'⟩ := ih (parseChar l ch)
    rw [hparser] at hparser' hseen'
    rw [hseen, append_assoc] at hseen'
    exact ⟨hparser', hseen'⟩

/-- A chunk is gone over character by character. -/
lemma parse_eq_steps (delta : Str) : atoms (p.parse delta).1 = (steps stepChar p delta).1 ∧
      (p.parse delta).2 = (steps stepChar p delta).2 := by
  obtain ⟨hparser, hseen⟩ := foldl_parseChar { parser := p } delta
  obtain ⟨hflush, -, hatoms⟩ := (delta.foldl parseChar { parser := p }).flush_spec
  have hnil : ({ parser := p } : Loop specs).seen = [] := atoms_textSegment_nil _
  rw [hnil, nil_append] at hseen
  exact ⟨hatoms.trans hseen, hflush.trans hparser⟩

/-- **It does not matter where a chunk ends**, for what the segments are made of. -/
theorem additive_parse :
    Additive (parse : TaggedLineParser specs → Str → _) (atoms : List (TaggedLineSegment T) → _) :=
  additive_of_steps stepChar parse_eq_steps

/-! ## No empty segments -/

variable {segments : List (TaggedLineSegment T)}

lemma solid_pushText (p : TaggedLineParser specs) (text : Str)
    (h : ∀ segment ∈ segments, segment.Solid) :
    ∀ segment ∈ p.pushText text segments, segment.Solid := by
  rw [pushText_eq]
  exact solid_pushSegment h _

variable {l : Loop specs}

lemma Loop.solid_flush (h : ∀ segment ∈ l.segments, segment.Solid) :
    ∀ segment ∈ l.flush.segments, segment.Solid := by
  rw [Loop.flush]
  split
  · exact solid_pushText _ _ h
  · exact h

variable (p : TaggedLineParser specs)

lemma solid_finishLine (h : ∀ segment ∈ segments, segment.Solid) :
    ∀ segment ∈ (p.finishLine segments).1, segment.Solid := by
  obtain ⟨segment, p', hfinish⟩ := finishLine_cases p
  rw [hfinish]
  exact solid_pushSegment h segment

lemma solid_parseChar (h : ∀ segment ∈ l.segments, segment.Solid) (ch : Char) :
    ∀ segment ∈ (parseChar l ch).segments, segment.Solid := by
  have hflush := Loop.solid_flush h
  simp only [parseChar]
  split
  · split
    · exact solid_finishLine _ hflush
    · split
      · exact hflush
      · exact solid_pushText _ _ hflush
  · split
    · exact solid_pushText _ _ h
    · exact h

lemma solid_parse (delta : Str) : ∀ segment ∈ (p.parse delta).1, segment.Solid := by
  refine Loop.solid_flush (foldlRecOn (motive := fun l : Loop specs =>
    ∀ segment ∈ l.segments, segment.Solid) delta parseChar ?_ ?_)
  · exact forall_mem_nil _
  · exact fun l h ch _ => solid_parseChar h ch

lemma solid_finish : ∀ segment ∈ p.finish.1, segment.Solid := by
  have hnil : ∀ segment ∈ ([] : List (TaggedLineSegment T)), segment.Solid := forall_mem_nil _
  have hline : ∀ segment ∈ (if p.lineBuffer ≠ [] then p.finishLine [] else ([], p)).1,
      segment.Solid := by
    split
    · exact solid_finishLine p hnil
    · exact hnil
  simp only [finish]
  split
  · rename_i tag _
    exact solid_pushSegment hline (.tagEnd tag)
  · exact hline

end TaggedLineParser

end StreamParser
