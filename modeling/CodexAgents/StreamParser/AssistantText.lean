import CodexAgents.StreamParser.InlineHiddenTag
import CodexAgents.StreamParser.TaggedLine

/-!
# The text of the assistant

`utils/stream-parser/src/assistant_text.rs`, with the two parsers it puts one behind the other:
`citation.rs` takes the citations out of the text, and in plan mode `proposed_plan.rs` finds the
plan in what is left.

The text comes in chunks of any size.  `assistantText_chunks` says that it does not matter which: as
a whole, the same text is shown, the same citations are extracted, and the plan has the same
segments once adjacent pieces of text have been merged.
-/

namespace StreamParser

open Text Streaming List

/-! ## Citations -/

/-- The one tag that is hidden. -/
inductive CitationTag where
  | citation

/-- What a citation begins with. -/
def citationOpen : Str := "<oai-mem-citation>"

/-- What it ends with. -/
def citationClose : Str := "</oai-mem-citation>"

/-- The delimiters of citations. -/
def citationSpecs : List (InlineTagSpec CitationTag) :=
  [⟨.citation, citationOpen, citationClose, by decide, by decide⟩]

/-- The parser of citations. -/
abbrev CitationStreamParser := InlineHiddenTagParser citationSpecs

namespace CitationStreamParser

/-- The contents of the tags. -/
def contents (inner : StreamTextChunk (ExtractedInlineTag CitationTag)) : StreamTextChunk Str :=
  ⟨inner.visibleText, inner.extracted.map (·.content)⟩

/-- A chunk of text. -/
def pushStr (p : CitationStreamParser) (chunk : Str) : StreamTextChunk Str × CitationStreamParser :=
  let inner := InlineHiddenTagParser.pushStr p chunk
  (contents inner.1, inner.2)

/-- The end of the text. -/
def finish (p : CitationStreamParser) : StreamTextChunk Str × CitationStreamParser :=
  let inner := InlineHiddenTagParser.finish p
  (contents inner.1, inner.2)

lemma contents_append (a b) : contents (a ++ b) = contents a ++ contents b := by
  show StreamTextChunk.mk _ _ = StreamTextChunk.mk _ _
  simp [contents]

lemma separate : Separate citationSpecs := fun i j _ => Subsingleton.elim (α := Fin 1) i j

lemma additive_pushStr :
    Additive pushStr StreamTextChunk.visibleText ∧ Additive pushStr StreamTextChunk.extracted := by
  obtain ⟨hvisible, hextracted⟩ := InlineHiddenTagParser.additive_pushStr separate.prompt
  refine ⟨hvisible, hextracted.of_view (fun tag => [tag.content]) fun p a => ⟨rfl, ?_⟩⟩
  exact map_eq_flatMap

lemma pushStr_nil : pushStr {} [] = ({}, {}) := by
  rw [pushStr, InlineHiddenTagParser.pushStr_nil]
  rfl

end CitationStreamParser

/-! ## Plans -/

/-- The one tag of plans. -/
inductive PlanTag where
  | proposedPlan
  deriving DecidableEq

/-- The lines around a plan. -/
def planSpecs : List (TagSpec PlanTag) :=
  [⟨"<proposed_plan>", "</proposed_plan>", .proposedPlan⟩]

/-- A part of a text with plans. -/
inductive ProposedPlanSegment where
  | normal (text : Str)
  | proposedPlanStart
  | proposedPlanDelta (text : Str)
  | proposedPlanEnd

open ProposedPlanSegment

namespace ProposedPlanSegment

/-- A part of a text with tags. -/
def ofTagged : TaggedLineSegment PlanTag → ProposedPlanSegment
  | .normal text => .normal text
  | .tagStart .proposedPlan => .proposedPlanStart
  | .tagDelta .proposedPlan text => .proposedPlanDelta text
  | .tagEnd .proposedPlan => .proposedPlanEnd

/-- The text that is shown. -/
def visibleText : ProposedPlanSegment → Str
  | .normal text => text
  | _ => []

/-- A segment, one character at a time. -/
def atoms : ProposedPlanSegment → List ProposedPlanSegment
  | .normal text => text.map fun c => .normal [c]
  | .proposedPlanDelta text => text.map fun c => .proposedPlanDelta [c]
  | segment => [segment]

/-- The text of the segment, if it has one, is not empty. -/
def Solid (segment : ProposedPlanSegment) : Prop := segment.atoms ≠ []

lemma atoms_ofTagged (segment : TaggedLineSegment PlanTag) :
    (ofTagged segment).atoms = segment.atoms.map ofTagged := by
  obtain text | ⟨⟨⟩⟩ | ⟨⟨⟩, text⟩ | ⟨⟨⟩⟩ := segment
  · simp [ofTagged, atoms, TaggedLineSegment.atoms]
  · rfl
  · simp [ofTagged, atoms, TaggedLineSegment.atoms]
  · rfl

lemma solid_ofTagged {segment} (h : segment.Solid) :
    (ofTagged segment).Solid := by
  rw [Solid, atoms_ofTagged]
  exact fun hnil => h (map_eq_nil_iff.mp hnil)

lemma flatMap_visibleText_atoms (segment : ProposedPlanSegment) :
    segment.atoms.flatMap visibleText = segment.visibleText := by
  obtain text | _ | text | _ := segment
  · simp only [atoms, visibleText, flatMap_map, flatMap_singleton']
  · rfl
  · simp [atoms, visibleText]
  · rfl

/-- The segment comes before merged ones, and is merged with the first of them. -/
def mergeCons : ProposedPlanSegment → List ProposedPlanSegment → List ProposedPlanSegment
  | .normal text, .normal text' :: segments => .normal (text ++ text') :: segments
  | .proposedPlanDelta text, .proposedPlanDelta text' :: segments =>
    .proposedPlanDelta (text ++ text') :: segments
  | segment, segments => segment :: segments

/-- Adjacent segments of text are merged. -/
def merge (segments : List ProposedPlanSegment) : List ProposedPlanSegment :=
  segments.foldr mergeCons []

lemma mergeCons_normal_append (a b : Str) (segments : List ProposedPlanSegment) :
    mergeCons (.normal a) (mergeCons (.normal b) segments) =
      mergeCons (.normal (a ++ b)) segments := by
  rcases segments with _ | ⟨text | _ | text | _, segments⟩ <;>
    simp [mergeCons, append_assoc]

lemma mergeCons_delta_append (a b : Str) (segments : List ProposedPlanSegment) :
    mergeCons (.proposedPlanDelta a) (mergeCons (.proposedPlanDelta b) segments) =
      mergeCons (.proposedPlanDelta (a ++ b)) segments := by
  rcases segments with _ | ⟨text | _ | text | _, segments⟩ <;>
    simp [mergeCons, append_assoc]

/-- Text of one kind that is merged character by character is merged as a whole. -/
lemma foldr_mergeCons_map {f : Str → ProposedPlanSegment}
    (hf : ∀ a b segments, mergeCons (f a) (mergeCons (f b) segments) =
      mergeCons (f (a ++ b)) segments)
    {text} (hne : text ≠ []) (segments : List ProposedPlanSegment) :
    (text.map fun c => f [c]).foldr mergeCons segments = mergeCons (f text) segments := by
  induction text with
  | nil => exact absurd rfl hne
  | cons c text ih =>
    obtain rfl | htext := eq_or_ne text []
    · rfl
    · rw [map_cons, foldr_cons, ih htext, hf]
      rfl

lemma foldr_mergeCons_atoms {segment} (h : segment.Solid)
    (segments : List ProposedPlanSegment) :
    segment.atoms.foldr mergeCons segments = mergeCons segment segments := by
  obtain text | _ | text | _ := segment
  · have hne : text ≠ [] := fun hnil => h (map_eq_nil_iff.mpr hnil)
    exact foldr_mergeCons_map mergeCons_normal_append hne segments
  · rfl
  · have hne : text ≠ [] := fun hnil => h (map_eq_nil_iff.mpr hnil)
    exact foldr_mergeCons_map mergeCons_delta_append hne segments
  · rfl

/-- **The atoms of segments determine the merged segments.** -/
theorem merge_atoms {segments} (h : ∀ segment ∈ segments, segment.Solid) :
    merge (segments.flatMap atoms) = merge segments := by
  induction segments with
  | nil => rfl
  | cons segment segments ih =>
    rw [forall_mem_cons] at h
    rw [flatMap_cons, merge, foldr_append, foldr_mergeCons_atoms h.1, merge,
      foldr_cons, ← merge, ← merge, ih h.2]

end ProposedPlanSegment

/-- The parser of plans. -/
abbrev ProposedPlanParser := TaggedLineParser planSpecs

namespace ProposedPlanParser

/-- What is shown, and the parts. -/
def mapSegments (segments : List (TaggedLineSegment PlanTag)) :
    StreamTextChunk ProposedPlanSegment :=
  let mapped := segments.map .ofTagged
  ⟨mapped.flatMap (·.visibleText), mapped⟩

/-- A chunk of text. -/
def pushStr (p : ProposedPlanParser) (chunk : Str) :
    StreamTextChunk ProposedPlanSegment × ProposedPlanParser :=
  let r := p.parse chunk
  (mapSegments r.1, r.2)

/-- The end of the text. -/
def finish (p : ProposedPlanParser) : StreamTextChunk ProposedPlanSegment × ProposedPlanParser :=
  let r := TaggedLineParser.finish p
  (mapSegments r.1, r.2)

/-- The atoms of the segments, and the text shown, which is made from them. -/
lemma additive_pushStr : Additive pushStr (fun chunk => chunk.extracted.flatMap (·.atoms)) ∧
      Additive pushStr StreamTextChunk.visibleText := by
  have hatoms : Additive pushStr (fun chunk => chunk.extracted.flatMap (·.atoms)) := by
    refine TaggedLineParser.additive_parse.of_view (fun atom => [.ofTagged atom]) fun p a =>
      ⟨rfl, ?_⟩
    simp only [pushStr, mapSegments, flatMap_map, atoms_ofTagged,
      ← map_eq_flatMap, map_flatMap]
  refine ⟨hatoms, hatoms.of_view (·.visibleText) fun p a => ⟨rfl, ?_⟩⟩
  simp only [pushStr, mapSegments, flatMap_assoc, flatMap_visibleText_atoms]

lemma solid_mapSegments {segments}
    (h : ∀ segment ∈ segments, segment.Solid) :
    ∀ segment ∈ (mapSegments segments).extracted, segment.Solid := by
  rw [mapSegments, forall_mem_map]
  exact fun segment hmem => solid_ofTagged (h segment hmem)

end ProposedPlanParser

/-! ## Assistant text -/

/-- What is put out for a chunk. -/
structure AssistantTextChunk where
  visibleText : Str := []
  citations : List Str := []
  planSegments : List ProposedPlanSegment := []

/-- The parser; whether it looks for plans is fixed when it is made. -/
structure AssistantTextStreamParser (planMode : Bool) where
  citations : CitationStreamParser := {}
  plan : ProposedPlanParser := {}

namespace AssistantTextStreamParser

variable {planMode : Bool}

/-- In plan mode, the plan is taken out of the text. -/
def parseVisibleText (planMode : Bool) (plan : ProposedPlanParser) (visibleText : Str) :
    AssistantTextChunk × ProposedPlanParser :=
  if ¬ planMode then ({ visibleText := visibleText }, plan)
  else
    let planChunk := ProposedPlanParser.pushStr plan visibleText
    ({ visibleText := planChunk.1.visibleText, planSegments := planChunk.1.extracted }, planChunk.2)

variable (p : AssistantTextStreamParser planMode)

/-- A chunk of text. -/
def pushStr (chunk : Str) : AssistantTextChunk × AssistantTextStreamParser planMode :=
  let citationChunk := CitationStreamParser.pushStr p.citations chunk
  let out := parseVisibleText planMode p.plan citationChunk.1.visibleText
  ({ out.1 with citations := citationChunk.1.extracted }, ⟨citationChunk.2, out.2⟩)

/-- The end of the text. -/
def finish : AssistantTextChunk × AssistantTextStreamParser planMode :=
  let citationChunk := CitationStreamParser.finish p.citations
  let out := parseVisibleText planMode p.plan citationChunk.1.visibleText
  let tail : StreamTextChunk ProposedPlanSegment × ProposedPlanParser :=
    if planMode then ProposedPlanParser.finish out.2 else ({}, out.2)
  ({ visibleText := out.1.visibleText ++ tail.1.visibleText
     citations := citationChunk.1.extracted
     planSegments := out.1.planSegments ++ tail.1.extracted },
    ⟨citationChunk.2, tail.2⟩)

/-- What is put out for the chunks of a text and at its end. -/
def outputs (planMode : Bool) (chunks : List Str) : List AssistantTextChunk :=
  let r := run pushStr ({} : AssistantTextStreamParser planMode) chunks
  r.1 ++ [(finish r.2).1]

lemma additive_parseVisibleText (planMode : Bool) :
    Additive (parseVisibleText planMode) AssistantTextChunk.visibleText ∧
      Additive (parseVisibleText planMode) (fun chunk => chunk.planSegments.flatMap (·.atoms)) := by
  obtain _ | _ := planMode
  · exact ⟨fun plan a b => ⟨rfl, rfl⟩, fun plan a b => ⟨rfl, rfl⟩⟩
  · obtain ⟨hatoms, hvisible⟩ := ProposedPlanParser.additive_pushStr
    exact ⟨hvisible, hatoms⟩

lemma piped_pushStr :
    Piped (pushStr : AssistantTextStreamParser planMode → Str → _) CitationStreamParser.pushStr
      StreamTextChunk.visibleText (parseVisibleText planMode) citations plan where
  ext {s t} hcitations hplan := by
    obtain ⟨_, _⟩ := s
    cases hcitations
    cases hplan
    rfl
  fst_push _ _ := rfl
  snd_push _ _ := rfl

/-- **It does not matter where a chunk ends.** -/
theorem additive_pushStr (planMode : Bool) :
    Additive (pushStr : AssistantTextStreamParser planMode → Str → _) (·.visibleText) ∧
      Additive (pushStr : AssistantTextStreamParser planMode → Str → _) (·.citations) ∧
      Additive (pushStr : AssistantTextStreamParser planMode → Str → _)
        (fun chunk => chunk.planSegments.flatMap (·.atoms)) := by
  obtain ⟨hshown, hcitations⟩ := CitationStreamParser.additive_pushStr
  obtain ⟨hvisible, hatoms⟩ := additive_parseVisibleText planMode
  exact ⟨piped_pushStr.additive_second hshown hvisible fun p a => rfl,
    piped_pushStr.additive_first hshown hvisible hcitations fun p a => rfl,
    piped_pushStr.additive_second hshown hatoms fun p a => rfl⟩

/-- Nothing has come in. -/
lemma pushStr_nil : pushStr ({} : AssistantTextStreamParser planMode) [] = ({}, {}) := by
  rw [pushStr, CitationStreamParser.pushStr_nil]
  rcases planMode with _ | _ <;> rfl

lemma solid_parseVisibleText (plan : ProposedPlanParser) (visibleText : Str) :
    ∀ segment ∈ (parseVisibleText planMode plan visibleText).1.planSegments, segment.Solid := by
  rw [parseVisibleText]
  split
  · exact forall_mem_nil _
  · exact ProposedPlanParser.solid_mapSegments (TaggedLineParser.solid_parse plan visibleText)

lemma solid_finish : ∀ segment ∈ p.finish.1.planSegments, segment.Solid := by
  rw [finish, forall_mem_append]
  refine ⟨solid_parseVisibleText _ _, ?_⟩
  split
  · exact ProposedPlanParser.solid_mapSegments (TaggedLineParser.solid_finish _)
  · exact forall_mem_nil _

lemma solid_outputs (planMode : Bool) (chunks : List Str) :
    ∀ segment ∈ (outputs planMode chunks).flatMap (·.planSegments), segment.Solid := by
  have hrun : ∀ (p : AssistantTextStreamParser planMode),
      ∀ chunk ∈ (run pushStr p chunks).1, ∀ segment ∈ chunk.planSegments, segment.Solid := by
    induction chunks with
    | nil => exact fun p => forall_mem_nil _
    | cons chunk chunks ih =>
      intro p
      rw [run, forall_mem_cons]
      exact ⟨solid_parseVisibleText _ _, ih _⟩
  rw [outputs, flatMap_append, forall_mem_append, flatMap_singleton]
  refine ⟨fun segment hmem => ?_, solid_finish _⟩
  obtain ⟨chunk, hchunk, hsegment⟩ := mem_flatMap.mp hmem
  exact hrun {} chunk hchunk segment hsegment

/-- What is put out, seen through a view that does not see where chunks end. -/
lemma flatMap_outputs_congr {B : Type} {view : AssistantTextChunk → List B}
    (hview : Additive (pushStr : AssistantTextStreamParser planMode → Str → _) view)
    (hnil : view {} = []) {chunks chunks'} (h : chunks.flatten = chunks'.flatten) :
    (outputs planMode chunks).flatMap view = (outputs planMode chunks').flatMap view := by
  have hsettled : Settled (pushStr : AssistantTextStreamParser planMode → Str → _) view {} := by
    rw [Settled, pushStr_nil]
    exact ⟨rfl, hnil⟩
  obtain ⟨hstate, hrun⟩ := hview.run_congr hsettled h
  simp [outputs, hstate, hrun]

end AssistantTextStreamParser

open AssistantTextStreamParser in
/-- **Streaming is independent of the chunks.**  However the text is cut, the same text is shown,
the same citations are extracted, and the segments of the plan are the same after merging. -/
theorem assistantText_chunks (planMode : Bool) (chunks chunks' : List Str)
    (h : chunks.flatten = chunks'.flatten) :
    (outputs planMode chunks).flatMap (·.visibleText) =
      (outputs planMode chunks').flatMap (·.visibleText) ∧
    (outputs planMode chunks).flatMap (·.citations) =
      (outputs planMode chunks').flatMap (·.citations) ∧
    ProposedPlanSegment.merge ((outputs planMode chunks).flatMap (·.planSegments)) =
      ProposedPlanSegment.merge ((outputs planMode chunks').flatMap (·.planSegments)) := by
  obtain ⟨hvisible, hcitations, hatoms⟩ := additive_pushStr planMode
  refine ⟨flatMap_outputs_congr hvisible rfl h, flatMap_outputs_congr hcitations rfl h, ?_⟩
  rw [← merge_atoms (solid_outputs planMode chunks),
    ← merge_atoms (solid_outputs planMode chunks'), flatMap_assoc,
    flatMap_assoc, flatMap_outputs_congr hatoms rfl h]

open AssistantTextStreamParser in
/-- A text that is cut within a tag. -/
theorem assistantText_chunks_cut :
    ["a<oai-mem-cit".toList, "ation>b</oai-mem-citation>".toList].flatten =
      ["a<oai-mem-citation>b</oai-mem-citation>".toList].flatten ∧
    (outputs true ["a<oai-mem-cit".toList, "ation>b</oai-mem-citation>".toList]).flatMap
        (·.citations) =
      (outputs true ["a<oai-mem-citation>b</oai-mem-citation>".toList]).flatMap (·.citations) := by
  have h : ["a<oai-mem-cit".toList, "ation>b</oai-mem-citation>".toList].flatten =
      ["a<oai-mem-citation>b</oai-mem-citation>".toList].flatten := by decide
  exact ⟨h, (assistantText_chunks true _ _ h).2.1⟩

end StreamParser
