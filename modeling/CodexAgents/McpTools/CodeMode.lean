import CodexAgents.McpTools.Stable

/-!
# Names of tools in code mode

`tools/src/code_mode.rs` and `protocol/src/tool_name.rs`.  Code mode joins the namespace and the
name of a tool into one identifier, with a delimiter between them if neither has an underscore
there.  The namespaces and names were chosen such that they differ when joined without it.
-/

namespace McpTools

open Text List

/-- A name and its namespace. -/
structure ToolName where
  name : Str
  ns : Option Str

/-- The namespace that is not written. -/
def defaultFunctionNamespace : Str := "functions"

namespace ToolName

variable (t : ToolName)

/-- The name stands alone. -/
def isDefaultNamespace : Bool :=
  t.ns = none || t.ns = some [] || t.ns = some defaultFunctionNamespace

/-- The name of a tool in code. -/
def codeModeNameForToolName : Str :=
  if t.isDefaultNamespace then t.name
  else match t.ns with
    | some ns =>
      if ['_'] <:+ ns ∨ ['_'] <+: t.name then ns ++ t.name else ns ++ "__".toList ++ t.name
    | none => t.name

end ToolName

namespace ToolInfo

variable (t u : ToolInfo)

/-- The name that a tool is called by. -/
def canonicalToolName : ToolName where
  ns := some t.callableNamespace
  name := t.callableName

/-! ## Tools that are written alike -/

/-- What stands between the namespace and the name: the namespace is left out, or there is nothing,
or the delimiter. -/
inductive Seam where
  | bare
  | joined
  | delimited
  deriving DecidableEq

/-- How the two parts are joined. -/
def seam : Seam :=
  if t.callableNamespace = [] ∨ t.callableNamespace = defaultFunctionNamespace then .bare
  else if ['_'] <:+ t.callableNamespace ∨ ['_'] <+: t.callableName then .joined
  else .delimited

/-- A part of a name is taken for a part of a namespace.  Two tools without a delimiter are told
apart, as their names joined are different. -/
def Clash : Prop :=
  match t.seam, u.seam with
  | .delimited, .delimited => ∃ x, u.callableNamespace = t.callableNamespace ++ "__".toList ++ x ∧
      t.callableName = x ++ "__".toList ++ u.callableName
  | .delimited, .joined =>
    (∃ x, u.callableNamespace = t.callableNamespace ++ "__".toList ++ x ∧
      t.callableName = x ++ u.callableName) ∨
    (u.callableNamespace = t.callableNamespace ++ ['_'] ∧ u.callableName = '_' :: t.callableName) ∨
    ∃ x, t.callableNamespace = u.callableNamespace ++ x ∧
      u.callableName = x ++ "__".toList ++ t.callableName
  | .bare, .delimited => t.callableName = u.callableNamespace ++ "__".toList ++ u.callableName
  | .bare, .joined => t.callableName = u.callableNamespace ++ u.callableName
  | .bare, .bare => t.callableName = u.callableName ∧ t.callableNamespace ≠ u.callableNamespace
  | _, _ => False

lemma codeModeName_eq : t.canonicalToolName.codeModeNameForToolName =
    match t.seam with
    | .bare => t.callableName
    | .joined => t.callableNamespace ++ t.callableName
    | .delimited => t.callableNamespace ++ "__".toList ++ t.callableName := by
  unfold ToolName.codeModeNameForToolName ToolName.isDefaultNamespace seam canonicalToolName
  by_cases hbare : t.callableNamespace = [] ∨ t.callableNamespace = defaultFunctionNamespace
  · simp [hbare]
  · simp only [not_or] at hbare
    by_cases hjoined : ['_'] <:+ t.callableNamespace ∨ ['_'] <+: t.callableName
    · simp [hbare, hjoined]
    · simp [hbare, hjoined]

/-- A delimiter on one side only. -/
lemma delimited_eq_joined_iff (a b c d : Str) : a ++ "__".toList ++ b = c ++ d ↔
    (∃ x, c = a ++ "__".toList ++ x ∧ b = x ++ d) ∨ (c = a ++ ['_'] ∧ d = '_' :: b) ∨
      ∃ x, a = c ++ x ∧ d = x ++ "__".toList ++ b := by
  constructor
  · intro h
    rw [append_assoc] at h
    obtain ⟨m, rfl, hm⟩ | ⟨m, rfl, rfl⟩ := append_eq_append_iff.mp h
    · obtain _ | ⟨p, _ | ⟨q, x⟩⟩ := m
      · exact .inr (.inr ⟨[], by simp, by simpa using hm.symm⟩)
      · obtain ⟨rfl, hd⟩ : '_' = p ∧ '_' :: b = d := by simpa using hm
        exact .inr (.inl ⟨rfl, hd.symm⟩)
      · obtain ⟨rfl, rfl, hb⟩ : '_' = p ∧ '_' = q ∧ b = x ++ d := by simpa using hm
        exact .inl ⟨x, by simp, hb⟩
    · exact .inr (.inr ⟨m, rfl, by simp⟩)
  · rintro (⟨x, rfl, rfl⟩ | ⟨rfl, rfl⟩ | ⟨x, rfl, rfl⟩) <;> simp

/-- A delimiter on both sides: if they were less than two characters apart, one of the namespaces
would end in an underscore. -/
lemma delimited_eq_delimited_iff {a b c d : Str} (hne : a ++ b ≠ c ++ d) (ha : ¬ ['_'] <:+ a)
    (hc : ¬ ['_'] <:+ c) : a ++ "__".toList ++ b = c ++ "__".toList ++ d ↔
    (∃ x, c = a ++ "__".toList ++ x ∧ b = x ++ "__".toList ++ d) ∨
      ∃ x, a = c ++ "__".toList ++ x ∧ d = x ++ "__".toList ++ b := by
  constructor
  · intro h
    rw [append_assoc c, delimited_eq_joined_iff] at h
    obtain ⟨x, hx, rfl⟩ | ⟨rfl, -⟩ | ⟨m, rfl, hm⟩ := h
    · exact .inl ⟨x, hx, by simp⟩
    · exact absurd (suffix_append _ _) hc
    · obtain _ | ⟨p, _ | ⟨q, x⟩⟩ := m
      · obtain rfl : d = b := by simpa using hm
        exact absurd (by simp) hne
      · obtain ⟨rfl, -⟩ : '_' = p ∧ _ := by simpa using hm
        exact absurd (suffix_append _ _) ha
      · obtain ⟨rfl, rfl, hd⟩ : '_' = p ∧ '_' = q ∧ d = x ++ "__".toList ++ b := by simpa using hm
        exact .inr ⟨x, by simp, hd⟩
  · rintro (⟨x, rfl, rfl⟩ | ⟨x, rfl, rfl⟩) <;> simp

variable {t u}

lemma not_underscore_of_delimited (h : t.seam = .delimited) : ¬ ['_'] <:+ t.callableNamespace := by
  intro hends
  unfold seam at h
  split_ifs at h with hbare hjoined
  exact hjoined (.inl hends)

/-- **Tools are written alike iff they clash**, if they differ when joined. -/
theorem codeModeName_eq_iff (hne : t.callableNamespace ++ t.callableName ≠
      u.callableNamespace ++ u.callableName) :
    t.canonicalToolName.codeModeNameForToolName = u.canonicalToolName.codeModeNameForToolName ↔
      t.Clash u ∨ u.Clash t := by
  rw [codeModeName_eq, codeModeName_eq]
  unfold Clash
  cases ht : t.seam <;> cases hu : u.seam <;> dsimp only
  case bare.bare =>
    refine ⟨fun hname => .inl ⟨hname, fun hns => hne (by rw [hns, hname])⟩, ?_⟩
    exact fun h => h.elim And.left fun h => h.1.symm
  case joined.joined => simp [hne]
  case delimited.delimited =>
    exact delimited_eq_delimited_iff hne (not_underscore_of_delimited ht)
      (not_underscore_of_delimited hu)
  case delimited.joined => rw [delimited_eq_joined_iff, or_false]
  case joined.delimited => rw [eq_comm, delimited_eq_joined_iff, false_or]
  all_goals simp [eq_comm]

end ToolInfo

variable {sha : Sha1} {prefixMcpToolNames : Bool} {nonPrefixedMcpToolServers : List Str}
  {tools normalized : List ToolInfo}

lemma pairwise_joined_ne (h : normalizeToolsForModelWithPrefix sha prefixMcpToolNames
    nonPrefixedMcpToolServers tools = some normalized) :
    normalized.Pairwise fun t u =>
      t.callableNamespace ++ t.callableName ≠ u.callableNamespace ++ u.callableName := by
  obtain ⟨named, hnamed, rfl⟩ := Option.map_eq_some_iff.mp h
  obtain ⟨-, -, hnodup⟩ := namedTools_spec sha _ _ hnamed
  exact pairwise_map.mpr (pairwise_map.mp hnodup)

/-- **Code mode tells the tools apart exactly if no two of them clash.** -/
theorem code_mode_names_distinct_iff (h : normalizeToolsForModelWithPrefix sha prefixMcpToolNames
    nonPrefixedMcpToolServers tools = some normalized) :
    (normalized.map fun t => t.canonicalToolName.codeModeNameForToolName).Nodup ↔
      normalized.Pairwise fun t u => ¬ (t.Clash u ∨ u.Clash t) := by
  rw [List.Nodup, pairwise_map]
  have hne := pairwise_joined_ne h
  constructor
  · intro hcode
    refine (hne.and hcode).imp fun h => ?_
    rw [← ToolInfo.codeModeName_eq_iff h.1]
    exact h.2
  · intro hclash
    refine (hne.and hclash).imp fun h => ?_
    rw [ne_eq, ToolInfo.codeModeName_eq_iff h.1]
    exact h.2

/-- A tool with these names. -/
def toolIn (callableNamespace callableName : Str) : ToolInfo :=
  { toolNamed callableName ['x'] with callableNamespace }

theorem code_mode_names_distinct_iff_delimited :
    normalizeToolsForModelWithPrefix lengthHash false [] [toolIn ['n'] ['a'], toolIn ['n'] ['b']] =
      some [toolIn ['n'] ['a'], toolIn ['n'] ['b']] ∧
    ¬ (toolIn ['n'] ['a']).Clash (toolIn ['n'] ['b']) := by
  refine (and_iff_left_of_imp fun h => ?_).mpr rfl
  have hno := pairwise_pair.mp ((code_mode_names_distinct_iff h).mp (by decide))
  exact fun hclash => hno (.inl hclash)

/-- **A delimiter in a name is taken for the one before it**: `b__c` of `mcp__a` and `c` of
`mcp__a__b` are one tool in code mode. -/
theorem delimiter_joins_tools :
    normalizeToolsForModelWithPrefix lengthHash true [] [toolIn ['a'] "b__c", toolIn "a__b" ['c']] =
      some [toolIn "mcp__a" "b__c", toolIn "mcp__a__b" ['c']] ∧
    (toolIn "mcp__a" "b__c").canonicalToolName.codeModeNameForToolName = "mcp__a__b__c".toList ∧
    (toolIn "mcp__a__b" ['c']).canonicalToolName.codeModeNameForToolName = "mcp__a__b__c".toList :=
  ⟨rfl, rfl, rfl⟩

end McpTools
