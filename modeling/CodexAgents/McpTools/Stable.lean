import CodexAgents.McpTools.Unique

/-!
# One name for each tool, in any order

The identity of a tool is its server, namespace, connector and two names.  The code joins them with
NUL characters, and takes tools with the same text for duplicates.  Tools are named in the order of
their texts, and what is hashed depends on the set of tools only, so the names of a permuted list of
tools are the same, as long as the texts tell the identities of the tools apart; otherwise there are
identities without a name (`names_sound_iff`).  Names without NUL characters are enough for that
(`unambiguous_of_no_nul`).
-/

namespace McpTools

open Text List ToolInfo

section

variable (sha : Sha1)

/-! ## The order of naming -/

variable {candidates : List Naming}

lemma collides_of_perm {β : Type} [DecidableEq β] (base : Naming → β) (identity : Naming → Str)
    {candidates'} (h : candidates.Perm candidates') (b : β) :
    collides base identity candidates b = collides base identity candidates' b := by
  unfold collides
  rw [((h.filter _).map identity).dedup.length_eq]

/-- The names that the candidates have before it is looked at which names are in use. -/
def orderedNamings (candidates : List Naming) : List Naming :=
  let candidates := candidates.map (hashNamespace sha candidates)
  let candidates := candidates.map (hashTool sha candidates)
  candidates.insertionSort fun a b => a.rawToolIdentity ≤ b.rawToolIdentity

lemma map_rawToolIdentity_orderedNamings (candidates : List Naming) :
    ((orderedNamings sha candidates).map Naming.rawToolIdentity).Perm
      (candidates.map Naming.rawToolIdentity) := by
  refine ((perm_insertionSort _ _).map _).trans (List.Perm.of_eq ?_)
  rw [map_map, map_map]
  exact map_congr_left fun c _ => (hashTool_rawToolIdentity sha _ _).trans
    (hashNamespace_rawToolIdentity sha _ _)

lemma legal_of_mem_orderedNamings (h : ∀ c ∈ candidates, c.Legal) {c}
    (hc : c ∈ orderedNamings sha candidates) : c.Legal := by
  obtain ⟨d, hd, rfl⟩ := mem_map.mp ((perm_insertionSort _ _).mem_iff.mp hc)
  obtain ⟨e, he, rfl⟩ := mem_map.mp hd
  exact ((h e he).hashNamespace sha _).hashTool sha _

/-- **The order of the tools does not matter** to the names before it is looked at which are in
use. -/
theorem orderedNamings_of_perm {candidates'} (h : candidates.Perm candidates')
    (hnodup : (candidates.map Naming.rawToolIdentity).Nodup) :
    orderedNamings sha candidates = orderedNamings sha candidates' := by
  have hns : (candidates.map (hashNamespace sha candidates)).Perm
      (candidates'.map (hashNamespace sha candidates')) := by
    have heq : hashNamespace sha candidates = hashNamespace sha candidates' := by
      funext c
      simp [hashNamespace, collides_of_perm _ _ h]
    exact heq ▸ h.map _
  have htool : ((candidates.map (hashNamespace sha candidates)).map
      (hashTool sha (candidates.map (hashNamespace sha candidates)))).Perm
      ((candidates'.map (hashNamespace sha candidates')).map
        (hashTool sha (candidates'.map (hashNamespace sha candidates')))) := by
    have heq : hashTool sha (candidates.map (hashNamespace sha candidates)) =
        hashTool sha (candidates'.map (hashNamespace sha candidates')) := by
      funext c
      simp [hashTool, collides_of_perm _ _ hns]
    exact heq ▸ hns.map _
  have hperm : (orderedNamings sha candidates).Perm (orderedNamings sha candidates') :=
    ((perm_insertionSort _ _).trans htool).trans (perm_insertionSort _ _).symm
  have hsorted := (map_rawToolIdentity_orderedNamings sha candidates).nodup_iff.mpr hnodup
  refine hperm.eq_of_pairwise (fun a b ha hb hab hba => ?_)
    (pairwise_insertionSort _ _) (pairwise_insertionSort _ _)
  exact inj_on_of_nodup_map hsorted ha (hperm.mem_iff.mpr hb) (le_antisymm hab hba)

variable (prefixMcpToolNames : Bool) (nonPrefixedMcpToolServers : List Str)

lemma map_fst_orderedCandidates (tools : List ToolInfo) :
    (orderedCandidates sha prefixMcpToolNames nonPrefixedMcpToolServers tools).map Prod.fst =
      orderedNamings sha ((firstSeen [] tools).map fun t =>
        t.naming prefixMcpToolNames nonPrefixedMcpToolServers) := by
  simp only [orderedCandidates, orderedNamings]
  rw [map_insertionSort _ (fun a b : Naming => a.rawToolIdentity ≤ b.rawToolIdentity) _ _
    fun a _ b _ => Iff.rfl]
  simp only [map_map, Function.comp_def]

lemma map_snd_orderedCandidates (tools : List ToolInfo) :
    ((orderedCandidates sha prefixMcpToolNames nonPrefixedMcpToolServers tools).map Prod.snd).Perm
      (firstSeen [] tools) := by
  refine ((perm_insertionSort _ _).map _).trans (List.Perm.of_eq ?_)
  simp only [map_map, Function.comp_def, map_id']

variable {tools : List ToolInfo}

/-- A candidate stands for the tool that it holds. -/
lemma rawToolIdentity_of_mem_orderedCandidates {c}
    (h : c ∈ orderedCandidates sha prefixMcpToolNames nonPrefixedMcpToolServers tools) :
    c.1.rawToolIdentity = c.2.rawToolIdentity := by
  obtain ⟨d, hd, rfl⟩ := mem_map.mp ((perm_insertionSort _ _).mem_iff.mp h)
  obtain ⟨e, he, rfl⟩ := mem_map.mp hd
  obtain ⟨t, -, rfl⟩ := mem_map.mp he
  exact (hashTool_rawToolIdentity sha _ _).trans (hashNamespace_rawToolIdentity sha _ _)

lemma map_rawToolIdentity_orderedCandidates (tools : List ToolInfo) :
    ((orderedCandidates sha prefixMcpToolNames nonPrefixedMcpToolServers tools).map
        Prod.snd).map rawToolIdentity =
      ((orderedCandidates sha prefixMcpToolNames nonPrefixedMcpToolServers tools).map
        Prod.fst).map Naming.rawToolIdentity := by
  rw [map_map, map_map]
  exact map_congr_left fun c hc =>
    (rawToolIdentity_of_mem_orderedCandidates sha _ _ hc).symm

lemma nodup_rawToolIdentity_orderedCandidates (tools : List ToolInfo) :
    (((orderedCandidates sha prefixMcpToolNames nonPrefixedMcpToolServers tools).map
      Prod.snd).map rawToolIdentity).Nodup :=
  ((map_snd_orderedCandidates sha _ _ tools).map _).nodup_iff.mpr (nodup_firstSeen [] tools)

/-! ## Tools with their names -/

lemma namedTools_spec {named}
    (h : namedTools sha prefixMcpToolNames nonPrefixedMcpToolServers tools = some named) :
    named.map Prod.fst = (orderedCandidates sha prefixMcpToolNames nonPrefixedMcpToolServers
        tools).map Prod.snd ∧
      assignNames sha [] ((orderedCandidates sha prefixMcpToolNames nonPrefixedMcpToolServers
        tools).map Prod.fst) = some (named.map Prod.snd) ∧
      (named.map fun a => a.2.1 ++ a.2.2).Nodup := by
  obtain ⟨names, hnames, rfl⟩ := Option.map_eq_some_iff.mp h
  obtain ⟨hsame, hnodup, -⟩ := assignNames_spec sha hnames
  have hzip := hsame.trans ((length_map Prod.fst).trans (length_map Prod.snd).symm)
  have hsnd := map_snd_zip hzip.le
  refine ⟨map_fst_zip hzip.ge, hnames.trans (congrArg some hsnd.symm), ?_⟩
  rwa [← hsnd, map_map] at hnodup

/-- **Every tool that is kept gets a name**, and the names are legal and short. -/
theorem exists_namedTools (hdistinct : ∀ t ∈ tools, Distinct sha t.rawToolIdentity tools.length) :
    ∃ named, namedTools sha prefixMcpToolNames nonPrefixedMcpToolServers tools = some named ∧
      ∀ a ∈ named, Legal (a.2.1 ++ a.2.2) ∧ byteLen (a.2.1 ++ a.2.2) ≤ 62 := by
  set candidates := orderedCandidates sha prefixMcpToolNames nonPrefixedMcpToolServers tools
    with hcandidates
  have htool : ∀ c ∈ candidates, c.2 ∈ tools := fun c hc => (firstSeen_sublist [] tools).subset
    ((map_snd_orderedCandidates sha _ _ tools).mem_iff.mp (mem_map_of_mem hc))
  have hlegal : ∀ c ∈ candidates.map Prod.fst, c.Legal := by
    rw [hcandidates, map_fst_orderedCandidates]
    refine fun c hc => legal_of_mem_orderedNamings sha (fun d hd => ?_) hc
    obtain ⟨t, -, rfl⟩ := mem_map.mp hd
    exact t.legal_naming _ _
  have hdistinct' : ∀ c ∈ candidates.map Prod.fst, Distinct sha c.rawToolIdentity tools.length := by
    intro c hc
    obtain ⟨d, hd, rfl⟩ := mem_map.mp hc
    rw [rawToolIdentity_of_mem_orderedCandidates sha _ _ hd]
    exact hdistinct d.2 (htool d hd)
  have hroom : ([] : List Str).length + (candidates.map Prod.fst).length ≤ tools.length := by
    have h := (map_snd_orderedCandidates sha prefixMcpToolNames nonPrefixedMcpToolServers
      tools).length_eq
    rw [length_map] at h
    rw [length_nil, zero_add, length_map]
    exact h.trans_le (firstSeen_sublist [] tools).length_le
  obtain ⟨names, hnames, hall⟩ := exists_assignNames sha hlegal hdistinct' hroom
  refine ⟨(candidates.map Prod.snd).zip names, ?_, fun a ha => ?_⟩
  · show (assignNames sha [] (candidates.map Prod.fst)).map _ = _
    rw [hnames]
    rfl
  · obtain ⟨hleg, hle⟩ := hall a.2 (of_mem_zip ha).2
    exact ⟨hleg, hleg.byteLen_eq ▸ hle⟩

end

/-! ## Identities -/

namespace ToolInfo

/-- What tells tools apart: server, namespace, connector and both names. -/
def rawIdentity (t : ToolInfo) : Str × Str × Str × Str × Str :=
  (t.serverName, t.callableNamespace, t.connectorId.getD [], t.callableName, t.toolName)

lemma rawToolIdentity_of_rawIdentity {t u : ToolInfo} (h : t.rawIdentity = u.rawIdentity) :
    t.rawToolIdentity = u.rawToolIdentity := by
  simp only [rawIdentity, Prod.mk.injEq] at h
  simp [rawToolIdentity, rawNamespaceIdentity, h]

lemma naming_of_rawIdentity {t u : ToolInfo} (h : t.rawIdentity = u.rawIdentity)
    (prefixMcpToolNames : Bool) (nonPrefixedMcpToolServers : List Str) :
    t.naming prefixMcpToolNames nonPrefixedMcpToolServers =
      u.naming prefixMcpToolNames nonPrefixedMcpToolServers := by
  have hraw := rawToolIdentity_of_rawIdentity h
  simp only [rawIdentity, Prod.mk.injEq] at h
  simp [naming, hraw, rawNamespaceIdentity, h]

end ToolInfo

/-- The joined texts tell the identities of the tools apart. -/
def Unambiguous (tools : List ToolInfo) : Prop :=
  ∀ t ∈ tools, ∀ u ∈ tools, t.rawToolIdentity = u.rawToolIdentity → t.rawIdentity = u.rawIdentity

instance (tools : List ToolInfo) : Decidable (Unambiguous tools) := by
  unfold Unambiguous
  infer_instance

variable {tools : List ToolInfo}

lemma mem_map_firstSeen {β : Type} {f}
    (hf : ∀ t u : ToolInfo, t.rawIdentity = u.rawIdentity → f t = f u) (h : Unambiguous tools)
    (b : β) : b ∈ (firstSeen [] tools).map f ↔ b ∈ tools.map f := by
  constructor
  · exact fun hb => ((firstSeen_sublist [] tools).map f).subset hb
  · intro hb
    obtain ⟨t, ht, rfl⟩ := mem_map.mp hb
    obtain ⟨u, hu, heq⟩ := exists_mem_firstSeen ht not_mem_nil
    have hut := h u ((firstSeen_sublist [] tools).subset hu) t ht heq
    exact mem_map.mpr ⟨u, hu, hf u t hut⟩

lemma Unambiguous.perm {tools'} (h : Unambiguous tools)
    (hperm : tools'.Perm tools) : Unambiguous tools' :=
  fun t ht u hu => h t (hperm.mem_iff.mp ht) u (hperm.mem_iff.mp hu)

section

variable (sha : Sha1) (prefixMcpToolNames : Bool) (nonPrefixedMcpToolServers : List Str)
  {tools' : List ToolInfo}

lemma orderedCandidates_of_perm {tools} (h : Unambiguous tools)
    (hperm : tools'.Perm tools) :
    (orderedCandidates sha prefixMcpToolNames nonPrefixedMcpToolServers tools').map Prod.fst =
      (orderedCandidates sha prefixMcpToolNames nonPrefixedMcpToolServers tools).map Prod.fst := by
  have hnodup (l : List ToolInfo) : (((firstSeen [] l).map fun t =>
      t.naming prefixMcpToolNames nonPrefixedMcpToolServers).map Naming.rawToolIdentity).Nodup := by
    rw [map_map]
    exact nodup_firstSeen [] l
  rw [map_fst_orderedCandidates, map_fst_orderedCandidates]
  refine orderedNamings_of_perm sha ?_ (hnodup tools')
  refine (perm_ext_iff_of_nodup (hnodup tools').of_map (hnodup tools).of_map).mpr fun c => ?_
  have hf := fun (t u : ToolInfo) (heq : t.rawIdentity = u.rawIdentity) =>
    naming_of_rawIdentity heq prefixMcpToolNames nonPrefixedMcpToolServers
  rw [mem_map_firstSeen hf h, mem_map_firstSeen hf (h.perm hperm)]
  exact (hperm.map _).mem_iff

/-! ## The main result -/

/-- Each identity among the tools has one name; the names are different, legal and short. -/
structure Sound (tools : List ToolInfo) (named : List (ToolInfo × Str × Str)) : Prop where
  one_each : (named.map fun a => a.1.rawIdentity).Perm (tools.map rawIdentity).dedup
  distinct : (named.map fun a => a.2.1 ++ a.2.2).Nodup
  legal : ∀ a ∈ named, Legal (a.2.1 ++ a.2.2)
  short : ∀ a ∈ named, byteLen (a.2.1 ++ a.2.2) ≤ 62

/-- The tool with the names that the model sees. -/
def renamed (a : ToolInfo × Str × Str) : ToolInfo :=
  { a.1 with callableNamespace := a.2.1, callableName := a.2.2 }

variable {tools : List ToolInfo} {named : List (ToolInfo × Str × Str)}

/-- The texts of the tools with their names, as the candidates have them. -/
lemma map_rawToolIdentity_named {namings : List Naming}
    (hfst : (named.map Prod.fst).map rawToolIdentity = namings.map Naming.rawToolIdentity) :
    (named.map fun a => (a.1.rawToolIdentity, a.2)) =
      (namings.map Naming.rawToolIdentity).zip (named.map Prod.snd) := by
  rw [← hfst, map_map, zip_map']
  rfl

section

variable (hfst : named.map Prod.fst = (orderedCandidates sha prefixMcpToolNames
  nonPrefixedMcpToolServers tools).map Prod.snd)

include hfst

/-- A tool that is kept is the only one with its text. -/
lemma nodup_rawToolIdentity_of_map_fst : (named.map fun a => a.1.rawToolIdentity).Nodup := by
  have h := nodup_rawToolIdentity_orderedCandidates sha prefixMcpToolNames
    nonPrefixedMcpToolServers tools
  rwa [← hfst, map_map] at h

lemma one_each_of_unambiguous (h : Unambiguous tools) :
    (named.map fun a => a.1.rawIdentity).Perm (tools.map rawIdentity).dedup := by
  have hperm : (named.map fun a => a.1.rawIdentity).Perm
      ((firstSeen [] tools).map rawIdentity) := by
    have h := (map_snd_orderedCandidates sha prefixMcpToolNames nonPrefixedMcpToolServers
      tools).map rawIdentity
    rwa [← hfst, map_map] at h
  have hnodup : ((firstSeen [] tools).map rawIdentity).Nodup :=
    (List.Nodup.of_map rawToolIdentity (nodup_firstSeen [] tools)).map_on
      fun t ht u hu heq => inj_on_of_nodup_map (nodup_firstSeen [] tools) ht hu
        (rawToolIdentity_of_rawIdentity heq)
  refine hperm.trans ((perm_ext_iff_of_nodup hnodup (nodup_dedup _)).mpr fun x => ?_)
  rw [mem_dedup]
  exact mem_map_firstSeen (fun _ _ heq => heq) h x

lemma unambiguous_of_one_each
    (h : (named.map fun a => a.1.rawIdentity).Perm (tools.map rawIdentity).dedup) :
    Unambiguous tools := by
  intro t ht u hu heq
  have hmem {v : ToolInfo} (hv : v ∈ tools) : ∃ a ∈ named, a.1.rawIdentity = v.rawIdentity :=
    mem_map.mp (h.mem_iff.mpr (mem_dedup.mpr (mem_map_of_mem hv)))
  obtain ⟨a, ha, hat⟩ := hmem ht
  obtain ⟨b, hb, hbu⟩ := hmem hu
  have hraw : a.1.rawToolIdentity = b.1.rawToolIdentity :=
    (rawToolIdentity_of_rawIdentity hat).trans
      (heq.trans (rawToolIdentity_of_rawIdentity hbu).symm)
  have hab := inj_on_of_nodup_map (nodup_rawToolIdentity_of_map_fst sha _ _ hfst) ha hb hraw
  rw [← hat, ← hbu, hab]

lemma name_of_perm (h : Unambiguous tools) (hperm : tools'.Perm tools)
    {named' : List (ToolInfo × Str × Str)}
    (hnames : assignNames sha [] ((orderedCandidates sha prefixMcpToolNames
      nonPrefixedMcpToolServers tools).map Prod.fst) = some (named.map Prod.snd))
    (hfst' : named'.map Prod.fst = (orderedCandidates sha prefixMcpToolNames
      nonPrefixedMcpToolServers tools').map Prod.snd)
    (hnames' : assignNames sha [] ((orderedCandidates sha prefixMcpToolNames
      nonPrefixedMcpToolServers tools').map Prod.fst) = some (named'.map Prod.snd))
    {a a'} (ha : a ∈ named) (ha' : a' ∈ named')
    (heq : a.1.rawIdentity = a'.1.rawIdentity) : a.2 = a'.2 := by
  have hsame := orderedCandidates_of_perm sha prefixMcpToolNames nonPrefixedMcpToolServers h hperm
  rw [hsame, hnames] at hnames'
  -- both lists pair the same texts with the same names
  have htexts : (named'.map fun a => (a.1.rawToolIdentity, a.2)) =
      named.map fun a => (a.1.rawToolIdentity, a.2) := by
    rw [map_rawToolIdentity_named (hfst' ▸ map_rawToolIdentity_orderedCandidates sha _ _ tools'),
      map_rawToolIdentity_named (hfst ▸ map_rawToolIdentity_orderedCandidates sha _ _ tools),
      hsame, Option.some.inj hnames']
  have hmem' : (a'.1.rawToolIdentity, a'.2) ∈ named.map fun a => (a.1.rawToolIdentity, a.2) :=
    htexts ▸ mem_map_of_mem ha'
  obtain ⟨b, hb, hba'⟩ := mem_map.mp hmem'
  obtain ⟨hraw, hname⟩ := Prod.mk.inj hba'
  have hab : a = b := inj_on_of_nodup_map (nodup_rawToolIdentity_of_map_fst sha _ _ hfst) ha
    hb ((rawToolIdentity_of_rawIdentity heq).trans hraw.symm)
  rw [hab, hname]

end

/-- **The names that the model sees are sound and stable exactly if the joined texts tell the tools
apart.**  Each identity then has one name, the names are different, legal and short enough, and they
are the same for every order of the tools. -/
theorem names_sound_iff (hdistinct : ∀ t ∈ tools, Distinct sha t.rawToolIdentity tools.length) :
    (∃ named, namedTools sha prefixMcpToolNames nonPrefixedMcpToolServers tools = some named ∧
      normalizeToolsForModelWithPrefix sha prefixMcpToolNames nonPrefixedMcpToolServers tools =
        some (named.map renamed) ∧
      Sound tools named ∧
      ∀ tools' : List ToolInfo, tools'.Perm tools → ∃ named',
        namedTools sha prefixMcpToolNames nonPrefixedMcpToolServers tools' = some named' ∧
        ∀ a ∈ named, ∀ a' ∈ named', a.1.rawIdentity = a'.1.rawIdentity → a.2 = a'.2) ↔
      Unambiguous tools := by
  obtain ⟨named, hnamed, hall⟩ :=
    exists_namedTools sha prefixMcpToolNames nonPrefixedMcpToolServers hdistinct
  obtain ⟨hfst, hnames, hnodup⟩ := namedTools_spec sha _ _ hnamed
  constructor
  · rintro ⟨named', hnamed', -, hsound, -⟩
    obtain rfl := Option.some.inj (hnamed.symm.trans hnamed')
    exact unambiguous_of_one_each sha _ _ hfst hsound.one_each
  · intro h
    refine ⟨named, hnamed, congrArg (Option.map (map renamed)) hnamed,
      ⟨one_each_of_unambiguous sha _ _ hfst h, hnodup, fun a ha => (hall a ha).1,
        fun a ha => (hall a ha).2⟩, fun tools' hperm => ?_⟩
    have hdistinct' : ∀ t ∈ tools', Distinct sha t.rawToolIdentity tools'.length :=
      hperm.length_eq ▸ fun t ht => hdistinct t (hperm.mem_iff.mp ht)
    obtain ⟨named', hnamed', -⟩ :=
      exists_namedTools sha prefixMcpToolNames nonPrefixedMcpToolServers hdistinct'
    obtain ⟨hfst', hnames', -⟩ := namedTools_spec sha _ _ hnamed'
    exact ⟨named', hnamed', fun a ha a' ha' heq =>
      name_of_perm sha _ _ hfst h hperm hnames hfst' hnames' ha ha' heq⟩

end

/-- A hash that tells texts of different lengths apart, up to nine. -/
def lengthHash : Sha1 where
  hex s := List.replicate 40 (Nat.digitChar (s.length % 10))
  length_hex _ := length_replicate
  digit s c hc := by
    obtain rfl := eq_of_mem_replicate hc
    have hdigits : ∀ n < 10, Nat.digitChar n ∈ "0123456789abcdef".toList := by decide
    exact hdigits _ (Nat.mod_lt _ (by decide))

/-- A tool of a server `s`. -/
def toolNamed (callableName toolName : Str) : ToolInfo where
  serverName := ['s']
  callableName := callableName
  callableNamespace := ['n']
  toolName := toolName
  connectorId := none

theorem names_sound_iff_sanitized :
    (∀ t ∈ [toolNamed "a.b" ['x'], toolNamed "a_b" ['y']],
      Distinct lengthHash t.rawToolIdentity 2) ∧
    ∃ named, namedTools lengthHash true [] [toolNamed "a.b" ['x'],
        toolNamed "a_b" ['y']] = some named ∧
      Sound [toolNamed "a.b" ['x'], toolNamed "a_b" ['y']] named := by
  have hdistinct : ∀ t ∈ [toolNamed "a.b" ['x'], toolNamed "a_b" ['y']],
      Distinct lengthHash t.rawToolIdentity 2 := by
    unfold Distinct
    decide
  obtain ⟨named, hnamed, -, hsound, -⟩ :=
    (names_sound_iff lengthHash true [] hdistinct).mpr (by decide)
  exact ⟨hdistinct, named, hnamed, hsound⟩

/-- **A NUL character in a name hides a tool**: of two tools with the same text the first one is
kept, and the name for that text depends on which one comes first. -/
theorem nul_hides_tool :
    (toolNamed "a\x00b" ['c']).rawIdentity ≠ (toolNamed ['a'] "b\x00c").rawIdentity ∧
    (toolNamed "a\x00b" ['c']).rawToolIdentity =
      (toolNamed ['a'] "b\x00c").rawToolIdentity ∧
    normalizeToolsForModelWithPrefix lengthHash false []
        [toolNamed "a\x00b" ['c'], toolNamed ['a'] "b\x00c"] =
      some [toolNamed "a_b" ['c']] ∧
    normalizeToolsForModelWithPrefix lengthHash false []
        [toolNamed ['a'] "b\x00c", toolNamed "a\x00b" ['c']] =
      some [toolNamed ['a'] "b\x00c"] :=
  ⟨by decide, rfl, rfl, rfl⟩

end McpTools
