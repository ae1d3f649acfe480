import CodexAgents.McpTools.Names

/-!
# The names of tools are legal and different

A name consists of letters, digits and underscores, so its bytes are its characters.  What stands
before the hash of a name does not depend on the attempt, so attempts with different hashes have
different names; one of them is not in use, and every candidate gets a name (`exists_assignNames`).

What is assumed of the hash is only that the attempts for one tool have different hashes, as many as
there are tools.
-/

namespace McpTools

open Text List Option

/-! ## Legal names -/

/-- All characters are allowed. -/
def Legal (s : Str) : Prop := ∀ c ∈ s, isAllowed c = true

/-- What is allowed is ASCII. -/
lemma utf8Size_of_isAllowed {c} (h : isAllowed c) : c.utf8Size = 1 := by
  have hle : c.val ≤ 0x7f := by
    simp only [isAllowed, Char.isAlphanum, Char.isAlpha, Char.isUpper, Char.isLower, Char.isDigit,
      Bool.or_eq_true, Bool.and_eq_true, decide_eq_true_iff, UInt32.le_iff_toNat_le,
      ge_iff_le] at h ⊢
    obtain ((h | h) | h) | rfl := h
    · exact h.2.trans (by decide)
    · exact h.2.trans (by decide)
    · exact h.2.trans (by decide)
    · decide
  rw [Char.utf8Size]
  exact if_pos hle

namespace Legal

variable {s : Str}

lemma append {t} (hs : Legal s) (ht : Legal t) : Legal (s ++ t) := fun c hc =>
  (mem_append.mp hc).elim (hs c) (ht c)

lemma take (hs : Legal s) (n : Nat) : Legal (s.take n) := fun c hc =>
  hs c (mem_of_mem_take hc)

lemma byteLen_eq (hs : Legal s) : byteLen s = s.length := by
  rw [byteLen, map_congr_left fun c hc => utf8Size_of_isAllowed (hs c hc), map_const',
    sum_replicate, smul_eq_mul, mul_one]

end Legal

lemma legal_delimiter : Legal mcpToolNameDelimiter := forall_iff_forall_mem.mp (by decide)

lemma legal_sanitizeResponsesApiToolName (name : Str) :
    Legal (sanitizeResponsesApiToolName name) := by
  intro c hc
  simp only [sanitizeResponsesApiToolName] at hc
  split at hc
  · obtain rfl := mem_singleton.mp hc
    decide
  · obtain ⟨d, -, rfl⟩ := mem_map.mp hc
    split
    · assumption
    · decide

lemma legal_callableNamespaceWithPrefix {ns} (h : Legal ns) (prefixed : Bool) :
    Legal (callableNamespaceWithPrefix ns prefixed) := by
  unfold callableNamespaceWithPrefix
  split
  · exact h
  · exact Legal.append (forall_iff_forall_mem.mp (by decide)) h

section

variable (sha : Sha1)

lemma legal_callableNameHashSuffix (raw : Str) : Legal (callableNameHashSuffix sha raw) := by
  intro c hc
  obtain rfl | hc := mem_cons.mp hc
  · decide
  · have hdigits : ∀ d ∈ "0123456789abcdef".toList, isAllowed d = true :=
      forall_iff_forall_mem.mp (by decide)
    exact hdigits c (sha.digit raw c (mem_of_mem_take hc))

lemma length_callableNameHashSuffix (raw : Str) : (callableNameHashSuffix sha raw).length = 13 := by
  rw [callableNameHashSuffix, length_cons, length_take, sha.length_hex]
  rfl

lemma legal_appendHashSuffix {value} (h : Legal value) (raw : Str) :
    Legal (appendHashSuffix sha value raw) :=
  h.append (legal_callableNameHashSuffix sha raw)

variable {ns : Str}

lemma legal_appendNamespaceHashSuffix (h : Legal ns) (raw : Str) :
    Legal (appendNamespaceHashSuffix sha ns raw) := by
  unfold appendNamespaceHashSuffix
  split
  · exact ((h.take _).append (legal_callableNameHashSuffix sha raw)).append legal_delimiter
  · exact legal_appendHashSuffix sha h raw

/-! ## A name that fits -/

/-- What stands before the hash: it does not depend on it. -/
def fitted (ns toolName : Str) : Str :=
  if 13 ≤ 62 - ns.length then ns ++ toolName.take (62 - ns.length - 13) else ns.take 49

lemma fitCallablePartsWithHash_append (hns : Legal ns) (toolName raw : Str) :
    (fitCallablePartsWithHash sha ns toolName raw mcpToolNameDelimiter.length).1 ++
        (fitCallablePartsWithHash sha ns toolName raw mcpToolNameDelimiter.length).2 =
      fitted ns toolName ++ callableNameHashSuffix sha raw := by
  have hmax : maxToolNameLength - (byteLen ns + mcpToolNameDelimiter.length) = 62 - ns.length := by
    rw [hns.byteLen_eq]
    show 64 - (ns.length + 2) = _
    omega
  simp only [fitCallablePartsWithHash, (legal_callableNameHashSuffix sha raw).byteLen_eq,
    length_callableNameHashSuffix, hmax, fitted]
  split
  · exact (append_assoc _ _ _).symm
  · rfl

lemma length_fitted_le (ns toolName : Str) : (fitted ns toolName).length ≤ 49 := by
  unfold fitted
  split
  · rw [length_append, length_take]
    omega
  · exact length_take_le _ _

lemma legal_fitted {toolName} (hns : Legal ns) (hname : Legal toolName) :
    Legal (fitted ns toolName) := by
  unfold fitted
  split
  · exact hns.append (hname.take _)
  · exact hns.take _

/-- The attempts for a tool have different hashes, up to a number of them. -/
def Distinct (raw : Str) (n : Nat) : Prop :=
  ∀ j < n, ∀ k < n, callableNameHashSuffix sha (hashInput raw j) =
    callableNameHashSuffix sha (hashInput raw k) → j = k

variable {usedNames : List Str} {n : Nat}

lemma exists_uniqueCallableParts {toolName raw} (hns : Legal ns) (hname : Legal toolName)
    (hused : usedNames.length < n) (hdistinct : Distinct sha raw n) :
    ∃ parts, uniqueCallableParts sha ns toolName raw usedNames mcpToolNameDelimiter.length =
        some parts ∧ Legal (parts.1 ++ parts.2) ∧ (parts.1 ++ parts.2).length ≤ 62 := by
  unfold uniqueCallableParts
  split
  · obtain ⟨hlen, -⟩ : byteLen (ns ++ toolName) + 2 ≤ 64 ∧ _ := ‹_›
    rw [(hns.append hname).byteLen_eq] at hlen
    exact ⟨_, rfl, hns.append hname, Nat.le_of_add_le_add_right hlen⟩
  · simp only [fitCallablePartsWithHash_append sha hns]
    have hinj : ∀ j ≤ usedNames.length, ∀ k ≤ usedNames.length,
        fitted ns toolName ++ callableNameHashSuffix sha (hashInput raw j) =
          fitted ns toolName ++ callableNameHashSuffix sha (hashInput raw k) → j = k :=
      fun j hj k hk heq => hdistinct j (hj.trans_lt hused) k (hk.trans_lt hused)
        (append_cancel_left heq)
    obtain ⟨k, hfirst⟩ := Fresh.exists_first hinj (lt_max_of_lt_right (Nat.lt_succ_self _))
    rw [maxAttempts, hfirst]
    refine ⟨_, rfl, ?_⟩
    rw [fitCallablePartsWithHash_append sha hns, length_append, length_callableNameHashSuffix]
    exact ⟨(legal_fitted hns hname).append (legal_callableNameHashSuffix sha _),
      Nat.add_le_add_right (length_fitted_le ns toolName) 13⟩

lemma notMem_of_uniqueCallableParts {toolName raw reservedLen parts}
    (h : uniqueCallableParts sha ns toolName raw usedNames reservedLen = some parts) :
    parts.1 ++ parts.2 ∉ usedNames := by
  unfold uniqueCallableParts at h
  split at h
  · obtain rfl := some.inj h
    exact And.right ‹_›
  · obtain ⟨attempt, hfirst, rfl⟩ := map_eq_some_iff.mp h
    exact Fresh.not_mem_of_first hfirst

/-! ## The names of a list of candidates -/

variable {candidates : List Naming}

/-- **Every candidate has its name**: the names are different, and none of them was in use. -/
theorem assignNames_spec {names}
    (h : assignNames sha usedNames candidates = some names) :
    names.length = candidates.length ∧ (names.map fun p => p.1 ++ p.2).Nodup ∧
      ∀ p ∈ names, p.1 ++ p.2 ∉ usedNames := by
  induction candidates generalizing usedNames names with
  | nil =>
    obtain rfl := some.inj h
    exact ⟨rfl, nodup_nil, forall_mem_nil _⟩
  | cons c candidates ih =>
    obtain ⟨parts, hparts, h⟩ := bind_eq_some_iff.mp h
    obtain ⟨rest, hrest, h⟩ := bind_eq_some_iff.mp h
    obtain rfl := some.inj h
    obtain ⟨hlength, hnodup, hfresh⟩ := ih hrest
    refine ⟨congrArg (· + 1) hlength, nodup_cons.mpr ⟨fun hmem => ?_, hnodup⟩,
      forall_mem_cons.mpr ⟨notMem_of_uniqueCallableParts sha hparts,
        fun p hp hmem => hfresh p hp (mem_cons_of_mem _ hmem)⟩⟩
    obtain ⟨p, hp, heq⟩ := mem_map.mp hmem
    exact hfresh p hp (heq ▸ mem_cons_self)

/-- Both parts are legal. -/
def Naming.Legal (c : Naming) : Prop :=
  McpTools.Legal c.callableNamespace ∧ McpTools.Legal c.callableName

/-- **Names are found**, and they are legal. -/
theorem exists_assignNames (hlegal : ∀ c ∈ candidates, c.Legal)
    (hdistinct : ∀ c ∈ candidates, Distinct sha c.rawToolIdentity n)
    (hused : usedNames.length + candidates.length ≤ n) :
    ∃ names, assignNames sha usedNames candidates = some names ∧
      ∀ p ∈ names, Legal (p.1 ++ p.2) ∧ (p.1 ++ p.2).length ≤ 62 := by
  induction candidates generalizing usedNames with
  | nil => exact ⟨[], rfl, forall_mem_nil _⟩
  | cons c candidates ih =>
    rw [length_cons] at hused
    -- the names in use and the candidates that wait for one are never more than the tools
    obtain ⟨hns, hname⟩ := hlegal c mem_cons_self
    obtain ⟨parts, hparts, hgood⟩ := exists_uniqueCallableParts sha hns hname
      (by omega : usedNames.length < n) (hdistinct c mem_cons_self)
    have hroom : ((parts.1 ++ parts.2) :: usedNames).length + candidates.length ≤ n := by
      rw [length_cons]
      omega
    obtain ⟨names, hnames, hall⟩ := ih (fun d hd => hlegal d (mem_cons_of_mem _ hd))
      (fun d hd => hdistinct d (mem_cons_of_mem _ hd)) hroom
    refine ⟨parts :: names, ?_, forall_mem_cons.mpr ⟨hgood, hall⟩⟩
    rw [assignNames, hparts]
    show (assignNames sha _ candidates).bind _ = _
    rw [hnames]
    rfl

/-! ## Candidates of a list of tools -/

@[simp] lemma hashNamespace_rawToolIdentity (candidates : List Naming) (c : Naming) :
    (hashNamespace sha candidates c).rawToolIdentity = c.rawToolIdentity := by
  unfold hashNamespace
  split <;> rfl

@[simp] lemma hashTool_rawToolIdentity (candidates : List Naming) (c : Naming) :
    (hashTool sha candidates c).rawToolIdentity = c.rawToolIdentity := by
  unfold hashTool
  split <;> rfl

variable {c : Naming}

lemma Naming.Legal.hashNamespace (h : c.Legal) (candidates : List Naming) :
    (McpTools.hashNamespace sha candidates c).Legal := by
  unfold McpTools.hashNamespace
  split
  · exact ⟨legal_appendNamespaceHashSuffix sha h.1 _, h.2⟩
  · exact h

lemma Naming.Legal.hashTool (h : c.Legal) (candidates : List Naming) :
    (McpTools.hashTool sha candidates c).Legal := by
  unfold McpTools.hashTool
  split
  · exact ⟨h.1, legal_appendHashSuffix sha h.2 _⟩
  · exact h

lemma ToolInfo.legal_naming (t : ToolInfo) (prefixMcpToolNames : Bool)
    (nonPrefixedMcpToolServers : List Str) :
    (t.naming prefixMcpToolNames nonPrefixedMcpToolServers).Legal :=
  ⟨legal_callableNamespaceWithPrefix (legal_sanitizeResponsesApiToolName _) _,
    legal_sanitizeResponsesApiToolName _⟩

lemma firstSeen_sublist (seen : List Str) (tools : List ToolInfo) :
    (firstSeen seen tools).Sublist tools := by
  induction tools generalizing seen with
  | nil => exact List.Sublist.refl _
  | cons t tools ih =>
    rw [firstSeen]
    split
    · exact (ih seen).cons t
    · exact (ih _).cons_cons t

variable {seen : List Str} {tools : List ToolInfo} {t : ToolInfo}

lemma rawToolIdentity_notMem_of_mem_firstSeen (h : t ∈ firstSeen seen tools) :
    t.rawToolIdentity ∉ seen := by
  induction tools generalizing seen with
  | nil => cases h
  | cons u tools ih =>
    rw [firstSeen] at h
    split at h
    · exact ih h
    · obtain rfl | h := mem_cons.mp h
      · assumption
      · exact fun hmem => ih h (mem_cons_of_mem _ hmem)

lemma nodup_firstSeen (seen : List Str) (tools : List ToolInfo) :
    ((firstSeen seen tools).map ToolInfo.rawToolIdentity).Nodup := by
  induction tools generalizing seen with
  | nil => exact nodup_nil
  | cons t tools ih =>
    rw [firstSeen]
    split
    · exact ih seen
    · refine nodup_cons.mpr ⟨fun hmem => ?_, ih _⟩
      obtain ⟨u, hu, heq⟩ := mem_map.mp hmem
      exact rawToolIdentity_notMem_of_mem_firstSeen hu (heq ▸ mem_cons_self)

/-- A tool that is skipped has the identity of one that is kept. -/
lemma exists_mem_firstSeen (h : t ∈ tools) (hseen : t.rawToolIdentity ∉ seen) :
    ∃ u ∈ firstSeen seen tools, u.rawToolIdentity = t.rawToolIdentity := by
  induction tools generalizing seen with
  | nil => cases h
  | cons u tools ih =>
    rw [firstSeen]
    obtain rfl | h := mem_cons.mp h
    · rw [if_neg hseen]
      exact ⟨t, mem_cons_self, rfl⟩
    · split
      · exact ih h hseen
      · by_cases heq : u.rawToolIdentity = t.rawToolIdentity
        · exact ⟨u, mem_cons_self, heq⟩
        · have hnot : t.rawToolIdentity ∉ u.rawToolIdentity :: seen := fun hmem =>
            (mem_cons.mp hmem).elim (fun h => heq h.symm) hseen
          obtain ⟨v, hv, hveq⟩ := ih h hnot
          exact ⟨v, mem_cons_of_mem _ hv, hveq⟩

end

end McpTools
