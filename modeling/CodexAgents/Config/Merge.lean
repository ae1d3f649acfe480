import CodexAgents.Lib.Toml

/-!
# Merging layers of TOML

`config/src/merge.rs` and `config/src/key_aliases.rs`.  A layer is laid on top of another: tables
are merged key by key, and anything else is replaced.  At some paths there are rules of their own:
keys that have an old name, keys that are normalised, a feature that is given as a switch or as a
table, and two spellings of the filters of the environment of shells.

The nesting of tables bounds the recursion (`mergeTomlValuesAtPath_of_depth_le`).
-/

namespace Config

open Text Toml List Assoc

/-! ## Aliases of keys -/

/-- An old key of a table and its new name. -/
structure ConfigKeyAlias where
  tablePath : List Str
  legacyKey : Str
  canonicalKey : Str

/-- The keys that were renamed. -/
def configKeyAliases : List ConfigKeyAlias :=
  [⟨["memories"], "no_memories_if_mcp_or_web_search",
      "disable_on_external_context"⟩,
    ⟨["agents"], "max_threads", "max_concurrent_threads_per_session"⟩]

/-- The value under the old name is moved, unless the new name is there as well. -/
def renameKey (path : List Str) (t : Table) (entry : ConfigKeyAlias) : Table :=
  if path = entry.tablePath then
    match get entry.legacyKey t with
    | some v =>
      let t := remove entry.legacyKey t
      if has entry.canonicalKey t then t else insert entry.canonicalKey v t
    | none => t
  else t

/-- Old keys are renamed, at one place. -/
def normalizeKeyAliases (path : List Str) (t : Table) : Table :=
  configKeyAliases.foldl (renameKey path) t

mutual

/-- Old keys are renamed everywhere below. -/
def normalizedWithKeyAliases (path : List Str) : Value → Value
  | .table t => .table (normalizeKeyAliases path (normalizedEntries path t))
  | .array items => .array (normalizedItems path items)
  | .string s => .string s
  | .integer n => .integer n
  | .float s => .float s
  | .boolean b => .boolean b
  | .datetime s => .datetime s

/-- The entries of a table. -/
def normalizedEntries (path : List Str) : Table → Table
  | [] => []
  | (k, child) :: t => (k, normalizedWithKeyAliases (path ++ [k]) child) :: normalizedEntries path t

/-- The items of an array, which are where the array is. -/
def normalizedItems (path : List Str) : List Value → List Value
  | [] => []
  | v :: items => normalizedWithKeyAliases path v :: normalizedItems path items

end

/-! ## Rules at single paths -/

/-- The feature that can be a switch or a table. -/
def isMultiAgentV2FeaturePath : List Str → Bool
  | [features, feature] => features = "features" && feature = "multi_agent_v2"
  | [profiles, _, features, feature] =>
    profiles = "profiles" && features = "features" &&
      feature = "multi_agent_v2"
  | _ => false

/-- The domains of a permission profile. -/
def isPermissionNetworkDomainsPath : List Str → Bool
  | [permissions, _, network, domains] =>
    permissions = "permissions" && network = "network" && domains = "domains"
  | _ => false

/-- The policy for the environment of the shell. -/
def isShellEnvironmentPolicyPath : List Str → Bool
  | [policy] => policy = "shell_environment_policy"
  | _ => false

/-- The filters of this policy. -/
def isShellEnvironmentFiltersPath : List Str → Bool
  | [policy, filters] => policy = "shell_environment_policy" && filters = "filters"
  | _ => false

/-- The two ways to write filters. -/
inductive ShellEnvironmentPolicyFilterRepresentation where
  | filters
  | legacy

namespace ShellEnvironmentPolicyFilterRepresentation

/-- The way in which a policy has its filters, if it has any. -/
def fromPolicy (policy : Value) : Option ShellEnvironmentPolicyFilterRepresentation := do
  let policy ← policy.asTable
  if has "filters".toList policy then some filters
  else if has "exclude".toList policy || has "include_only".toList policy then
    some legacy
  else none

/-- The fields of the other way. -/
def displacedFields : ShellEnvironmentPolicyFilterRepresentation → List Str
  | filters => ["exclude", "include_only"]
  | legacy => ["filters"]

end ShellEnvironmentPolicyFilterRepresentation

/-- The upper layer decides how filters are written. -/
def replaceShellEnvironmentPolicyFilterRepresentation (base overlay : Value) (path : List Str) :
    Value :=
  if isShellEnvironmentPolicyPath path then
    match ShellEnvironmentPolicyFilterRepresentation.fromPolicy overlay, base with
    | some representation, .table t =>
      .table (representation.displacedFields.foldl (fun t k => remove k t) t)
    | _, base => base
  else base

/-- The feature as a switch and as a table with a key `enabled`: what is merged into, or what the
two are merged to already. -/
def multiAgentV2 (base overlay : Value) (path : List Str) : Value ⊕ Value :=
  if isMultiAgentV2FeaturePath path then
    match base, overlay with
    | .boolean enabled, .table _ => .inl (.table [("enabled", .boolean enabled)])
    | .table t, .boolean enabled =>
      .inr (.table (insert "enabled" (.boolean enabled) t))
    | base, _ => .inl base
  else .inl base

/-- What is not of this crate: `normalize_host`, and `str::to_lowercase`. -/
structure KeyText where
  normalizeHost : Str → Str
  toLowercase : Str → Str

variable (kt : KeyText)

/-- Keys that mean the same get the same name. -/
def normalizeKeys (path : List Str) (t : Table) : Table :=
  let t := normalizeKeyAliases path t
  let t := if isPermissionNetworkDomainsPath path then mapKeys kt.normalizeHost t else t
  if isShellEnvironmentFiltersPath path then mapKeys kt.toLowercase t else t

/-- With a bound on the number of tables that are merged within each other. -/
def mergeTomlValuesAtPath : Nat → List Str → Value → Value → Value
  | 0, _, _, overlay => overlay
  | fuel + 1, path, base, overlay =>
    match multiAgentV2 (replaceShellEnvironmentPolicyFilterRepresentation base overlay path)
        overlay path with
    | .inr merged => merged
    | .inl base =>
      match base, overlay with
      | .table t, .table u =>
        .table (mergeWith (fun k => mergeTomlValuesAtPath fuel (path ++ [k]))
          (fun k v => normalizedWithKeyAliases (path ++ [k]) v)
          (normalizeKeys kt path t) (normalizeKeys kt path u))
      | _, overlay => normalizedWithKeyAliases path overlay

mutual

/-- How many tables stand within each other. -/
def depth : Value → Nat
  | .table t => depthEntries t + 1
  | _ => 0

/-- The depth of the deepest entry. -/
def depthEntries : Table → Nat
  | [] => 0
  | (_, v) :: t => max (depth v) (depthEntries t)

end

/-- Merge config `overlay` into `base`, giving `overlay` precedence. -/
def mergeTomlValues (kt : KeyText) (base overlay : Value) : Value :=
  mergeTomlValuesAtPath kt (depth overlay + 1) [] base overlay

/-! ## The bound is large enough -/

variable {k : Str} {t : Table} {e : Str × Value}

lemma mem_of_mem_remove (h : e ∈ remove k t) : e ∈ t := (mem_filter.mp h).1

variable {path : List Str}

lemma exists_mem_of_mem_renameKey {entry} (h : e ∈ renameKey path t entry) :
    ∃ e' ∈ t, e'.2 = e.2 := by
  unfold renameKey at h
  split at h
  · split at h
    · rename_i v hget
      dsimp only at h
      split at h
      · exact ⟨e, mem_of_mem_remove h, rfl⟩
      · obtain rfl | h := mem_insert h
        · exact ⟨_, mem_of_get hget, rfl⟩
        · exact ⟨e, mem_of_mem_remove h, rfl⟩
    · exact ⟨e, h, rfl⟩
  · exact ⟨e, h, rfl⟩

lemma exists_mem_of_mem_mapKeys {f} (h : e ∈ mapKeys f t) : ∃ e' ∈ t, e'.2 = e.2 :=
  exists_get_of_mapKeys (get_of_mem (nodup_keys_mapKeys f t) h)

lemma exists_mem_of_mem_normalizeKeyAliases (h : e ∈ normalizeKeyAliases path t) :
    ∃ e' ∈ t, e'.2 = e.2 := by
  unfold normalizeKeyAliases at h
  generalize configKeyAliases = entries at h
  induction entries generalizing t with
  | nil => exact ⟨e, h, rfl⟩
  | cons entry entries ih =>
    obtain ⟨e', he', heq'⟩ := ih h
    obtain ⟨e'', he'', heq''⟩ := exists_mem_of_mem_renameKey he'
    exact ⟨e'', he'', heq''.trans heq'⟩

/-- Normalising keys leaves the values. -/
lemma exists_mem_of_mem_normalizeKeys {kt} (h : e ∈ normalizeKeys kt path t) :
    ∃ e' ∈ t, e'.2 = e.2 := by
  have hdomains {e : Str × Value}
      (h : e ∈ if isPermissionNetworkDomainsPath path then
        mapKeys kt.normalizeHost (normalizeKeyAliases path t)
        else normalizeKeyAliases path t) : ∃ e' ∈ t, e'.2 = e.2 := by
    split at h
    · obtain ⟨e', he', heq⟩ := exists_mem_of_mem_mapKeys h
      obtain ⟨e'', he'', heq'⟩ := exists_mem_of_mem_normalizeKeyAliases he'
      exact ⟨e'', he'', heq'.trans heq⟩
    · exact exists_mem_of_mem_normalizeKeyAliases h
  unfold normalizeKeys at h
  dsimp only at h
  split at h
  · obtain ⟨e', he', heq⟩ := exists_mem_of_mem_mapKeys h
    obtain ⟨e'', he'', heq'⟩ := hdomains he'
    exact ⟨e'', he'', heq'.trans heq⟩
  · exact hdomains h

lemma depth_le_depthEntries (h : e ∈ t) : depth e.2 ≤ depthEntries t := by
  induction t with
  | nil => cases h
  | cons e' t ih =>
    rw [depthEntries]
    obtain rfl | h := mem_cons.mp h
    · exact le_max_left _ _
    · exact (ih h).trans (le_max_right _ _)

/-- **The bound does not matter**, as soon as it is above the nesting of the tables on top. -/
theorem mergeTomlValuesAtPath_of_depth_lt (kt : KeyText) {n m base overlay}
    (hn : depth overlay < n) (hm : depth overlay < m) :
    mergeTomlValuesAtPath kt n path base overlay =
      mergeTomlValuesAtPath kt m path base overlay := by
  induction n generalizing m path base overlay with
  | zero => omega
  | succ n ih =>
    obtain ⟨m, rfl⟩ : ∃ k, m = k + 1 := ⟨m - 1, by omega⟩
    rw [mergeTomlValuesAtPath, mergeTomlValuesAtPath]
    split
    · rfl
    · rename_i base' _
      rcases base' with _ | _ | _ | _ | _ | _ | t <;> rcases overlay with _ | _ | _ | _ | _ | _ | u
      all_goals try rfl
      rw [depth] at hn hm
      refine congrArg Value.table (mergeWith_congr fun e he v => ?_)
      obtain ⟨e', he', heq⟩ := exists_mem_of_mem_normalizeKeys he
      have hle := depth_le_depthEntries he'
      rw [heq] at hle
      exact ih (by omega) (by omega)

/-! ## Paths without a rule -/

/-- Nothing special happens to the table at the path itself. -/
structure NoRule (path : List Str) : Prop where
  aliases : ∀ entry ∈ configKeyAliases, path ≠ entry.tablePath
  multiAgent : isMultiAgentV2FeaturePath path = false
  domains : isPermissionNetworkDomainsPath path = false
  policy : isShellEnvironmentPolicyPath path = false
  filters : isShellEnvironmentFiltersPath path = false

/-- There are no keys with old names at the path and below it. -/
def Unaliased (path : List Str) : Prop :=
  ∀ entry ∈ configKeyAliases, ∀ rest, path ++ rest ≠ entry.tablePath

/-- There is no rule at the path and below it. -/
def Free (path : List Str) : Prop := ∀ rest, NoRule (path ++ rest)

lemma Unaliased.append (h : Unaliased path) (k : Str) : Unaliased (path ++ [k]) := by
  intro entry hentry rest
  rw [append_assoc]
  exact h entry hentry _

lemma Free.append (h : Free path) (k : Str) : Free (path ++ [k]) := by
  intro rest
  rw [append_assoc]
  exact h _

lemma Free.noRule (h : Free path) : NoRule path := append_nil path ▸ h []

lemma Free.unaliased (h : Free path) : Unaliased path :=
  fun entry hentry rest => (h rest).aliases entry hentry

/-- The keys of documents below which there are rules. -/
def ruledKeys : List Str :=
  ["memories", "agents", "features", "profiles",
    "permissions", "shell_environment_policy"]

lemma free_of_notMem (h : k ∉ ruledKeys) : Free [k] := by
  intro rest
  simp only [ruledKeys, mem_cons, not_mem_nil, or_false, not_or] at h
  obtain ⟨hmemories, hagents, hfeatures, hprofiles, hpermissions, hshell⟩ := h
  rw [singleton_append]
  refine ⟨fun entry hentry heq => ?_, ?_, ?_, ?_, ?_⟩
  · simp only [configKeyAliases, mem_cons, not_mem_nil, or_false] at hentry
    obtain rfl | rfl := hentry
    · exact hmemories (cons.inj heq).1
    · exact hagents (cons.inj heq).1
  · unfold isMultiAgentV2FeaturePath
    split
    · rename_i heq
      rw [← (cons.inj heq).1, decide_eq_false hfeatures, Bool.false_and]
    · rename_i heq
      rw [← (cons.inj heq).1, decide_eq_false hprofiles, Bool.false_and, Bool.false_and]
    · rfl
  · unfold isPermissionNetworkDomainsPath
    split
    · rename_i heq
      rw [← (cons.inj heq).1, decide_eq_false hpermissions, Bool.false_and, Bool.false_and]
    · rfl
  · unfold isShellEnvironmentPolicyPath
    split
    · rename_i heq
      rw [← (cons.inj heq).1, decide_eq_false hshell]
    · rfl
  · unfold isShellEnvironmentFiltersPath
    split
    · rename_i heq
      rw [← (cons.inj heq).1, decide_eq_false hshell, Bool.false_and]
    · rfl

lemma normalizeKeyAliases_eq_self (h : ∀ entry ∈ configKeyAliases, path ≠ entry.tablePath)
    (t : Table) :
    normalizeKeyAliases path t = t := by
  unfold normalizeKeyAliases
  revert h
  generalize configKeyAliases = entries
  intro h
  induction entries with
  | nil => rfl
  | cons entry entries ih =>
    rw [foldl_cons, renameKey, if_neg (h entry mem_cons_self)]
    exact ih fun entry' hentry' => h entry' (mem_cons_of_mem _ hentry')

lemma Unaliased.normalizeKeyAliases_eq_self (h : Unaliased path) (t : Table) :
    normalizeKeyAliases path t = t :=
  Config.normalizeKeyAliases_eq_self
    (fun entry hentry => append_nil path ▸ h entry hentry []) t

mutual

lemma Unaliased.normalized_eq_self {path} (h : Unaliased path) :
    ∀ v : Value, normalizedWithKeyAliases path v = v
  | .table t => by
    rw [normalizedWithKeyAliases, h.normalizedEntries_eq_self t, h.normalizeKeyAliases_eq_self]
  | .array items => by rw [normalizedWithKeyAliases, h.normalizedItems_eq_self items]
  | .string _ | .integer _ | .float _ | .boolean _ | .datetime _ => by rw [normalizedWithKeyAliases]

lemma Unaliased.normalizedEntries_eq_self {path} (h : Unaliased path) :
    ∀ t : Table, normalizedEntries path t = t
  | [] => by rw [normalizedEntries]
  | (k, child) :: t => by
    rw [normalizedEntries, (h.append k).normalized_eq_self child, h.normalizedEntries_eq_self t]

lemma Unaliased.normalizedItems_eq_self {path} (h : Unaliased path) :
    ∀ items : List Value, normalizedItems path items = items
  | [] => by rw [normalizedItems]
  | v :: items => by
    rw [normalizedItems, h.normalized_eq_self v, h.normalizedItems_eq_self items]

end

section

variable {path : List Str}

/-- Merging at a path, with the bound that is large enough. -/
def mergeAt (path : List Str) (base overlay : Value) : Value :=
  mergeTomlValuesAtPath kt (depth overlay + 1) path base overlay

lemma NoRule.normalizeKeys_eq_self (h : NoRule path) (t : Table) : normalizeKeys kt path t = t := by
  rw [normalizeKeys, normalizeKeyAliases_eq_self h.aliases, h.domains, h.filters]
  rfl

/-- Below a table, the bound is the one of the values there. -/
lemma mergeWith_mergeTomlValuesAtPath (path : List Str) (t u : Table) :
    mergeWith (fun k => mergeTomlValuesAtPath kt (depth (.table u)) (path ++ [k]))
        (fun k v => normalizedWithKeyAliases (path ++ [k]) v)
        (normalizeKeys kt path t) (normalizeKeys kt path u) =
      mergeWith (fun k => mergeAt kt (path ++ [k]))
        (fun k v => normalizedWithKeyAliases (path ++ [k]) v)
        (normalizeKeys kt path t) (normalizeKeys kt path u) := by
  refine mergeWith_congr fun e he v => ?_
  obtain ⟨e', he', heq⟩ := exists_mem_of_mem_normalizeKeys he
  have hle := depth_le_depthEntries he'
  rw [heq] at hle
  rw [depth]
  exact mergeTomlValuesAtPath_of_depth_lt kt (Nat.lt_succ_of_le hle) (Nat.lt_succ_self _)

lemma NoRule.mergeAt_eq (h : NoRule path) (base overlay : Value) : mergeAt kt path base overlay =
      match base, overlay with
      | .table t, .table u =>
        .table (mergeWith (fun k => mergeAt kt (path ++ [k]))
          (fun k v => normalizedWithKeyAliases (path ++ [k]) v) t u)
      | _, overlay => normalizedWithKeyAliases path overlay := by
  have hreplace : replaceShellEnvironmentPolicyFilterRepresentation base overlay path = base := by
    unfold replaceShellEnvironmentPolicyFilterRepresentation
    rw [h.policy, if_neg Bool.false_ne_true]
  have hmulti : multiAgentV2 base overlay path = .inl base := by
    unfold multiAgentV2
    rw [h.multiAgent, if_neg Bool.false_ne_true]
  rw [mergeAt, mergeTomlValuesAtPath, hreplace, hmulti]
  rcases base with _ | _ | _ | _ | _ | _ | t <;> rcases overlay with _ | _ | _ | _ | _ | _ | u
  all_goals try rfl
  have hmerge := mergeWith_mergeTomlValuesAtPath kt path t u
  rw [h.normalizeKeys_eq_self kt, h.normalizeKeys_eq_self kt] at hmerge
  dsimp only
  rw [h.normalizeKeys_eq_self kt, h.normalizeKeys_eq_self kt, hmerge]

/-- Tables that are merged at a path without a rule. -/
def mergedTable (path : List Str) (t u : Table) : Table :=
  mergeWith (fun k => mergeAt kt (path ++ [k]))
    (fun k v => normalizedWithKeyAliases (path ++ [k]) v) t u

/-- Tables are merged key by key. -/
lemma NoRule.mergeAt_tables (h : NoRule path) (t u : Table) :
    mergeAt kt path (.table t) (.table u) = .table (mergedTable kt path t u) :=
  h.mergeAt_eq kt _ _

/-- Anything else is replaced. -/
lemma NoRule.mergeAt_cases (h : NoRule path) (hu : Unaliased path) (base overlay : Value) :
    (∃ t u, base = .table t ∧ overlay = .table u ∧
      mergeAt kt path base overlay = .table (mergedTable kt path t u)) ∨
    mergeAt kt path base overlay = overlay := by
  rw [h.mergeAt_eq kt]
  split
  · exact .inl ⟨_, _, rfl, rfl, rfl⟩
  · exact .inr (hu.normalized_eq_self _)

end

end Config
