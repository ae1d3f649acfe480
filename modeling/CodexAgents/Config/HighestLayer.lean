import CodexAgents.Lib.Outcome
import CodexAgents.Config.Layers
import CodexAgents.Config.McpMerge

/-!
# The requirement of the highest layer

Of several layers with a requirement for a server, the highest one should decide.  What is read in
the end is merged from all of them.  A layer above without a requirement changes nothing
(`serverIn_foldl`); but a text that a lower layer has, and that the highest one does not replace,
can come before what the highest one says (`ShadowedIn`).
-/

namespace Config

open Text Toml List Option Assoc Outcome

/-- Where a document has its servers. -/
def mcpServersKey : Str := "mcp_servers"

/-- What a document has for a server. -/
def serverIn (name : Str) (t : Table) : Option Value :=
  ((get mcpServersKey t).bind Value.asTable).bind (get name)

/-- A text in the lower identity, if that is a table, comes before the upper one. -/
def ShadowedIdentity (low high : Option Value) : Prop :=
  ∃ t u, low.bind Value.asTable = some t ∧ high.bind Value.asTable = some u ∧ Shadowed t u

/-- What a server has as its identity, if it is a table. -/
def identityIn (server : Option Value) : Option Value :=
  (server.bind Value.asTable).bind (get identityKey)

/-- **A text of the lower document comes before the identity of the upper one.** -/
def ShadowedIn (name : Str) (t u : Table) : Prop :=
  ShadowedIdentity (identityIn (serverIn name t)) (identityIn (serverIn name u))

variable {p : Platform} {hostname : Option Str} {entry : RequirementsLayerEntry}
  {layer : ComposableRequirementsLayer} {t : Table}

/-! ## Servers of a layer -/

section

variable {k : Str}

lemma get_removeNested {k' rest} (hk : k' ≠ k) :
    get k (removeNestedFieldAndPruneEmpty (k' :: rest) t) = get k t := by
  unfold removeNestedFieldAndPruneEmpty
  split
  · rename_i h
    cases h
  · rename_i h
    obtain rfl := (cons.inj h).1
    rw [get_remove, if_neg hk]
  · rename_i h
    obtain rfl := (cons.inj h).1
    split
    · dsimp only
      split
      · rw [get_remove, if_neg hk]
      · rw [get_insert, if_neg hk]
    · rfl

lemma get_materializeResolvedPathRequirements {base}
    (hk : k ∉ pathKeys.map String.toList) :
    get k (materializeResolvedPathRequirements p base t) = get k t := by
  unfold materializeResolvedPathRequirements
  refine List.foldlRecOn (motive := fun u => Assoc.get k u = Assoc.get k t) pathKeys _ rfl
    fun u hu name hname => ?_
  have hne : name.toList ≠ k := fun h => hk (h ▸ mem_map_of_mem hname)
  unfold materializePath
  split
  · rw [get_insert, if_neg hne, hu]
  · exact hu

lemma get_materializeRemoteSandboxConfig {modes}
    (hremote : "remote_sandbox_config" ≠ k) (hmodes : "allowed_sandbox_modes" ≠ k) :
    get k (materializeRemoteSandboxConfig modes t) = get k t := by
  unfold materializeRemoteSandboxConfig
  obtain _ | modes := modes
  · exact (get_remove _ _ _).trans (if_neg hremote)
  · refine (get_insert _ _ _ _).trans ((if_neg hmodes).trans ?_)
    exact (get_remove _ _ _).trans (if_neg hremote)

lemma get_withoutLocalFields : get mcpServersKey (withoutLocalFields entry) =
    get mcpServersKey entry.toml := by
  unfold withoutLocalFields
  split
  · rw [get_remove, if_neg (by decide), get_remove, if_neg (by decide)]
  · rfl

/-- The servers of a layer are merged as they are. -/
lemma get_mcpServers_of_fromEntry (h : fromEntry p hostname entry = .ok layer) :
    get mcpServersKey layer.regularToml = get mcpServersKey entry.toml := by
  unfold fromEntry at h
  dsimp only at h
  split at h
  · obtain rfl := Except.ok.inj h
    show get mcpServersKey (stripSpecialFields _) = _
    unfold stripSpecialFields
    dsimp only
    rw [get_removeNested (by decide), get_removeNested (by decide), get_remove,
      if_neg (by decide), get_remove, if_neg (by decide),
      get_materializeRemoteSandboxConfig (by decide) (by decide),
      get_materializeResolvedPathRequirements (by decide), get_withoutLocalFields]
  · cases h

lemma serverIn_of_fromEntry (h : fromEntry p hostname entry = .ok layer) (name : Str) :
    serverIn name layer.regularToml = serverIn name entry.toml := by
  rw [serverIn, serverIn, get_mcpServers_of_fromEntry h]

lemma nodup_removeNested (h : (keys t).Nodup) (path : List Str) :
    (keys (removeNestedFieldAndPruneEmpty path t)).Nodup := by
  unfold removeNestedFieldAndPruneEmpty
  split
  · exact h
  · exact nodup_keys_remove h _
  · split
    · dsimp only
      split
      · exact nodup_keys_remove h _
      · exact nodup_keys_insert h _ _
    · exact h

lemma nodup_materializeResolvedPathRequirements {base} (h : (keys t).Nodup) :
    (keys (materializeResolvedPathRequirements p base t)).Nodup := by
  refine foldlRecOn (motive := fun u : Table => (keys u).Nodup) _ _ h fun u hu name _ => ?_
  unfold materializePath
  split
  · exact nodup_keys_insert hu _ _
  · exact hu

lemma nodup_materializeRemoteSandboxConfig {modes} (h : (keys t).Nodup) :
    (keys (materializeRemoteSandboxConfig modes t)).Nodup := by
  unfold materializeRemoteSandboxConfig
  obtain _ | modes := modes
  · exact nodup_keys_remove h _
  · exact nodup_keys_insert (nodup_keys_remove h _) _ _

end

/-- **The servers of a document are a map.** -/
structure HasServers (t : Table) : Prop where
  nodup : (keys t).Nodup
  servers : ∀ v, get mcpServersKey t = some v → ∃ u, v = .table u ∧ (keys u).Nodup

lemma exists_servers {v} (h : map mcpServerRequirement v) : ∃ u, v = .table u ∧ (keys u).Nodup := by
  rcases v with _ | _ | _ | _ | _ | _ | u <;> first | cases h | skip
  exact ⟨u, rfl, (map_table_iff.mp h).1⟩

lemma map_mcpServers_of_read {base v} (h : configRequirementsToml p base t)
    (hv : get mcpServersKey t = some v) : map mcpServerRequirement v :=
  (entries_iff.mp (fieldsOf_iff.mp h).1).2 _ v hv

/-- A layer that is accepted has been read. -/
lemma read_of_fromEntry (h : fromEntry p hostname entry = .ok layer) :
    configRequirementsToml p entry.baseDir (withoutLocalFields entry) := by
  unfold fromEntry at h
  dsimp only at h
  split at h
  · assumption
  · cases h

lemma map_mcpServers_of_fromEntry {v} (h : fromEntry p hostname entry = .ok layer)
    (hv : get mcpServersKey entry.toml = some v) : map mcpServerRequirement v :=
  map_mcpServers_of_read (read_of_fromEntry h) (get_withoutLocalFields.trans hv)

lemma hasServers_of_fromEntry (h : fromEntry p hostname entry = .ok layer) :
    HasServers layer.regularToml := by
  refine ⟨?_, fun v hv => ?_⟩
  · have hnodup := (entries_iff.mp (fieldsOf_iff.mp (read_of_fromEntry h)).1).1
    unfold fromEntry at h
    dsimp only at h
    split at h
    · obtain rfl := Except.ok.inj h
      refine nodup_removeNested
        (nodup_removeNested (nodup_keys_remove (nodup_keys_remove ?_ _) _) _) _
      exact nodup_materializeRemoteSandboxConfig (nodup_materializeResolvedPathRequirements hnodup)
    · cases h
  · rw [get_mcpServers_of_fromEntry h] at hv
    exact exists_servers (map_mcpServers_of_fromEntry h hv)

lemma hasServers_of_mapM {entries : List RequirementsLayerEntry} {layers}
    (h : entries.mapM (fromEntry p hostname) = .ok layers) :
    ∀ layer ∈ layers, HasServers layer.regularToml := by
  induction entries generalizing layers with
  | nil =>
    cases h
    exact forall_mem_nil _
  | cons entry entries ih =>
    rw [mapM_cons] at h
    obtain ⟨layer, hlayer, h⟩ := Outcome.bind_eq_ok_iff.mp h
    obtain ⟨rest, hrest, h⟩ := Outcome.bind_eq_ok_iff.mp h
    cases h
    exact forall_mem_cons.mpr ⟨hasServers_of_fromEntry hlayer, ih hrest⟩

/-! ## Servers of what is merged -/

variable {kt : KeyText} {name : Str}

section

variable {u : Table}

/-- What is merged from what two tables have under a key, if anything. -/
def mergeOpt (kt : KeyText) (path : List Str) : Option Value → Option Value → Option Value
  | some v, some w => some (mergeAt kt path v w)
  | none, some w => some w
  | v, none => v

lemma get_mergedTable_of_unaliased {path k} (h : Unaliased (path ++ [k]))
    (hu : (keys u).Nodup) : get k (mergedTable kt path t u) =
      mergeOpt kt (path ++ [k]) (get k t) (get k u) := by
  rw [mergedTable, get_mergeWith _ _ t hu]
  rcases get k t with _ | v <;> rcases get k u with _ | w
  · rfl
  · exact congrArg some (h.normalized_eq_self w)
  · rfl
  · rfl

lemma free_mcpServers : Free [mcpServersKey] := free_of_notMem (by decide)

lemma free_server (name : Str) : Free [mcpServersKey, name] := free_mcpServers.append name

@[simp]
lemma mergeOpt_none_left (path : List Str) (w : Option Value) : mergeOpt kt path none w = w := by
  cases w <;> rfl

@[simp]
lemma mergeOpt_none_right (path : List Str) (v : Option Value) : mergeOpt kt path v none = v := by
  cases v <;> rfl

lemma get_servers_mergedTable (hu : (keys u).Nodup) :
    get mcpServersKey (mergedTable kt [] t u) =
      mergeOpt kt [mcpServersKey] (get mcpServersKey t) (get mcpServersKey u) :=
  get_mergedTable_of_unaliased free_mcpServers.unaliased hu

lemma serverIn_mergedTable (ht : HasServers t) (hu : HasServers u) :
    serverIn name (mergedTable kt [] t u) =
      mergeOpt kt [mcpServersKey, name] (serverIn name t) (serverIn name u) := by
  rw [serverIn, get_servers_mergedTable hu.nodup, serverIn, serverIn]
  rcases ht' : get mcpServersKey t with _ | v
  · rw [mergeOpt_none_left]
    exact (mergeOpt_none_left _ _).symm
  rcases hu' : get mcpServersKey u with _ | w
  · rw [mergeOpt_none_right]
    exact (mergeOpt_none_right _ _).symm
  · obtain ⟨servers, rfl, -⟩ := ht.servers v ht'
    obtain ⟨servers', rfl, hnodup⟩ := hu.servers w hu'
    rw [mergeOpt, free_mcpServers.mergeAt_tables]
    exact get_mergedTable_of_unaliased (free_server name).unaliased hnodup

lemma HasServers.merge (ht : HasServers t) (hu : HasServers u) :
    HasServers (mergedTable kt [] t u) := by
  refine ⟨nodup_keys_mergeWith _ _ ht.nodup u, fun v hv => ?_⟩
  rw [get_servers_mergedTable hu.nodup] at hv
  rcases ht' : get mcpServersKey t with _ | l <;> rcases hu' : get mcpServersKey u with _ | w
  · rw [ht', hu'] at hv
    cases hv
  · rw [ht', hu', mergeOpt_none_left] at hv
    exact hu.servers v (hu'.trans hv)
  · rw [ht', hu', mergeOpt_none_right] at hv
    exact ht.servers v (ht'.trans hv)
  · obtain ⟨servers, rfl, hnodup⟩ := ht.servers l ht'
    obtain ⟨servers', rfl, -⟩ := hu.servers w hu'
    rw [ht', hu', mergeOpt, free_mcpServers.mergeAt_tables] at hv
    exact ⟨_, (some.inj hv).symm, nodup_keys_mergeWith _ _ hnodup servers'⟩

lemma mergeTomlValues_tables (t u : Table) :
    mergeTomlValues kt (.table t) (.table u) = .table (mergedTable kt [] t u) := by
  have hnil : NoRule [] := ⟨forall_iff_forall_mem.mp (by decide), rfl, rfl, rfl, rfl⟩
  exact hnil.mergeAt_tables kt t u

lemma foldl_mergeTomlValues {layers : List ComposableRequirementsLayer}
    (h : ∀ layer ∈ layers, HasServers layer.regularToml) (ht : HasServers t) :
    ∃ u, layers.foldl (fun v layer => mergeTomlValues kt v (.table layer.regularToml)) (.table t) =
      .table u ∧ HasServers u := by
  induction layers generalizing t with
  | nil => exact ⟨t, rfl, ht⟩
  | cons layer layers ih =>
    rw [foldl_cons, mergeTomlValues_tables]
    rw [forall_mem_cons] at h
    exact ih h.2 (ht.merge h.1)

/-- **Layers without a requirement for a server leave it as it is.** -/
theorem serverIn_foldl (kt : KeyText) {layers : List ComposableRequirementsLayer}
    (h : ∀ layer ∈ layers, HasServers layer.regularToml)
    (hname : ∀ layer ∈ layers, serverIn name layer.regularToml = none) (ht : HasServers t) :
    ∃ u, layers.foldl (fun v layer => mergeTomlValues kt v (.table layer.regularToml)) (.table t) =
      .table u ∧ serverIn name u = serverIn name t := by
  induction layers generalizing t with
  | nil => exact ⟨t, rfl, rfl⟩
  | cons layer layers ih =>
    rw [forall_mem_cons] at h hname
    obtain ⟨u, hfold, hserver⟩ := ih h.2 hname.2 (ht.merge h.1)
    refine ⟨u, ?_, ?_⟩
    · rw [foldl_cons, mergeTomlValues_tables, hfold]
    · rw [hserver, serverIn_mergedTable ht h.1, hname.1, mergeOpt_none_right]

end

/-! ## The requirement that is read -/

variable {v : Value}

section

variable {path : List Str} {isFullMatch : Str → Str → Bool} {r : McpServerRequirement}

lemma accepts_iff_of_eq {r'} {P : Prop} (heq : r' = r) (hnot : ¬ P) :
    (∀ server, r'.accepts isFullMatch server = r.accepts isFullMatch server) ↔ ¬ P := by
  subst heq
  exact iff_of_true (fun _ => rfl) hnot

variable {low : Option Value}

/-- What is no table, or on top of what is no table, is not merged. -/
lemma Free.mergeOpt_of_not_tables (h : Free path)
    (hnot : ∀ t u, ¬ (low = some (.table t) ∧ v = .table u)) :
    mergeOpt kt path low (some v) = some v := by
  obtain _ | l := low
  · rfl
  · obtain ⟨t, u, rfl, rfl, -⟩ | heq := h.noRule.mergeAt_cases kt h.unaliased l v
    · exact absurd ⟨rfl, rfl⟩ (hnot t u)
    · exact congrArg some heq

lemma bind_asTable_eq_some_iff {v} :
    v.bind Value.asTable = some t ↔ v = some (.table t) := by
  rw [bind_eq_some_iff]
  simp [Value.asTable_eq_some_iff]

lemma shadowedIdentity_tables_iff {u} :
    ShadowedIdentity (some (.table t)) (some (.table u)) ↔ Shadowed t u := by
  constructor
  · rintro ⟨t', u', ht, hu, h⟩
    obtain rfl := some.inj ht
    obtain rfl := some.inj hu
    exact h
  · exact fun h => ⟨t, u, rfl, rfl, h⟩

lemma identityOf_table_iff :
    identityOf (.table t) = some v ↔ (keys t).Nodup ∧ get identityKey t = some v := by
  rw [identityOf]
  split
  · rename_i h
    rw [and_iff_right h]
  · rename_i h
    exact iff_of_false (some_ne_none v ∘ Eq.symm) fun h' => h h'.1

lemma not_shadowedIdentity (h : ∀ t u, ¬ (low = some (.table t) ∧ v = .table u)) :
    ¬ ShadowedIdentity low (some v) := by
  rintro ⟨t, u, hlow, hhigh, -⟩
  rw [bind_asTable_eq_some_iff] at hlow hhigh
  exact h t u ⟨hlow, some.inj hhigh⟩

variable {w : Value} (h : Free path) (hw : mergeOpt kt path low (some v) = some w)
include h hw

/-- An identity that is merged accepts the same unless it is shadowed. -/
lemma identity_accepts_iff {r'}
    (hr : readRawMcpServerIdentity v = some r) (hr' : readRawMcpServerIdentity w = some r') :
    (∀ server, r'.accepts isFullMatch server = r.accepts isFullMatch server) ↔
      ¬ ShadowedIdentity low (some v) := by
  by_cases htables : ∃ t u, low = some (.table t) ∧ v = .table u
  · obtain ⟨t, u, rfl, rfl⟩ := htables
    obtain rfl := some.inj hw
    rw [h.mergeAt_tables] at hr'
    rw [shadowedIdentity_tables_iff]
    constructor
    · intro hall hs
      obtain ⟨server, hne⟩ := accepts_ne_of_shadowed h isFullMatch hr hr' hs
      exact hne (hall server)
    · intro hnot server
      rw [readRaw_eq_of_not_shadowed h hr hr' hnot]
  · have hnot : ∀ t u, ¬ (low = some (.table t) ∧ v = .table u) :=
      fun t u heq => htables ⟨t, u, heq⟩
    obtain rfl := some.inj ((h.mergeOpt_of_not_tables hnot).symm.trans hw)
    exact accepts_iff_of_eq (some.inj (hr'.symm.trans hr)) (not_shadowedIdentity hnot)

/-- A server that is merged accepts the same unless its identity is shadowed. -/
lemma server_accepts_iff {r'}
    (hr : readMcpServerRequirement v = some r) (hr' : readMcpServerRequirement w = some r') :
    (∀ server, r'.accepts isFullMatch server = r.accepts isFullMatch server) ↔
      ¬ ShadowedIdentity (identityIn low) (identityIn (some v)) := by
  obtain ⟨i, hi, hread⟩ := bind_eq_some_iff.mp hr
  obtain ⟨i', hi', hread'⟩ := bind_eq_some_iff.mp hr'
  by_cases htables : ∃ t u, low = some (.table t) ∧ v = .table u
  · obtain ⟨t, u, rfl, rfl⟩ := htables
    obtain rfl := some.inj hw
    rw [h.mergeAt_tables] at hi'
    obtain ⟨hu, hi⟩ := identityOf_table_iff.mp hi
    obtain ⟨-, hi'⟩ := identityOf_table_iff.mp hi'
    rw [get_mergedTable_of_unaliased (h.append identityKey).unaliased hu, hi] at hi'
    show _ ↔ ¬ ShadowedIdentity (get identityKey t) (get identityKey u)
    rw [hi]
    exact identity_accepts_iff (h.append identityKey) hi' hread hread'
  · have hnot : ∀ t u, ¬ (low = some (.table t) ∧ v = .table u) :=
      fun t u heq => htables ⟨t, u, heq⟩
    obtain rfl := some.inj ((h.mergeOpt_of_not_tables hnot).symm.trans hw)
    refine accepts_iff_of_eq (some.inj (hr'.symm.trans hr)) ?_
    rintro ⟨_, _, hlow, hhigh, -⟩
    obtain ⟨_, hlow, -⟩ := bind_eq_some_iff.mp hlow
    obtain ⟨_, hhigh, -⟩ := bind_eq_some_iff.mp hhigh
    obtain ⟨t, hlow, -⟩ := bind_eq_some_iff.mp hlow
    obtain ⟨u, hhigh, -⟩ := bind_eq_some_iff.mp hhigh
    rw [bind_asTable_eq_some_iff] at hlow hhigh
    exact hnot t u ⟨hlow, some.inj hhigh⟩

end

/-! ## Layers -/

section

lemma get_filterMap_read {servers : Table}
    (h : ∀ e ∈ servers, (readMcpServerRequirement e.2).isSome) :
    get name (servers.filterMap fun e => (readMcpServerRequirement e.2).map fun r => (e.1, r)) =
      (get name servers).bind readMcpServerRequirement := by
  induction servers with
  | nil => rfl
  | cons e servers ih =>
    rw [forall_mem_cons] at h
    obtain ⟨r, hr⟩ := isSome_iff_exists.mp h.1
    rw [filterMap_cons, hr]
    show (if e.1 = name then some r else get name _) =
      (if e.1 = name then some e.2 else get name servers).bind readMcpServerRequirement
    split
    · exact hr.symm
    · exact ih h.2

/-- The requirement that is read for a server. -/
lemma get_mcpServersOf (h : ∀ v, get mcpServersKey t = some v → map mcpServerRequirement v = true) :
    get name (mcpServersOf t) = (serverIn name t).bind readMcpServerRequirement := by
  unfold mcpServersOf serverIn
  rcases hget : get mcpServersKey t with _ | v
  · have hkey : get "mcp_servers".toList t = none := hget
    rw [hkey]
    rfl
  · have hkey : get "mcp_servers".toList t = some v := hget
    have hmap := h v hget
    rw [hkey]
    rcases v with _ | _ | _ | _ | _ | _ | servers <;> first | cases hmap | skip
    exact get_filterMap_read (all_eq_true.mp (Bool.and_eq_true_iff.mp hmap).2)

/-- A layer without a requirement for a server has nothing for it. -/
lemma serverIn_eq_none_of_fromEntry (h : fromEntry p hostname entry = .ok layer)
    (hnone : get name (mcpServersOf entry.toml) = none) :
    serverIn name layer.regularToml = none := by
  rw [serverIn_of_fromEntry h]
  rw [get_mcpServersOf fun v hv => map_mcpServers_of_fromEntry h hv] at hnone
  rcases hserver : serverIn name entry.toml with _ | server
  · rfl
  · obtain ⟨servers, hservers, hname⟩ := bind_eq_some_iff.mp hserver
    have hmap := map_mcpServers_of_fromEntry h (bind_asTable_eq_some_iff.mp hservers)
    have hread := (map_table_iff.mp hmap).2 name server hname
    rw [hserver] at hnone
    rw [mcpServerRequirement, show readMcpServerRequirement server = none from hnone] at hread
    cases hread

variable {layers : List ComposableRequirementsLayer}

lemma mapM_append_cons {lower upper highest}
    (h : (lower ++ highest :: upper).mapM (fromEntry p hostname) = .ok layers) :
    ∃ lowerLayers layer upperLayers, lower.mapM (fromEntry p hostname) = .ok lowerLayers ∧
      fromEntry p hostname highest = .ok layer ∧
      upper.mapM (fromEntry p hostname) = .ok upperLayers ∧
      layers = lowerLayers ++ layer :: upperLayers := by
  rw [mapM_append, mapM_cons] at h
  obtain ⟨lowerLayers, hlower, h⟩ := bind_eq_ok_iff.mp h
  obtain ⟨rest, hrest, h⟩ := bind_eq_ok_iff.mp h
  obtain ⟨layer, hlayer, hrest⟩ := bind_eq_ok_iff.mp hrest
  obtain ⟨upperLayers, hupper, hrest⟩ := bind_eq_ok_iff.mp hrest
  cases hrest
  cases h
  exact ⟨lowerLayers, layer, upperLayers, hlower, hlayer, hupper, rfl⟩

lemma serverIn_eq_none_of_mapM {entries : List RequirementsLayerEntry}
    (h : entries.mapM (fromEntry p hostname) = .ok layers)
    (hnone : ∀ entry ∈ entries, get name (mcpServersOf entry.toml) = none) :
    ∀ layer ∈ layers, serverIn name layer.regularToml = none := by
  induction entries generalizing layers with
  | nil =>
    cases h
    exact forall_mem_nil _
  | cons entry entries ih =>
    rw [forall_mem_cons] at hnone
    rw [mapM_cons] at h
    obtain ⟨layer, hlayer, h⟩ := bind_eq_ok_iff.mp h
    obtain ⟨rest, hrest, h⟩ := bind_eq_ok_iff.mp h
    cases h
    exact forall_mem_cons.mpr
      ⟨serverIn_eq_none_of_fromEntry hlayer hnone.1, ih hrest hnone.2⟩

/-- What composes is read from what is merged. -/
lemma read_of_compose {d out}
    (ht : mergedToml kt layers = .table t) (h : compose kt p d layers = .ok out) :
    configRequirementsToml p none t ∧ out.mcpServers = mcpServersOf t := by
  rw [compose, ht] at h
  dsimp only at h
  split at h
  · rename_i hread
    obtain ⟨hooks, -, h⟩ := bind_eq_ok_iff.mp h
    cases h
    exact ⟨hread, rfl⟩
  · cases h

/-- **The requirement of the highest layer decides just if no text of a lower layer comes before
it.** -/
theorem highest_layer_wins_iff (kt : KeyText) (p : Platform) (d : HookDirectoryField)
    (hostname : Option Str) (isFullMatch : Str → Str → Bool) (name : Str)
    (lower upper : List RequirementsLayerEntry) (highest : RequirementsLayerEntry)
    (out : ConfigRequirementsWithSources) (r : McpServerRequirement)
    (hcompose : composeRequirements kt p d hostname (lower ++ highest :: upper) = .ok out)
    (hhighest : get name (mcpServersOf highest.toml) = some r)
    (hupper : ∀ entry ∈ upper, get name (mcpServersOf entry.toml) = none) :
    ∃ layers t r', lower.mapM (fromEntry p hostname) = .ok layers ∧
      mergedToml kt layers = .table t ∧ get name out.mcpServers = some r' ∧
      ((∀ server, r'.accepts isFullMatch server = r.accepts isFullMatch server) ↔
        ¬ ShadowedIn name t highest.toml) := by
  obtain ⟨all, hall, hcompose⟩ := bind_eq_ok_iff.mp hcompose
  obtain ⟨layers, layer, upperLayers, hlayers, hlayer, hupperLayers, rfl⟩ := mapM_append_cons hall
  have hempty : HasServers [] := ⟨nodup_nil, fun v hv => absurd hv (some_ne_none v).symm⟩
  obtain ⟨t, ht, hservers⟩ : ∃ t, mergedToml kt layers = .table t ∧ HasServers t :=
    foldl_mergeTomlValues (hasServers_of_mapM hlayers) hempty
  have hlayerServers := hasServers_of_fromEntry hlayer
  -- the layers above do not change what is merged up to this one
  obtain ⟨u, hu, hserver⟩ := serverIn_foldl kt (hasServers_of_mapM hupperLayers)
    (serverIn_eq_none_of_mapM hupperLayers hupper) (hservers.merge hlayerServers)
  rw [serverIn_mergedTable hservers hlayerServers, serverIn_of_fromEntry hlayer] at hserver
  have hmerged : mergedToml kt (layers ++ layer :: upperLayers) = .table u := by
    rw [mergedToml, foldl_append, foldl_cons, ← hu, ← mergeTomlValues_tables, ← ht]
    rfl
  obtain ⟨hread, hout⟩ := read_of_compose hmerged hcompose
  rw [get_mcpServersOf fun v hv => map_mcpServers_of_fromEntry hlayer hv] at hhighest
  obtain ⟨v, hv, hr⟩ := bind_eq_some_iff.mp hhighest
  rw [hv] at hserver
  obtain ⟨w, hw⟩ : ∃ w, serverIn name u = some w := by
    rw [hserver]
    rcases serverIn name t with _ | l <;> exact ⟨_, rfl⟩
  obtain ⟨servers, hget, hname⟩ := bind_eq_some_iff.mp hw
  have hmap := map_mcpServers_of_read hread (bind_asTable_eq_some_iff.mp hget)
  obtain ⟨r', hr'⟩ := isSome_iff_exists.mp ((map_table_iff.mp hmap).2 name w hname)
  refine ⟨layers, t, r', hlayers, ht, ?_, ?_⟩
  · rw [hout, get_mcpServersOf fun v hv => map_mcpServers_of_read hread hv, hw]
    exact hr'
  · rw [ShadowedIn, hv]
    exact server_accepts_iff (free_server name) (hserver.symm.trans hw) hr hr'

end

/-! ## A command below a URL -/

/-- A platform on which paths have to be absolute, without hooks. -/
def plainPlatform : Platform where
  absolutePath _ text := if startsWith text ['/'] then some text else none
  absolutePath_absolute base text path h := by
    split at h
    · rename_i habsolute
      obtain rfl := Option.some.inj h
      rw [if_pos habsolute]
      rfl
    · cases h
  denyReadPattern _ _ := true
  hooks _ := none
  rules := anything
  hostnameMatchesAnyPattern _ _ := false

/-- Keys are compared as they are. -/
def plainKeys : KeyText := ⟨id, id⟩

/-- A layer with the identity of one server. -/
def serverLayer (key value : String) : RequirementsLayerEntry :=
  ⟨.unknown, [(mcpServersKey, .table [("docs",
    .table [(identityKey, .table [(key.toList, .string value.toList)])])])], none⟩

/-- **The highest layer has a URL and a lower one a command**: the composed requirement is the one
of the lower layer. -/
theorem command_shadows_url : ∃ out, composeRequirements plainKeys plainPlatform .managedDir none
        [serverLayer "command" "run-docs", serverLayer "url" "https://docs"] = .ok out ∧
      get "docs".toList (mcpServersOf (serverLayer "url" "https://docs").toml) =
        some (.identity (.url "https://docs".toList)) ∧
      get "docs".toList out.mcpServers = some (.identity (.command "run-docs".toList)) :=
  ⟨_, rfl, rfl, rfl⟩

theorem highest_layer_wins_iff_urls :
    ∃ out, composeRequirements plainKeys plainPlatform .managedDir none
        ([serverLayer "url" "https://old"] ++ serverLayer "url" "https://docs" :: []) = .ok out ∧
      ∃ layers t r', [serverLayer "url" "https://old"].mapM (fromEntry plainPlatform none) =
          .ok layers ∧
        mergedToml plainKeys layers = .table t ∧
        get "docs".toList out.mcpServers = some r' ∧
        ((∀ server, r'.accepts (fun _ _ => false) server =
            (McpServerRequirement.identity (.url "https://docs".toList)).accepts
              (fun _ _ => false) server) ↔
          ¬ ShadowedIn "docs".toList t (serverLayer "url" "https://docs").toml) :=
  ⟨_, rfl, highest_layer_wins_iff plainKeys plainPlatform .managedDir none _ "docs".toList
    _ [] (serverLayer "url" "https://docs") _ _ rfl rfl
    fun _ hentry => absurd hentry not_mem_nil⟩

end Config
