import CodexAgents.Config.McpRequirements
import CodexAgents.Config.Merge

/-!
# Requirements for MCP servers, merged

An identity is merged key by key, before it is known which alternative it is.  A key that only the
lower layer has stays.  If that is a text, then the merged identity is read as an alternative that
is not the one of the upper layer (`Shadowed`).  In all other cases the identity of the upper layer
is what is read, if anything is.
-/

namespace Config

open Text Toml Assoc Option

/-! ## Texts in merged tables -/

variable {kt : KeyText} {path : List Str} {t u : Table}

lemma mem_keys_mergedTable (hu : (keys u).Nodup) {k} :
    k ∈ keys (mergedTable kt path t u) ↔ k ∈ keys t ∨ k ∈ keys u :=
  mem_keys_mergeWith _ _ hu

/-- What is under a key of a merged table. -/
lemma get_mergedTable (hu : Unaliased path) (hnodup : (keys u).Nodup) (k : Str) :
    get k (mergedTable kt path t u) =
      mergeValue (fun k => mergeAt kt (path ++ [k])) (fun _ v => v) k
        (get k t) (get k u) := by
  rw [mergedTable, get_mergeWith _ _ t hnodup]
  rcases get k t with _ | v <;> rcases get k u with _ | w
  · rfl
  · exact congrArg some ((hu.append k).normalized_eq_self w)
  · rfl
  · rfl

section

variable (h : Free path)
include h

lemma Free.mergeAt_tables (t u : Table) :
    mergeAt kt path (.table t) (.table u) = .table (mergedTable kt path t u) :=
  h.noRule.mergeAt_tables kt t u

lemma Free.asString_mergeAt (base overlay : Value) :
    (mergeAt kt path base overlay).asString = overlay.asString := by
  obtain ⟨t, u, rfl, rfl, heq⟩ | heq := h.noRule.mergeAt_cases kt h.unaliased base overlay
  all_goals rw [heq]
  rfl

lemma get_mergedTable_of_mem (hu : (keys u).Nodup) {w} (hw : get k u = some w) :
    get k (mergedTable kt path t u) =
      some ((get k t).elim w fun v => mergeAt kt (path ++ [k]) v w) := by
  rw [get_mergedTable h.unaliased hu, hw]
  cases get k t <;> rfl

lemma get_mergedTable_of_notMem {k} (hu : (keys u).Nodup) (hk : k ∉ keys u) :
    get k (mergedTable kt path t u) = get k t := by
  rw [get_mergedTable h.unaliased hu, get_eq_none_iff.mpr hk]
  cases get k t <;> rfl

end

lemma mem_keys_of_textAt {k s} (h : textAt k t = some s) : k ∈ keys t := by
  by_contra hk
  rw [textAt, get_eq_none_iff.mpr hk] at h
  cases h

/-- The upper table decides about the text, if it has the key. -/
lemma textAt_mergedTable (h : Free path) (hu : (keys u).Nodup) (k : Str) :
    textAt k (mergedTable kt path t u) = if k ∈ keys u then textAt k u else textAt k t := by
  by_cases hk : k ∈ keys u
  · obtain ⟨w, hw⟩ := ne_none_iff_exists'.mp (mt get_eq_none_iff.mp (not_not.mpr hk))
    rw [if_pos hk, textAt, textAt, get_mergedTable_of_mem h hu hw, hw]
    obtain _ | v := get k t
    · rfl
    · exact (h.append k).asString_mergeAt v w
  · rw [if_neg hk, textAt, textAt, get_mergedTable_of_notMem h hu hk]

lemma textAt_mergedTable_of_some (h : Free path) (hu : (keys u).Nodup) {k s}
    (hs : textAt k u = some s) : textAt k (mergedTable kt path t u) = some s := by
  rw [textAt_mergedTable h hu, if_pos (mem_keys_of_textAt hs), hs]

/-! ## Matchers -/

/-- If something of this kind is on top, then nothing else of this kind is read. -/
def Keeps {α : Type} (read : Value → Option α) : Prop :=
  ∀ (kt : KeyText) (path : List Str), Free path → ∀ (base overlay : Value) (a b : α),
    read overlay = some a → read (mergeAt kt path base overlay) = some b → b = a

lemma keeps_of_tables {α : Type} {read}
    (h : ∀ (kt : KeyText) (path : List Str), Free path → ∀ (t u : Table) (a b : α),
      read (.table u) = some a → read (.table (mergedTable kt path t u)) = some b → b = a) :
    Keeps read := by
  intro kt path hpath base overlay a b ha hb
  obtain ⟨t, u, rfl, rfl, heq⟩ | heq := hpath.noRule.mergeAt_cases kt hpath.unaliased base overlay
  · exact h kt path hpath t u a b ha (heq ▸ hb)
  · rw [heq, ha] at hb
    exact (some.inj hb).symm

/-- What is read from a table as a command matcher. -/
lemma readMcpServerCommandMatcher_table_iff {c} :
    readMcpServerCommandMatcher (.table t) = some c ↔
      (keys t).Nodup ∧ onlyKeys [executableKey, argsKey] t ∧
        textAt executableKey t = some c.executable ∧
        (get argsKey t).bind readMatchers = some c.args := by
  rw [readMcpServerCommandMatcher]
  split
  · rename_i h
    rw [and_iff_right h.1, and_iff_right h.2]
    simp only [bind_eq_some_iff, map_eq_some_iff]
    constructor
    · rintro ⟨e, he, args, hargs, rfl⟩
      exact ⟨he, hargs⟩
    · rintro ⟨he, hargs⟩
      exact ⟨_, he, _, hargs, rfl⟩
  · rename_i h
    exact iff_of_false (some_ne_none _ ∘ Eq.symm) fun h' => h ⟨h'.1, h'.2.1⟩

/-- The arguments on top replace the others. -/
lemma readMatchers_get_mergedTable (h : Free path) (hu : (keys u).Nodup)
    {args}
    (hargs : (get argsKey u).bind readMatchers = some args) :
    (get argsKey (mergedTable kt path t u)).bind readMatchers = some args := by
  obtain ⟨w, hw, hread⟩ := bind_eq_some_iff.mp hargs
  rw [get_mergedTable_of_mem h hu hw]
  obtain _ | v := get argsKey t
  · exact hread
  · show readMatchers (mergeAt kt (path ++ [argsKey]) v w) = some args
    have h := h.append argsKey
    obtain ⟨_, _, -, rfl, -⟩ | heq := h.noRule.mergeAt_cases kt h.unaliased v w
    · cases hread
    · rw [heq, hread]

lemma keeps_readMcpServerCommandMatcher : Keeps readMcpServerCommandMatcher := by
  refine keeps_of_tables fun kt path h t u a b ha hb => ?_
  rw [readMcpServerCommandMatcher_table_iff] at ha hb
  obtain ⟨hu, -, hexe, hargs⟩ := ha
  obtain ⟨-, -, hexe', hargs'⟩ := hb
  rw [textAt_mergedTable_of_some h hu hexe] at hexe'
  rw [readMatchers_get_mergedTable h hu hargs] at hargs'
  obtain ⟨e, args⟩ := a
  obtain ⟨e', args'⟩ := b
  rw [McpServerCommandMatcher.mk.injEq]
  exact ⟨(some.inj hexe').symm, (some.inj hargs').symm⟩

/-- What is read from a table as a matcher of values. -/
lemma readMcpServerValueMatcher_table_iff {a} :
    readMcpServerValueMatcher (.table t) = some a ↔
      (keys t).Nodup ∧ ∃ tag m s, textAt matchKey t = some tag ∧ matcherOfTag tag = some m ∧
        onlyKeys [matchKey, m.1] t ∧ textAt m.1 t = some s ∧ m.2 s = a := by
  rw [readMcpServerValueMatcher]
  split
  · rename_i h
    rw [and_iff_right h]
    simp only [bind_eq_some_iff]
    constructor
    · rintro ⟨tag, htag, m, hm, hread⟩
      split at hread
      · obtain ⟨s, hs, hmake⟩ := map_eq_some_iff.mp hread
        exact ⟨tag, m, s, htag, hm, ‹_›, hs, hmake⟩
      · cases hread
    · rintro ⟨tag, m, s, htag, hm, honly, hs, hmake⟩
      refine ⟨tag, htag, m, hm, ?_⟩
      rw [if_pos honly, hs, ← hmake]
      rfl
  · rename_i h
    exact iff_of_false (some_ne_none _ ∘ Eq.symm) fun h' => h h'.1

lemma keeps_readMcpServerValueMatcher : Keeps readMcpServerValueMatcher := by
  refine keeps_of_tables fun kt path h t u a b ha hb => ?_
  obtain ⟨hu, tag, m, s, htag, hm, -, hs, rfl⟩ := readMcpServerValueMatcher_table_iff.mp ha
  obtain ⟨-, tag', m', s', htag', hm', -, hs', rfl⟩ := readMcpServerValueMatcher_table_iff.mp hb
  rw [textAt_mergedTable_of_some h hu htag] at htag'
  obtain rfl := some.inj htag'
  obtain rfl := some.inj (hm.symm.trans hm')
  rw [textAt_mergedTable_of_some h hu hs] at hs'
  rw [some.inj hs']

/-! ## The alternatives -/

section

variable {t : Table}

lemma readOnly_table_iff {α : Type} {k read} {a : α} :
    readOnly k read (.table t) = some a ↔
      (keys t).Nodup ∧ onlyKeys [k] t ∧ ∃ w, get k t = some w ∧ read w = some a := by
  rw [readOnly]
  split
  · rename_i h
    rw [and_iff_right h.1, and_iff_right h.2, bind_eq_some_iff]
  · rename_i h
    exact iff_of_false (some_ne_none _ ∘ Eq.symm) fun h' => h ⟨h'.1, h'.2.1⟩

lemma readRaw_of_command (hnodup : (keys t).Nodup) {c} (hc : textAt commandKey t = some c) :
    readRawMcpServerIdentity (.table t) = some (.identity (.command c)) := by
  rw [readRawMcpServerIdentity, readMcpServerIdentity, if_pos hnodup, hc]
  rfl

lemma readRaw_of_url (hnodup : (keys t).Nodup) (hc : textAt commandKey t = none) {s}
    (hs : textAt urlKey t = some s) :
    readRawMcpServerIdentity (.table t) = some (.identity (.url s)) := by
  rw [readRawMcpServerIdentity, readMcpServerIdentity, if_pos hnodup, hc, hs]
  rfl

lemma readRaw_of_no_text (hc : textAt commandKey t = none) (hs : textAt urlKey t = none) :
    readRawMcpServerIdentity (.table t) =
      ((readOnly commandKey readMcpServerCommandMatcher (.table t)).map .command).or
        ((readOnly urlKey readMcpServerValueMatcher (.table t)).map .url) := by
  rw [readRawMcpServerIdentity, readMcpServerIdentity, hc, hs]
  split <;> rfl

/-- Without a text, one of the alternatives with a matcher is read. -/
lemma readRaw_matcher (hc : textAt commandKey t = none) (hs : textAt urlKey t = none)
    (h : readRawMcpServerIdentity (.table t) = some r) :
    (∃ c, r = .command c ∧ readOnly commandKey readMcpServerCommandMatcher (.table t) = some c) ∨
      ∃ v, r = .url v ∧ readOnly urlKey readMcpServerValueMatcher (.table t) = some v := by
  rw [readRaw_of_no_text hc hs] at h
  obtain h | ⟨-, h⟩ := or_eq_some_iff.mp h
  · obtain ⟨c, hread, rfl⟩ := map_eq_some_iff.mp h
    exact .inl ⟨c, rfl, hread⟩
  · obtain ⟨v, hread, rfl⟩ := map_eq_some_iff.mp h
    exact .inr ⟨v, rfl, hread⟩

lemma nodup_of_readRaw {r} (h : readRawMcpServerIdentity (.table t) = some r) : (keys t).Nodup := by
  by_contra hnodup
  rw [readRawMcpServerIdentity, readMcpServerIdentity, if_neg hnodup, readOnly,
    if_neg (fun h => hnodup h.1), readOnly, if_neg (fun h => hnodup h.1)] at h
  cases h

end

/-! ## What shadows the upper layer -/

/-- The lower table has a text that comes before what the upper one has, and that it does not
replace. -/
def Shadowed (t u : Table) : Prop :=
  (textAt commandKey t ≠ none ∧ commandKey ∉ keys u) ∨
    (textAt urlKey t ≠ none ∧ urlKey ∉ keys u ∧ textAt commandKey u = none)

instance (t u : Table) : Decidable (Shadowed t u) := by
  unfold Shadowed
  infer_instance

section

/-- The alternative of the upper table, if it has no text for a command. -/
lemma readRaw_cases (hc : textAt commandKey u = none)
    (hr : readRawMcpServerIdentity (.table u) = some r) :
    (∃ s, r = .identity (.url s) ∧ textAt urlKey u = some s) ∨
      (textAt urlKey u = none ∧ onlyKeys [commandKey] u ∧ commandKey ∈ keys u ∧
        ∃ c, r = .command c ∧ readOnly commandKey readMcpServerCommandMatcher (.table u) = some c) ∨
      (textAt urlKey u = none ∧ onlyKeys [urlKey] u ∧ urlKey ∈ keys u ∧
        ∃ v, r = .url v ∧ readOnly urlKey readMcpServerValueMatcher (.table u) = some v) := by
  rcases hs : textAt urlKey u with _ | s
  · refine .inr ?_
    obtain ⟨c, rfl, hread⟩ | ⟨v, rfl, hread⟩ := readRaw_matcher hc hs hr
    · obtain ⟨-, honly, w, hw, -⟩ := readOnly_table_iff.mp hread
      exact .inl ⟨rfl, honly, mem_keys_of_get hw, c, rfl, hread⟩
    · obtain ⟨-, honly, w, hw, -⟩ := readOnly_table_iff.mp hread
      exact .inr ⟨rfl, honly, mem_keys_of_get hw, v, rfl, hread⟩
  · rw [readRaw_of_url (nodup_of_readRaw hr) hc hs] at hr
    exact .inl ⟨s, (some.inj hr).symm, rfl⟩

lemma Keeps.readOnly {α : Type} {read : Value → Option α} (hread : Keeps read) (k : Str) :
    Keeps (readOnly k read) := by
  refine keeps_of_tables fun kt path h t u a b ha hb => ?_
  obtain ⟨hu, -, w, hw, hwa⟩ := readOnly_table_iff.mp ha
  obtain ⟨-, -, w', hw', hwb⟩ := readOnly_table_iff.mp hb
  rw [get_mergedTable_of_mem h hu hw] at hw'
  obtain rfl := some.inj hw'
  rcases hget : get k t with _ | v
  · rw [hget] at hwb
    exact some.inj (hwb.symm.trans hwa)
  · rw [hget] at hwb
    exact hread kt _ (h.append k) v w a b hwa hwb

/-- **Unless a text of the lower table comes first, the upper identity is read.** -/
theorem readRaw_eq_of_not_shadowed {r r'} (h : Free path)
    (hr : readRawMcpServerIdentity (.table u) = some r)
    (hr' : readRawMcpServerIdentity (.table (mergedTable kt path t u)) = some r')
    (hnot : ¬ Shadowed t u) : r' = r := by
  have hu := nodup_of_readRaw hr
  have hm := nodup_of_readRaw hr'
  rw [Shadowed, not_or, not_and', not_and] at hnot
  rcases hc : textAt commandKey u with _ | c
  · have hc' : textAt commandKey (mergedTable kt path t u) = none := by
      rw [textAt_mergedTable h hu]
      split_ifs with hmem
      · exact hc
      · exact not_not.mp (hnot.1 hmem)
    rcases readRaw_cases hc hr with ⟨s, rfl, hs⟩ | ⟨hs, honly, hmem, c, rfl, hread⟩ |
      ⟨hs, honly, hmem, v, rfl, hread⟩
    · rw [readRaw_of_url hm hc' (textAt_mergedTable_of_some h hu hs)] at hr'
      exact (some.inj hr').symm
    · have hurl : urlKey ∉ keys u := fun hmem => absurd (honly urlKey hmem) (by decide)
      have hs' : textAt urlKey (mergedTable kt path t u) = none := by
        rw [textAt_mergedTable h hu, if_neg hurl]
        by_contra hne
        exact hnot.2 hne ⟨hurl, hc⟩
      obtain ⟨c', rfl, hread'⟩ | ⟨v, rfl, hread'⟩ := readRaw_matcher hc' hs' hr'
      · rw [← h.mergeAt_tables] at hread'
        rw [keeps_readMcpServerCommandMatcher.readOnly commandKey kt path h _ _ c c' hread hread']
      · exact absurd ((readOnly_table_iff.mp hread').2.1 commandKey
          ((mem_keys_mergedTable hu).mpr (.inr hmem))) (by decide)
    · have hs' : textAt urlKey (mergedTable kt path t u) = none := by
        rw [textAt_mergedTable h hu, if_pos hmem, hs]
      obtain ⟨c', rfl, hread'⟩ | ⟨v', rfl, hread'⟩ := readRaw_matcher hc' hs' hr'
      · exact absurd ((readOnly_table_iff.mp hread').2.1 urlKey
          ((mem_keys_mergedTable hu).mpr (.inr hmem))) (by decide)
      · rw [← h.mergeAt_tables] at hread'
        rw [keeps_readMcpServerValueMatcher.readOnly urlKey kt path h _ _ v v' hread hread']
  · rw [readRaw_of_command hm (textAt_mergedTable_of_some h hu hc)] at hr'
    rw [readRaw_of_command hu hc] at hr
    exact some.inj (hr'.symm.trans hr)

/-- A text that comes first is for another kind of server than the upper identity. -/
lemma accepts_ne_of_shadowed {r r'} (h : Free path) (isFullMatch : Str → Str → Bool)
    (hr : readRawMcpServerIdentity (.table u) = some r)
    (hr' : readRawMcpServerIdentity (.table (mergedTable kt path t u)) = some r')
    (hshadowed : Shadowed t u) :
    ∃ server, r'.accepts isFullMatch server ≠ r.accepts isFullMatch server := by
  have hu := nodup_of_readRaw hr
  have hm := nodup_of_readRaw hr'
  by_cases hfirst : textAt commandKey t ≠ none ∧ commandKey ∉ keys u
  · -- the command of the lower layer is read, the upper one is about a URL
    obtain ⟨c, hct⟩ := ne_none_iff_exists'.mp hfirst.1
    have hc : textAt commandKey u = none := by
      rw [textAt, get_eq_none_iff.mpr hfirst.2]
      rfl
    have hc' : textAt commandKey (mergedTable kt path t u) = some c := by
      rw [textAt_mergedTable h hu, if_neg hfirst.2, hct]
    rw [readRaw_of_command hm hc'] at hr'
    obtain rfl := some.inj hr'
    refine ⟨.stdio c [], ?_⟩
    have htrue : (McpServerRequirement.identity (.command c)).accepts isFullMatch (.stdio c []) =
        true := decide_eq_true rfl
    rw [htrue]
    obtain ⟨s, rfl, -⟩ | ⟨-, -, hmem, -⟩ | ⟨-, -, -, v, rfl, -⟩ := readRaw_cases hc hr
    · exact Bool.false_ne_true.symm
    · exact absurd hmem hfirst.2
    · exact Bool.false_ne_true.symm
  · -- the URL of the lower layer is read, the upper one is about a command
    obtain ⟨hne, hurl, hc⟩ := hshadowed.resolve_left hfirst
    obtain ⟨s, hst⟩ := ne_none_iff_exists'.mp hne
    have hs' : textAt urlKey (mergedTable kt path t u) = some s := by
      rw [textAt_mergedTable h hu, if_neg hurl, hst]
    have hc' : textAt commandKey (mergedTable kt path t u) = none := by
      rw [textAt_mergedTable h hu]
      split_ifs with hmem
      · exact hc
      · exact not_not.mp (not_and'.mp hfirst hmem)
    rw [readRaw_of_url hm hc' hs'] at hr'
    obtain rfl := some.inj hr'
    refine ⟨.streamableHttp s, ?_⟩
    have htrue : (McpServerRequirement.identity (.url s)).accepts isFullMatch (.streamableHttp s) =
        true := decide_eq_true rfl
    rw [htrue]
    obtain ⟨s', rfl, hs⟩ | ⟨-, -, -, c, rfl, -⟩ | ⟨-, -, hmem, -⟩ := readRaw_cases hc hr
    · exact absurd (mem_keys_of_textAt hs) hurl
    · exact Bool.false_ne_true.symm
    · exact absurd hmem hurl

end

end Config
