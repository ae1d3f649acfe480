import CodexAgents.ExecPolicy.Builder

/-!
# Network rules

Two things are done with the hosts of network rules.  `compiled_network_domains` of
`execpolicy/src/policy.rs` makes a list of allowed domains and a list of denied ones from all the
rules, where a later rule takes a host out of the list an earlier one has put it in.  The lists are
what the last rules say (`Compiled`), so that the rules of an overlay go before those below it.

`normalize_network_rule_host` of `execpolicy/src/rule.rs` gives a host its written form.  The host
of a rule that is appended to a file passes it twice, before it is written and when the file is
read.  The second pass may take off more than the first: what is written within brackets, or before
a port or a dot that is taken off, can begin or end in another one (`Bare`).
-/

namespace ExecPolicy

open Text Outcome List

/-! ## Compiled domains -/

/-- A host moves to the end. -/
def upsertDomain (entries : List Str) (host : Str) : List Str := entries.filter (· ≠ host) ++ [host]

/-- What one rule does to the lists of allowed and denied domains. -/
def compileRule (domains : List Str × List Str) (rule : NetworkRule) : List Str × List Str :=
  match rule.decision with
  | .allow => (upsertDomain domains.1 rule.host, domains.2.filter (· ≠ rule.host))
  | .forbidden => (domains.1.filter (· ≠ rule.host), upsertDomain domains.2 rule.host)
  | .prompt => domains

/-- The hosts that are allowed and those that are denied. -/
def Policy.compiledNetworkDomains {A : Type} (policy : Policy A) : List Str × List Str :=
  policy.networkRules.foldl compileRule ([], [])

/-- **The last rule that decides a host** is the one at a position, and this is its decision. -/
structure DecidedAt (rules : List NetworkRule) (host : Str) (i : Nat) (decision : Decision) :
    Prop where
  rule : ∃ rule, rules[i]? = some rule ∧ rule.host = host ∧ rule.decision = decision
  decides : decision ≠ .prompt
  last : ∀ j rule, i < j → rules[j]? = some rule → rule.host = host → rule.decision = .prompt

open DecidedAt

/-- **One list is right for a decision**: it has the hosts that are decided so in the end, each of
them once, in the order of the rules that decide them. -/
structure Lists (rules : List NetworkRule) (decision : Decision) (hosts : List Str) : Prop where
  nodup : hosts.Nodup
  mem : ∀ host, host ∈ hosts ↔ ∃ i, DecidedAt rules host i decision
  ordered : hosts.Pairwise fun host host' =>
    ∀ i i', DecidedAt rules host i decision → DecidedAt rules host' i' decision → i < i'

/-- **The two lists are those of the last decisions**, and between them they have the hosts that any
rule decides. -/
structure Compiled (rules : List NetworkRule) (domains : List Str × List Str) : Prop where
  allowed : Lists rules .allow domains.1
  denied : Lists rules .forbidden domains.2
  disjoint : domains.1.Disjoint domains.2
  union : ∀ host, host ∈ domains.1 ∨ host ∈ domains.2 ↔
    ∃ rule ∈ rules, rule.host = host ∧ rule.decision ≠ .prompt

variable {rules : List NetworkRule}

namespace DecidedAt

variable {host : Str} {i j : Nat} {decision decision' : Decision}

section

variable (h : DecidedAt rules host i decision)
include h

lemma le (h' : DecidedAt rules host j decision') : j ≤ i := by
  by_contra hlt
  rw [not_le] at hlt
  obtain ⟨rule, hrule, hhost, hdecision⟩ := h'.rule
  exact h'.decides (hdecision ▸ h.last j rule hlt hrule hhost)

/-- A host has one last decision. -/
lemma eq (h' : DecidedAt rules host j decision') : decision = decision' := by
  obtain rfl : i = j := le_antisymm (h'.le h) (h.le h')
  obtain ⟨rule, hrule, -, rfl⟩ := h.rule
  obtain ⟨rule', hrule', -, rfl⟩ := h'.rule
  rw [Option.some.inj (hrule.symm.trans hrule')]

lemma lt_length : i < rules.length := by
  obtain ⟨rule, hrule, -⟩ := h.rule
  exact (List.getElem?_eq_some_iff.mp hrule).1

/-- Rules in front only move the position. -/
lemma append_left (front : List NetworkRule) :
    DecidedAt (front ++ rules) host (front.length + i) decision where
  rule := by
    obtain ⟨rule, hrule, hhost, hdecision⟩ := h.rule
    exact ⟨rule, by rw [getElem?_append_right (by omega), Nat.add_sub_cancel_left, hrule],
      hhost, hdecision⟩
  decides := h.decides
  last := by
    intro j rule hlt hrule
    rw [getElem?_append_right (by omega)] at hrule
    exact h.last _ rule (by omega) hrule

end

/-- The rule at the end decides its own host, if it decides anything. -/
lemma concat_self (rule : NetworkRule) (hdecides : rule.decision ≠ .prompt) :
    DecidedAt (rules ++ [rule]) rule.host i decision ↔
      i = rules.length ∧ rule.decision = decision := by
  have hat : DecidedAt (rules ++ [rule]) rule.host rules.length rule.decision :=
    append_left (i := 0) ⟨⟨rule, rfl, rfl, rfl⟩, hdecides, by
      intro j rule' hlt hrule'
      rw [getElem?_eq_none (by simpa [Nat.succ_le_iff] using hlt)] at hrule'
      simp at hrule'⟩ rules
  constructor
  · intro h
    have := h.lt_length
    rw [length_append, length_singleton] at this
    have := h.le hat
    exact ⟨by omega, hat.eq h⟩
  · rintro ⟨rfl, rfl⟩
    exact hat

/-- A rule at the end says nothing about a host that it does not decide. -/
lemma concat_of_not {rule} (hrule : rule.host = host → rule.decision = .prompt) :
    DecidedAt (rules ++ [rule]) host i decision ↔ DecidedAt rules host i decision := by
  have hget : ∀ (j : Nat) rule', (rules ++ [rule])[j]? = some rule' →
      rules[j]? = some rule' ∨ rule' = rule := by
    intro j rule' hrule'
    obtain hlt | hge := lt_or_ge j rules.length
    · exact .inl (by rwa [getElem?_append_left hlt] at hrule')
    · rw [getElem?_append_right hge] at hrule'
      exact .inr (by simpa using mem_of_getElem? hrule')
  constructor
  · intro h
    obtain ⟨rule', hrule', hhost, hdecision⟩ := h.rule
    refine ⟨⟨rule', (hget i rule' hrule').resolve_right ?_, hhost, hdecision⟩, h.decides, ?_⟩
    · rintro rfl
      exact h.decides (hdecision ▸ hrule hhost)
    · intro j rule' hlt hrule'
      exact h.last j rule' hlt (by
        rw [getElem?_append_left (List.getElem?_eq_some_iff.mp hrule').1, hrule'])
  · intro h
    obtain ⟨rule', hrule', hhost, hdecision⟩ := h.rule
    refine ⟨⟨rule', ?_, hhost, hdecision⟩, h.decides, ?_⟩
    · rw [getElem?_append_left h.lt_length, hrule']
    · intro j rule'' hlt hrule'' hhost'
      obtain hold | rfl := hget j rule'' hrule''
      · exact h.last j rule'' hlt hold hhost'
      · exact hrule hhost'

end DecidedAt

namespace Lists

variable {decision : Decision} {hosts : List Str} {rule : NetworkRule}

/-- A rule that decides otherwise takes its host out. -/
lemma remove (h : Lists rules decision hosts) (hdecides : rule.decision ≠ .prompt)
    (hne : rule.decision ≠ decision) :
    Lists (rules ++ [rule]) decision (hosts.filter (· ≠ rule.host)) where
  nodup := h.nodup.filter _
  mem := by
    intro host
    rw [mem_filter, decide_eq_true_iff, h.mem]
    obtain rfl | hother := eq_or_ne rule.host host
    · simp [concat_self rule hdecides, hne]
    · simp [concat_of_not fun heq => absurd heq hother, hother.symm]
  ordered := by
    refine (h.ordered.filter _).imp_of_mem fun {host host'} hmem hmem' hlt i i' hi hi' => ?_
    have hother := of_decide_eq_true (mem_filter.mp hmem).2
    have hother' := of_decide_eq_true (mem_filter.mp hmem').2
    rw [concat_of_not fun heq => absurd heq.symm hother] at hi
    rw [concat_of_not fun heq => absurd heq.symm hother'] at hi'
    exact hlt i i' hi hi'

/-- A rule that decides so puts its host at the end. -/
lemma upsert (h : Lists rules rule.decision hosts) (hdecides : rule.decision ≠ .prompt) :
    Lists (rules ++ [rule]) rule.decision (upsertDomain hosts rule.host) where
  nodup := by
    refine List.Nodup.append (h.nodup.filter _) (nodup_singleton _) ?_
    simp [disjoint_singleton]
  mem := by
    intro host
    rw [upsertDomain, mem_append, mem_singleton, mem_filter, decide_eq_true_iff, h.mem]
    obtain rfl | hother := eq_or_ne rule.host host
    · simp [concat_self rule hdecides]
    · simp [concat_of_not fun heq => absurd heq hother, hother.symm]
  ordered := by
    have hold : ∀ host ∈ hosts.filter (· ≠ rule.host), ∀ i,
        DecidedAt (rules ++ [rule]) host i rule.decision ↔
          DecidedAt rules host i rule.decision := by
      intro host hmem i
      have hother := of_decide_eq_true (mem_filter.mp hmem).2
      exact concat_of_not fun heq => absurd heq.symm hother
    refine pairwise_append.mpr ⟨?_, pairwise_singleton _ _, ?_⟩
    · refine (h.ordered.filter _).imp_of_mem fun {host host'} hmem hmem' hlt i i' hi hi' => ?_
      exact hlt i i' ((hold host hmem i).mp hi) ((hold host' hmem' i').mp hi')
    · intro host hmem host' hmem' i i' hi hi'
      obtain rfl := mem_singleton.mp hmem'
      obtain ⟨rfl, -⟩ := (concat_self rule hdecides).mp hi'
      exact ((hold host hmem i).mp hi).lt_length

/-- A rule that decides nothing changes nothing. -/
lemma keep (h : Lists rules decision hosts) (hprompt : rule.decision = .prompt) :
    Lists (rules ++ [rule]) decision hosts := by
  have hiff : ∀ host i, DecidedAt (rules ++ [rule]) host i decision ↔
      DecidedAt rules host i decision := fun _ _ => concat_of_not fun _ => hprompt
  exact ⟨h.nodup, by simpa [hiff] using h.mem, by simpa [hiff] using h.ordered⟩

end Lists

variable (rules : List NetworkRule)

/-- A host has a last decision if any rule decides it. -/
lemma exists_decidedAt_iff (host : Str) : (∃ i decision, DecidedAt rules host i decision) ↔
      ∃ rule ∈ rules, rule.host = host ∧ rule.decision ≠ .prompt := by
  constructor
  · rintro ⟨i, decision, h⟩
    obtain ⟨rule, hrule, hhost, rfl⟩ := h.rule
    exact ⟨rule, mem_of_getElem? hrule, hhost, h.decides⟩
  · -- from the end of the list, where the last rule that decides the host is found first
    induction rules using reverseRecOn with
    | nil => simp
    | append_singleton rules last ih =>
      rintro ⟨rule, hmem, hhost, hdecides⟩
      by_cases hlast : last.host = host → last.decision = .prompt
      · have hold : rule ∈ rules := by
          refine (mem_append.mp hmem).resolve_right fun hmem => ?_
          obtain rfl := mem_singleton.mp hmem
          exact hdecides (hlast hhost)
        obtain ⟨i, decision, h⟩ := ih ⟨rule, hold, hhost, hdecides⟩
        exact ⟨i, decision, (concat_of_not hlast).mpr h⟩
      · obtain ⟨rfl, hdecides⟩ := Classical.not_imp.mp hlast
        exact ⟨rules.length, last.decision, (concat_self last hdecides).mpr ⟨rfl, rfl⟩⟩

/-- Both lists are right after any rules. -/
lemma lists_foldl_compileRule : Lists rules .allow (rules.foldl compileRule ([], [])).1 ∧
      Lists rules .forbidden (rules.foldl compileRule ([], [])).2 := by
  induction rules using reverseRecOn with
  | nil =>
    have hnone : ∀ host i decision, ¬ DecidedAt [] host i decision :=
      fun _ _ _ h => absurd h.lt_length (Nat.not_lt_zero _)
    exact ⟨⟨.nil, by simp [hnone], .nil⟩, ⟨.nil, by simp [hnone], .nil⟩⟩
  | append_singleton rules rule ih =>
    rw [foldl_append, foldl_cons, foldl_nil, compileRule]
    split <;> rename_i hdecision
    · exact ⟨hdecision ▸ (hdecision ▸ ih.1).upsert (by simp [hdecision]),
        ih.2.remove (by simp [hdecision]) (by simp [hdecision])⟩
    · exact ⟨ih.1.remove (by simp [hdecision]) (by simp [hdecision]),
        hdecision ▸ (hdecision ▸ ih.2).upsert (by simp [hdecision])⟩
    · exact ⟨ih.1.keep hdecision, ih.2.keep hdecision⟩

lemma compiled_foldl_compileRule : Compiled rules (rules.foldl compileRule ([], [])) := by
  obtain ⟨hallowed, hdenied⟩ := lists_foldl_compileRule rules
  refine ⟨hallowed, hdenied, ?_, ?_⟩
  · intro host hmem hmem'
    obtain ⟨i, h⟩ := (hallowed.mem host).mp hmem
    obtain ⟨i', h'⟩ := (hdenied.mem host).mp hmem'
    exact absurd (h.eq h') (by decide)
  · intro host
    rw [hallowed.mem, hdenied.mem, ← exists_decidedAt_iff]
    constructor
    · rintro (⟨i, h⟩ | ⟨i, h⟩)
      exacts [⟨i, _, h⟩, ⟨i, _, h⟩]
    · rintro ⟨i, decision, h⟩
      cases decision with
      | allow => exact .inl ⟨i, h⟩
      | forbidden => exact .inr ⟨i, h⟩
      | prompt => exact absurd rfl h.decides

/-- **The compiled domains are those of the last decisions**, and over any other policy the last
decisions of an overlay stay. -/
theorem compiledNetworkDomains_compiled {A : Type} (order : PolicyOrder A)
    (policy overlay : Policy A) :
    Compiled policy.networkRules policy.compiledNetworkDomains ∧
      ∀ host i decision, DecidedAt overlay.networkRules host i decision →
        (host ∈ (policy.mergeOverlay order overlay).compiledNetworkDomains.1 ↔ decision = .allow) ∧
        (host ∈ (policy.mergeOverlay order overlay).compiledNetworkDomains.2 ↔
          decision = .forbidden) := by
  refine ⟨compiled_foldl_compileRule _, fun host i decision h => ?_⟩
  have hmerged := lists_foldl_compileRule (policy.mergeOverlay order overlay).networkRules
  have hat := h.append_left policy.networkRules
  have hiff : ∀ decision', (∃ j, DecidedAt (policy.networkRules ++ overlay.networkRules) host j
      decision') ↔ decision = decision' := by
    intro decision'
    constructor
    · rintro ⟨j, h'⟩
      exact hat.eq h'
    · rintro rfl
      exact ⟨_, hat⟩
  exact ⟨(hmerged.1.mem host).trans (hiff .allow), (hmerged.2.mem host).trans (hiff .forbidden)⟩

/-! ## What is written around a host -/

/-- No port stands at the end. -/
def Portless (host : Str) : Prop :=
  ∀ candidate port, host = candidate ++ ':' :: port → ':' ∉ candidate → candidate ≠ [] →
    isPort port = false

/-- **A text has brackets, with a port behind them or not, or a port, or neither of them**, and this
is the part without them. -/
inductive Encloses : Str → Str → Prop
  | bracketed {part rest : Str} (closed : ']' ∉ part)
      (ends : rest = [] ∨ ∃ port, rest = ':' :: port ∧ isPort port) :
      Encloses ('[' :: (part ++ ']' :: rest)) part
  | port {part port : Str} (start : part.head? ≠ some '[') (colon : ':' ∉ part) (ne : part ≠ [])
      (digits : isPort port) : Encloses (part ++ ':' :: port) part
  | plain {part : Str} (start : part.head? ≠ some '[') (portless : Portless part) :
      Encloses part part

/-- **The host as it stands in a text**, between blanks, and with dots at the end. -/
def Spells (raw host : Str) : Prop :=
  ∃ front blanks dots, Encloses (trim raw) (front ++ (host ++ (blanks ++ dots))) ∧
    (∀ c ∈ front, isWhitespace c) ∧ (∀ c ∈ blanks, isWhitespace c) ∧ (∀ c ∈ dots, c = '.') ∧
    host ≠ [] ∧ (∀ c ∈ host, isWhitespace c = false) ∧ (blanks = [] → host.getLast? ≠ some '.')

/-- **Nothing is left to take off**: no bracket in front, no port, no dot at the end. -/
structure Bare (host : Str) : Prop where
  bracket : host.head? ≠ some '['
  port : Portless host
  dot : host.getLast? ≠ some '.'

lemma splitOnce_append {c s t} (hs : c ∉ s) : splitOnce c (s ++ c :: t) = some (s, t) := by
  have hpos : ∀ d ∈ s, decide (d ≠ c) := fun d hd => decide_eq_true fun heq => hs (heq ▸ hd)
  rw [splitOnce, if_pos (by simp), takeWhile_append_of_pos hpos, dropWhile_append_of_pos hpos]
  simp

lemma rsplitOnce_append {c s t} (ht : c ∉ t) :
    rsplitOnce c (s ++ c :: t) = some (s, t) := by
  have hpos : ∀ d ∈ t.reverse, decide (d ≠ c) := by
    intro d hd
    exact decide_eq_true fun heq => ht (heq ▸ mem_reverse.mp hd)
  rw [rsplitOnce, if_pos (by simp), rdropWhile, rtakeWhile, reverse_append,
    reverse_cons, append_assoc, dropWhile_append_of_pos hpos,
    takeWhile_append_of_pos hpos]
  simp

lemma not_mem_of_isPort {port} (hport : isPort port) : ':' ∉ port := by
  intro hmem
  rw [isPort, Bool.and_eq_true, all_eq_true] at hport
  exact absurd (hport.2 ':' hmem) (by decide)

section

variable {raw text part host : Str}

lemma stripNetworkRulePort_bracket {rest} (hpart : ']' ∉ part) :
    stripNetworkRulePort raw ('[' :: (part ++ ']' :: rest)) = .ok host ↔
      host = part ∧ (rest = [] ∨ ∃ port, rest = ':' :: port ∧ isPort port) := by
  have hends : ¬ (rest ≠ [] ∧ ¬ (stripPrefix [':'] rest).any isPort) ↔
      rest = [] ∨ ∃ port, rest = ':' :: port ∧ isPort port := by
    rw [not_and_or, not_not, not_not, Option.any_eq_true]
    simp only [stripPrefix_eq_some_iff, singleton_append]
  rw [stripNetworkRulePort, stripPrefix_cons_self]
  dsimp only
  rw [splitOnce_append hpart]
  dsimp only
  rw [← hends]
  split_ifs with hrest
  · exact iff_of_false (fun h => by cases h) fun h => h.2 hrest
  · rw [Except.ok.injEq, eq_comm, and_iff_left hrest]

lemma stripNetworkRulePort_port (hhead : text.head? ≠ some '[') {candidate port}
    (heq : text = candidate ++ ':' :: port) (hcandidate : ':' ∉ candidate) (hne : candidate ≠ [])
    (hport : isPort port) : stripNetworkRulePort raw text = .ok candidate := by
  have hcount : text.count ':' = 1 := by
    rw [heq, count_append, count_cons_self, count_eq_zero_of_not_mem hcandidate,
      count_eq_zero_of_not_mem (not_mem_of_isPort hport)]
  rw [stripNetworkRulePort, stripPrefix_eq_none_of_head rfl hhead]
  dsimp only
  rw [if_pos hcount, heq, rsplitOnce_append (not_mem_of_isPort hport)]
  dsimp only
  rw [if_pos ⟨hne, hport⟩]

lemma stripNetworkRulePort_self (hhead : text.head? ≠ some '[') (hport : Portless text) :
    stripNetworkRulePort raw text = .ok text := by
  rw [stripNetworkRulePort, stripPrefix_eq_none_of_head rfl hhead]
  dsimp only
  split_ifs with hcount
  · obtain ⟨candidate, port, heq, hcandidate⟩ :=
      eq_append_cons_of_mem (count_pos_iff.mp (hcount ▸ Nat.one_pos))
    have hone : ':' ∉ port := by
      rw [heq, count_append, count_cons_self] at hcount
      exact count_eq_zero.mp (by omega)
    have hnot : ¬ (candidate ≠ [] ∧ isPort port) := by
      rintro ⟨hne, hdigits⟩
      rw [hport candidate port heq hcandidate hne] at hdigits
      simp at hdigits
    rw [heq, rsplitOnce_append hone]
    dsimp only
    rw [if_neg hnot]
  · rfl

lemma stripNetworkRulePort_eq_ok_iff :
    stripNetworkRulePort raw text = .ok part ↔ Encloses text part := by
  constructor
  · intro h
    by_cases hhead : text.head? = some '['
    · obtain ⟨s, rfl⟩ := head?_eq_some_iff.mp hhead
      by_cases hmem : ']' ∈ s
      · obtain ⟨inside, rest, rfl, hinside⟩ := eq_append_cons_of_mem hmem
        obtain ⟨rfl, hends⟩ := (stripNetworkRulePort_bracket hinside).mp h
        exact .bracketed hinside hends
      · rw [stripNetworkRulePort, stripPrefix_cons_self] at h
        dsimp only at h
        rw [splitOnce, if_neg hmem] at h
        cases h
    by_cases hport : Portless text
    · cases (stripNetworkRulePort_self hhead hport).symm.trans h
      exact .plain hhead hport
    · simp only [Portless, not_forall, Bool.not_eq_false] at hport
      obtain ⟨candidate, port, rfl, hcandidate, hne, hdigits⟩ := hport
      cases (stripNetworkRulePort_port hhead rfl hcandidate hne hdigits).symm.trans h
      exact .port (by rwa [head?_append_of_ne_nil _ hne] at hhead) hcandidate hne hdigits
  · rintro (⟨hpart, hends⟩ | ⟨hhead, hcolon, hne, hdigits⟩ | ⟨hhead, hport⟩)
    · exact (stripNetworkRulePort_bracket hpart).mpr ⟨rfl, hends⟩
    · exact stripNetworkRulePort_port (by rwa [head?_append_of_ne_nil _ hne]) rfl hcolon hne hdigits
    · exact stripNetworkRulePort_self hhead hport

lemma Encloses.sublist (h : Encloses text part) : part.Sublist text := by
  obtain ⟨-, -⟩ | ⟨-, -, -, -⟩ | ⟨-, -⟩ := h
  · exact (sublist_append_left part _).cons _
  · exact sublist_append_left part _
  · exact Sublist.refl _

/-- Nothing is taken off a text without brackets and port only. -/
lemma Encloses.start_and_portless (h : Encloses text part) (hle : text.length ≤ part.length) :
    part = text ∧ text.head? ≠ some '[' ∧ Portless text := by
  obtain ⟨-, -⟩ | ⟨-, -, -, -⟩ | ⟨hhead, hport⟩ := h
  · rw [length_cons, length_append] at hle
    omega
  · rw [length_append, length_cons] at hle
    omega
  · exact ⟨rfl, hhead, hport⟩

/-! ## Blanks and dots -/

lemma rdropWhile_append_of_pos {p : Char → Bool} (s : Str) {t : Str} (ht : ∀ c ∈ t, p c) :
    (s ++ t).rdropWhile p = s.rdropWhile p := by
  rw [rdropWhile, reverse_append, dropWhile_append_of_pos (by simpa using ht), rdropWhile]

lemma rdropWhile_dot_eq_self_iff :
    text.rdropWhile (· = '.') = text ↔ text.getLast? ≠ some '.' := by
  obtain rfl | ⟨s, c, rfl⟩ := eq_nil_or_concat' text
  · simp
  · simp [rdropWhile_eq_self_iff]

lemma trim_sublist (s : Str) : (trim s).Sublist s :=
  Sublist.trans (IsPrefix.sublist <| rdropWhile_prefix _ _) (dropWhile_suffix _).sublist

/-- What is left without dots at the end, and then without blanks. -/
lemma trim_rdropWhile_eq {front blanks dots} (hfront : ∀ c ∈ front, isWhitespace c)
    (hblanks : ∀ c ∈ blanks, isWhitespace c) (hdots : ∀ c ∈ dots, c = '.') (hne : host ≠ [])
    (hhost : ∀ c ∈ host, isWhitespace c = false) (hlast : blanks = [] → host.getLast? ≠ some '.') :
    trim ((front ++ (host ++ (blanks ++ dots))).rdropWhile (· = '.')) = host := by
  have hdot : (front ++ (host ++ blanks)).getLast? ≠ some '.' := by
    obtain rfl | hblank := eq_or_ne blanks []
    · rw [append_nil, getLast?_append_of_ne_nil _ hne]
      exact hlast rfl
    · rw [getLast?_append_of_ne_nil _ (by simp [hne]), getLast?_append_of_ne_nil _ hblank]
      exact fun h => absurd (hblanks _ (mem_of_getLast? h)) (by decide)
  rw [← append_assoc host, ← append_assoc front, rdropWhile_append_of_pos _ (by simpa using hdots),
    rdropWhile_dot_eq_self_iff.mpr hdot, trim, trimStart, dropWhile_append_of_pos hfront]
  obtain ⟨c, rest, rfl⟩ := exists_cons_of_ne_nil hne
  rw [cons_append, dropWhile_cons_of_neg (by simp [hhost c mem_cons_self]), ← cons_append, trimEnd,
    rdropWhile_append_of_pos _ hblanks]
  exact trimEnd_eq_self fun c hc => hhost c (mem_of_getLast? hc)

lemma exists_blanks_dots (hne : trim (part.rdropWhile (· = '.')) ≠ []) :
    ∃ front blanks dots, part = front ++ (trim (part.rdropWhile (· = '.')) ++ (blanks ++ dots)) ∧
      (∀ c ∈ front, isWhitespace c) ∧ (∀ c ∈ blanks, isWhitespace c) ∧ (∀ c ∈ dots, c = '.') ∧
      (blanks = [] → (trim (part.rdropWhile (· = '.'))).getLast? ≠ some '.') := by
  have hdots : part.rdropWhile (· = '.') ++ part.rtakeWhile (· = '.') = part :=
    rdropWhile_append_rtakeWhile
  have hlast := rdropWhile_dot_eq_self_iff.mp
    (rdropWhile_idempotent (fun c => decide (c = '.')) part)
  generalize part.rdropWhile (fun c => decide (c = '.')) = dotless at *
  have hfront : dotless.takeWhile isWhitespace ++ trimStart dotless = dotless :=
    takeWhile_append_dropWhile
  have hblanks : trim dotless ++ (trimStart dotless).rtakeWhile isWhitespace = trimStart dotless :=
    rdropWhile_append_rtakeWhile
  refine ⟨dotless.takeWhile isWhitespace, (trimStart dotless).rtakeWhile isWhitespace,
    part.rtakeWhile (· = '.'), ?_, fun c => mem_takeWhile_imp,
    fun c => mem_rtakeWhile_imp, fun c hc => ?_, ?_⟩
  · rw [← append_assoc (trim dotless), hblanks, ← append_assoc, hfront]
    exact hdots.symm
  · simpa using mem_rtakeWhile_imp hc
  · intro hnil
    rw [hnil, append_nil] at hblanks
    rw [← hfront, ← hblanks, getLast?_append_of_ne_nil _ hne] at hlast
    exact hlast

end

/-! ## Lower case -/

variable {s : Str}

lemma mem_map_toLower {c : Char} (hc : c.toNat < 65 ∨ 90 < c.toNat ∧ c.toNat < 97) :
    c ∈ s.map Char.toLower ↔ c ∈ s := by
  simp only [mem_map, toLower_eq_iff hc, exists_eq_right]

lemma isPort_map_toLower : isPort (s.map Char.toLower) = isPort s := by
  have hdigit : ∀ c : Char, c.toLower.isDigit = c.isDigit := by
    intro c
    obtain h | ⟨hle, hge, h⟩ := toLower_cases c
    · rw [h]
    · have hfalse : ∀ d : Char, 65 ≤ d.toNat → d.isDigit = false := by
        intro d hd
        refine Bool.and_eq_false_iff.mpr (.inr (decide_eq_false fun hnine => ?_))
        exact absurd (show d.toNat ≤ 57 from hnine) (by omega)
      rw [hfalse c hle, hfalse c.toLower (by omega)]
  simp only [isPort, ne_eq, map_eq_nil_iff, all_map, Function.comp_def, hdigit]

lemma portless_map_toLower : Portless (s.map Char.toLower) ↔ Portless s := by
  constructor
  · rintro h candidate port rfl hcandidate hne
    rw [← isPort_map_toLower]
    refine h (candidate.map Char.toLower) _ (by rw [map_append, map_cons]; rfl) ?_ (by simpa)
    rwa [mem_map_toLower (by decide)]
  · rintro h _ _ heq hcandidate hne
    obtain ⟨candidate, rest, rfl, rfl, hrest⟩ := map_eq_append_iff.mp heq
    obtain ⟨c, port, rfl, hc, rfl⟩ := map_eq_cons_iff.mp hrest
    obtain rfl := (toLower_eq_iff (by decide)).mp hc
    rw [mem_map_toLower (by decide)] at hcandidate
    rw [isPort_map_toLower]
    exact h candidate port rfl hcandidate (by simpa using hne)

lemma bare_map_toLower : Bare (s.map Char.toLower) ↔ Bare s := by
  have hhead : (s.map Char.toLower).head? = some '[' ↔ s.head? = some '[' := by
    simp only [head?_map, Option.map_eq_some_iff,
      toLower_eq_iff (d := '[') (by decide), exists_eq_right]
  have hlast : (s.map Char.toLower).getLast? = some '.' ↔ s.getLast? = some '.' := by
    simp only [getLast?_map, Option.map_eq_some_iff, toLower_eq_iff (d := '.') (by decide),
      exists_eq_right]
  constructor
  · rintro ⟨hbracket, hport, hdot⟩
    exact ⟨fun h => hbracket (hhead.mpr h), portless_map_toLower.mp hport,
      fun h => hdot (hlast.mpr h)⟩
  · rintro ⟨hbracket, hport, hdot⟩
    exact ⟨fun h => hbracket (hhead.mp h), portless_map_toLower.mpr hport,
      fun h => hdot (hlast.mp h)⟩

/-! ## Normalised hosts -/

/-- The hosts that are accepted, and what the result is made of. -/
lemma normalizeNetworkRuleHost_eq_ok_iff {raw host} :
    normalizeNetworkRuleHost raw = .ok host ↔
      trim raw ≠ [] ∧ ('/' ∉ trim raw ∧ '?' ∉ trim raw ∧ '#' ∉ trim raw) ∧
      ∃ part, Encloses (trim raw) part ∧
        host = (trim (part.rdropWhile (· = '.'))).map Char.toLower ∧
        host ≠ [] ∧ '*' ∉ host ∧ host.any isWhitespace = false := by
  have hscheme : ("://" <:+: trim raw ∨ '/' ∈ trim raw ∨ '?' ∈ trim raw ∨ '#' ∈ trim raw) ↔
      ¬ ('/' ∉ trim raw ∧ '?' ∉ trim raw ∧ '#' ∉ trim raw) := by
    have hslash : "://" <:+: trim raw → '/' ∈ trim raw := fun h => h.subset (by decide)
    tauto
  simp only [normalizeNetworkRuleHost, throw, throwThe, MonadExceptOf.throw, bind, pure,
    Except.pure, ite_error_eq_ok_iff, bind_eq_ok_iff, hscheme, not_not,
    stripNetworkRulePort_eq_ok_iff]
  refine and_congr_right fun _ => and_congr_right fun _ => exists_congr fun part =>
    and_congr_right fun _ => ?_
  constructor
  · rintro ⟨hempty, hstar, hspace, hhost⟩
    obtain rfl := Except.ok.inj hhost
    exact ⟨rfl, hempty, hstar, Bool.eq_false_iff.mpr hspace⟩
  · rintro ⟨rfl, hempty, hstar, hspace⟩
    exact ⟨hempty, hstar, Bool.eq_false_iff.mp hspace, rfl⟩

section

variable {raw host : Str} (h : normalizeNetworkRuleHost raw = .ok host)
include h

/-- The host in the text is what becomes the result. -/
lemma spells_normalizeNetworkRuleHost :
    ∃ body, host = body.map Char.toLower ∧ ∀ body', Spells raw body' ↔ body' = body := by
  obtain ⟨-, -, part, hpart, rfl, hne, -, hspace⟩ := normalizeNetworkRuleHost_eq_ok_iff.mp h
  rw [Ne, map_eq_nil_iff] at hne
  refine ⟨_, rfl, fun body => ⟨?_, ?_⟩⟩
  · rintro ⟨front, blanks, dots, hpart', hfront, hblanks, hdots, hbody, hvisible, hlast⟩
    have hstrip : stripNetworkRulePort raw (trim raw) = .ok part :=
      stripNetworkRulePort_eq_ok_iff.mpr hpart
    cases hstrip.symm.trans (stripNetworkRulePort_eq_ok_iff.mpr hpart')
    exact (trim_rdropWhile_eq hfront hblanks hdots hbody hvisible hlast).symm
  · rintro rfl
    obtain ⟨front, blanks, dots, heq, hfront, hblanks, hdots, hlast⟩ := exists_blanks_dots hne
    refine ⟨front, blanks, dots, heq ▸ hpart, hfront, hblanks, hdots, hne, fun c hc => ?_, hlast⟩
    rw [any_map, any_eq_false] at hspace
    exact Bool.eq_false_iff.mpr fun h => hspace c hc ((isWhitespace_toLower c).trans h)

lemma normalizeNetworkRuleHost_self_iff : normalizeNetworkRuleHost host = .ok host ↔ Bare host := by
  obtain ⟨-, ⟨hslash, hquery, hhash⟩, part, hpart, heq, hne, hstar, hspace⟩ :=
    normalizeNetworkRuleHost_eq_ok_iff.mp h
  have hvisible : ∀ c ∈ host, isWhitespace c = false := by simpa using hspace
  have htrim : trim host = host :=
    trim_eq_self (fun c hc => hvisible c (mem_of_head? hc))
      fun c hc => hvisible c (mem_of_getLast? hc)
  have hlower : host.map Char.toLower = host := by
    rw [heq, map_map]
    exact map_congr_left fun c _ => Char.toLower_toLower_eq_toLower c
  rw [normalizeNetworkRuleHost_eq_ok_iff, htrim]
  constructor
  · rintro ⟨-, -, again, hagain, heq', -⟩
    -- the result is as long as the host, so neither pass has taken anything off
    have hlength : host.length ≤ (again.rdropWhile (· = '.')).length := by
      nth_rewrite 1 [heq', length_map]
      exact (trim_sublist _).length_le
    obtain ⟨rfl, hbracket, hport⟩ := hagain.start_and_portless <| hlength.trans <|
      IsPrefix.length_le <| rdropWhile_prefix _ _
    refine ⟨hbracket, hport, rdropWhile_dot_eq_self_iff.mp (IsPrefix.eq_of_length_le ?_ hlength)⟩
    exact rdropWhile_prefix _ _
  · intro hbare
    have hmem : ∀ {c : Char}, c.toNat < 65 → c ∉ trim raw → c ∉ host := by
      intro c hc hraw
      rw [heq, mem_map_toLower (.inl hc)]
      refine fun hmem => hraw (hpart.sublist.subset ?_)
      exact IsPrefix.subset (by exact rdropWhile_prefix _ _) ((trim_sublist _).subset hmem)
    refine ⟨hne, ⟨hmem (by decide) hslash, hmem (by decide) hquery, hmem (by decide) hhash⟩, host,
      .plain hbare.bracket hbare.port, ?_, hne, hstar, hspace⟩
    rw [rdropWhile_dot_eq_self_iff.mpr hbare.dot, htrim, hlower]

end

/-- **A second pass gives the same host** exactly if the host that stands in the text, without what
is around it, has nothing to take off. -/
theorem normalizeNetworkRuleHost_idempotent_iff (raw host : Str)
    (h : normalizeNetworkRuleHost raw = .ok host) :
    (∃ body, Spells raw body ∧ host = body.map Char.toLower) ∧
      (normalizeNetworkRuleHost host = .ok host ↔ ∀ body, Spells raw body → Bare body) := by
  obtain ⟨body, rfl, hspells⟩ := spells_normalizeNetworkRuleHost h
  refine ⟨⟨body, (hspells body).mpr rfl, rfl⟩, ?_⟩
  rw [normalizeNetworkRuleHost_self_iff h, bare_map_toLower]
  simp only [hspells, forall_eq]

/-- A host in brackets, with a port behind them. -/
theorem normalizeNetworkRuleHost_idempotent_iff_brackets :
    normalizeNetworkRuleHost "[ A. ]:1" = .ok "a." ∧ Spells "[ A. ]:1" "A." ∧
      (normalizeNetworkRuleHost "a." = .ok "a." ↔ ∀ body, Spells "[ A. ]:1" body → Bare body) := by
  have h : normalizeNetworkRuleHost "[ A. ]:1" = .ok "a." := by decide +kernel
  have hspells : Spells "[ A. ]:1" "A." :=
    ⟨[' '], [' '], [], @Encloses.bracketed " A. " [':', '1'] (by decide) (.inr ⟨['1'], rfl, rfl⟩),
      forall_mem_singleton.mpr rfl, forall_mem_singleton.mpr rfl, forall_mem_nil _, by decide,
      forall_mem_cons.mpr ⟨rfl, forall_mem_singleton.mpr rfl⟩, by decide⟩
  exact ⟨h, hspells, (normalizeNetworkRuleHost_idempotent_iff _ _ h).2⟩

/-- Before the dot stands a port, which only the second pass takes off. -/
theorem not_idempotent_port :
    normalizeNetworkRuleHost "example.com:80." = .ok "example.com:80" ∧
      normalizeNetworkRuleHost "example.com:80" = .ok "example.com" := by
  decide +kernel

end ExecPolicy
