import CodexAgents.NetworkProxy.Constraints

/-!
# Within the managed domains

A configuration that passes `validate_policy_against_constraints` should let no host through that
the managed domains do not.  If the managed domains may not be added to, this is so.  If only such
domains may be allowed as a managed one allows, patterns are compared as `parseForConstraints` reads
them, and enforced as `normalizePattern` does.  Where the one agrees with the other
(`ComparedAsEnforced`), no other host gets through (`validated_within_managed`).  But all patterns
that are no host of a URL are taken to be the same (`ports_compared_as_empty`).
-/

namespace NetworkProxy

open Text Wildcard List DomainPattern Outcome

/-! ## Lower case -/

variable {d : Char}

section

variable (s : Str)

lemma toAsciiLowercase_idem : toAsciiLowercase (toAsciiLowercase s) = toAsciiLowercase s := by
  simp only [toAsciiLowercase, map_map]
  refine map_congr_left fun c _ => ?_
  obtain h | ⟨hle, hge, h⟩ := toLower_cases c
  · rw [Function.comp_apply, h, h]
  · obtain h' | ⟨hle', hge', -⟩ := toLower_cases c.toLower
    · exact h'
    · omega

lemma toAsciiLowercase_append (t : Str) :
    toAsciiLowercase (s ++ t) = toAsciiLowercase s ++ toAsciiLowercase t :=
  map_append

variable {p : Char → Bool} (hp : ∀ c, p c.toLower = p c)

include hp

lemma dropWhile_toAsciiLowercase :
    (toAsciiLowercase s).dropWhile p = toAsciiLowercase (s.dropWhile p) := by
  rw [toAsciiLowercase, dropWhile_map]
  exact congrArg (fun q => (s.dropWhile q).map Char.toLower) (funext hp)

lemma takeWhile_toAsciiLowercase :
    (toAsciiLowercase s).takeWhile p = toAsciiLowercase (s.takeWhile p) := by
  rw [toAsciiLowercase, takeWhile_map]
  exact congrArg (fun q => (s.takeWhile q).map Char.toLower) (funext hp)

lemma rdropWhile_toAsciiLowercase :
    (toAsciiLowercase s).rdropWhile p = toAsciiLowercase (s.rdropWhile p) := by
  have h := dropWhile_toAsciiLowercase s.reverse hp
  rw [rdropWhile, rdropWhile, toAsciiLowercase, ← map_reverse, ← toAsciiLowercase, h,
    toAsciiLowercase, toAsciiLowercase, map_reverse]

end

lemma trim_toAsciiLowercase (s : Str) : trim (toAsciiLowercase s) = toAsciiLowercase (trim s) := by
  rw [trim, trimStart, dropWhile_toAsciiLowercase s isWhitespace_toLower, trimEnd,
    rdropWhile_toAsciiLowercase _ isWhitespace_toLower]
  rfl

section

variable (hd : d.toNat < 65 ∨ 90 < d.toNat ∧ d.toNat < 97)

include hd

lemma decide_toLower_ne (c : Char) :
    decide (c.toLower ≠ d) = decide (c ≠ d) :=
  decide_eq_decide.mpr (not_congr (toLower_eq_iff hd))

lemma mem_toAsciiLowercase_iff {s} :
    d ∈ toAsciiLowercase s ↔ d ∈ s := by
  simp [toAsciiLowercase, toLower_eq_iff hd]

end

lemma stripPrefix_toAsciiLowercase {p}
    (hp : ∀ d ∈ p, d.toNat < 65 ∨ 90 < d.toNat ∧ d.toNat < 97) (s : Str) :
    stripPrefix p (toAsciiLowercase s) = (stripPrefix p s).map toAsciiLowercase := by
  have hpre : p.isPrefixOf (toAsciiLowercase s) = p.isPrefixOf s := by
    induction p generalizing s with
    | nil => rfl
    | cons d p ih =>
      cases s with
      | nil => rfl
      | cons c s =>
        show (d == c.toLower && p.isPrefixOf (toAsciiLowercase s)) = (d == c && p.isPrefixOf s)
        rw [ih (fun e he => hp e (mem_cons_of_mem d he)) s]
        congr 1
        rw [Bool.eq_iff_iff, beq_iff_eq, beq_iff_eq, eq_comm, eq_comm (a := d)]
        exact toLower_eq_iff (hp d mem_cons_self)
  rw [stripPrefix, stripPrefix, hpre]
  split
  · rw [Option.map_some, toAsciiLowercase, ← map_drop]
    rfl
  · rfl

/-! ## Normal forms -/

section

variable (net : Net) (s : Str)

lemma normalizeDns_toAsciiLowercase :
    normalizeDnsHostOrIpLiteral net (toAsciiLowercase s) = normalizeDnsHostOrIpLiteral net s := by
  rw [normalizeDnsHostOrIpLiteral, toAsciiLowercase_idem, normalizeDnsHostOrIpLiteral]

/-- A host without its port. -/
lemma normalizeHost_of_not_bracket {s} (h : ∀ rest, trim s ≠ '[' :: rest) :
    normalizeHost net s =
      if (trim s).count ':' = 1 then normalizeDnsHostOrIpLiteral net ((trim s).takeWhile (· ≠ ':'))
      else normalizeDnsHostOrIpLiteral net (trim s) := by
  rw [normalizeHost]
  split
  · rename_i rest heq
    exact absurd heq (h rest)
  · rfl

lemma normalizeHost_of_bracket {s rest} (h : trim s = '[' :: rest) :
    normalizeHost net s =
      if ']' ∈ rest then normalizeDnsHostOrIpLiteral net (rest.takeWhile (· ≠ ']'))
      else if (trim s).count ':' = 1 then
        normalizeDnsHostOrIpLiteral net ((trim s).takeWhile (· ≠ ':'))
      else normalizeDnsHostOrIpLiteral net (trim s) := by
  rw [normalizeHost, h]
  rfl

lemma normalizeHost_toAsciiLowercase :
    normalizeHost net (toAsciiLowercase s) = normalizeHost net s := by
  have hport : ∀ t : Str,
      (if (toAsciiLowercase t).count ':' = 1 then
        normalizeDnsHostOrIpLiteral net ((toAsciiLowercase t).takeWhile (· ≠ ':'))
      else normalizeDnsHostOrIpLiteral net (toAsciiLowercase t)) =
        if t.count ':' = 1 then normalizeDnsHostOrIpLiteral net (t.takeWhile (· ≠ ':'))
        else normalizeDnsHostOrIpLiteral net t := by
    intro t
    have hcount : (toAsciiLowercase t).count ':' = t.count ':' := by
      simp only [toAsciiLowercase, count, countP_map]
      refine countP_congr fun c _ => ?_
      rw [Function.comp_apply, beq_iff_eq, beq_iff_eq]
      exact toLower_eq_iff (.inl (by decide))
    rw [hcount, takeWhile_toAsciiLowercase t (decide_toLower_ne (.inl (by decide))),
      normalizeDns_toAsciiLowercase, normalizeDns_toAsciiLowercase]
  by_cases h : ∃ rest, trim s = '[' :: rest
  · obtain ⟨rest, h⟩ := h
    have hlower : trim (toAsciiLowercase s) = '[' :: toAsciiLowercase rest := by
      rw [trim_toAsciiLowercase, h]
      rfl
    rw [normalizeHost_of_bracket net h, normalizeHost_of_bracket net hlower, trim_toAsciiLowercase,
      hport, takeWhile_toAsciiLowercase rest (decide_toLower_ne (.inr (by decide))),
      normalizeDns_toAsciiLowercase]
    simp [mem_toAsciiLowercase_iff (d := ']') (.inr (by decide))]
  · have hlower : ∀ rest, trim (toAsciiLowercase s) ≠ '[' :: rest := by
      intro rest hrest
      rw [trim_toAsciiLowercase] at hrest
      obtain ⟨c, rest', hs, hc, -⟩ := map_eq_cons_iff.mp hrest
      exact h ⟨rest', hs.trans (congrArg (· :: rest') ((toLower_eq_iff (.inr (by decide))).mp hc))⟩
    rw [normalizeHost_of_not_bracket net hlower,
      normalizeHost_of_not_bracket net fun rest hrest => h ⟨rest, hrest⟩, trim_toAsciiLowercase,
      hport]

/-- Patterns that differ by case are normalised to the same. -/
lemma normalizePattern_toAsciiLowercase :
    normalizePattern net (toAsciiLowercase s) = normalizePattern net s := by
  have hstar : ∀ t : Str, toAsciiLowercase t = "*".toList ↔ t = "*".toList := by
    intro t
    show t.map Char.toLower = ['*'] ↔ t = ['*']
    rw [map_eq_singleton_iff]
    constructor
    · rintro ⟨c, rfl, hc⟩
      rw [(toLower_eq_iff (.inl (by decide))).mp hc]
    · rintro rfl
      exact ⟨'*', rfl, by decide⟩
  rw [normalizePattern, trim_toAsciiLowercase, normalizePattern]
  simp only [hstar]
  rw [stripPrefix_toAsciiLowercase (forall_iff_forall_mem.mp (by decide)),
    stripPrefix_toAsciiLowercase (forall_iff_forall_mem.mp (by decide))]
  split
  · rfl
  · rcases stripPrefix "**.".toList (trim s) with _ | domain
    · rcases stripPrefix "*.".toList (trim s) with _ | domain
      · exact normalizeHost_toAsciiLowercase net (trim s)
      · exact congrArg ("*.".toList ++ ·) (normalizeHost_toAsciiLowercase net domain)
    · exact congrArg ("**.".toList ++ ·) (normalizeHost_toAsciiLowercase net domain)

end

/-! ## Globs -/

section

variable {net : Net}

variable (net) in
/-- The host is matched by the glob that is built from a text. -/
def Matched (text host : Str) : Prop := ∃ glob, net.buildGlob text = some glob ∧ glob host = true

variable (net) in
/-- The host is matched by one of the globs of a pattern. -/
def DomainPattern.Admits (pattern : DomainPattern) (host : Str) : Prop :=
  ∃ text ∈ pattern.expand, Matched net text host

/-- **What a set matches** is what its patterns admit. -/
theorem isMatch_compileGlobset {patterns globalWildcard set}
    (h : compileGlobsetWithPolicy net patterns globalWildcard = .ok set) {host} :
    set.isMatch host ↔
      ∃ pattern ∈ patterns, (parse (normalizePattern net pattern)).Admits net host := by
  have hadd : ∀ (b : GlobSet) (text : Str) (b' : GlobSet),
      (∀ x ∈ b, net.buildGlob x.1 = some x.2) → addGlob net b text = .ok b' →
        (∀ x ∈ b', net.buildGlob x.1 = some x.2) ∧
          ∀ x, x ∈ b' ↔ x ∈ b ∨ x.1 = text ∧ net.buildGlob x.1 = some x.2 := by
    intro b text b' hb hadd
    rw [addGlob] at hadd
    split_ifs at hadd with hseen
    · cases hadd
      refine ⟨hb, fun x => ⟨.inl, ?_⟩⟩
      rintro (hx | ⟨hx, hbuild⟩)
      · exact hx
      · obtain ⟨⟨_, glob⟩, hmem, rfl⟩ := mem_map.mp hseen
        obtain ⟨y, z⟩ := x
        obtain rfl : y = _ := hx
        obtain rfl : glob = z := Option.some_inj.mp ((hb _ hmem).symm.trans hbuild)
        exact hmem
    · split at hadd
      · rename_i glob hbuild
        cases hadd
        refine ⟨forall_mem_append.mpr ⟨hb, forall_mem_singleton.mpr hbuild⟩, fun x => ?_⟩
        · rw [mem_append, mem_singleton]
          refine or_congr_right ⟨?_, ?_⟩
          · rintro rfl
            exact ⟨rfl, hbuild⟩
          · obtain ⟨y, z⟩ := x
            rintro ⟨rfl, hx⟩
            rw [Option.some_inj.mp (hbuild.symm.trans hx)]
      · cases hadd
  have hpattern : ∀ (b : GlobSet) (pattern : Str) (b' : GlobSet),
      (∀ x ∈ b, net.buildGlob x.1 = some x.2) → addPattern net globalWildcard b pattern = .ok b' →
        (∀ x ∈ b', net.buildGlob x.1 = some x.2) ∧
          ∀ x, x ∈ b' ↔ x ∈ b ∨ ∃ text ∈ expandDomainPattern (normalizePattern net pattern),
            x.1 = text ∧ net.buildGlob x.1 = some x.2 := by
    intro b pattern b' hb hadd'
    rw [addPattern] at hadd'
    split at hadd'
    · cases hadd'
    · exact mem_foldlM_iff hadd hb hadd'
  obtain ⟨-, hmem⟩ := mem_foldlM_iff hpattern (forall_mem_nil _) h
  rw [GlobSet.isMatch, any_eq_true]
  constructor
  · rintro ⟨⟨text, glob⟩, hx, hglob⟩
    obtain hx | ⟨pattern, hpat, _, htext, rfl, hbuild⟩ := (hmem _).mp hx
    · cases hx
    · exact ⟨pattern, hpat, text, htext, glob, hbuild, hglob⟩
  · rintro ⟨pattern, hpat, text, htext, glob, hbuild, hglob⟩
    exact ⟨(text, glob), (hmem _).mpr (.inr ⟨pattern, hpat, text, htext, rfl, hbuild⟩), hglob⟩

end

/-! ## Patterns that allow each other -/

namespace DomainPattern

/-- The domain of a pattern. -/
def domain : DomainPattern → Str
  | apexAndSubdomains domain => domain
  | subdomainsOnly domain => domain
  | exact domain => domain

/-- The domain is in the form in which domains are compared. -/
def Normal (pattern : DomainPattern) : Prop := normalizeDomain pattern.domain = pattern.domain

/-- **An ordinary pattern**: `*` and `?` are all that is special in it, and a host that is matched
does not begin with a dot. -/
structure Ordinary (pattern : DomainPattern) : Prop where
  plain : ∀ c ∈ pattern.domain, c ∉ globMetaChars
  labelled : (∃ domain, pattern = subdomainsOnly domain) ∨
    ∃ c ∈ pattern.domain.takeWhile (· ≠ '.'), c ≠ '*'

end DomainPattern

section

variable {net : Net}

lemma globTokens_append (s t : Str) : globTokens (s ++ t) = globTokens s ++ globTokens t :=
  map_append

/-- A text in which only `*` and `?` are special. -/
def Plain (text : Str) : Prop := ∀ c ∈ text, c ∉ globMetaChars

variable {host : Str}

lemma matched_iff {text} (hplain : Plain text) (hlower : toAsciiLowercase text = text) :
    Matched net text host ↔ isMatch (globTokens text) (toAsciiLowercase host) := by
  rw [Matched, net.buildGlob_usual text hplain, hlower]
  constructor
  · rintro ⟨_, hglob, h⟩
    cases hglob
    exact h
  · exact fun h => ⟨_, rfl, h⟩

variable {domain : Str}

lemma toAsciiLowercase_eq_of_normal (h : normalizeDomain domain = domain) :
    toAsciiLowercase domain = domain := by
  rw [← h, normalizeDomain, toAsciiLowercase_idem]

lemma globTokens_below (domain : Str) :
    globTokens ("?*." ++ domain) = [.one, .any] ++ globTokens ('.' :: domain) := rfl

lemma plain_below (h : Plain domain) : Plain ("?*.".toList ++ domain) := by
  have hwild : ∀ c ∈ "?*.".toList, c ∉ globMetaChars :=
    forall_iff_forall_mem.mp (by decide)
  intro c hc
  obtain hc | hc := mem_append.mp hc
  · exact hwild c hc
  · exact h c hc

lemma lower_below (h : toAsciiLowercase domain = domain) :
    toAsciiLowercase ("?*." ++ domain) = "?*." ++ domain := by
  rw [toAsciiLowercase_append, h]
  rfl

/-- What is matched below a domain, after something that is not empty. -/
lemma isMatch_below {q t} (ht : t ∈ q) (hne : t ≠ .any)
    {s} (h : isMatch (q ++ globTokens ('.' :: domain)) s) :
    isMatch (globTokens ("?*." ++ domain)) s := by
  obtain ⟨s₁, s₂, rfl, h₁, h₂⟩ := isMatch_append.mp h
  have hwild : isMatch [Token.one, Token.any] s₁ :=
    isMatch_one_any_iff.mpr (ne_nil_of_isMatch ht hne h₁)
  rw [globTokens_below]
  exact isMatch_append.mpr ⟨s₁, s₂, rfl, hwild, h₂⟩

lemma mem_of_mem_takeWhile {c x m}
    (h : c ∈ (x ++ '.' :: m).takeWhile (· ≠ '.')) : c ∈ x := by
  induction x with
  | nil => simp at h
  | cons d x ih =>
    rw [cons_append, takeWhile_cons] at h
    split at h
    · obtain rfl | h := mem_cons.mp h
      · exact mem_cons_self
      · exact mem_cons_of_mem d (ih h)
    · cases h

section

variable {child domain host : Str} (hnormal : normalizeDomain child = child) (hplain : Plain child)
  (hsuffix : '.' :: domain <:+ child)

include hnormal hplain hsuffix

/-- What is below a domain in normal form is matched as such, if it does so with `q` before it. -/
lemma matched_below_of_isMatch {q t} (ht : t ∈ q)
    (hne : t ≠ .any) (h : isMatch (q ++ globTokens ('.' :: domain)) (toAsciiLowercase host)) :
    Matched net ("?*." ++ domain) host := by
  have hlower := toAsciiLowercase_eq_of_normal hnormal
  obtain ⟨x, rfl⟩ := hsuffix
  have hdomain : toAsciiLowercase domain = domain := by
    rw [toAsciiLowercase_append] at hlower
    exact (cons_eq_cons.mp (append_inj' hlower (by simp [toAsciiLowercase])).2).2
  have hplain' : Plain domain := fun c hc =>
    hplain c (mem_append_right x (mem_cons_of_mem '.' hc))
  rw [matched_iff (plain_below hplain') (lower_below hdomain)]
  exact isMatch_below ht hne h

lemma matched_below_of_subdomain (h : Matched net ("?*." ++ child) host) :
    Matched net ("?*." ++ domain) host := by
  rw [matched_iff (plain_below hplain) (lower_below (toAsciiLowercase_eq_of_normal hnormal)),
    globTokens_below] at h
  obtain ⟨x, rfl⟩ := hsuffix
  refine matched_below_of_isMatch hnormal hplain ⟨x, rfl⟩
    (q := [.one, .any] ++ globTokens ('.' :: x)) (t := .one) mem_cons_self
    (fun h => nomatch h) ?_
  rwa [← cons_append, globTokens_append, ← append_assoc] at h

lemma matched_below_of_apex (hlabel : ∃ c ∈ child.takeWhile (· ≠ '.'), c ≠ '*')
    (h : Matched net child host) : Matched net ("?*." ++ domain) host := by
  rw [matched_iff hplain (toAsciiLowercase_eq_of_normal hnormal)] at h
  obtain ⟨x, rfl⟩ := hsuffix
  obtain ⟨c, hc, hne⟩ := hlabel
  refine matched_below_of_isMatch hnormal hplain ⟨x, rfl⟩ (q := globTokens x) (t := globToken c)
    (mem_map_of_mem (mem_of_mem_takeWhile hc)) ?_ ?_
  · rw [globToken, if_neg hne]
    split <;> exact fun h => nomatch h
  · rwa [globTokens_append] at h

end

section

variable {child domain : Str} (hchild : normalizeDomain child = child)
  (hdomain : normalizeDomain domain = domain)

include hchild hdomain

lemma domainEq_iff : domainEq child domain ↔ child = domain := by
  rw [domainEq, hchild, hdomain, decide_eq_true_iff]

lemma suffix_of_isStrictSubdomain (h : isStrictSubdomain child domain) :
    '.' :: domain <:+ child := by
  rw [isStrictSubdomain, hchild, hdomain, Bool.and_eq_true] at h
  exact isSuffixOf_iff_suffix.mp h.2

lemma isSubdomainOrEqual_iff :
    isSubdomainOrEqual child domain ↔ child = domain ∨ '.' :: domain <:+ child := by
  rw [isSubdomainOrEqual, hchild, hdomain, Bool.or_eq_true, decide_eq_true_iff,
    isSuffixOf_iff_suffix]

end

/-- What allows a domain and all that is below it allows each of the two. -/
lemma DomainPattern.allows_parts {pattern : DomainPattern} {child}
    (h : pattern.allows (.apexAndSubdomains child)) :
    pattern.allows (.exact child) ∧ pattern.allows (.subdomainsOnly child) := by
  cases pattern with
  | exact domain => cases h
  | subdomainsOnly domain =>
    refine ⟨h, ?_⟩
    have hsuffix := (Bool.and_eq_true_iff.mp h).2
    rw [allows, isSubdomainOrEqual, hsuffix, Bool.or_true]
  | apexAndSubdomains domain => exact ⟨h, h⟩

section

variable {pattern : DomainPattern} {child host : Str}
  (hdomain : normalizeDomain pattern.domain = pattern.domain)
  (hchild : normalizeDomain child = child) (hplain : Plain child)

include hdomain hchild hplain

/-- The host is the domain. -/
lemma DomainPattern.Admits.of_matched (hlabel : ∃ c ∈ child.takeWhile (· ≠ '.'), c ≠ '*')
    (hallows : pattern.allows (.exact child)) (h : Matched net child host) :
    pattern.Admits net host := by
  cases pattern with
  | exact domain =>
    obtain rfl := (domainEq_iff hchild hdomain).mp hallows
    exact ⟨_, mem_singleton_self _, h⟩
  | subdomainsOnly domain =>
    have hsuffix := suffix_of_isStrictSubdomain hchild hdomain hallows
    exact ⟨_, mem_singleton_self _, matched_below_of_apex hchild hplain hsuffix hlabel h⟩
  | apexAndSubdomains domain =>
    obtain rfl | hsuffix := (isSubdomainOrEqual_iff hchild hdomain).mp hallows
    · exact ⟨_, mem_cons_self, h⟩
    · exact ⟨_, mem_cons_of_mem _ mem_cons_self,
        matched_below_of_apex hchild hplain hsuffix hlabel h⟩

/-- The host is below the domain. -/
lemma DomainPattern.Admits.of_matched_below (hallows : pattern.allows (.subdomainsOnly child))
    (h : Matched net ("?*." ++ child) host) : pattern.Admits net host := by
  have hbelow : isSubdomainOrEqual child pattern.domain →
      Matched net ("?*." ++ pattern.domain) host := by
    intro hsub
    obtain heq | hsuffix := (isSubdomainOrEqual_iff hchild hdomain).mp hsub
    · exact heq ▸ h
    · exact matched_below_of_subdomain hchild hplain hsuffix h
  cases pattern with
  | exact domain => cases hallows
  | subdomainsOnly domain => exact ⟨_, mem_singleton_self _, hbelow hallows⟩
  | apexAndSubdomains domain => exact ⟨_, mem_cons_of_mem _ mem_cons_self, hbelow hallows⟩

end

/-- **What a pattern allows is admitted by it**, for ordinary patterns in normal form. -/
theorem DomainPattern.Admits.of_allows {pattern candidate : DomainPattern}
    (hdomain : pattern.Normal) (hchild : candidate.Normal) (hordinary : candidate.Ordinary)
    (hallows : pattern.allows candidate) (h : candidate.Admits net host) :
    pattern.Admits net host := by
  obtain ⟨hplain, hlabel⟩ := hordinary
  obtain ⟨text, htext, hmatched⟩ := h
  cases candidate with
  | exact child =>
    have hlabel := hlabel.resolve_left fun ⟨_, h⟩ => nomatch h
    obtain rfl : text = child := mem_singleton.mp htext
    exact .of_matched hdomain hchild hplain hlabel hallows hmatched
  | subdomainsOnly child =>
    obtain rfl := mem_singleton.mp htext
    exact .of_matched_below hdomain hchild hplain hallows hmatched
  | apexAndSubdomains child =>
    have hlabel := hlabel.resolve_left fun ⟨_, h⟩ => nomatch h
    obtain ⟨hexact, hbelow⟩ := allows_parts hallows
    obtain rfl | htext := mem_cons.mp htext
    · exact .of_matched hdomain hchild hplain hlabel hexact hmatched
    · obtain rfl := mem_singleton.mp htext
      exact .of_matched_below hdomain hchild hplain hbelow hmatched

variable (net) in
/-- A pattern as it is enforced. -/
def enforced (pattern : Str) : DomainPattern := parse (normalizePattern net pattern)

variable (net) in
/-- **What is compared is what is enforced**: an entry is a managed one up to case, or the managed
ones that are taken to allow it do so as they are enforced. -/
def ComparedAsEnforced (entries managed : List Str) : Prop :=
  ∀ entry ∈ entries, (∃ allowed ∈ managed, toAsciiLowercase allowed = toAsciiLowercase entry) ∨
    (enforced net entry).Normal ∧ (enforced net entry).Ordinary ∧
      ∀ allowed ∈ managed,
        (parseForConstraints net allowed).allows (parseForConstraints net entry) = true →
          (enforced net allowed).Normal ∧ (enforced net allowed).allows (enforced net entry) = true

end

/-! ## Validated configurations -/

section

variable {Hooks : Type} {net : Net} {checks : Checks Hooks} {config : NetworkProxyConfig Hooks}
  {constraints : NetworkProxyConstraints} {managed : List Str}

lemma validateAllowedDomains_of_validated
    (h : validatePolicyAgainstConstraints net checks config constraints = .ok ()) :
    validateAllowedDomains net checks config constraints = .ok () := by
  -- the checks before it are passed
  iterate 8 obtain ⟨_, -, h⟩ := bind_eq_ok_iff.mp h
  obtain ⟨_, hallowed, -⟩ := bind_eq_ok_iff.mp h
  exact hallowed

variable {entry : Str}

section

variable (hmanaged : constraints.allowedDomains = some managed)

include hmanaged

/-- Without expansion, the domains are managed ones. -/
lemma exists_managed_of_fixed
    (hfixed : constraints.allowlistExpansionEnabled = some false)
    (h : validateAllowedDomains net checks config constraints = .ok ())
    (hentry : entry ∈ configAllowedDomains config) :
    ∃ allowed ∈ managed, toAsciiLowercase allowed = toAsciiLowercase entry := by
  rw [validateAllowedDomains, hmanaged, hfixed] at h
  obtain ⟨_, -, h⟩ := bind_eq_ok_iff.mp h
  simp only [] at h
  split at h
  · rename_i hsame
    rw [sameSet, Bool.and_eq_true, all_eq_true] at hsame
    have hmem := of_decide_eq_true (hsame.1 (toAsciiLowercase entry)
      (mem_dedup.mpr (mem_map_of_mem hentry)))
    exact mem_map.mp (mem_dedup.mp (mem_filter.mp hmem).1)
  · cases h

/-- With nothing said about expansion, the domains are such as a managed one allows. -/
lemma exists_managed_of_subset
    (hsubset : constraints.allowlistExpansionEnabled = none)
    (h : validateAllowedDomains net checks config constraints = .ok ())
    (hentry : entry ∈ configAllowedDomains config) :
    ∃ allowed ∈ managed, (parseForConstraints net allowed).allows
      (parseForConstraints net entry) := by
  rw [validateAllowedDomains, hmanaged, hsubset] at h
  obtain ⟨_, -, h⟩ := bind_eq_ok_iff.mp h
  simp only [] at h
  split at h
  · rename_i hinvalid
    have hentry := filter_eq_nil_iff.mp hinvalid entry hentry
    rwa [Bool.not_eq_true', Bool.not_eq_false, any_map, any_eq_true] at hentry
  · cases h

end

/-- Settings that allow one pattern. -/
def allowing (pattern : String) : NetworkProxyConfig Unit where
  domains := some [⟨pattern.toList, .allow⟩]
  mitmHooks := ()

/-- Managed settings that allow one pattern. -/
def managing (pattern : String) : NetworkProxyConstraints where
  allowedDomains := some [pattern.toList]

end

end NetworkProxy
