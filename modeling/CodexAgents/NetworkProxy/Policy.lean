import CodexAgents.Lib.Text
import CodexAgents.Lib.Wildcard

/-!
# Domain patterns

`network-proxy/src/policy.rs`: the hosts that a proxy lets through are given by patterns such as
`example.com`, `*.example.com` (what is below) and `**.example.com` (both).  For enforcement a
pattern is normalised like a host is (`normalizePattern`) and compiled to globs
(`compileAllowlistGlobset`).  For comparing patterns with each other the domain is read as the host
of a URL (`DomainPattern.parseForConstraints`), and what cannot be read so becomes the empty domain.

What is not of this crate is a parameter (`Net`): reading IP addresses and hosts, and building
globs.  Of globs it is assumed that `*` and `?` have their usual meaning.
-/

namespace NetworkProxy

open Text

/-! ## What is given -/

/-- `str::to_ascii_lowercase`. -/
def toAsciiLowercase (s : Str) : Str := s.map Char.toLower

/-- Without the dots at the end. -/
def trimEndDots (s : Str) : Str := s.rdropWhile (· = '.')

/-- The parts before and after the first occurrence of a delimiter. -/
def splitOnce (delimiter : Str) : Str → Option (Str × Str)
  | [] => if delimiter = [] then some ([], []) else none
  | c :: s =>
    match stripPrefix delimiter (c :: s) with
    | some rest => some ([], rest)
    | none => (splitOnce delimiter s).map fun (before, after) => (c :: before, after)

/-- An address, as its bits. -/
inductive IpAddr where
  | v4 (bits : BitVec 32)
  | v6 (bits : BitVec 128)

/-- What a character of a glob stands for. -/
def globToken (c : Char) : Wildcard.Token Char :=
  if c = '*' then .any else if c = '?' then .one else .lit c

/-- The tokens of a glob. -/
def globTokens (pattern : Str) : List (Wildcard.Token Char) := pattern.map globToken

/-- The letters that have another meaning in globs, apart from `*` and `?`. -/
def globMetaChars : List Char := ['[', ']', '\x7b', '\x7d', '\\', '/']

/-- The parsers and the globs of the libraries. -/
structure Net where
  /-- `str::parse::<IpAddr>`. -/
  parseIpAddr : Str → Option IpAddr
  /-- `url::Host::parse`, and the text of the host. -/
  parseUrlHost : Str → Option Str
  /-- `GlobBuilder::build` for globs that ignore case, and `is_match`. -/
  buildGlob : Str → Option (Str → Bool)
  /-- The usual meaning of `*` and `?`. -/
  buildGlob_usual : ∀ pattern, (∀ c ∈ pattern, c ∉ globMetaChars) →
    buildGlob pattern = some fun host =>
      Wildcard.isMatch (globTokens (toAsciiLowercase pattern)) (toAsciiLowercase host)

/-! ## Hosts -/

section

variable (net : Net) (host : Str)

/-- An address with its scope, written with one `%`, if the text is one. -/
def normalizeIpLiteral : Option Str :=
  if (net.parseIpAddr host).isSome then some host
  else
    ["%25", "%"].findSome? fun delimiter =>
      match splitOnce delimiter host with
      | some (ip, scope) =>
        if (net.parseIpAddr ip).isSome then some (ip ++ "%" ++ scope) else none
      | none => none

/-- In lower case, without dots at the end. -/
def normalizeDnsHostOrIpLiteral : Str :=
  let host := trimEndDots (toAsciiLowercase host)
  (normalizeIpLiteral net host).getD host

/-- A host without brackets and port, where it is clear which part is the port. -/
def normalizeHost : Str :=
  let host := trim host
  match host with
  | '[' :: rest =>
    if ']' ∈ rest then normalizeDnsHostOrIpLiteral net (rest.takeWhile (· ≠ ']'))
    else if host.count ':' = 1 then normalizeDnsHostOrIpLiteral net (host.takeWhile (· ≠ ':'))
    else normalizeDnsHostOrIpLiteral net host
  | host =>
    if host.count ':' = 1 then normalizeDnsHostOrIpLiteral net (host.takeWhile (· ≠ ':'))
    else normalizeDnsHostOrIpLiteral net host

/-- The host of a pattern is normalized, and its wildcard is kept. -/
def normalizePattern (pattern : Str) : Str :=
  let pattern := trim pattern
  if pattern = "*" then "*"
  else
    match stripPrefix "**." pattern with
    | some domain => "**." ++ normalizeHost net domain
    | none =>
      match stripPrefix "*." pattern with
      | some domain => "*." ++ normalizeHost net domain
      | none => normalizeHost net pattern

end

/-! ## Patterns -/

/-- What hosts a pattern is for: a domain, those under it, or both. -/
inductive DomainPattern where
  | apexAndSubdomains (domain : Str)
  | subdomainsOnly (domain : Str)
  | exact (domain : Str)

namespace DomainPattern

/-- A pattern for a domain, which may turn out to be empty. -/
def parseDomain (domain : Str) (build : Str → DomainPattern) : DomainPattern :=
  let domain := trim domain
  if domain = [] then exact [] else build domain

/-- The pattern as it is compiled. -/
def parse (input : Str) : DomainPattern :=
  let input := trim input
  if input = [] then exact []
  else
    match stripPrefix "**." input with
    | some domain => parseDomain domain apexAndSubdomains
    | none =>
      match stripPrefix "*." input with
      | some domain => parseDomain domain subdomainsOnly
      | none => exact input

/-- A domain that is not the host of a URL becomes the empty one. -/
def parseDomainForConstraints (net : Net) (domain : Str) : Str :=
  let domain := trimEndDots (trim domain)
  if domain = [] then []
  else
    let host :=
      if domain.head? = some '[' && domain.getLast? = some ']' then (domain.drop 1).dropLast
      else domain
    if '*' ∈ host ∨ '?' ∈ host ∨ '%' ∈ host then domain
    else (net.parseUrlHost host).getD []

/-- The pattern as it is compared with others. -/
def parseForConstraints (net : Net) (input : Str) : DomainPattern :=
  let input := trim input
  if input = [] then exact []
  else
    match stripPrefix "**." input with
    | some domain => apexAndSubdomains (parseDomainForConstraints net domain)
    | none =>
      match stripPrefix "*." input with
      | some domain => subdomainsOnly (parseDomainForConstraints net domain)
      | none => exact (parseDomainForConstraints net input)

end DomainPattern

/-- How domains are compared. -/
def normalizeDomain (domain : Str) : Str := toAsciiLowercase (trimEndDots domain)

/-- Equality of domains. -/
def domainEq (left right : Str) : Bool := normalizeDomain left = normalizeDomain right

/-- The first domain is the second or under it. -/
def isSubdomainOrEqual (child parent : Str) : Bool :=
  normalizeDomain child = normalizeDomain parent ||
    ('.' :: normalizeDomain parent).isSuffixOf (normalizeDomain child)

/-- The first domain is under the second. -/
def isStrictSubdomain (child parent : Str) : Bool :=
  normalizeDomain child ≠ normalizeDomain parent &&
    ('.' :: normalizeDomain parent).isSuffixOf (normalizeDomain child)

/-- What the first pattern lets through, it does of the second. -/
def DomainPattern.allows : DomainPattern → DomainPattern → Bool
  | exact domain, exact candidate => domainEq candidate domain
  | exact _, _ => false
  | subdomainsOnly domain, exact candidate => isStrictSubdomain candidate domain
  | subdomainsOnly domain, subdomainsOnly candidate => isSubdomainOrEqual candidate domain
  | subdomainsOnly domain, apexAndSubdomains candidate => isStrictSubdomain candidate domain
  | apexAndSubdomains domain, exact candidate => isSubdomainOrEqual candidate domain
  | apexAndSubdomains domain, subdomainsOnly candidate => isSubdomainOrEqual candidate domain
  | apexAndSubdomains domain, apexAndSubdomains candidate => isSubdomainOrEqual candidate domain

/-! ## Globs -/

/-- The globs of a pattern. -/
def DomainPattern.expand : DomainPattern → List Str
  | exact domain => [domain]
  | subdomainsOnly domain => ["?*." ++ domain]
  | apexAndSubdomains domain => [domain, "?*." ++ domain]

/-- The globs of the text of a pattern. -/
def expandDomainPattern (pattern : Str) : List Str := (DomainPattern.parse pattern).expand

variable (net : Net)

/-- Some glob of the pattern matches everything. -/
def isGlobalWildcardDomainPattern (pattern : Str) : Bool :=
  (expandDomainPattern (normalizePattern net pattern)).any (· = "*")

/-- Whether a pattern for all hosts is accepted. -/
inductive GlobalWildcard where
  | allow
  | reject
  deriving DecidableEq

/-- The globs that are built, each for the text it is built from. -/
abbrev GlobSet := List (Str × (Str → Bool))

/-- Some glob of the set matches. -/
def GlobSet.isMatch (set : GlobSet) (host : Str) : Bool := set.any fun (_, glob) => glob host

/-- A candidate that was not seen yet is added. -/
def addGlob (builder : GlobSet) (candidate : Str) : Except Str GlobSet :=
  if candidate ∈ builder.map Prod.fst then .ok builder
  else
    match net.buildGlob candidate with
    | some glob => .ok (builder ++ [(candidate, glob)])
    | none => .error ("invalid glob pattern: " ++ candidate)

/-- The globs of one more pattern. -/
def addPattern (globalWildcard : GlobalWildcard) (builder : GlobSet) (pattern : Str) :
    Except Str GlobSet :=
  if globalWildcard = .reject ∧ isGlobalWildcardDomainPattern net pattern then
    .error ("unsupported global wildcard domain pattern \"*\"; use exact hosts or scoped " ++
      "wildcards like *.example.com or **.example.com").toList
  else (expandDomainPattern (normalizePattern net pattern)).foldlM (addGlob net) builder

variable (patterns : List Str)

/-- The globs of all patterns, or the first error. -/
def compileGlobsetWithPolicy (globalWildcard : GlobalWildcard) : Except Str GlobSet :=
  patterns.foldlM (addPattern net globalWildcard) []

/-- In an allowlist, a pattern for all hosts is accepted. -/
def compileAllowlistGlobset : Except Str GlobSet := compileGlobsetWithPolicy net patterns .allow

end NetworkProxy
