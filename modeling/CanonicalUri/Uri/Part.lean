import CanonicalUri.Uri.Written

/-!
# Parts of a URI by name

Every part of a URI can be asked for by its name. A part that is a list is asked for element by
element, in which case a position past its end is an error. An unknown name answers with the empty
text.
-/

namespace CanonicalUri

/-- The parts that can be asked for. -/
inductive Part where
  | anchor
  | domain
  | fullDomain
  | hashBangPath
  | hashBangPathCount
  | option
  | optionCount
  | input
  | password
  | path
  | pathCount
  | port
  | scheme
  | queryString
  | queryStringCount
  | subDomain
  | subDomainCount
  | topLevelDomain
  | uri
  | userName
  deriving DecidableEq, Repr

/-- The part of a name; two of the parts have two names. -/
def Part.ofName? : String → Option Part
  | "anchor" => some .anchor
  | "domain" => some .domain
  | "full-domain" => some .fullDomain
  | "hash-bang-path" => some .hashBangPath
  | "hash-bang-path-count" => some .hashBangPathCount
  | "option" => some .option
  | "option-count" => some .optionCount
  | "original" => some .input
  | "password" => some .password
  | "path" => some .path
  | "path-count" => some .pathCount
  | "port" => some .port
  | "scheme" => some .scheme
  | "protocol" => some .scheme
  | "query-string" => some .queryString
  | "query-string-count" => some .queryStringCount
  | "sub-domain" => some .subDomain
  | "sub-domain-count" => some .subDomainCount
  | "tld" => some .topLevelDomain
  | "top-level-domain" => some .topLevelDomain
  | "uri" => some .uri
  | "username" => some .userName
  | _ => none

namespace Uri

/-! ### Elements -/

/-- The element of a list at a position. -/
def elementAt {α : Type} (part : ListedPart) (xs : List α) (i : Nat) : Except UriError α :=
  match xs[i]? with
  | some x => .ok x
  | none => .error (.outOfBounds part i xs.length)

def optionAt (u : Uri) (i : Nat) : Except UriError (Text × Text) :=
  elementAt .option u.options.entries i

def parameterAt (u : Uri) (i : Nat) : Except UriError (Text × Text) :=
  elementAt .queryString u.query.entries i

def segmentAt (u : Uri) (i : Nat) : Except UriError Text :=
  elementAt .path u.path i

def hashBangSegmentAt (u : Uri) (i : Nat) : Except UriError Text :=
  elementAt .hashBangPath u.hashBangPath i

def subDomainAt (u : Uri) (i : Nat) : Except UriError Text :=
  elementAt .subDomain u.host.subDomains i

/-- The value of an option, empty when it is not set. -/
def option (u : Uri) (name : Text) : Text :=
  (u.options.get? name).getD []

/-- The value of a parameter, empty when there is none of that name. -/
def parameter (u : Uri) (name : Text) : Text :=
  (u.query.get? name).getD []

/-! ### Parts -/

/-- A part of a URI; of a list the element at position `i`. -/
def part (u : Uri) (i : Nat) : Part → Except UriError Text
  | .anchor => .ok u.anchor
  | .domain => .ok u.host.domain
  | .fullDomain => .ok u.host.fullDomain
  | .hashBangPath => u.hashBangSegmentAt i
  | .hashBangPathCount => .ok (Decimal.write u.hashBangPath.length)
  | .option => (u.optionAt i).map Prod.snd
  | .optionCount => .ok (Decimal.write u.options.size)
  | .input => .ok u.input
  | .password => .ok u.password
  | .path => u.segmentAt i
  | .pathCount => .ok (Decimal.write u.path.length)
  | .port => .ok (Decimal.write u.port.toNat)
  | .scheme => .ok u.scheme
  | .queryString => (u.parameterAt i).map Prod.snd
  | .queryStringCount => .ok (Decimal.write u.query.size)
  | .subDomain => u.subDomainAt i
  | .subDomainCount => .ok (Decimal.write u.host.subDomains.length)
  | .topLevelDomain => .ok u.host.topLevel
  | .uri => .ok u.toText
  | .userName => .ok u.userName

/-- The part of a name. -/
def partNamed (u : Uri) (name : String) (i : Nat) : Except UriError Text :=
  match Part.ofName? name with
  | some p => u.part i p
  | none => .ok []

end Uri

end CanonicalUri
