import CanonicalUri.Ip.Address
import CanonicalUri.Percent
import CanonicalUri.Registry

/-!
# Hosts

A host is a domain name or an IP address. A domain name is taken apart at its public suffix: the
label before the suffix is the domain, the labels before that are its sub-domains, and the suffix
itself, with the dot in front of it, is the top-level domain. The suffix is looked up in the text
as it is written; the parts are decoded afterwards, each label on its own.

* `cutSuffix` finds the place of a suffix; `append_of_cutSuffix` says that it only cuts.
* `Host.read` reads a host, as an IP address only where that is allowed and the text has no public
  suffix.
* `Host.fullDomain` puts the parts together again, and `Host.toText` is the text in a URI.
-/

namespace CanonicalUri

/-- The host of a URI. -/
inductive Host where
  /-- No host at all. -/
  | absent
  | ip (address : Ip.Address)
  /-- A domain name; the sub-domains go from the outermost one inwards and the top-level domain
  begins with its dot. -/
  | name (subDomains : List Text) (domain topLevel : Text)
  deriving DecidableEq

/-- Why a text is no host. -/
inductive HostError where
  /-- No domain under a public suffix, nor an IP address where one is allowed. -/
  | unverified (host : Text)
  | emptySubDomain (host : Text)
  | invalidEncoding (error : Percent.DecodeError)
  deriving DecidableEq, Repr

namespace HostError

def message : HostError → String
  | .unverified host => "could not verify domain name \"" ++ String.ofList host ++ "\"."
  | .emptySubDomain host => "found an empty sub-domain name in \"" ++ String.ofList host ++ "\"."
  | .invalidEncoding e => "invalid domain name encoding: " ++ e.message

/-- The texts of what caused the error, outermost first. -/
def sources : HostError → List String
  | .invalidEncoding e => [e.message]
  | _ => []

end HostError

namespace Host

/-! ### Parts -/

def subDomains : Host → List Text
  | .name subDomains _ _ => subDomains
  | _ => []

/-- The label before the top-level domain, or the text of an IP address. -/
def domain : Host → Text
  | .absent => []
  | .ip address => address.toHost
  | .name _ domain _ => domain

/-- The public suffix with the dot in front of it. -/
def topLevel : Host → Text
  | .name _ _ topLevel => topLevel
  | _ => []

/-- The sub-domains with dots between them. -/
def subDomainsText (h : Host) : Text :=
  Text.join '.' h.subDomains

/-- The whole decoded name. -/
def fullDomain (h : Host) : Text :=
  (if h.subDomainsText = [] then [] else h.subDomainsText ++ ['.']) ++ h.domain ++ h.topLevel

/-- Whether the host is given by an IP address. -/
def isIp (h : Host) : Bool :=
  decide (h.topLevel = [] ∧ h.domain ≠ [])

/-- Whether there is no host. -/
def isAbsent (h : Host) : Bool :=
  decide (h.domain = [])

/-- The text of the host in a URI. -/
def toText : Host → Text
  | .ip address => address.toHost
  | h => Percent.encode [] h.fullDomain

/-! ### Finding the top-level domain -/

/-- The text before the dot in front of a suffix, and the text from that dot on. There has to be
text before the dot. -/
def cutSuffix (raw suffix : Text) : Option (Text × Text) :=
  let n := raw.length - (suffix.length + 1)
  if 0 < n ∧ raw[n]? = some '.' then some (raw.take n, raw.drop n) else none

theorem append_of_cutSuffix {raw suffix before topLevel : Text}
    (h : cutSuffix raw suffix = some (before, topLevel)) : before ++ topLevel = raw := by
  simp only [cutSuffix] at h
  split at h
  · cases h
    exact List.take_append_drop _ raw
  · cases h

/-- The text before the top-level domain, and the top-level domain with its dot. Public suffixes
are in lower case, so ASCII letters are lowered for the look-up. -/
def topLevel? (reg : Registry) (raw : Text) : Option (Text × Text) :=
  if raw.getLast? = some '.' then none
  else (reg.suffix? (raw.map Char.toLower)).bind (cutSuffix raw)

/-! ### Reading -/

/-- Decodes a part of a host. -/
def readPart (t : Text) : Except HostError Text :=
  (Percent.decode t).mapError .invalidEncoding

/-- Decodes the label of a sub-domain, which may not be empty. -/
def readSubDomain (raw label : Text) : Except HostError Text := do
  let t ← readPart label
  if t = [] then throw (.emptySubDomain raw)
  return t

/-- Reads the domain name `raw` from the text before its top-level domain and the latter. -/
def readName (raw before topLevel : Text) : Except HostError Host := do
  let labels := before.splitOn '.'
  let domain := labels.getLastD []
  if domain = [] then throw (.unverified raw)
  return .name (← labels.dropLast.mapM (readSubDomain raw)) (← readPart domain)
    (← readPart topLevel)

/-- Reads a host; IP addresses are refused unless `acceptIp` is set. -/
def read (reg : Registry) (acceptIp : Bool) (raw : Text) : Except HostError Host :=
  match topLevel? reg raw with
  | some (before, topLevel) => readName raw before topLevel
  | none =>
    match if acceptIp then Ip.Address.ofHost? raw else none with
    | some address => .ok (.ip address)
    | none => .error (.unverified raw)

end Host

end CanonicalUri
