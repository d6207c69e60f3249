import CanonicalUri.Uri.Basic
import CanonicalUri.Uri.Error

/-!
# Network addresses

The addresses of a URI are those of its host, together with its port. An IP address is its own
only address, which is read from the text of the host; a domain name is looked up by a `Resolver`.
What was found is kept with the URI until its host or its port changes. No trace is kept of the
look-up.
-/

namespace CanonicalUri

/-- Looks up the addresses of a domain name for a port, or tells why that failed. -/
abbrev Resolver := Text → UInt16 → Except String (List Ip.Endpoint)

namespace Uri

/-- The addresses of the host in the order in which they are found, or why there are none. -/
def find (resolver : Resolver) (u : Uri) : Except String (List Ip.Endpoint) :=
  let host := u.host.fullDomain
  if u.host.isAbsent then .error "no domain name"
  else if u.host.isIp then
    match Ip.Address.parse? (Ip.bare host) with
    | some address => .ok [⟨address, u.port⟩]
    | none => .error "invalid IP address syntax"
  else if host.contains (Char.ofNat 0) then .error "file name contained an unexpected NUL byte"
  else resolver host u.port

/-- Looks up the addresses of the host. -/
def lookUp (resolver : Resolver) (u : Uri) : Except UriError (List Ip.Endpoint) :=
  let failed := fun reason => Except.error (.addressResolution u.host.fullDomain reason)
  match u.find resolver with
  | .error reason => failed reason
  | .ok [] => failed "no address found"
  | .ok found => .ok (Ip.Endpoint.sort found)

/-- The addresses of the host, looked up unless they are known already, and the URI that
knows them. -/
def resolve (resolver : Resolver) (u : Uri) : Except UriError (List Ip.Endpoint) × Uri :=
  match u.addresses with
  | some known => (.ok known, u)
  | none =>
    match u.lookUp resolver with
    | .ok found => (.ok found, { u with addresses := some found })
    | .error e => (.error e, u)

end Uri

end CanonicalUri
