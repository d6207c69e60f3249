import CanonicalUri.Ip.V6

/-!
# IP addresses as hosts

A host may be given by an address of either version. In a URI an IPv6 address stands in square
brackets, so that its colons are not taken for the one before a port. `bare` takes brackets off
again, and `Address.parse?` reads an address without them.
-/

namespace CanonicalUri

namespace Ip

/-- An IP address of either version. -/
inductive Address where
  | v4 (ip : V4)
  | v6 (ip : V6)
  deriving DecidableEq

/-- A text without the opening brackets in front of it and the closing ones behind it. -/
def bare (t : Text) : Text :=
  ((t.dropWhile (· == '[')).reverse.dropWhile (· == ']')).reverse

namespace Address

/-- The address that a text without brackets denotes. -/
def parse? (t : Text) : Option Address :=
  (V4.parse? t).map .v4 <|> (V6.parse? t).map .v6

/-- The address that a host text denotes; an IPv6 address may stand in brackets. -/
def ofHost? : Text → Option Address
  | '[' :: t => if t.getLast? = some ']' then (V6.parse? t.dropLast).map .v6 else none
  | t => parse? t

/-- The host text of an address. -/
def toHost : Address → Text
  | .v4 ip => ip.toText
  | .v6 ip => '[' :: ip.toText ++ [']']

/-- The numbers that an address consists of, first one first. -/
def parts : Address → List Nat
  | .v4 ip => ip.octets.map UInt8.toNat
  | .v6 ip => ip.groups.map UInt16.toNat

/-- Whether an address is of version 4. -/
def isV4 : Address → Bool
  | .v4 _ => true
  | .v6 _ => false

/-- IPv6 addresses come before IPv4 addresses; within a version, addresses are ordered by their
parts. -/
def order (a b : Address) : Ordering :=
  (compareOn (fun x : Address => if x.isV4 then 1 else 0) a b).then
    (List.compareLex compare a.parts b.parts)

end Address

/-- An address together with a port. -/
structure Endpoint where
  address : Address
  port : UInt16
  deriving DecidableEq

namespace Endpoint

def toText (e : Endpoint) : Text :=
  e.address.toHost ++ ':' :: Decimal.write e.port.toNat

def order (a b : Endpoint) : Ordering :=
  (Address.order a.address b.address).then (compareOn (fun e : Endpoint => e.port.toNat) a b)

/-- Endpoints in order and without repetition. -/
def sort (es : List Endpoint) : List Endpoint :=
  (es.mergeSort fun a b => (order a b).isLE).eraseReps

end Endpoint

end Ip

end CanonicalUri
