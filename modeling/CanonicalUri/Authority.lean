import CanonicalUri.ParseError

/-!
# Authorities

The authority of a URI is `user:password@host:port`, where all but the host may be missing.
`RawAuthority.cut` takes it apart as it is written and checks its form; `Authority.read` then
decodes the credentials and reads the host. User name and password come together or not at all.
A colon inside the square brackets of an IP address does not stand before a port.
-/

namespace CanonicalUri

/-- The parts of an authority as they are written. -/
structure RawAuthority where
  userName : Text
  password : Text
  host : Text
  port : Option UInt16
  deriving DecidableEq, Repr

namespace RawAuthority

/-- Credentials without a colon are a password. -/
def cutCredentials (t : Text) : Except ParseError (Text × Text) :=
  match t.splitOn ':' with
  | [password] => .ok ([], password)
  | [userName, password] => .ok (userName, password)
  | _ => .error .multipleColonsInCredentials

/-- The credentials, if there are any, and the host with its port. -/
def cutUser (t : Text) : Except ParseError ((Text × Text) × Text) :=
  match t.splitOn '@' with
  | [server] => .ok (([], []), server)
  | [credentials, server] => do return (← cutCredentials credentials, server)
  | _ => .error .multipleAtSigns

/-- The texts between the colons outside square brackets; `inside` tells whether a bracket is
open. -/
def colonFields (inside : Bool) : Text → List Text
  | [] => [[]]
  | c :: t =>
    if c = ':' ∧ inside = false then [] :: colonFields false t
    else
      (colonFields (if c = '[' then true else if c = ']' then false else inside) t).modifyHead
        (c :: ·)

/-- Reads the digits of a port. -/
def readPort (t : Text) : Except ParseError UInt16 :=
  if t = [] then .error .emptyPort
  else if Decimal.isDigits t then
    match Decimal.readPort? t with
    | some port => .ok port
    | none => .error (.portOutOfRange t)
  else .error (.invalidPort t)

/-- The host and the port, if there is one. -/
def cutPort (t : Text) : Except ParseError (Text × Option UInt16) :=
  match colonFields false t with
  | [host] => .ok (host, none)
  | [host, port] => do return (host, some (← readPort port))
  | _ => .error .multipleColonsInDomain

/-- Cuts an authority. -/
def cut (t : Text) : Except ParseError RawAuthority := do
  let ((userName, password), server) ← cutUser t
  let (host, port) ← cutPort server
  if host = [] then throw .missingDomain
  return ⟨userName, password, host, port⟩

end RawAuthority

/-- A decoded authority. -/
structure Authority where
  userName : Text
  password : Text
  host : Host
  port : Option UInt16
  deriving DecidableEq

/-- Decodes a part of a URI. -/
def Component.decode (part : Component) (t : Text) : Except ParseError Text :=
  (Percent.decode t).mapError (.invalidEncoding part)

namespace Authority

/-- The authority of a URI that has none. -/
def absent : Authority := ⟨[], [], .absent, none⟩

/-- Decodes an authority. -/
def ofRaw (reg : Registry) (acceptIp : Bool) (raw : RawAuthority) :
    Except ParseError Authority := do
  let userName ← Component.userName.decode raw.userName
  let password ← Component.password.decode raw.password
  if decide (userName = []) != decide (password = []) then throw .unpairedCredentials
  let host ← (Host.read reg acceptIp raw.host).mapError .invalidDomain
  return ⟨userName, password, host, raw.port⟩

/-- Reads an authority. -/
def read (reg : Registry) (acceptIp : Bool) (t : Text) : Except ParseError Authority := do
  ofRaw reg acceptIp (← RawAuthority.cut t)

end Authority

end CanonicalUri
