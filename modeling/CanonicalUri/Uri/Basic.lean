import CanonicalUri.Parsed

/-!
# URIs

A `Uri` holds the parts of a URI, decoded, together with what its user keeps with it: the text it
was read from, options of the application, the message of the last refused text, and the network
addresses found for it.

`Uri.parse` reads a new one; `Uri.update` is how a text that was read replaces the parts of an
existing one. A text that names no port, under a scheme that implies none, leaves the port as it
was. The parts are values; what becomes of the memory that a replaced password was kept in is not
described.
-/

namespace CanonicalUri

/-- The parts of a URI and what belongs to it. -/
structure Uri where
  /-- The text that the parts were last read from. -/
  input : Text := []
  scheme : Text := "http".toList
  /-- The port that the scheme implies. -/
  schemePort : Option UInt16 := some 80
  userName : Text := []
  password : Text := []
  host : Host := .absent
  port : UInt16 := 80
  path : Path := []
  /-- The path after `#!`. -/
  hashBangPath : Path := []
  query : Query := .empty
  anchor : Text := []
  /-- Options of the application, which are no part of the text. -/
  options : Dict := .empty
  /-- The message of the last text that was refused. -/
  lastError : String := ""
  /-- The addresses of the host, once they were looked up. -/
  addresses : Option (List Ip.Endpoint) := none
  deriving DecidableEq

namespace Uri

/-- Puts the parts that were read from a text in place of those of a URI. -/
def update (u : Uri) (text : Text) (p : Parsed) : Uri :=
  { input := text
    scheme := p.scheme
    schemePort := p.schemePort
    userName := p.userName
    password := p.password
    host := p.host
    port := p.port.getD u.port
    path := p.path
    hashBangPath := p.hashBangPath
    query := p.query
    anchor := p.anchor
    options := .empty
    lastError := u.lastError
    addresses := none }

/-- Reads a URI. -/
def parse (reg : Registry) (mode : ParseMode) (t : Text) : Except Rejection Uri :=
  match Parsed.ofText reg mode t with
  | .ok p => .ok (update {} t p)
  | .error e => .error ⟨t, e⟩

/-- What is read does not depend on the URI it is put into, except for the port, which is kept
when none is named or implied, and the last message. -/
theorem update_eq_of_port (u v : Uri) (text : Text) (p : Parsed) :
    update u text p =
      { update v text p with port := p.port.getD u.port, lastError := u.lastError } :=
  rfl

end Uri

end CanonicalUri
