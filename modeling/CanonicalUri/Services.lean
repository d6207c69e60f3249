import CanonicalUri.Text.Blank
import CanonicalUri.Text.Decimal

/-!
# Ports of services

A services database is a text with one service on a line: its name, its port and protocol as
`port/protocol`, and any further names for it. `#` starts a comment. Lines of any other form
are passed over, and so are those whose port is no number up to 65535.

`defaultPort` answers for a scheme: the well-known schemes have their ports built in, any other is
looked up as a TCP service and then as a UDP service.
-/

namespace CanonicalUri

/-- A line of a services database. -/
structure Service where
  name : Text
  port : Text
  protocol : Text
  aliases : List Text
  deriving DecidableEq, Repr

namespace Service

/-- The service on a line, if the line has the form of one. -/
def ofLine? (line : Text) : Option Service :=
  match Text.words (Text.cut '#' line).1 with
  | name :: endpoint :: aliases =>
    match Text.cut '/' endpoint with
    | (port, some protocol) => some ⟨name, port, protocol, aliases⟩
    | (_, none) => none
  | _ => none

/-- Whether a service goes by a name under a protocol. -/
def answersTo (s : Service) (name protocol : Text) : Bool :=
  s.protocol == protocol && (s.name == name || s.aliases.contains name)

/-- The port of a service as a number, which may have a plus in front. -/
def portNumber? (s : Service) : Option UInt16 :=
  match s.port with
  | '+' :: digits => Decimal.readPort? digits
  | digits => Decimal.readPort? digits

end Service

namespace Services

/-- The port of the first service in a database that goes by a name under a protocol and has a
proper port. -/
def findPort? (database name protocol : Text) : Option UInt16 :=
  (database.splitOn '\n').findSome? fun line => do
    let s ← Service.ofLine? line
    if s.answersTo name protocol then s.portNumber? else none

/-- No service has the empty name. -/
theorem findPort?_nil (database protocol : Text) : findPort? database [] protocol = none := by
  rw [findPort?, List.findSome?_eq_none_iff]
  intro line _
  cases h : Service.ofLine? line with
  | none => rfl
  | some s =>
    have hne : s.name ≠ [] ∧ [] ∉ s.aliases := by
      rw [Service.ofLine?] at h
      split at h
      · rename_i name endpoint aliases hw
        split at h
        · cases h
          refine ⟨Text.ne_nil_of_mem_words (hw ▸ List.mem_cons_self), fun hmem => ?_⟩
          exact Text.ne_nil_of_mem_words
            (hw ▸ List.mem_cons_of_mem _ (List.mem_cons_of_mem _ hmem)) rfl
        · cases h
      · cases h
    simp [Service.answersTo, hne.1, hne.2]

/-- The schemes whose ports need no database. -/
def wellKnown : List (Text × UInt16) :=
  [("http".toList, 80), ("https".toList, 443), ("ftp".toList, 21), ("ssh".toList, 22),
    ("telnet".toList, 23), ("smtp".toList, 25), ("gopher".toList, 70)]

/-- The port that a scheme implies, given the services database if there is one. -/
def defaultPort (database : Option Text) (scheme : Text) : Option UInt16 :=
  wellKnown.lookup scheme <|> do
    let db ← database
    findPort? db scheme "tcp".toList <|> findPort? db scheme "udp".toList

end Services

end CanonicalUri
