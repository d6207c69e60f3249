import CanonicalUri.Authority
import CanonicalUri.Query

/-!
# What the text of a URI says

`Parsed.ofText` reads a whole URI: it cuts the text into its written parts and reads them one
after the other, authority, path, query and fragment. The first fault wins; a fragment is never
faulty.

A fragment that begins with `!` is a second path, the hash-bang path; one that goes above its root
counts as empty. Any other fragment is an anchor.
-/

namespace CanonicalUri

/-- Which texts are accepted beyond those with a domain name. -/
structure ParseMode where
  /-- Accept a URI without an authority, such as `file:///etc/hosts`. -/
  acceptPath : Bool := false
  /-- Accept an IP address for a host. -/
  acceptIp : Bool := false
  deriving DecidableEq, Repr

/-- The decoded parts of a URI. -/
structure Parsed where
  scheme : Text
  /-- The port that the scheme implies. -/
  schemePort : Option UInt16
  userName : Text
  password : Text
  host : Host
  /-- The port that is given, or else the one that the scheme implies. -/
  port : Option UInt16
  path : Path
  hashBangPath : Path
  query : Query
  anchor : Text
  deriving DecidableEq

/-! ### Path and query -/

/-- Reads an encoded path. -/
def Path.read (t : Text) : Except ParseError Path := do
  let p ← (Path.readSegments t).mapError (.invalidEncoding .path)
  (Path.resolve p).mapError .invalidPath

namespace Query

/-- Adds a pair whose name must be new. -/
def addPair (q : Query) (t : Text) : Except ParseError Query := do
  let (name, value) := cutPair t
  let decoded ← Component.queryName.decode name
  let name := if decoded = [] then nameless else decoded
  if q.contains name then throw (.duplicateQueryName name)
  return q.insert name (← Component.queryValue.decode value)

/-- Reads an encoded query in which no name may occur twice. -/
def read (t : Text) : Except ParseError Query :=
  (Text.pieces '&' t).foldlM addPair Dict.empty

end Query

/-! ### Fragment -/

/-- A decoded fragment. -/
inductive Fragment where
  | anchor (text : Text)
  /-- The text after the `!`. -/
  | hashBang (text : Text)
  deriving DecidableEq, Repr

namespace Fragment

/-- Reads a fragment. -/
def read (t : Text) : Fragment :=
  match Percent.decodeLenient t with
  | '!' :: text => .hashBang text
  | text => .anchor text

def anchorText : Fragment → Text
  | .anchor text => text
  | .hashBang _ => []

/-- The hash-bang path, empty when its `..` cannot be carried out. -/
def path : Fragment → Path
  | .anchor _ => []
  | .hashBang text => (Path.resolve (Path.segments text)).toOption.getD []

end Fragment

/-! ### The whole URI -/

namespace Parsed

/-- Reads the written parts of a URI. What is missing reads as if it were empty. -/
def ofRaw (reg : Registry) (mode : ParseMode) (raw : RawUri) : Except ParseError Parsed := do
  let authority ←
    match raw.authority with
    | none => pure Authority.absent
    | some t => Authority.read reg mode.acceptIp t
  let tail := raw.tail.getD ⟨[], none, none⟩
  let path ← Path.read tail.path
  let query ← Query.read (tail.query.getD [])
  let fragment := Fragment.read (tail.fragment.getD [])
  let schemePort := reg.defaultPort raw.scheme
  return {
    scheme := raw.scheme
    schemePort := schemePort
    userName := authority.userName
    password := authority.password
    host := authority.host
    port := authority.port <|> schemePort
    path := path
    hashBangPath := fragment.path
    query := query
    anchor := fragment.anchorText }

/-- Reads the text of a URI. -/
def ofText (reg : Registry) (mode : ParseMode) (t : Text) : Except ParseError Parsed := do
  ofRaw reg mode (← (RawUri.cut mode.acceptPath t).mapError .ofCutError)

end Parsed

end CanonicalUri
