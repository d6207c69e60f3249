import CanonicalUri.Text.Json
import CanonicalUri.Uri.Written

/-!
# URIs in JSON

In JSON a URI is the string of its canonical text, and it is read from the string of any text that
is accepted without further allowances. How strings are written is left to a `JsonCodec`.
-/

namespace CanonicalUri

/-- Why a JSON text is no URI. -/
inductive JsonError where
  | notAString
  | rejected (cause : ParseError)
  deriving DecidableEq, Repr

def JsonError.message : JsonError → String
  | .notAString => "expected a string"
  | .rejected cause => cause.message

namespace Uri

/-- The JSON text of a URI. -/
def toJson (u : Uri) (json : JsonCodec := JsonString.codec) : Text :=
  json.quote u.toText

/-- Reads a URI from JSON text. -/
def ofJson (reg : Registry) (t : Text) (json : JsonCodec := JsonString.codec) :
    Except JsonError Uri :=
  match json.unquote? t with
  | none => .error .notAString
  | some text =>
    match parse reg {} text with
    | .ok u => .ok u
    | .error r => .error (.rejected r.cause)

end Uri

end CanonicalUri
