import CanonicalUri.Host
import CanonicalUri.Path
import CanonicalUri.RawUri

/-!
# What can be wrong with a URI

The reasons for which a text is refused as a URI, each with its wording and the texts of the
errors behind it.
-/

namespace CanonicalUri

/-- A part of a URI that is decoded on its own. -/
inductive Component where
  | userName
  | password
  | path
  | queryName
  | queryValue
  deriving DecidableEq, Repr

def Component.label : Component → String
  | .userName => "user name"
  | .password => "password"
  | .path => "path"
  | .queryName => "query string name"
  | .queryValue => "query string value"

/-- Why a text is no URI. -/
inductive ParseError where
  | empty
  | emptyScheme
  | missingSchemeSeparator
  | multipleAtSigns
  | multipleColonsInCredentials
  | multipleColonsInDomain
  /-- Only one of user name and password is given. -/
  | unpairedCredentials
  | emptyPort
  | invalidPort (value : Text)
  | portOutOfRange (value : Text)
  | missingDomain
  | invalidDomain (error : HostError)
  | invalidEncoding (part : Component) (error : Percent.DecodeError)
  | duplicateQueryName (name : Text)
  | invalidPath (error : PathError)
  deriving DecidableEq, Repr

namespace ParseError

def ofCutError : RawUri.CutError → ParseError
  | .empty => .empty
  | .emptyScheme => .emptyScheme
  | .missingSeparator => .missingSchemeSeparator

def message : ParseError → String
  | .empty => "the URI cannot be an empty string."
  | .emptyScheme => "the scheme cannot be an empty string."
  | .missingSchemeSeparator => "the scheme must be followed by \"://\"."
  | .multipleAtSigns => "more than one '@' character found in the authority of the URI."
  | .multipleColonsInCredentials =>
    "more than one ':' character found in the user name and password."
  | .multipleColonsInDomain => "more than one ':' character found in the domain name and port."
  | .unpairedCredentials => "user name and password must both be defined (or both be empty)."
  | .emptyPort => "port cannot be an empty string."
  | .invalidPort value =>
    "port \"" ++ String.ofList value ++ "\" must only include decimal digits."
  | .portOutOfRange value =>
    "port \"" ++ String.ofList value ++ "\" is out of range (0 to 65535)."
  | .missingDomain => "a domain name is required."
  | .invalidDomain e => e.message
  | .invalidEncoding part e => "invalid " ++ part.label ++ ": " ++ e.message
  | .duplicateQueryName name =>
    "query string \"" ++ String.ofList name ++ "\" found more than once."
  | .invalidPath e => e.message

/-- The texts of what caused the error, outermost first. -/
def sources : ParseError → List String
  | .invalidDomain e => e.message :: e.sources
  | .invalidEncoding _ e => [e.message]
  | .invalidPath e => [e.message]
  | _ => []

end ParseError

/-- A text that was refused as a URI. -/
structure Rejection where
  input : Text
  cause : ParseError
  deriving DecidableEq, Repr

namespace Rejection

def message (r : Rejection) : String :=
  "URI \"" ++ String.ofList r.input ++ "\" is considered invalid."

/-- The texts of what caused the rejection, outermost first. -/
def sources (r : Rejection) : List String :=
  r.cause.message :: r.cause.sources

end Rejection

end CanonicalUri
