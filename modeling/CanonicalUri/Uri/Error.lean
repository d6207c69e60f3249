import CanonicalUri.Host
import CanonicalUri.Path

/-!
# What can go wrong with an operation on a URI

The reasons for which an edit, a look-up or the writing of a URI fails, each with its wording.
-/

namespace CanonicalUri

/-- A list that is part of a URI or kept with it. -/
inductive ListedPart where
  | option
  | queryString
  | path
  | hashBangPath
  | subDomain
  deriving DecidableEq, Repr

def ListedPart.label : ListedPart → String
  | .option => "option"
  | .queryString => "query-string"
  | .path => "path"
  | .hashBangPath => "hash-bang-path"
  | .subDomain => "sub-domain"

/-- Why an operation on a URI fails. -/
inductive UriError where
  | emptyScheme
  | invalidPort (value : Text)
  /-- An anchor with a `#` in it. -/
  | hashInAnchor (value : Text)
  | invalidPath (path : Text) (error : PathError)
  | invalidDomain (error : HostError)
  | invalidEncoding (error : Percent.DecodeError)
  /-- Both an anchor and a hash-bang path are to be written. -/
  | exclusiveParameters
  | outOfBounds (part : ListedPart) (index length : Nat)
  | addressResolution (host : Text) (reason : String)
  deriving DecidableEq, Repr

namespace UriError

def message : UriError → String
  | .emptyScheme => "invalid scheme \"\": cannot be an empty string"
  | .invalidPort value =>
    "invalid port \"" ++ String.ofList value ++ "\": must be a decimal number from 0 to 65535"
  | .hashInAnchor value =>
    "invalid anchor \"" ++ String.ofList value ++ "\": cannot include a '#' character"
  | .invalidPath path e => "path \"" ++ String.ofList path ++ "\" is not valid: " ++ e.message
  | .invalidDomain e => e.message
  | .invalidEncoding e => e.message
  | .exclusiveParameters => "you cannot use the hash bang (#!) and an anchor (#) in the same URI."
  | .outOfBounds part index length =>
    part.label ++ " " ++ toString index ++ " does not exist (range 0 to " ++ toString length ++ ")"
  | .addressResolution host reason =>
    "could not resolve \"" ++ String.ofList host ++ "\": " ++ reason

/-- The texts of what caused the error, outermost first. -/
def sources : UriError → List String
  | .invalidPath _ e => [e.message]
  | .invalidDomain e => e.message :: e.sources
  | .invalidEncoding e => [e.message]
  | _ => []

end UriError

end CanonicalUri
