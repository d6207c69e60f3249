import CanonicalUri.Uri.Basic
import CanonicalUri.Uri.Error

/-!
# The text of a URI

Every URI has one canonical text, `Uri.toText`: each part is escaped with the characters that
need no escape in its place, the parameters are in the order of their names, and a port is shown
only when the scheme does not imply it. `Uri.raw` gives the written parts of that text.

The same parts are written in *hash-bang mode* with a second path behind `#!` in place of the
anchor; a URI without such a path has its main path moved there. The password can be replaced
by another text.
-/

namespace CanonicalUri

/-- Whether the fragment holds the anchor or the hash-bang path. -/
inductive FragmentMode where
  | anchor
  | hashBang
  deriving DecidableEq, Repr

namespace Uri

/-! ### Authority -/

/-- The credentials with the at sign behind them, with `redaction` in place of the password. -/
def credentialsText (u : Uri) (redaction : Option Text) : Text :=
  if u.userName = [] then []
  else
    Percent.encode [] u.userName
      ++ (if u.password = [] then [] else ':' :: Percent.encode [] (redaction.getD u.password))
      ++ ['@']

/-- The port with its colon, unless the scheme implies it. -/
def portText (u : Uri) : Text :=
  if u.schemePort = some u.port then [] else ':' :: Decimal.write u.port.toNat

/-- The authority; there is no port without a host. -/
def authorityText (u : Uri) (redaction : Option Text) : Text :=
  u.credentialsText redaction ++ u.host.toText ++ if u.host.isAbsent then [] else u.portText

/-! ### Paths and fragment -/

/-- Whether the main path is written behind `#!`. -/
def movesPath (u : Uri) (mode : FragmentMode) : Bool :=
  mode = .hashBang ∧ u.hashBangPath = []

/-- The path in front of the query. -/
def frontPath (u : Uri) (mode : FragmentMode) : Path :=
  if u.movesPath mode then [] else u.path

/-- The path behind `#!`. -/
def backPath (u : Uri) : Path :=
  if u.hashBangPath = [] then u.path else u.hashBangPath

/-- The fragment, if there is one. -/
def fragment? (u : Uri) : FragmentMode → Option Text
  | .anchor => if u.anchor = [] then none else some (Percent.encode ['!', '/', '~'] u.anchor)
  | .hashBang =>
    if u.backPath.encode = [] then none else some ('!' :: '/' :: u.backPath.encode)

/-! ### The whole text -/

/-- The written parts. -/
def raw (u : Uri) (mode : FragmentMode) (redaction : Option Text) : RawUri where
  scheme := u.scheme
  authority := some (u.authorityText redaction)
  tail := some
    { path := (u.frontPath mode).encode
      query := if u.query.isEmpty then none else some u.query.toText
      fragment := u.fragment? mode }

/-- The canonical text. -/
def toText (u : Uri) : Text :=
  (u.raw .anchor none).toText

/-- The text in either mode, where hash-bang mode leaves no room for an anchor. -/
def write (u : Uri) (mode : FragmentMode) (redaction : Option Text) : Except UriError Text :=
  if mode = .hashBang ∧ u.anchor ≠ [] then .error .exclusiveParameters
  else .ok (u.raw mode redaction).toText

/-- The canonical text of scheme, host and, if asked for, port. The host is not escaped. -/
def websiteText (u : Uri) (withPort : Bool) : Text :=
  RawUri.toText
    { scheme := u.scheme
      authority := some (u.host.fullDomain ++ if withPort then u.portText else [])
      tail := some ⟨[], none, none⟩ }

end Uri

end CanonicalUri
