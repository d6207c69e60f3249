import CanonicalUri.PublicSuffix
import CanonicalUri.Services

/-!
# Registries

What a URI means depends on two public registries: which endings of host names are public
suffixes, and which ports belong to which services. They are data, and everything that needs them
takes them as an argument.
-/

namespace CanonicalUri

/-- The public suffix of a host name in lower case, if it has one, and the services database, if
there is one. -/
structure Registry where
  suffix? : Text → Option Text
  services : Option Text

namespace Registry

/-- The registry with the built-in suffix rules and a services database. -/
def withServices (services : Option Text) : Registry :=
  ⟨PublicSuffix.suffix? PublicSuffix.rules, services⟩

/-- The built-in suffix rules, and no services beside the well-known ones. -/
def standard : Registry :=
  withServices none

/-- The port that a scheme implies. -/
def defaultPort (reg : Registry) (scheme : Text) : Option UInt16 :=
  Services.defaultPort reg.services scheme

end Registry

end CanonicalUri
