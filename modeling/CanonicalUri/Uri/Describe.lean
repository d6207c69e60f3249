import CanonicalUri.Text.Quoted
import CanonicalUri.Uri.Basic

/-!
# Descriptions of URIs

A description shows the parts of a URI by name, for logs. The password is not shown, only whether
there is one.
-/

namespace CanonicalUri

namespace Uri

/-- What a description shows of a password. -/
def maskedPassword (u : Uri) : Text :=
  if u.password = [] then [] else ['*', '*', '*']

/-- The parts of a URI on one line. -/
def describe (u : Uri) : Text :=
  let field := fun (name : String) (value : Text) => name.toList ++ ':' :: ' ' :: value
  let shown := fun (type name : String) (d : Dict) =>
    type.toList ++ " \x7b ".toList ++ field name (Quoted.entries d.entries) ++ " \x7d".toList
  let fields := [
    field "scheme" (Quoted.text u.scheme),
    field "username" (Quoted.text u.userName),
    field "password" (Quoted.text u.maskedPassword),
    field "port" (Decimal.write u.port.toNat),
    field "sub_domains" (Quoted.list u.host.subDomains),
    field "domain" (Quoted.text u.host.domain),
    field "top_level_domain" (Quoted.text u.host.topLevel),
    field "path" (Quoted.list u.path),
    field "hash_bang_path" (Quoted.list u.hashBangPath),
    field "query_strings" (shown "QueryStrings" "params" u.query),
    field "anchor" (Quoted.text u.anchor),
    field "options" (shown "UriOptions" "entries" u.options),
    "..".toList]
  "Uri \x7b ".toList ++ [',', ' '].intercalate fields ++ " \x7d".toList

end Uri

end CanonicalUri
