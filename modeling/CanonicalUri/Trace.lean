import CanonicalUri.Log
import CanonicalUri.Text.Quoted
import CanonicalUri.Uri.Basic

/-!
# Traces of reading

What reading a URI has to say about its progress: a line for each part that was read, in the order
in which they are read, up to the first fault. `Trace.parse` is the trace of `Uri.parse`, which
ends with an error line when the text is refused. Nothing is said here of how a scheme is looked up
in a services database.
-/

namespace CanonicalUri

namespace Trace

/-- A line about a part that was read. -/
def line (before : String) (shown : Text) : LogEntry :=
  ⟨.trace, before.toList ++ shown⟩

/-- A host that is an IP address is shown as it is written and as it is read. -/
def host (raw : Text) : Host → List LogEntry
  | .ip address =>
    [line "accepted " (Quoted.text raw ++ " as IP literal ".toList ++ address.toHost)]
  | _ => []

/-- The lines of reading an authority. -/
def authority (reg : Registry) (acceptIp : Bool) (t : Text) : Except ParseError (List LogEntry) :=
  do
  let raw ← RawAuthority.cut t
  let a ← Authority.ofRaw reg acceptIp raw
  return host raw.host a.host ++ [line "parsed authority " (Quoted.text t)]

/-- The line of reading a fragment. -/
def fragment (t : Text) : LogEntry :=
  match Fragment.read t with
  | .anchor text => line "parsed anchor " (Quoted.text text)
  | .hashBang text =>
    match Path.resolve (Path.segments text) with
    | .ok p => line "parsed hash-bang path " (Quoted.list p)
    | .error e =>
      ⟨.debug, "ignoring hash-bang path ".toList ++ Quoted.text text ++ ": ".toList
        ++ e.message.toList⟩

/-- The lines of reading what follows the authority. -/
def tail (t : RawTail) : List LogEntry :=
  match Path.read t.path with
  | .error _ => []
  | .ok path =>
    line "parsed path " (Quoted.list path) ::
      match Query.read (t.query.getD []) with
      | .error _ => []
      | .ok query =>
        line "parsed " (Decimal.write query.size ++ " query string parameter(s)".toList) ::
          (t.fragment.map fragment).toList

/-- The lines of reading the written parts of a URI. -/
def parts (reg : Registry) (mode : ParseMode) (raw : RawUri) : List LogEntry :=
  let rest := tail (raw.tail.getD ⟨[], none, none⟩)
  line "parsed scheme " (Quoted.text raw.scheme) ::
    match raw.authority with
    | none => line "no authority, path-style URI" [] :: rest
    | some t =>
      match authority reg mode.acceptIp t with
      | .error _ => []
      | .ok lines => lines ++ rest

/-- The lines of reading a URI. -/
def parse (reg : Registry) (mode : ParseMode) (t : Text) : List LogEntry :=
  (match RawUri.cut mode.acceptPath t with
    | .error _ => []
    | .ok raw => parts reg mode raw) ++
  match Uri.parse reg mode t with
  | .ok _ => []
  | .error r => [⟨.error, r.message.toList⟩]

end Trace

end CanonicalUri
