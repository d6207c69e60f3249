import CanonicalUri.Log
import CanonicalUri.Uri.Edit

/-!
# Validation of settings

A validator tells whether a setting is a URI. It is made from a list of parameters, which switch
the acceptance of IP addresses and of URIs without an authority on and off; the last one for a
switch wins, and unknown ones are complained about and passed over.
-/

namespace CanonicalUri

/-- A check whether a text is a URI. -/
structure Validator where
  mode : ParseMode
  deriving DecidableEq, Repr

namespace Validator

/-- The kind of setting that is checked. -/
def name : Text := "uri".toList

/-- What a parameter makes of the switches, if it is known. -/
def adjust? (mode : ParseMode) (parameter : Text) : Option ParseMode :=
  match String.ofList parameter with
  | "accept_ip" => some { mode with acceptIp := true }
  | "accept-ip" => some { mode with acceptIp := true }
  | "accept_path" => some { mode with acceptPath := true }
  | "accept-path" => some { mode with acceptPath := true }
  | "refuse_ip" => some { mode with acceptIp := false }
  | "refuse-ip" => some { mode with acceptIp := false }
  | "refuse_path" => some { mode with acceptPath := false }
  | "refuse-path" => some { mode with acceptPath := false }
  | _ => none

/-- The validator for some parameters. -/
def ofParameters (parameters : List Text) : Validator :=
  ⟨parameters.foldl (fun mode p => (adjust? mode p).getD mode) {}⟩

/-- The complaints about unknown parameters. -/
def complaints (parameters : List Text) : List LogEntry :=
  (parameters.filter fun p => (adjust? {} p).isNone).map fun p =>
    ⟨.error, "UriValidator: unknown parameter \"".toList ++ p ++ "\".".toList⟩

/-- Whether a value is a URI. -/
def validate (reg : Registry) (v : Validator) (value : Text) : Bool :=
  (({} : Uri).assign reg v.mode value).1

end Validator

end CanonicalUri
