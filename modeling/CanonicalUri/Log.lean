import CanonicalUri.Text.Basic

/-!
# Logs

A log is a list of lines, each with a level.
-/

namespace CanonicalUri

/-- How much a line of a log matters. -/
inductive LogLevel where
  | trace
  | debug
  | error
  deriving DecidableEq, Repr

/-- A line of a log. -/
structure LogEntry where
  level : LogLevel
  text : Text
  deriving DecidableEq, Repr

end CanonicalUri
