import CanonicalUri.Text.Hex

/-!
# Quoted texts

The form in which messages show a text: in double quotes, with a backslash before quotes and
backslashes, with letters for the usual control characters and the code point of any other control
character in braces. Characters outside ASCII are shown as they are unless they are controls.
-/

namespace CanonicalUri

namespace Quoted

/-- Whether a character is a control character. -/
def isControl (c : Char) : Bool :=
  decide (c.toNat < 0x20) || (decide (0x7F ≤ c.toNat) && decide (c.toNat < 0xA0))

/-- A character inside quotes. -/
def escape (c : Char) : Text :=
  if c = '"' then ['\\', '"']
  else if c = '\\' then ['\\', '\\']
  else if c = '\n' then ['\\', 'n']
  else if c = '\r' then ['\\', 'r']
  else if c = '\t' then ['\\', 't']
  else if c.toNat = 0 then ['\\', '0']
  else if isControl c then '\\' :: 'u' :: '\x7b' :: Hex.write c.toNat ++ ['\x7d']
  else [c]

/-- A text in quotes. -/
def text (t : Text) : Text :=
  '"' :: t.flatMap escape ++ ['"']

/-- Elements with commas between them, between an opening and a closing character. -/
def enclosed (opening closing : Char) (elements : List Text) : Text :=
  opening :: [',', ' '].intercalate elements ++ [closing]

/-- A list of texts, each in quotes, in square brackets. -/
def list (ts : List Text) : Text :=
  enclosed '[' ']' (ts.map text)

/-- Names with their values, all in quotes, in braces. -/
def entries (es : List (Text × Text)) : Text :=
  enclosed '\x7b' '\x7d' (es.map fun e => text e.1 ++ ':' :: ' ' :: text e.2)

end Quoted

end CanonicalUri
