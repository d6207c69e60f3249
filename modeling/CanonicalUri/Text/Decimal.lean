import CanonicalUri.Text.Basic

/-!
# Decimal numbers

Numbers are written without leading zeros and read from any non-empty run of ASCII digits, of any
length. `read?_write` says that reading undoes writing, and `readPort?` reads the numbers that are
ports, from 0 to 65535.
-/

namespace CanonicalUri

namespace Decimal

/-- The digits of a number. -/
def write (n : Nat) : Text :=
  Nat.toDigits 10 n

/-- Whether a text consists of ASCII digits; so does the empty text. -/
def isDigits (t : Text) : Bool :=
  t.all Char.isDigit

/-- The number that a non-empty text of ASCII digits denotes, leading zeros allowed. -/
def read? (t : Text) : Option Nat :=
  if t ≠ [] ∧ isDigits t then some (Nat.ofDigitChars 10 t 0) else none

/-- The port number that a text denotes. -/
def readPort? (t : Text) : Option UInt16 := do
  let n ← read? t
  if h : n < UInt16.size then some (UInt16.ofNatLT n h) else none

theorem read?_write (n : Nat) : read? (write n) = some n := by
  have hd : isDigits (write n) = true := List.all_eq_true.mpr fun _ hc =>
    Nat.isDigit_of_mem_toDigits (by decide) (by decide) hc
  rw [read?, if_pos ⟨Nat.toDigits_ne_nil, hd⟩, write, Nat.ofDigitChars_ten_toDigits]

end Decimal

end CanonicalUri
