import CanonicalUri.Text.Basic

/-!
# Hexadecimal numbers

Digits of either case are read; `upperDigit` writes one digit in upper case and `write` a whole
number in lower case without leading zeros. `read?_write` says that reading undoes writing.
-/

namespace CanonicalUri

namespace Hex

/-- The upper-case digit of a number below 16. -/
def upperDigit (n : Nat) : Char :=
  if n < 10 then Char.ofNat (0x30 + n) else Char.ofNat (0x37 + n)

/-- The value of a digit of either case. -/
def value? (c : Char) : Option Nat :=
  if 0x30 ≤ c.toNat ∧ c.toNat ≤ 0x39 then some (c.toNat - 0x30)
  else if 0x41 ≤ c.toNat ∧ c.toNat ≤ 0x46 then some (c.toNat - 0x37)
  else if 0x61 ≤ c.toNat ∧ c.toNat ≤ 0x66 then some (c.toNat - 0x57)
  else none

theorem value?_upperDigit {n : Nat} (h : n < 16) : value? (upperDigit n) = some n := by
  have hall : ∀ n, n < 16 → value? (upperDigit n) = some n := by decide
  exact hall n h

theorem value?_digitChar {n : Nat} (h : n < 16) : value? n.digitChar = some n := by
  have hall : ∀ n, n < 16 → value? n.digitChar = some n := by decide
  exact hall n h

/-- The digits of a number, in lower case. -/
def write (n : Nat) : Text :=
  Nat.toDigits 16 n

/-- Reads digits on, after those that gave `n`. -/
def readOnto (n : Nat) : Text → Option Nat
  | [] => some n
  | c :: t => do
    let d ← value? c
    readOnto (16 * n + d) t

/-- The number that a non-empty text of digits denotes. -/
def read? (t : Text) : Option Nat :=
  if t = [] then none else readOnto 0 t

theorem readOnto_append (n : Nat) (s t : Text) :
    readOnto n (s ++ t) = (readOnto n s).bind fun m => readOnto m t := by
  induction s generalizing n with
  | nil => rfl
  | cons c s ih =>
    rw [List.cons_append, readOnto, readOnto]
    cases value? c with
    | none => rfl
    | some d => exact ih _

private theorem readOnto_write (n : Nat) : readOnto 0 (write n) = some n := by
  induction n using Nat.strongRecOn with
  | ind n ih =>
    by_cases h : n < 16
    · rw [write, Nat.toDigits_of_lt_base h, readOnto, value?_digitChar h]
      simp [readOnto]
    · have hlt : n / 16 < n := by omega
      rw [write, Nat.toDigits_of_base_le (by decide) (by omega), readOnto_append]
      have := ih _ hlt
      rw [write] at this
      rw [this, Option.bind_some, readOnto, value?_digitChar (Nat.mod_lt _ (by decide))]
      simp only [readOnto, Option.bind_eq_bind, Option.bind_some, Option.some.injEq]
      omega

theorem read?_write (n : Nat) : read? (write n) = some n := by
  rw [read?, if_neg (show write n ≠ [] from Nat.toDigits_ne_nil), readOnto_write]

end Hex

end CanonicalUri
