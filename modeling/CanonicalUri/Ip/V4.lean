import CanonicalUri.Text.Decimal

/-!
# IPv4 addresses

An address is four octets, written in decimal with dots between them. There is one way to write
each octet, without leading zeros, so every address has exactly one text: `parse?_toText` and
`toText_of_parse?`.
-/

namespace CanonicalUri

namespace Ip

/-- An IPv4 address by its octets. -/
structure V4 where
  a : UInt8
  b : UInt8
  c : UInt8
  d : UInt8
  deriving DecidableEq, Repr

namespace V4

/-- The octets, first one first. -/
def octets (ip : V4) : List UInt8 :=
  [ip.a, ip.b, ip.c, ip.d]

/-- The octet that a text is the decimal spelling of. -/
def octet? (t : Text) : Option UInt8 := do
  let n ← Decimal.read? t
  if n < 256 ∧ Decimal.write n = t then some (UInt8.ofNat n) else none

/-- The address of exactly four octets with dots between them. -/
def parse? (t : Text) : Option V4 :=
  match t.splitOn '.' with
  | [a, b, c, d] => do return ⟨← octet? a, ← octet? b, ← octet? c, ← octet? d⟩
  | _ => none

/-- The decimal spelling of an address. -/
def toText (ip : V4) : Text :=
  Text.join '.' (ip.octets.map fun o => Decimal.write o.toNat)

theorem octet?_write (o : UInt8) : octet? (Decimal.write o.toNat) = some o := by
  simp [octet?, Decimal.read?_write, o.toNat_lt]

theorem eq_write_of_octet? {t : Text} {o : UInt8} (h : octet? t = some o) :
    t = Decimal.write o.toNat := by
  simp only [octet?, Option.bind_eq_bind, Option.bind_eq_some_iff] at h
  obtain ⟨n, _, h⟩ := h
  split at h
  · rename_i hn
    cases h
    rw [show (UInt8.ofNat n).toNat = n from by simpa using Nat.mod_eq_of_lt hn.1, hn.2]
  · cases h

private theorem not_mem_write (n : Nat) : '.' ∉ Decimal.write n := fun h => by
  have := Nat.isDigit_of_mem_toDigits (b := 10) (by decide) (by decide) h
  revert this
  decide

/-- The spelling of an address is read as that address. -/
theorem parse?_toText (ip : V4) : parse? ip.toText = some ip := by
  have hsplit : (toText ip).splitOn '.' = ip.octets.map fun o => Decimal.write o.toNat := by
    refine List.splitOn_intercalate '.' (fun t ht => ?_) (by simp [octets])
    obtain ⟨o, _, rfl⟩ := List.mem_map.mp ht
    exact not_mem_write _
  rw [parse?, hsplit]
  simp [octets, octet?_write]

/-- An address is read from its spelling alone. -/
theorem toText_of_parse? {t : Text} {ip : V4} (h : parse? t = some ip) : ip.toText = t := by
  rw [parse?] at h
  split at h
  · rename_i a b c d hs
    simp only [Option.pure_def, Option.bind_eq_bind, Option.bind_eq_some_iff,
      Option.some.injEq] at h
    obtain ⟨a', ha, b', hb, c', hc, d', hd, rfl⟩ := h
    have hjoin : Text.join '.' (t.splitOn '.') = t := List.intercalate_splitOn '.'
    rw [hs, eq_write_of_octet? ha, eq_write_of_octet? hb, eq_write_of_octet? hc,
      eq_write_of_octet? hd] at hjoin
    exact hjoin
  · cases h

end V4

end Ip

end CanonicalUri
