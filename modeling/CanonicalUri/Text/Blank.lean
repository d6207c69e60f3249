import CanonicalUri.Text.Basic

/-!
# White space

The characters with the Unicode property White_Space, which has been the same set since version
6.3, and the words that they separate.
-/

namespace CanonicalUri

namespace Text

/-- The ranges of white space, ascending and apart. -/
def blankRanges : List (Nat × Nat) :=
  [(0x09, 0x0D), (0x20, 0x20), (0x85, 0x85), (0xA0, 0xA0), (0x1680, 0x1680), (0x2000, 0x200A),
    (0x2028, 0x2029), (0x202F, 0x202F), (0x205F, 0x205F), (0x3000, 0x3000)]

def isBlank (c : Char) : Bool :=
  blankRanges.any fun r => decide (r.1 ≤ c.toNat) && decide (c.toNat ≤ r.2)

/-- The non-empty texts between white space. -/
def words (t : Text) : List Text :=
  (t.splitOnP isBlank).filter (· != [])

theorem ne_nil_of_mem_words {w t : Text} (h : w ∈ words t) : w ≠ [] := by
  simpa using (List.mem_filter.mp h).2

end Text

end CanonicalUri
