import CanonicalUri.Ip.V4
import CanonicalUri.Text.Hex

/-!
# IPv6 addresses

An address is eight groups of 16 bits, read from hexadecimal fields with colons between them. One
`::` may stand for a run of zero groups, and the last two groups may be given as an IPv4 address.

Each address is written in one way: groups in lower case without leading zeros, the longest run of
two or more zero groups (the first one of several) as `::`, and an address that maps an IPv4
address as `::ffff:` before that address.
-/

namespace CanonicalUri

namespace Ip

/-- An IPv6 address by its groups. -/
structure V6 where
  groups : List UInt16
  length_groups : groups.length = 8
  deriving DecidableEq

namespace V6

/-- The address of eight groups. -/
def ofGroups? (gs : List UInt16) : Option V6 :=
  if h : gs.length = 8 then some ⟨gs, h⟩ else none

/-! ### Reading -/

/-- The group that one to four hexadecimal digits denote. -/
def group? (t : Text) : Option UInt16 := do
  if t.length ≤ 4 then return UInt16.ofNat (← Hex.read? t) else none

/-- The two groups that an IPv4 address fills. -/
def ofV4 (ip : V4) : List UInt16 :=
  [UInt16.ofNat (ip.a.toNat * 256 + ip.b.toNat), UInt16.ofNat (ip.c.toNat * 256 + ip.d.toNat)]

/-- The groups that fields stand for; the last field may be an IPv4 address. -/
def groups? : List Text → Option (List UInt16)
  | [] => some []
  | [t] => (group? t).map ([·]) <|> (V4.parse? t).map ofV4
  | t :: ts => do return (← group? t) :: (← groups? ts)

/-- The text before and the text after the first `::`. -/
def cutGap : Text → Option (Text × Text)
  | [] => none
  | c :: t =>
    match c, t with
    | ':', ':' :: rest => some ([], rest)
    | _, _ => (cutGap t).map fun p => (c :: p.1, p.2)

/-- The fields between colons; an empty text has none. -/
def fields (t : Text) : List Text :=
  if t = [] then [] else t.splitOn ':'

/-- The address that a text denotes. -/
def parse? (t : Text) : Option V6 :=
  match cutGap t with
  | none => groups? (t.splitOn ':') >>= ofGroups?
  | some (before, after) => do
    let front ← (fields before).mapM group?
    let back ← groups? (fields after)
    if front.length + back.length < 8 then
      ofGroups? (front ++ List.replicate (8 - (front.length + back.length)) 0 ++ back)
    else none

/-! ### Writing -/

/-- The number of zero groups at the front. -/
def leadingZeros (gs : List UInt16) : Nat :=
  (gs.takeWhile (· == 0)).length

/-- Where the longest run of zero groups starts and how long it is; of several the first. -/
def longestGap (gs : List UInt16) : Nat × Nat :=
  (List.range gs.length).foldl
    (fun best i =>
      let n := leadingZeros (gs.drop i)
      if best.2 < n then (i, n) else best)
    (0, 0)

/-- Groups in hexadecimal with colons between them. -/
def writeGroups (gs : List UInt16) : Text :=
  Text.join ':' (gs.map fun g => Hex.write g.toNat)

/-- The IPv4 address that two groups hold. -/
def toV4 (g h : UInt16) : V4 :=
  ⟨UInt8.ofNat (g.toNat / 256), UInt8.ofNat (g.toNat % 256), UInt8.ofNat (h.toNat / 256),
    UInt8.ofNat (h.toNat % 256)⟩

/-- The one spelling of an address. -/
def toText (ip : V6) : Text :=
  match ip.groups with
  | [0, 0, 0, 0, 0, 0xFFFF, g, h] => "::ffff:".toList ++ (toV4 g h).toText
  | gs =>
    let (start, n) := longestGap gs
    if 1 < n then writeGroups (gs.take start) ++ ':' :: ':' :: writeGroups (gs.drop (start + n))
    else writeGroups gs

end V6

end Ip

end CanonicalUri
