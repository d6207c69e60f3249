import CanonicalUri.Uri.Written

/-!
# The order of URIs

URIs are compared by their canonical text and then by their hash-bang path, which that text does
not show. So URIs that differ in their options, the text they were read from or their addresses
alone count as the same.

* `order_eq_iff`: neither of two URIs comes first exactly if they are the `same`.
* `hash_eq_of_same`: URIs that are the same have one hash.
-/

namespace CanonicalUri

namespace Uri

/-- What URIs are compared by. -/
def key (u : Uri) : Text × Path :=
  (u.toText, u.hashBangPath)

/-- Whether two URIs say the same. -/
def same (u v : Uri) : Bool :=
  u.key = v.key

/-- The order by canonical text and hash-bang path. -/
def order (u v : Uri) : Ordering :=
  (Text.order u.key.1 v.key.1).then (Text.orderLists u.key.2 v.key.2)

/-- A hash that is equal for URIs that say the same. -/
def hash (u : Uri) : UInt64 :=
  mixHash (Hashable.hash (String.ofList u.key.1)) (Hashable.hash (u.key.2.map String.ofList))

/-- Neither of two URIs comes first exactly if they say the same. -/
theorem order_eq_iff {u v : Uri} : order u v = .eq ↔ same u v = true := by
  simp only [order, same, Ordering.then_eq_eq, Std.LawfulEqCmp.compare_eq_iff_eq,
    decide_eq_true_eq, Prod.ext_iff]

theorem hash_eq_of_same {u v : Uri} (h : same u v = true) : u.hash = v.hash := by
  have hkey : u.key = v.key := by simpa [same] using h
  rw [hash, hash, hkey]

/-- The URIs in order; those that say the same keep their places. -/
def sort (us : List Uri) : List Uri :=
  us.mergeSort fun u v => (order u v).isLE

/-- The URIs without those that say the same as an earlier one. -/
def distinct (us : List Uri) : List Uri :=
  us.foldr (fun u kept => u :: kept.filter fun v => !same u v) []

end Uri

end CanonicalUri
