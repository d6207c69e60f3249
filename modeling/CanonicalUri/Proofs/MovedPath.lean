import CanonicalUri.Proofs.HashBang

/-!
# The main path behind `#!`

In hash-bang mode a URI without a hash-bang path has its main path moved behind `#!`. A main path is
split before its segments are decoded, but what stands behind `#!` is decoded first and then split.
So the slashes that were escaped in the segments are lost there, and nothing else is.

* `Path.resplit` is what the segments become when they are written one after the other and split
  again; `Path.resplit_eq_self_iff` says that they come back exactly when none of them holds a
  slash.
* `Uri.parse_write_movedPath`: the text of a URI that was read, with its path moved, is read as the
  same URI with the segments split again for its hash-bang path.
-/

namespace CanonicalUri

/-! ### Segments that are split again -/

namespace Path

/-- The segments of a path, put together with slashes and split at every slash; nothing when there
is a `..` among them then that cannot be carried out. -/
def resplit (p : Path) : Path :=
  (resolve (segments p.toText)).toOption.getD []

/-- An ordinary path without slashes in its segments is split where it was put together. -/
theorem segments_toText_eq_self {p : Path} (h : ∀ s ∈ p, s ≠ [] ∧ s ≠ here ∧ s ≠ parent)
    (hslash : ∀ s ∈ p, '/' ∉ s) : segments p.toText = p := by
  rw [segments, toText, Text.pieces_join hslash fun s hs => (h s hs).1, List.filter_eq_self]
  exact fun s hs => by simpa using (h s hs).2.1

/-- Whatever the text of a path behind `#!` is split into, there is no anchor. -/
theorem form_resplit (p : Path) : Fragment.Form ('!' :: '/' :: p.encode) [] p.resplit := by
  rw [Fragment.form_iff, Fragment.read, Fragment.decodeLenient_hashBang]
  refine ⟨rfl, ?_⟩
  change (resolve (segments ('/' :: p.toText))).toOption.getD [] = p.resplit
  rw [resplit, segments, segments, Text.pieces_cons_self]

/-- An ordinary path comes back exactly when no segment holds a slash. -/
theorem resplit_eq_self_iff {p : Path} (h : ∀ s ∈ p, s ≠ [] ∧ s ≠ here ∧ s ≠ parent) :
    p.resplit = p ↔ ∀ s ∈ p, '/' ∉ s := by
  constructor
  · intro heq s hs
    rw [← heq] at hs
    exact (p.form_resplit.mem hs).2
  · intro hslash
    rw [resplit, segments_toText_eq_self h hslash, resolve_eq_self fun s hs => (h s hs).2]
    rfl

end Path

namespace Uri

/-- In hash-bang mode, a URI without a hash-bang path has its main path for its fragment. -/
theorem form_fragment_movedPath {u : Uri} (hpath : [] ∉ u.path) (hbang : u.hashBangPath = []) :
    Fragment.Form ((u.fragment? .hashBang).getD []) [] u.path.resplit := by
  have hback : u.backPath = u.path := if_pos hbang
  rw [fragment?, hback]
  split_ifs with hempty
  · have hnil : Path.resplit [] = [] := (Path.resplit_eq_self_iff (by simp)).mpr (by simp)
    rw [(Path.encode_eq_nil_iff hpath).mp hempty, hnil]
    exact Fragment.form_encode (a := []) (by simp)
  · exact u.path.form_resplit

/-! ### What was read -/

/-- A URI that was read without a fragment can be written with its path behind `#!`, and is read
back from that text with nothing in front of the query and the same other parts, when its host is
the one that is read from the text of the host or there is none. The path is split again there, and
is the same exactly when no segment holds a slash. -/
theorem parse_write_movedPath {reg : Registry} {mode : ParseMode} {s : Text} {u : Uri}
    (h : parse reg mode s = .ok u) (hanchor : u.anchor = []) (hbang : u.hashBangPath = [])
    (hhost : u.host = .absent ∨ Host.read reg mode.acceptIp u.host.toText = .ok u.host) :
    ∃ t, u.write .hashBang none = .ok t ∧
      parse reg mode t = .ok { u with input := t, path := [], hashBangPath := u.path.resplit } ∧
      (u.path.resplit = u.path ↔ ∀ segment ∈ u.path, '/' ∉ segment) := by
  have hu := isRegular_of_parse h
  have hnil : [] ∉ u.path := fun hmem => (hu.path [] hmem).1 rfl
  have hparse := parse_raw_of_form_fragment hu (form_fragment_movedPath hnil hbang)
    (absent_or_read_of_parse h hhost)
  have hfront : u.frontPath .hashBang = [] := if_pos (by simp [movesPath, hbang])
  refine ⟨_, write_hashBang hanchor, ?_, Path.resplit_eq_self_iff hu.path⟩
  rw [hparse, readBackHashBang, readBack_of_parse h, hfront, hanchor]

/-- Escaped separators other than the slash stay in their segments. -/
theorem parse_write_movedPath_escaped :
    let s := "http://me:pw@a.com:8080/x%3Fy/%23/50%25+%2B?k=v".toList
    let u : Uri :=
      { input := s
        userName := "me".toList
        password := "pw".toList
        host := .name [] "a".toList ".com".toList
        port := 8080
        path := ["x?y".toList, "#".toList, "50% +".toList]
        query := Dict.empty.insert "k".toList "v".toList }
    parse Registry.standard {} s = .ok u ∧
      ∃ t, u.write .hashBang none = .ok t ∧
        parse Registry.standard {} t
          = .ok { u with input := t, path := [], hashBangPath := u.path.resplit } ∧
        (u.path.resplit = u.path ↔ ∀ segment ∈ u.path, '/' ∉ segment) := by
  intro s u
  have h : parse Registry.standard {} s = .ok u := by decide +kernel
  exact ⟨h, parse_write_movedPath h rfl rfl (.inr (by decide +kernel))⟩

/-- An escaped slash does not: one segment of the main path is two behind `#!`. -/
theorem ne_path_of_movedSlash :
    ∃ u t v, parse Registry.standard {} "http://a.com/a%2Fb".toList = .ok u ∧
      u.anchor = [] ∧ u.hashBangPath = [] ∧
      Host.read Registry.standard false u.host.toText = .ok u.host ∧
      u.write .hashBang none = .ok t ∧ parse Registry.standard {} t = .ok v ∧
      v.hashBangPath = ["a".toList, "b".toList] ∧ v.hashBangPath ≠ u.path := by
  refine ⟨{ input := "http://a.com/a%2Fb".toList
            host := .name [] "a".toList ".com".toList
            path := ["a/b".toList] },
    "http://a.com/#!/a%2Fb".toList,
    { input := "http://a.com/#!/a%2Fb".toList
      host := .name [] "a".toList ".com".toList
      hashBangPath := ["a".toList, "b".toList] }, ?_, rfl, rfl, ?_, ?_, ?_, rfl, ?_⟩
  · decide +kernel
  · decide +kernel
  · decide +kernel
  · decide +kernel
  · decide

end Uri

end CanonicalUri
