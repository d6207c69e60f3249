import CanonicalUri.Text.Basic

/-!
# The written parts of a URI

Before anything is decoded, a URI is a scheme, an authority and what follows it, each as it is
written: `scheme://authority/path?query#fragment`. `RawUri.cut` takes a text apart at these
separators and `RawUri.toText` puts the parts together; `toText_of_cut` and `cut_toText` say that
the two are inverse to each other.

The authority ends before the first slash, and only after that slash do `?` and `#` separate.
Where an authority is optional, a text with a slash right after `scheme://` has none.
-/

namespace CanonicalUri

/-- What follows the authority, from the slash on. -/
structure RawTail where
  path : Text
  query : Option Text
  fragment : Option Text
  deriving DecidableEq, Repr

/-- The parts of a URI as they are written. -/
structure RawUri where
  scheme : Text
  authority : Option Text
  tail : Option RawTail
  deriving DecidableEq, Repr

namespace RawTail

/-- Cuts what follows the slash after the authority. -/
def cut (t : Text) : RawTail :=
  let (front, fragment) := Text.cut '#' t
  let (path, query) := Text.cut '?' front
  ⟨path, query, fragment⟩

/-- What follows the slash after the authority. -/
def toText (t : RawTail) : Text :=
  Text.uncut '#' (Text.uncut '?' t.path t.query) t.fragment

theorem toText_cut (t : Text) : (cut t).toText = t := by
  simp only [cut, toText, Text.uncut_cut]

theorem cut_toText {t : RawTail} (hpath : '?' ∉ t.path ∧ '#' ∉ t.path)
    (hquery : ∀ q ∈ t.query, '#' ∉ q) : cut t.toText = t := by
  have hfront : '#' ∉ Text.uncut '?' t.path t.query := by
    cases hq : t.query with
    | none => exact hpath.2
    | some q => simp [Text.uncut, hpath.2, hquery q hq]
  simp only [cut, toText, Text.cut_uncut hfront, Text.cut_uncut hpath.1]

end RawTail

namespace RawUri

/-- Why a text has no parts: it is empty, or has no scheme, or no `://` after the scheme. -/
inductive CutError where
  | empty
  | emptyScheme
  | missingSeparator
  deriving DecidableEq, Repr

/-- Cuts what follows `scheme://`. -/
def cutRest (acceptPath : Bool) (scheme rest : Text) : RawUri :=
  let (authority, tail) := Text.cut '/' rest
  ⟨scheme, if acceptPath ∧ authority = [] ∧ tail ≠ none then none else some authority,
    tail.map RawTail.cut⟩

/-- Cuts a text; `acceptPath` makes the authority optional. -/
def cut (acceptPath : Bool) (t : Text) : Except CutError RawUri :=
  if t = [] then .error .empty
  else
    match Text.cut ':' t with
    | (_, none) => .error .missingSeparator
    | ([], some _) => .error .emptyScheme
    | (scheme, some ('/' :: '/' :: rest)) => .ok (cutRest acceptPath scheme rest)
    | (_, some _) => .error .missingSeparator

/-- The written form of the parts. -/
def toText (r : RawUri) : Text :=
  r.scheme ++ ':' :: '/' :: '/' :: Text.uncut '/' (r.authority.getD []) (r.tail.map RawTail.toText)

theorem toText_cutRest (acceptPath : Bool) (scheme rest : Text) :
    (cutRest acceptPath scheme rest).toText = scheme ++ ':' :: '/' :: '/' :: rest := by
  have hrest := Text.uncut_cut '/' rest
  have htail : ((Text.cut '/' rest).2.map RawTail.cut).map RawTail.toText
      = (Text.cut '/' rest).2 := by
    cases (Text.cut '/' rest).2 with
    | none => rfl
    | some t => simp [RawTail.toText_cut]
  simp only [cutRest, toText, htail]
  split
  · rename_i h
    rw [h.2.1] at hrest
    simp [hrest]
  · simp [hrest]

/-- The parts of a text put together are that text. -/
theorem toText_of_cut {acceptPath : Bool} {t : Text} {r : RawUri}
    (h : cut acceptPath t = .ok r) : r.toText = t := by
  have ht := Text.uncut_cut ':' t
  rw [cut] at h
  split at h
  · cases h
  · split at h
    · cases h
    · cases h
    · rename_i scheme rest _ hcut
      cases h
      rw [hcut] at ht
      exact (toText_cutRest acceptPath scheme rest).trans ht
    · cases h

/-- Parts that hold none of the separators that end them. -/
structure Separable (acceptPath : Bool) (r : RawUri) : Prop where
  scheme_ne_nil : r.scheme ≠ []
  scheme : ':' ∉ r.scheme
  authority : ∀ a ∈ r.authority, '/' ∉ a
  /-- A missing authority is told from an empty one by the switch alone. -/
  missing : r.authority = none ↔ acceptPath = true ∧ r.authority.getD [] = [] ∧ r.tail ≠ none
  path : ∀ t ∈ r.tail, '?' ∉ t.path ∧ '#' ∉ t.path
  query : ∀ t ∈ r.tail, ∀ q ∈ t.query, '#' ∉ q

/-- Separable parts are found again in their text. -/
theorem cut_toText {acceptPath : Bool} {r : RawUri} (h : Separable acceptPath r) :
    cut acceptPath r.toText = .ok r := by
  have hscheme : Text.cut ':' r.toText
      = (r.scheme, some ('/' :: '/' :: Text.uncut '/' (r.authority.getD [])
          (r.tail.map RawTail.toText))) :=
    Text.cut_uncut h.scheme (some _)
  have hauthority : '/' ∉ r.authority.getD [] := by
    cases ha : r.authority with
    | none => simp
    | some a => exact h.authority a ha
  have htail : (r.tail.map RawTail.toText).map RawTail.cut = r.tail := by
    cases ht : r.tail with
    | none => rfl
    | some t => simp [RawTail.cut_toText (h.path t ht) (h.query t ht)]
  have hne : r.toText ≠ [] := by simp [toText]
  rw [cut, if_neg hne, hscheme]
  -- an empty authority is written like a missing one, so the switch has to decide
  have hmissing := h.missing
  obtain ⟨scheme, authority, tail⟩ := r
  cases scheme with
  | nil => exact absurd rfl h.scheme_ne_nil
  | cons c scheme =>
    simp only [cutRest, Text.cut_uncut hauthority, htail]
    congr 2
    cases authority with
    | none =>
      simp only [Option.map_eq_none_iff, ne_eq]
      exact if_pos (hmissing.mp rfl)
    | some a =>
      simp only [Option.map_eq_none_iff, ne_eq]
      exact if_neg fun hm => by simpa using hmissing.mpr hm

end RawUri

end CanonicalUri
