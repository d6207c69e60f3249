import CanonicalUri.Proofs.RoundTrip

/-!
# Where a text is refused

A text is read in phases, each on its own stretch of the text: the authority up to the first slash,
the path up to `?` or `#`, the query up to `#`, and the fragment. What a phase says does not depend
on what is behind its stretch, and no fragment is refused.

* `Parsed.readFront` is all that can fail behind the scheme. `Parsed.ofText_front` says which
  stretches it is run on, and that the fragment is read apart from it.
* `Parsed.readFront_of_nothing` and `Parsed.readFront_of_no_query`: a fault stays the first one
  whatever follows its stretch.
* `Uri.parse_continued`: so a refused authority is refused with any tail, a refused path with any
  query and fragment, and a fragment changes neither a refusal nor what was read in front of it.
-/

namespace CanonicalUri

namespace Parsed

/-- The authority, the path and the query, one after the other. -/
def readFront (reg : Registry) (acceptIp : Bool) (authority : Option Text) (path query : Text) :
    Except ParseError (Authority × Path × Query) := do
  return (← readAuthority reg acceptIp authority, ← Path.read path, ← Query.read query)

/-- What a scheme, a front and a fragment say together. -/
def ofParts (reg : Registry) (scheme fragment : Text) (front : Authority × Path × Query) :
    Parsed where
  scheme := scheme
  schemePort := reg.defaultPort scheme
  userName := front.1.userName
  password := front.1.password
  host := front.1.host
  port := front.1.port <|> reg.defaultPort scheme
  path := front.2.1
  hashBangPath := (Fragment.read fragment).path
  query := front.2.2
  anchor := (Fragment.read fragment).anchorText

/-- The fragment is read apart from the front. -/
theorem ofRaw_eq_map_readFront (reg : Registry) (mode : ParseMode) (raw : RawUri) :
    ofRaw reg mode raw =
      ofParts reg raw.scheme (RawTail.parts raw.tail).2.2 <$>
        readFront reg mode.acceptIp raw.authority (RawTail.parts raw.tail).1
          (RawTail.parts raw.tail).2.1 := by
  rcases hauthority : raw.authority with _ | t
  · simp only [ofRaw, hauthority, readFront, map_bind, map_pure]
    rfl
  · simp only [ofRaw, hauthority, readFront, map_bind, map_pure]
    rfl

/-- The front fails with the first fault in it. -/
theorem readFront_eq_error_iff {reg : Registry} {acceptIp : Bool} {authority : Option Text}
    {path query : Text} {e : ParseError} :
    readFront reg acceptIp authority path query = .error e ↔
      readAuthority reg acceptIp authority = .error e ∨
        ∃ a, readAuthority reg acceptIp authority = .ok a ∧
          (Path.read path = .error e ∨
            ∃ p, Path.read path = .ok p ∧ Query.read query = .error e) := by
  simp [readFront]

/-- A fault in an authority with nothing behind it is the first one, whatever is behind it. -/
theorem readFront_of_nothing {reg : Registry} {acceptIp : Bool} {authority : Option Text}
    {e : ParseError} (h : readFront reg acceptIp authority [] [] = .error e) (path query : Text) :
    readFront reg acceptIp authority path query = .error e := by
  rw [readFront_eq_error_iff] at h ⊢
  refine .inl (h.resolve_right ?_)
  rintro ⟨_, _, hpath | ⟨_, _, hquery⟩⟩
  · rw [Path.read_nil] at hpath
    cases hpath
  · cases hquery

/-- A fault in front of the query is the first one, whatever the query is. -/
theorem readFront_of_no_query {reg : Registry} {acceptIp : Bool} {authority : Option Text}
    {path : Text} {e : ParseError} (h : readFront reg acceptIp authority path [] = .error e)
    (query : Text) : readFront reg acceptIp authority path query = .error e := by
  rw [readFront_eq_error_iff] at h ⊢
  refine h.imp_right fun ⟨a, ha, h⟩ => ⟨a, ha, .inl (h.resolve_right ?_)⟩
  rintro ⟨_, _, hquery⟩
  cases hquery

end Parsed

/-! ### The stretches -/

theorem exists_tailForm (x : Text) : ∃ parts, TailForm ('/' :: x) parts :=
  ⟨_, tailForm_iff.mpr ⟨some x, rfl, rfl⟩⟩

/-- A path alone. -/
theorem tailForm_path {path : Text} (hpath : '?' ∉ path ∧ '#' ∉ path) :
    TailForm ('/' :: path) (path, [], []) := by
  have h := TailForm.slash hpath .absent List.not_mem_nil .absent
  rwa [List.append_nil, List.append_nil] at h

/-- A path ends in front of a question mark or a hash sign, whatever is behind that. -/
theorem exists_tailForm_append {path x : Text} (hpath : '?' ∉ path ∧ '#' ∉ path)
    (hx : x.head? = some '?' ∨ x.head? = some '#') :
    ∃ query fragment, TailForm ('/' :: (path ++ x)) (path, query, fragment) := by
  obtain hx | hx := hx
  · obtain ⟨y, rfl⟩ := List.head?_eq_some_iff.mp hx
    have hy := Text.uncut_cut '#' y
    have hquery : '#' ∉ '?' :: (Text.cut '#' y).1 := by
      simpa using Text.not_mem_fst_cut '#' y
    rw [Text.uncut_eq_append] at hy
    have h := TailForm.slash hpath (.present _) hquery (marked_uncut '#' (Text.cut '#' y).2)
    rw [List.append_assoc, List.cons_append, hy] at h
    exact ⟨_, _, h⟩
  · obtain ⟨y, rfl⟩ := List.head?_eq_some_iff.mp hx
    have h := TailForm.slash hpath .absent List.not_mem_nil (Marked.present y)
    rw [List.append_nil] at h
    exact ⟨[], y, h⟩

/-- A fragment can be put behind a tail without a hash sign, and changes no other part of it. -/
theorem exists_tailForm_fragment {x : Text} (hx : '#' ∉ x) :
    ∃ path query, TailForm ('/' :: x) (path, query, []) ∧
      ∀ fragment, TailForm ('/' :: (x ++ '#' :: fragment)) (path, query, fragment) := by
  obtain ⟨parts, h⟩ := exists_tailForm x
  generalize ht : '/' :: x = t at h
  obtain _ | @⟨path, _, _, q, _, hpath, hq, hquery, hf⟩ := h
  · cases ht
  · obtain rfl := (List.cons.inj ht).2
    obtain _ | f := hf
    · refine ⟨path, q, .slash hpath hq hquery .absent, fun f => ?_⟩
      rw [List.append_nil]
      exact .slash hpath hq hquery (.present f)
    · exact absurd (by simp) hx

namespace Parsed

/-- What stands in the place of an authority, which may be missing in front of a tail. -/
def frontAuthority (mode : ParseMode) (authority tail : Text) : Option Text :=
  if mode.acceptPath = true ∧ authority = [] ∧ tail ≠ [] then none else some authority

/-- What is behind the slash of a tail does not matter for that. -/
theorem frontAuthority_slash (mode : ParseMode) (authority x : Text) :
    frontAuthority mode authority ('/' :: x) =
      if mode.acceptPath = true ∧ authority = [] then none else some authority := by
  simp [frontAuthority]

/-- Behind the scheme, the front and the fragment are read from their stretches. -/
theorem ofText_front (reg : Registry) (mode : ParseMode) {scheme authority : Text}
    (hscheme : scheme ≠ [] ∧ ':' ∉ scheme) (hslash : '/' ∉ authority)
    {tail path query fragment : Text} (htail : TailForm tail (path, query, fragment)) :
    ofText reg mode (scheme ++ "://".toList ++ authority ++ tail) =
      ofParts reg scheme fragment <$>
        readFront reg mode.acceptIp (frontAuthority mode authority tail) path query := by
  obtain ⟨tail, rfl, hparts⟩ := tailForm_iff.mp htail
  have hcut : RawUri.cut mode.acceptPath _ = .ok _ := RawUri.cut_eq_ok_iff.mpr
    ⟨scheme, _, hscheme.1, hscheme.2, append_uncut_slash scheme authority tail, rfl⟩
  have htail : Text.uncut '/' [] tail ≠ [] ↔ tail ≠ none := by
    cases tail <;> simp [Text.uncut]
  rw [ofText, hcut]
  refine (ofRaw_eq_map_readFront reg mode _).trans ?_
  simp only [RawUri.cutRest, Text.cut_uncut hslash, ← hparts, frontAuthority, htail]

/-! ### Longer texts -/

section

variable {reg : Registry} {mode : ParseMode} {scheme authority : Text}

/-- A refused authority is refused whatever is behind it, unless it is empty and may be missing
there. -/
theorem ofText_slash_of_error (hscheme : scheme ≠ [] ∧ ':' ∉ scheme) (hslash : '/' ∉ authority)
    (hpresent : ¬(mode.acceptPath = true ∧ authority = [])) {e : ParseError}
    (h : ofText reg mode (scheme ++ "://".toList ++ authority) = .error e) (x : Text) :
    ofText reg mode (scheme ++ "://".toList ++ authority ++ '/' :: x) = .error e := by
  obtain ⟨_, htail⟩ := exists_tailForm x
  have hfront : ∀ tail, frontAuthority mode authority tail = some authority := fun tail =>
    if_neg fun hmissing => hpresent ⟨hmissing.1, hmissing.2.1⟩
  have hnothing := ofText_front reg mode hscheme hslash .nothing
  rw [List.append_nil, h, hfront] at hnothing
  rw [ofText_front reg mode hscheme hslash htail, hfront, functorMap_eq_error_iff]
  exact readFront_of_nothing (functorMap_eq_error_iff.mp hnothing.symm) _ _

/-- What is refused with a path alone is refused with any query and fragment. -/
theorem ofText_append_of_error (hscheme : scheme ≠ [] ∧ ':' ∉ scheme) (hslash : '/' ∉ authority)
    {path x : Text} (hpath : '?' ∉ path ∧ '#' ∉ path)
    (hx : x.head? = some '?' ∨ x.head? = some '#') {e : ParseError}
    (h : ofText reg mode (scheme ++ "://".toList ++ authority ++ '/' :: path) = .error e) :
    ofText reg mode (scheme ++ "://".toList ++ authority ++ '/' :: (path ++ x)) = .error e := by
  obtain ⟨query, _, htail⟩ := exists_tailForm_append hpath hx
  rw [ofText_front reg mode hscheme hslash (tailForm_path hpath), functorMap_eq_error_iff,
    frontAuthority_slash] at h
  rw [ofText_front reg mode hscheme hslash htail, functorMap_eq_error_iff, frontAuthority_slash]
  exact readFront_of_no_query h query

/-- A fragment adds an anchor and a hash-bang path to what is read in front of it. -/
theorem ofText_fragment (reg : Registry) (mode : ParseMode) (hscheme : scheme ≠ [] ∧ ':' ∉ scheme)
    (hslash : '/' ∉ authority) {x : Text} (hx : '#' ∉ x) (fragment : Text) :
    ofText reg mode (scheme ++ "://".toList ++ authority ++ '/' :: (x ++ '#' :: fragment)) =
      (fun p : Parsed => { p with
          anchor := (Fragment.read fragment).anchorText
          hashBangPath := (Fragment.read fragment).path }) <$>
        ofText reg mode (scheme ++ "://".toList ++ authority ++ '/' :: x) := by
  obtain ⟨path, query, htail, hfragment⟩ := exists_tailForm_fragment hx
  rw [ofText_front reg mode hscheme hslash htail,
    ofText_front reg mode hscheme hslash (hfragment fragment), frontAuthority_slash,
    frontAuthority_slash, ← comp_map]
  rfl

end

end Parsed

namespace Uri

/-- What is behind a fault does not matter, and a fragment is never at fault. Behind a scheme and an
authority:
* a text that is refused with nothing behind the authority is refused for the same reason with any
  tail, unless the authority is empty and may be missing there;
* one that is refused with a path alone is refused for the same reason with any query and fragment;
* one that is accepted without a fragment is accepted with any, and only its anchor and hash-bang
  path are other ones;
* one that is refused without a fragment is refused for the same reason with any. -/
theorem parse_continued (reg : Registry) (mode : ParseMode) {scheme authority : Text}
    (hscheme : scheme ≠ [] ∧ ':' ∉ scheme) (hslash : '/' ∉ authority) :
    let front := scheme ++ "://".toList ++ authority
    (∀ r x, ¬(mode.acceptPath = true ∧ authority = []) →
      parse reg mode front = .error r →
      parse reg mode (front ++ '/' :: x) = .error { r with input := front ++ '/' :: x }) ∧
    (∀ r path x, '?' ∉ path ∧ '#' ∉ path → x.head? = some '?' ∨ x.head? = some '#' →
      parse reg mode (front ++ '/' :: path) = .error r →
      parse reg mode (front ++ '/' :: (path ++ x))
        = .error { r with input := front ++ '/' :: (path ++ x) }) ∧
    (∀ u x fragment, '#' ∉ x → parse reg mode (front ++ '/' :: x) = .ok u →
      parse reg mode (front ++ '/' :: (x ++ '#' :: fragment))
        = .ok { u with
            input := front ++ '/' :: (x ++ '#' :: fragment)
            anchor := (Fragment.read fragment).anchorText
            hashBangPath := (Fragment.read fragment).path }) ∧
    (∀ r x fragment, '#' ∉ x → parse reg mode (front ++ '/' :: x) = .error r →
      parse reg mode (front ++ '/' :: (x ++ '#' :: fragment))
        = .error { r with input := front ++ '/' :: (x ++ '#' :: fragment) }) := by
  simp only [parse_eq_error_iff, parse_eq_ok_iff]
  refine ⟨?_, ?_, ?_, ?_⟩
  · rintro _ x hpresent ⟨e, he, rfl⟩
    exact ⟨e, Parsed.ofText_slash_of_error hscheme hslash hpresent he x, rfl⟩
  · rintro _ path x hpath hx ⟨e, he, rfl⟩
    exact ⟨e, Parsed.ofText_append_of_error hscheme hslash hpath hx he, rfl⟩
  · rintro _ x fragment hx ⟨p, hp, rfl⟩
    rw [Parsed.ofText_fragment reg mode hscheme hslash hx, hp]
    exact ⟨_, rfl, rfl⟩
  · rintro _ x fragment hx ⟨e, he, rfl⟩
    rw [Parsed.ofText_fragment reg mode hscheme hslash hx, he]
    exact ⟨e, rfl, rfl⟩

/-- A fault in the port, one in the path and one in the query, each in front of another fault, and a
text without faults in front of a hash-bang path that leads above its root. -/
theorem parse_continued_faults :
    let reg := Registry.standard
    let port := "http".toList ++ "://".toList ++ "a.com:65536".toList
    let front := "http".toList ++ "://".toList ++ "a.com".toList
    let above := "!/../%FF".toList
    (∃ r, parse reg {} port = .error r ∧ r.cause = .portOutOfRange "65536".toList ∧
      parse reg {} (port ++ '/' :: "%zz".toList)
        = .error { r with input := port ++ '/' :: "%zz".toList }) ∧
    (∃ r, parse reg {} (front ++ '/' :: "b/../..".toList) = .error r ∧
      r.cause = .invalidPath .leadingParent ∧
      parse reg {} (front ++ '/' :: ("b/../..".toList ++ "?%zz".toList))
        = .error { r with input := front ++ '/' :: ("b/../..".toList ++ "?%zz".toList) }) ∧
    (∃ u, parse reg {} (front ++ '/' :: "b?k=v".toList) = .ok u ∧
      parse reg {} (front ++ '/' :: ("b?k=v".toList ++ '#' :: above))
        = .ok { u with
            input := front ++ '/' :: ("b?k=v".toList ++ '#' :: above)
            anchor := []
            hashBangPath := [] }) ∧
    (∃ r, parse reg {} (front ++ '/' :: "b?k=1&k=%zz".toList) = .error r ∧
      r.cause = .duplicateQueryName "k".toList ∧
      parse reg {} (front ++ '/' :: ("b?k=1&k=%zz".toList ++ '#' :: above))
        = .error { r with input := front ++ '/' :: ("b?k=1&k=%zz".toList ++ '#' :: above) }) := by
  intro reg port front above
  have hport : parse reg {} port = .error ⟨port, .portOutOfRange "65536".toList⟩ := by
    decide +kernel
  have hpath : parse reg {} (front ++ '/' :: "b/../..".toList)
      = .error ⟨front ++ '/' :: "b/../..".toList, .invalidPath .leadingParent⟩ := by
    decide +kernel
  have haccepted : parse reg {} (front ++ '/' :: "b?k=v".toList)
      = .ok { input := front ++ '/' :: "b?k=v".toList
              host := .name [] "a".toList ".com".toList
              path := ["b".toList]
              query := Dict.empty.insert "k".toList "v".toList } := by
    decide +kernel
  have hquery : parse reg {} (front ++ '/' :: "b?k=1&k=%zz".toList)
      = .error ⟨front ++ '/' :: "b?k=1&k=%zz".toList, .duplicateQueryName "k".toList⟩ := by
    decide +kernel
  have hanchor : (Fragment.read above).anchorText = [] := by decide +kernel
  have hbang : (Fragment.read above).path = [] := by decide +kernel
  have hscheme : "http".toList ≠ [] ∧ ':' ∉ "http".toList := by decide
  obtain ⟨hcontinued, _⟩ := parse_continued reg {} hscheme
    (show '/' ∉ "a.com:65536".toList by decide)
  obtain ⟨_, hcontinuedPath, hfragment, hcontinuedQuery⟩ := parse_continued reg {} hscheme
    (show '/' ∉ "a.com".toList by decide)
  have hfragment := hfragment _ "b?k=v".toList above (by decide) haccepted
  rw [hanchor, hbang] at hfragment
  refine ⟨⟨_, hport, rfl, ?_⟩, ⟨_, hpath, rfl, ?_⟩, ⟨_, haccepted, hfragment⟩,
    ⟨_, hquery, rfl, ?_⟩⟩
  · exact hcontinued _ _ (by decide) hport
  · exact hcontinuedPath _ _ _ (by decide) (by decide) hpath
  · exact hcontinuedQuery _ _ _ (by decide) hquery

end Uri

end CanonicalUri
