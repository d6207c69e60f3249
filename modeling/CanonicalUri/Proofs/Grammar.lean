import CanonicalUri.Proofs.Grammar.Authority
import CanonicalUri.Proofs.Grammar.Tail

/-!
# The grammar of URIs

`Parsed.Form` is the grammar as a relation between texts and what they say: a scheme, `://`, an
authority unless it may be left out, and path, query and fragment behind it. It speaks of texts
that are put together, not of where a scan stops.

* `Parsed.ofText_eq_ok_iff`: a text is accepted exactly when it has this form, and what is returned
  is what the form says.
* `Parsed.Form.unique`: so the grammar is unambiguous, whatever a text is put together from.
* `HasAuthority` is about the authority alone: what is written between `://` and the next slash,
  whether it can be read or not. `hasAuthority_iff` says that this is what is cut out there.
-/

namespace CanonicalUri

/-- The authority in front of the rest of a text. It may be missing in front of a slash where that
is allowed; it ends before the first slash. -/
inductive AuthorityForm (reg : Registry) (mode : ParseMode) : Text → Text → Authority → Prop
  | missing {rest : Text} (hmode : mode.acceptPath = true) :
      AuthorityForm reg mode [] ('/' :: rest) .absent
  | present {t rest : Text} {a : Authority} (hslash : '/' ∉ t)
      (ha : Authority.Form reg mode.acceptIp t a) : AuthorityForm reg mode t rest a

namespace Parsed

/-- The form of a URI with what it says. -/
inductive Form (reg : Registry) (mode : ParseMode) : Text → Parsed → Prop
  | intro {scheme authority tail path query fragment anchor : Text} {a : Authority}
      {p hashBangPath : Path} {q : Query}
      (hscheme : scheme ≠ [] ∧ ':' ∉ scheme)
      (hauthority : AuthorityForm reg mode authority tail a)
      (htail : TailForm tail (path, query, fragment))
      (hpath : Path.Form path p) (hquery : Query.Form query q)
      (hfragment : Fragment.Form fragment anchor hashBangPath) :
      Form reg mode (scheme ++ "://".toList ++ authority ++ tail)
        { scheme := scheme
          schemePort := reg.defaultPort scheme
          userName := a.userName
          password := a.password
          host := a.host
          port := a.port <|> reg.defaultPort scheme
          path := p
          hashBangPath := hashBangPath
          query := q
          anchor := anchor }

end Parsed

/-! ### Cutting -/

/-- An authority stands in front of the slash at which it is cut. -/
theorem append_uncut_slash (scheme authority : Text) (tail : Option Text) :
    scheme ++ "://".toList ++ authority ++ Text.uncut '/' [] tail
      = scheme ++ ':' :: '/' :: '/' :: Text.uncut '/' authority tail := by
  rw [Text.uncut_eq_append '/' authority, List.append_assoc, List.append_assoc]
  rfl

/-- A text is cut exactly when it has a scheme with `://` behind it. -/
theorem RawUri.cut_eq_ok_iff {acceptPath : Bool} {t : Text} {r : RawUri} :
    cut acceptPath t = .ok r ↔ ∃ scheme rest, scheme ≠ [] ∧ ':' ∉ scheme ∧
      t = scheme ++ ':' :: '/' :: '/' :: rest ∧ cutRest acceptPath scheme rest = r := by
  refine ⟨fun h => ?_, ?_⟩
  · have hcolon := Text.not_mem_fst_cut ':' t
    have ht := Text.uncut_cut ':' t
    rw [cut] at h
    split at h
    · cases h
    · split at h
      · cases h
      · cases h
      · rename_i scheme rest hne hcut
        cases h
        rw [hcut] at hcolon ht
        exact ⟨scheme, rest, hne, hcolon, ht.symm, rfl⟩
      · cases h
  · rintro ⟨scheme, rest, hne, hcolon, rfl, rfl⟩
    have hcut : Text.cut ':' (scheme ++ ':' :: '/' :: '/' :: rest)
        = (scheme, some ('/' :: '/' :: rest)) :=
      Text.cut_uncut hcolon (some ('/' :: '/' :: rest))
    rw [cut, if_neg (by simp), hcut]
    obtain _ | ⟨c, scheme⟩ := scheme
    · exact absurd rfl hne
    · rfl

/-- An authority that has its form is not empty: there is a host in it. -/
theorem Authority.Form.ne_nil {reg : Registry} {acceptIp : Bool} {t : Text} {a : Authority}
    (h : Form reg acceptIp t a) : t ≠ [] := by
  obtain ⟨huser, hserver, hne, _⟩ := h
  generalize a.port = port at hserver
  obtain _ | _ := huser
  · obtain _ | _ := hserver
    · exact hne
    · simp
  · simp

/-- The parts of the authority that is written in a text, between `://` and the next slash. -/
inductive HasAuthority : Text → RawAuthority → Prop
  | intro {scheme authority tail server : Text} {parts : Text × Text × Text} {raw : RawAuthority}
      (hscheme : scheme ≠ [] ∧ ':' ∉ scheme) (hslash : '/' ∉ authority)
      (htail : TailForm tail parts)
      (huser : RawAuthority.UserForm authority ((raw.userName, raw.password), server))
      (hserver : RawAuthority.ServerForm server (raw.host, raw.port))
      (hclosed : raw.port = none ∨ RawAuthority.IsClosed raw.host) (hne : raw.host ≠ []) :
      HasAuthority (scheme ++ "://".toList ++ authority ++ tail) raw

/-- Nothing is no authority. -/
theorem RawAuthority.cut_nil : cut [] = .error .missingDomain := rfl

/-- The authority that is written in a text is the one that is cut out of it, wherever it may be
missing. -/
theorem hasAuthority_iff (acceptPath : Bool) {t : Text} {raw : RawAuthority} :
    HasAuthority t raw ↔ ∃ r a, RawUri.cut acceptPath t = .ok r ∧ r.authority = some a ∧
      RawAuthority.cut a = .ok raw := by
  constructor
  · rintro @⟨scheme, authority, _, server, _, _, ⟨hne, hcolon⟩, hslash, htail, huser, hserver,
      hclosed, hhost⟩
    obtain ⟨tail, rfl, _⟩ := tailForm_iff.mp htail
    have hcut := RawAuthority.cut_eq_ok_iff.mpr ⟨server, huser, hserver, hclosed, hhost⟩
    have hnil : authority ≠ [] := by
      rintro rfl
      cases RawAuthority.cut_nil.symm.trans hcut
    refine ⟨_, authority, RawUri.cut_eq_ok_iff.mpr
      ⟨scheme, _, hne, hcolon, append_uncut_slash scheme authority tail, rfl⟩, ?_, hcut⟩
    rw [RawUri.cutRest, Text.cut_uncut hslash tail]
    exact if_neg fun h => hnil h.2.1
  · rintro ⟨r, a, hr, ha, hcut⟩
    obtain ⟨scheme, rest, hne, hcolon, rfl, rfl⟩ := RawUri.cut_eq_ok_iff.mp hr
    obtain ⟨_, rfl⟩ : _ ∧ (Text.cut '/' rest).1 = a := by simpa [RawUri.cutRest] using ha
    obtain ⟨server, huser, hserver, hclosed, hhost⟩ := RawAuthority.cut_eq_ok_iff.mp hcut
    have h := HasAuthority.intro ⟨hne, hcolon⟩ (Text.not_mem_fst_cut '/' rest)
      (tailForm_iff.mpr ⟨(Text.cut '/' rest).2, rfl, rfl⟩) huser hserver hclosed hhost
    rwa [append_uncut_slash, Text.uncut_cut] at h

/-- Reads an authority that may be missing. -/
def readAuthority (reg : Registry) (acceptIp : Bool) :
    Option Text → Except ParseError Authority
  | none => .ok .absent
  | some t => Authority.read reg acceptIp t

/-- What is read in front of a tail is what the form of authorities says. -/
private theorem authorityForm_iff {reg : Registry} {mode : ParseMode} {t : Text}
    (tail : Option Text) {a : Authority} :
    AuthorityForm reg mode t (Text.uncut '/' [] tail) a ↔ '/' ∉ t ∧
      readAuthority reg mode.acceptIp
        (if mode.acceptPath ∧ t = [] ∧ tail ≠ none then none else some t) = .ok a := by
  refine ⟨fun h => ?_, ?_⟩
  · generalize hrest : Text.uncut '/' [] tail = rest at h
    obtain ⟨hmode⟩ | ⟨hslash, ha⟩ := h
    · have htail : tail ≠ none := by
        rintro rfl
        cases hrest
      rw [if_pos ⟨hmode, rfl, htail⟩]
      exact ⟨List.not_mem_nil, rfl⟩
    · rw [if_neg fun h => ha.ne_nil h.2.1]
      exact ⟨hslash, Authority.read_eq_ok_iff.mpr ha⟩
  · rintro ⟨hslash, h⟩
    split_ifs at h with hmissing
    · obtain ⟨hmode, rfl, htail⟩ := hmissing
      obtain ⟨rest, rfl⟩ := Option.ne_none_iff_exists'.mp htail
      cases h
      exact .missing hmode
    · exact .present hslash (Authority.read_eq_ok_iff.mp h)

/-! ### The whole URI -/

namespace Parsed

/-- The parts are read one by one, each from its place. -/
theorem ofRaw_eq_ok_iff {reg : Registry} {mode : ParseMode} {raw : RawUri} {p : Parsed} :
    ofRaw reg mode raw = .ok p ↔ ∃ a path query anchor hashBangPath,
      readAuthority reg mode.acceptIp raw.authority = .ok a ∧
      Path.Form (RawTail.parts raw.tail).1 path ∧ Query.Form (RawTail.parts raw.tail).2.1 query ∧
      Fragment.Form (RawTail.parts raw.tail).2.2 anchor hashBangPath ∧
      { scheme := raw.scheme
        schemePort := reg.defaultPort raw.scheme
        userName := a.userName
        password := a.password
        host := a.host
        port := a.port <|> reg.defaultPort raw.scheme
        path := path
        hashBangPath := hashBangPath
        query := query
        anchor := anchor } = p := by
  simp only [Fragment.form_iff, ← Path.read_eq_ok_iff, ← Query.read_eq_ok_iff]
  rcases hauthority : raw.authority with _ | t
  · simp [ofRaw, readAuthority, hauthority, RawTail.parts]
  · simp [ofRaw, readAuthority, hauthority, RawTail.parts]

/-- What is accepted has the form of a URI. -/
theorem form_of_ofText {reg : Registry} {mode : ParseMode} {t : Text} {p : Parsed}
    (h : ofText reg mode t = .ok p) : Form reg mode t p := by
  rw [ofText] at h
  simp only [bind_eq_ok_iff, mapError_eq_ok_iff, RawUri.cut_eq_ok_iff, ofRaw_eq_ok_iff] at h
  obtain ⟨_, ⟨scheme, rest, hne, hcolon, rfl, rfl⟩, a, path, query, anchor, hashBangPath, ha,
    hpath, hquery, hfragment, rfl⟩ := h
  have hauthority := (authorityForm_iff (Text.cut '/' rest).2).mpr
    ⟨Text.not_mem_fst_cut '/' rest, ha⟩
  have htail := tailForm_iff.mpr ⟨(Text.cut '/' rest).2, rfl, rfl⟩
  have hform := Form.intro ⟨hne, hcolon⟩ hauthority htail hpath hquery hfragment
  rwa [append_uncut_slash, Text.uncut_cut] at hform

/-- What has the form of a URI is accepted. -/
theorem ofText_of_form {reg : Registry} {mode : ParseMode} {t : Text} {p : Parsed}
    (h : Form reg mode t p) : ofText reg mode t = .ok p := by
  rw [ofText]
  simp only [bind_eq_ok_iff, mapError_eq_ok_iff, RawUri.cut_eq_ok_iff, ofRaw_eq_ok_iff]
  obtain @⟨scheme, authority, _, path, query, fragment, anchor, a, p, hashBangPath, q,
    ⟨hne, hcolon⟩, hauthority, htail, hpath, hquery, hfragment⟩ := h
  obtain ⟨tail, rfl, hparts⟩ := tailForm_iff.mp htail
  obtain ⟨hslash, ha⟩ := (authorityForm_iff tail).mp hauthority
  have hcut := Text.cut_uncut hslash tail
  refine ⟨_, ⟨scheme, _, hne, hcolon, append_uncut_slash scheme authority tail, rfl⟩, a, p, q,
    anchor, hashBangPath, ?_⟩
  simp only [RawUri.cutRest, hcut, ← hparts]
  exact ⟨ha, hpath, hquery, hfragment, trivial⟩

/-- A text says one thing at most. -/
theorem Form.unique {reg : Registry} {mode : ParseMode} {t : Text} {p q : Parsed}
    (hp : Form reg mode t p) (hq : Form reg mode t q) : p = q :=
  Except.ok.inj ((ofText_of_form hp).symm.trans (ofText_of_form hq))

/-- The reader accepts the texts of the grammar and returns what they say. -/
theorem ofText_eq_ok_iff {reg : Registry} {mode : ParseMode} {t : Text} {p : Parsed} :
    ofText reg mode t = .ok p ↔ Form reg mode t p :=
  ⟨form_of_ofText, ofText_of_form⟩

end Parsed

end CanonicalUri
