import CanonicalUri.Proofs.Respelling
import CanonicalUri.Proofs.RoundTrip
import CanonicalUri.Uri.Order
import Mathlib.Data.List.Perm.Basic
import Mathlib.Logic.Relation

/-!
# Texts that say the same

URIs that differ in slashes, `.` segments, the order of the parameters or in escaping alone are the
same. `Uri.Rewrites` is one such change of a text: of its credentials, of its path
(`Path.Rewrites`) or of its query (`Query.Rewrites`).

* `Path.Rewrites.form`, `Query.Rewrites.form` and `Authority.Form.respell`: the part that is changed
  says the same as before.
* `Uri.exists_separable_of_parse` and `RawUri.Rewrites.separable`: a text that is accepted has parts
  that keep apart, and a change moves no separator between them.
* `Uri.ofText_of_rewrites`: so a text that is accepted says the same after one change.
* `Uri.parse_of_rewrites`: any number of changes, one after the other, leave the URI the same.

The host is left alone, since its suffix is looked up before escapes are decoded, and so is the
fragment, which is read leniently.
-/

namespace CanonicalUri

/-! ### Paths -/

namespace Path

/-- A change of a path, with the slash in front of it, that leaves it where it leads: a slash is
repeated, a segment that is decoded as `.` is put behind a slash, a slash is put at the end, or a
segment is spelled differently. -/
inductive Rewrites : Text → Text → Prop
  | repeatSlash (x y : Text) : Rewrites (x ++ '/' :: y) (x ++ '/' :: '/' :: y)
  | enterHere (x y : Text) {d : Text} (hslash : '/' ∉ d) (hd : Percent.decode d = .ok here) :
      Rewrites (x ++ '/' :: y) (x ++ '/' :: (d ++ '/' :: y))
  | endSlash (t : Text) : Rewrites t (t ++ ['/'])
  | respell {s t : Text} (h : Text.OnPart '/' Percent.Respells s t) : Rewrites s t

theorem Form.of_pieces {s t : Text} {q : Path} (hs : Form s q)
    (h : Text.pieces '/' s = Text.pieces '/' t) : Form t q := by
  obtain ⟨hpieces, hq⟩ := hs
  exact .intro (h ▸ hpieces) hq

/-- The slash in front of a path does not count. -/
theorem form_slash_iff {t : Text} {q : Path} : Form ('/' :: t) q ↔ Form t q :=
  ⟨fun h => h.of_pieces (Text.pieces_cons_self '/' t),
    fun h => h.of_pieces (Text.pieces_cons_self '/' t).symm⟩

/-- A path leads to the same place if it stays somewhere in between. -/
theorem Resolves.insert_here {p p' q : Path} (h : Resolves (p ++ p') q) :
    Resolves (p ++ here :: p') q := by
  rw [← resolve_eq_ok_iff, ← resolve_filter_here, List.filter_append] at h ⊢
  rwa [List.filter_cons_of_neg (by simp)]

/-- A path leads to the same place after a change. -/
theorem Rewrites.form {s t : Text} {q : Path} (h : Rewrites s t) (hs : Form s q) : Form t q := by
  obtain ⟨x, y⟩ | @⟨x, y, d, hslash, hd⟩ | _ | h := h
  · refine hs.of_pieces ?_
    rw [Text.pieces_append_cons, Text.pieces_append_cons, Text.pieces_cons_self]
  · obtain ⟨hpieces, hq⟩ := hs
    rw [Text.pieces_append_cons, forall₂_append_left_iff] at hpieces
    obtain ⟨p, p', hp, hp', rfl⟩ := hpieces
    have hne : d ≠ [] := mt (Percent.eq_nil_iff_of_decode hd).mpr (by decide)
    refine .intro (p := p ++ here :: p') ?_ hq.insert_here
    rw [Text.pieces_append_cons, Text.pieces_append_cons, Text.pieces_eq_singleton hslash hne]
    exact List.rel_append hp (.cons hd hp')
  · exact hs.of_pieces (Text.pieces_append_self '/' s).symm
  · obtain ⟨hpieces, hq⟩ := hs
    obtain ⟨before, p, p', after, hpp', hs, ht⟩ :=
      h.pieces (Percent.Respells.not_mem (by decide)) Percent.Respells.ne_nil
    rw [hs] at hpieces
    exact .intro (ht ▸ forall₂_replace hpieces hpp'.decode) hq

/-- A change brings in slashes and readable characters only. -/
theorem Rewrites.not_mem {c : Char} (hc : ¬(Percent.isLiteral c = true ∨ c = '+' ∨ c = '%'))
    {s t : Text} (h : Rewrites s t) (hs : c ∉ s) : c ∉ t := by
  have hslash : c ≠ '/' := by
    rintro rfl
    exact hc (by decide)
  obtain ⟨x, y⟩ | @⟨x, y, d, _, hd⟩ | _ | h := h
  · simpa [hslash] using hs
  · have hd : c ∉ d := fun hmem => hc (Percent.isLiteral_of_mem hd hmem)
    simpa [hslash, hd] using hs
  · simpa [hslash] using hs
  · exact h.not_mem (Percent.Respells.not_mem (Percent.isEscaped_of_not_readable hc)) hslash hs

end Path

/-! ### Queries -/

namespace Query

/-- A change of a query that leaves its parameters as they are: two pieces change places, an
ampersand is put at an end or beside another one, or a name or a value is spelled differently. -/
inductive Rewrites : Text → Text → Prop
  | exchange {t p q : Text} {before between after : List Text}
      (ht : t.splitOn '&' = before ++ p :: (between ++ q :: after)) :
      Rewrites t (Text.join '&' (before ++ q :: (between ++ p :: after)))
  | startAmpersand (t : Text) : Rewrites t ('&' :: t)
  | endAmpersand (t : Text) : Rewrites t (t ++ ['&'])
  | repeatAmpersand (x y : Text) : Rewrites (x ++ '&' :: y) (x ++ '&' :: '&' :: y)
  | respell {s t : Text} (h : Text.OnPart '&' (Text.OnPart '=' Percent.Respells) s t) :
      Rewrites s t

/-- The pieces of a query may stand in any order. -/
theorem Form.of_perm {s t : Text} {q : Query} (hs : Form s q)
    (h : (Text.pieces '&' t).Perm (Text.pieces '&' s)) : Form t q := by
  obtain ⟨hpairs, hnodup, hq⟩ := hs
  obtain ⟨pairs, hpairs, hperm⟩ := List.perm_comp_forall₂ h hpairs
  exact .intro hpairs ((hperm.map _).nodup_iff.mpr hnodup) (hq.trans hperm.symm)

theorem NameForm.respell {n n' name : Text} (h : NameForm n name) (hn : Percent.Respells n n') :
    NameForm n' name := by
  obtain _ | ⟨hname, hne⟩ := h
  · exact absurd rfl hn.ne_nil.1
  · exact .named (hn.decode hname) hne

/-- A pair is the same in another spelling of its name or its value. -/
theorem PairForm.respell {s t : Text} {p : Text × Text} (hs : PairForm s p)
    (h : Text.OnPart '=' Percent.Respells s t) : PairForm t p := by
  obtain ⟨hn, hname⟩ | ⟨hn, hname, hvalue⟩ := hs
  · have hst := h.of_not_mem hn
    exact .flag (hst.not_mem (by decide) hn) (hname.respell hst)
  · have hv : '=' ∉ _ := fun hmem => absurd (Percent.isLiteral_of_mem hvalue hmem) (by decide)
    obtain ⟨n', hn', rfl⟩ | ⟨v', hv', rfl⟩ := h.cases_of_append hn hv
    · exact .pair (hn'.not_mem (by decide) hn) (hname.respell hn') hvalue
    · exact .pair hn hname (hv'.decode hvalue)

/-- Two pieces that change places leave the same pieces. -/
private theorem perm_exchange (p q : Text) (before between after : List Text) :
    (before ++ q :: (between ++ p :: after)).Perm (before ++ p :: (between ++ q :: after)) := by
  have hfront : ∀ r r', (r :: (between ++ r' :: after)).Perm (r :: r' :: (between ++ after)) :=
    fun r _ => List.perm_middle.cons r
  exact (((hfront q p).trans (.swap p q _)).trans (hfront p q).symm).append_left before

/-- A query has the same parameters after a change. -/
theorem Rewrites.form {s t : Text} {q : Query} (h : Rewrites s t) (hs : Form s q) : Form t q := by
  obtain @⟨_, p, p', before, between, after, hparts⟩ | _ | _ | ⟨x, y⟩ | h := h
  · have hperm := perm_exchange p p' before between after
    obtain ⟨_, _, hsep⟩ := Text.splitOn_eq_iff.mp hparts
    have hparts' := Text.splitOn_eq_iff.mpr
      ⟨by simp, rfl, fun r hr => hsep r (hperm.mem_iff.mp hr)⟩
    refine hs.of_perm ?_
    rw [Text.pieces, Text.pieces, hparts, hparts']
    exact hperm.filter _
  · exact hs.of_perm (.of_eq (Text.pieces_cons_self '&' s))
  · exact hs.of_perm (.of_eq (Text.pieces_append_self '&' s))
  · refine hs.of_perm (.of_eq ?_)
    rw [Text.pieces_append_cons, Text.pieces_append_cons, Text.pieces_cons_self]
  · obtain ⟨hpairs, hnodup, hq⟩ := hs
    obtain ⟨before, p, p', after, hpp', hpieces, hpieces'⟩ := h.pieces
      (fun hpp' => hpp'.not_mem (Percent.Respells.not_mem (by decide)) (by decide))
      (fun hpp' => hpp'.ne_nil Percent.Respells.ne_nil)
    rw [hpieces] at hpairs
    exact .intro (hpieces' ▸ forall₂_replace hpairs fun hp => hp.respell hpp') hnodup hq

/-- A change brings in no hash. -/
theorem Rewrites.hash_not_mem {s t : Text} (h : Rewrites s t) (hs : '#' ∉ s) : '#' ∉ t := by
  obtain @⟨_, p, p', before, between, after, hparts⟩ | _ | _ | ⟨x, y⟩ | h := h
  · obtain ⟨_, rfl, _⟩ := Text.splitOn_eq_iff.mp hparts
    intro hmem
    obtain hamp | ⟨r, hr, hmem⟩ := Text.mem_join hmem
    · exact absurd hamp (by decide)
    · exact hs (Text.subset_join ((perm_exchange p p' before between after).mem_iff.mp hr) hmem)
  · simpa using hs
  · simpa using hs
  · simpa using hs
  · exact h.not_mem (fun hpp' => hpp'.not_mem (Percent.Respells.not_mem (by decide)) (by decide))
      (by decide) hs

end Query

/-! ### Credentials -/

/-- Credentials say the same in another spelling of the user name or the password. -/
theorem RawAuthority.CredentialsForm.respell {c c' : Text} {uw : Text × Text}
    (h : CredentialsForm c uw) (hc : Text.OnPart ':' Percent.Respells c c') :
    ∃ uw', CredentialsForm c' uw' ∧
      (∀ {a}, Percent.decode uw.1 = .ok a → Percent.decode uw'.1 = .ok a) ∧
      ∀ {a}, Percent.decode uw.2 = .ok a → Percent.decode uw'.2 = .ok a := by
  obtain hw | ⟨hu, hw⟩ := h
  · have hcc' := hc.of_not_mem hw
    exact ⟨_, .password (hcc'.not_mem (by decide) hw), id, hcc'.decode⟩
  · obtain ⟨u', hu', rfl⟩ | ⟨w', hw', rfl⟩ := hc.cases_of_append hu hw
    · exact ⟨_, .pair (hu'.not_mem (by decide) hu) hw, hu'.decode, id⟩
    · exact ⟨_, .pair hu (hw'.not_mem (by decide) hw), id, hw'.decode⟩

/-- An authority says the same in another spelling of the credentials. -/
theorem Authority.Form.respell {reg : Registry} {acceptIp : Bool} {c c' server : Text}
    {a : Authority} (h : Form reg acceptIp (c ++ '@' :: server) a)
    (hc : Text.OnPart ':' Percent.Respells c c') : Form reg acceptIp (c' ++ '@' :: server) a := by
  obtain ⟨huser, hserver, hne, hu, hp, hpaired, hhost⟩ := h
  -- there is one at sign, so the credentials are what stands in front of it
  generalize ht : c ++ '@' :: server = t at huser
  obtain hs | ⟨hat, hs, hform⟩ := huser
  · exact absurd (by simp [← ht]) hs
  · obtain ⟨rfl, _, rfl⟩ := (List.append_cons_inj_of_notMem hat hs).mp ht.symm
    obtain ⟨_, hform, hu', hp'⟩ := hform.respell hc
    have hat := hc.not_mem (Percent.Respells.not_mem (by decide)) (by decide) hat
    exact .intro (.credentials hat hs hform) hserver hne (hu' hu) (hp' hp) hpaired hhost

/-! ### The whole text -/

namespace RawUri

/-- A change of the written parts that leaves what they say. -/
inductive Rewrites : RawUri → RawUri → Prop
  | credentials {scheme c c' : Text} (server : Text) {tail : Option RawTail}
      (h : Text.OnPart ':' Percent.Respells c c') :
      Rewrites ⟨scheme, some (c ++ '@' :: server), tail⟩ ⟨scheme, some (c' ++ '@' :: server), tail⟩
  | path {scheme path path' : Text} {authority query fragment : Option Text}
      (h : Path.Rewrites ('/' :: path) ('/' :: path')) :
      Rewrites ⟨scheme, authority, some ⟨path, query, fragment⟩⟩
        ⟨scheme, authority, some ⟨path', query, fragment⟩⟩
  | query {scheme path query query' : Text} {authority fragment : Option Text}
      (h : Query.Rewrites query query') :
      Rewrites ⟨scheme, authority, some ⟨path, some query, fragment⟩⟩
        ⟨scheme, authority, some ⟨path, some query', fragment⟩⟩

/-- A change moves no separator between the parts. -/
theorem Rewrites.separable {r r' : RawUri} (h : Rewrites r r') (hr : r.Separable false) :
    r'.Separable false := by
  obtain ⟨server, h⟩ | h | h := h
  · refine { hr with authority := ?_, missing := by simp }
    rintro _ ⟨⟩
    have hslash := hr.authority _ rfl
    simp only [List.mem_append, not_or] at hslash ⊢
    exact ⟨h.not_mem (Percent.Respells.not_mem (by decide)) (by decide) hslash.1, hslash.2⟩
  · have hpath := hr.path _ rfl
    have hquery := hr.query _ rfl
    have hquestion := h.not_mem (c := '?') (by decide) (by simpa using hpath.1)
    have hhash := h.not_mem (c := '#') (by decide) (by simpa using hpath.2)
    refine { hr with missing := by simpa using hr.missing, path := ?_, query := ?_ }
    · rintro _ ⟨⟩
      exact ⟨by simpa using hquestion, by simpa using hhash⟩
    · rintro _ ⟨⟩
      exact hquery
  · have hpath := hr.path _ rfl
    have hquery := hr.query _ rfl _ rfl
    refine { hr with missing := by simpa using hr.missing, path := ?_, query := ?_ }
    · rintro _ ⟨⟩
      exact hpath
    · rintro _ ⟨⟩ _ ⟨⟩
      exact h.hash_not_mem hquery

/-- Every text with a scheme has parts that keep apart. -/
theorem separable_cutRest {scheme : Text} (hne : scheme ≠ []) (hcolon : ':' ∉ scheme)
    (rest : Text) : (cutRest false scheme rest).Separable false where
  scheme_ne_nil := hne
  scheme := hcolon
  authority := by
    rintro _ ⟨⟩
    exact Text.not_mem_fst_cut '/' rest
  missing := by simp [cutRest]
  path := by
    intro t ht
    obtain ⟨tail, _, rfl⟩ := Option.map_eq_some_iff.mp ht
    have hhash := Text.not_mem_fst_cut '#' tail
    rw [← Text.uncut_cut '?' (Text.cut '#' tail).1, Text.uncut_eq_append, List.mem_append,
      not_or] at hhash
    exact ⟨Text.not_mem_fst_cut '?' _, hhash.1⟩
  query := by
    intro t ht q hq
    obtain ⟨tail, _, rfl⟩ := Option.map_eq_some_iff.mp ht
    have hhash := Text.not_mem_fst_cut '#' tail
    have hq : (Text.cut '?' (Text.cut '#' tail).1).2 = some q := hq
    rw [← Text.uncut_cut '?' (Text.cut '#' tail).1, hq, Text.uncut, List.mem_append, not_or,
      List.mem_cons, not_or] at hhash
    exact hhash.2.2

/-- The parts that are found where the authority is optional: an empty one in front of a slash is
missing. -/
def optional (acceptPath : Bool) (r : RawUri) : RawUri :=
  { r with
    authority :=
      if acceptPath ∧ r.authority = some [] ∧ r.tail ≠ none then none else r.authority }

/-- Parts with an authority are found again in their text, but for an empty one that may be
missing. -/
theorem cut_toText_of_separable {r : RawUri} (hr : r.Separable false) (acceptPath : Bool) :
    cut acceptPath r.toText = .ok (r.optional acceptPath) := by
  have hsome : r.authority ≠ none := by simp [hr.missing]
  by_cases hmissing : acceptPath ∧ r.authority = some [] ∧ r.tail ≠ none
  · have hoptional : r.optional acceptPath = { r with authority := none } := by
      rw [optional, if_pos hmissing]
    have htext : r.toText = (r.optional acceptPath).toText := by
      rw [hoptional, toText, toText, hmissing.2.1]
      rfl
    rw [htext, cut_toText]
    rw [hoptional]
    exact { hr with authority := by simp, missing := by simpa using ⟨hmissing.1, hmissing.2.2⟩ }
  · have hoptional : r.optional acceptPath = r := by
      rw [optional, if_neg hmissing]
    rw [hoptional, cut_toText]
    refine { hr with missing := iff_of_false hsome ?_ }
    rintro ⟨hmode, hempty, htail⟩
    obtain ⟨a, ha⟩ := Option.ne_none_iff_exists'.mp hsome
    rw [ha, Option.getD_some] at hempty
    exact hmissing ⟨hmode, by rw [ha, hempty], htail⟩

end RawUri

/-- What a text says is what its parts say. -/
theorem Parsed.ofText_toText_of_separable {reg : Registry} {mode : ParseMode} {r : RawUri}
    (hr : r.Separable false) :
    ofText reg mode r.toText = ofRaw reg mode (r.optional mode.acceptPath) := by
  rw [ofText, RawUri.cut_toText_of_separable hr]
  rfl

/-- What is accepted says the same after a change of its parts. -/
theorem Parsed.ofRaw_of_rewrites {reg : Registry} {mode : ParseMode} {r r' : RawUri} {p : Parsed}
    (h : RawUri.Rewrites r r') (hr : ofRaw reg mode (r.optional mode.acceptPath) = .ok p) :
    ofRaw reg mode (r'.optional mode.acceptPath) = .ok p := by
  rw [ofRaw_eq_ok_iff] at hr ⊢
  obtain ⟨a, path, query, anchor, hashBangPath, ha, hpath, hquery, hfragment, rfl⟩ := hr
  obtain ⟨server, h⟩ | h | h := h
  · refine ⟨a, path, query, anchor, hashBangPath, ?_, hpath, hquery, hfragment, rfl⟩
    have hpresent : ∀ c : Text, some (c ++ '@' :: server) ≠ some [] := by simp
    simp only [RawUri.optional, hpresent, false_and, and_false, if_false] at ha ⊢
    rw [readAuthority, Authority.read_eq_ok_iff] at ha ⊢
    exact ha.respell h
  · refine ⟨a, path, query, anchor, hashBangPath, ?_, ?_, hquery, hfragment, rfl⟩
    · simpa [RawUri.optional] using ha
    · rw [← Path.form_slash_iff] at hpath ⊢
      exact h.form hpath
  · refine ⟨a, path, query, anchor, hashBangPath, ?_, hpath, h.form hquery, hfragment, rfl⟩
    simpa [RawUri.optional] using ha

/-- The parts stay apart, however often they are changed. -/
theorem RawUri.separable_of_rewrites {r r' : RawUri} (hr : r.Separable false)
    (h : Relation.ReflTransGen Rewrites r r') : r'.Separable false := by
  induction h with
  | refl => exact hr
  | tail _ hstep ih => exact hstep.separable ih

namespace Uri

/-- A change of the text of a URI that leaves what it says. -/
inductive Rewrites : Text → Text → Prop
  | intro {r r' : RawUri} (hr : r.Separable false) (h : RawUri.Rewrites r r') :
      Rewrites r.toText r'.toText

/-- Parts that are changed one after the other change their text. -/
theorem rewrites_of_raw {r r' : RawUri} (hr : r.Separable false)
    (h : Relation.ReflTransGen RawUri.Rewrites r r') :
    Relation.ReflTransGen Rewrites r.toText r'.toText := by
  induction h with
  | refl => exact .refl
  | tail hfront hstep ih => exact ih.tail (.intro (RawUri.separable_of_rewrites hr hfront) hstep)

/-- Whatever is accepted has parts to which the changes apply. -/
theorem exists_separable_of_parse {reg : Registry} {mode : ParseMode} {t : Text} {u : Uri}
    (h : parse reg mode t = .ok u) : ∃ r : RawUri, r.Separable false ∧ r.toText = t := by
  obtain ⟨p, hp, _⟩ := parse_eq_ok_iff.mp h
  rw [Parsed.ofText, bind_eq_ok_iff] at hp
  obtain ⟨r, hr, _⟩ := hp
  obtain ⟨scheme, rest, hne, hcolon, rfl, _⟩ :=
    RawUri.cut_eq_ok_iff.mp (mapError_eq_ok_iff.mp hr)
  exact ⟨_, RawUri.separable_cutRest hne hcolon rest, RawUri.toText_cutRest false scheme rest⟩

/-- A text that is accepted says the same after one change. -/
theorem ofText_of_rewrites {reg : Registry} {mode : ParseMode} {s t : Text} {p : Parsed}
    (h : Rewrites s t) (hs : Parsed.ofText reg mode s = .ok p) :
    Parsed.ofText reg mode t = .ok p := by
  obtain ⟨hr, h⟩ := h
  rw [Parsed.ofText_toText_of_separable hr] at hs
  rw [Parsed.ofText_toText_of_separable (h.separable hr)]
  exact Parsed.ofRaw_of_rewrites h hs

/-- However often a text is changed, the same URI is read from it, but for the text itself. -/
theorem parse_eq_of_rewrites {reg : Registry} {mode : ParseMode} {s t : Text} {u : Uri}
    (h : parse reg mode s = .ok u) (hst : Relation.ReflTransGen Rewrites s t) :
    parse reg mode t = .ok { u with input := t } := by
  obtain ⟨p, hp, rfl⟩ := parse_eq_ok_iff.mp h
  refine parse_eq_ok_iff.mpr ⟨p, ?_, rfl⟩
  induction hst with
  | refl => exact hp
  | tail _ hstep ih => exact ofText_of_rewrites hstep ih

/-- URIs that only differ in slashes, `.` segments, the order of the parameters or escaping are the
same: a text is still accepted after any number of such changes, as a URI with the same canonical
text and hash-bang path. -/
theorem parse_of_rewrites {reg : Registry} {mode : ParseMode} {s t : Text} {u : Uri}
    (h : parse reg mode s = .ok u) (hst : Relation.ReflTransGen Rewrites s t) :
    ∃ v, parse reg mode t = .ok v ∧ same u v = true ∧ order u v = .eq ∧
      v.toText = u.toText ∧ v.hashBangPath = u.hashBangPath := by
  have htext : Uri.toText { u with input := t } = u.toText := rfl
  have hsame : same u { u with input := t } = true :=
    decide_eq_true (Prod.ext htext.symm rfl)
  exact ⟨_, parse_eq_of_rewrites h hst, hsame, order_eq_iff.mpr hsame, htext, rfl⟩

/-- An escaped letter, an escaped space, a dot in the path and two parameters in the other order. -/
theorem parse_of_rewrites_messy :
    let s := "http://me:pw@a.com/x+y?b=1&a".toList
    let t := "http://%6De:pw@a.com/./x%20y?a&b=1".toList
    let u : Uri :=
      { input := s
        userName := "me".toList
        password := "pw".toList
        host := .name [] "a".toList ".com".toList
        path := ["x y".toList]
        query := (Dict.empty.insert "b".toList "1".toList).insert "a".toList [] }
    (parse Registry.standard {} s = .ok u ∧ Relation.ReflTransGen Rewrites s t) ∧
    ∃ v, parse Registry.standard {} t = .ok v ∧ same u v = true ∧ order u v = .eq ∧
      v.toText = u.toText ∧ v.hashBangPath = u.hashBangPath := by
  intro s t u
  have h : parse Registry.standard {} s = .ok u := by decide +kernel
  have hletter : Percent.Respells "me".toList "%6De".toList :=
    .escape (by decide) (by decide) ['e']
  have hcredentials : Text.OnPart ':' Percent.Respells "me:pw".toList "%6De:pw".toList :=
    .intro (show "me:pw".toList.splitOn ':' = [] ++ "me".toList :: ["pw".toList] by decide) hletter
  have hplus : Percent.Respells "x+y".toList "x%20y".toList := .skip (by decide) (.plus ['y'])
  have hspace : Text.OnPart '/' Percent.Respells "/x+y".toList "/x%20y".toList :=
    .intro (show "/x+y".toList.splitOn '/' = [[]] ++ "x+y".toList :: [] by decide) hplus
  have hdot : Path.Rewrites "/x%20y".toList "/./x%20y".toList :=
    .enterHere [] "x%20y".toList (d := ['.']) (by decide) (by decide)
  have hquery : Query.Rewrites "b=1&a".toList "a&b=1".toList :=
    .exchange (show "b=1&a".toList.splitOn '&' =
      [] ++ "b=1".toList :: ([] ++ "a".toList :: []) by decide)
  have hraw : Relation.ReflTransGen RawUri.Rewrites
      ⟨"http".toList, some "me:pw@a.com".toList, some ⟨"x+y".toList, some "b=1&a".toList, none⟩⟩
      ⟨"http".toList, some "%6De:pw@a.com".toList,
        some ⟨"./x%20y".toList, some "a&b=1".toList, none⟩⟩ :=
    .head (.credentials "a.com".toList hcredentials) (.head (.path (.respell hspace))
      (.head (.path hdot) (.head (.query hquery) .refl)))
  have hst : Relation.ReflTransGen Rewrites s t :=
    rewrites_of_raw ⟨by decide, by decide, by decide, by decide, by decide, by decide⟩ hraw
  exact ⟨⟨h, hst⟩, parse_of_rewrites h hst⟩

end Uri

end CanonicalUri
