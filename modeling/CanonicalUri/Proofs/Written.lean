import CanonicalUri.Proofs.Grammar
import CanonicalUri.Uri.Written

/-!
# The parts of the canonical text

Each part of a written URI keeps clear of the separators around it, and is read back from the text
in its place.

* `Path.read_encode`, `Query.read_toText` and `Fragment.form_encode`: a path without empty segments
  and dots, a query without empty names and an anchor without `!` in front are read back.
  `Fragment.form_hashBang` is about a path behind `#!`, whose segments may hold no slash, either.
* `Uri.read_authorityText`: what is read from the authority is what is read from the text of the
  host in it, with the credentials and the port that were written.
* `Uri.ofText_raw_iff`: the same for the whole text of a URI with a host, whatever its fragment is
  written as, if its parts are regular (`Uri.IsRegular`). `Uri.ofText_raw_of_absent` is about a URI
  without a host. `Uri.ofText_toText_iff` and `Uri.ofText_toText_of_absent` are the cases of the
  canonical text.

None of this depends on what the host is; that its text may be read as another host, or as none, is
the one thing left open here.
-/

namespace CanonicalUri

/-! ### Paths -/

namespace Path

theorem not_mem_encode {sep : Char} (h : Percent.isEscaped ['~', '/'] sep = true) (p : Path) :
    sep ∉ p.encode := by
  intro hmem
  obtain rfl | ⟨t, ht, hmem⟩ := Text.mem_join hmem
  · cases h
  · obtain ⟨s, _, rfl⟩ := List.mem_map.mp ht
    exact Percent.not_mem_encode (Percent.isEscaped_of_subset h (by simp)) s hmem

/-- A path in which there is nothing to leave out is read back from its encoded text. -/
theorem read_encode {p : Path} (h : ∀ s ∈ p, s ≠ [] ∧ s ≠ here ∧ s ≠ parent) :
    read p.encode = .ok p := by
  have hpieces : Text.pieces '/' p.encode = p.map (Percent.encode ['~']) := by
    refine Text.pieces_join ?_ ?_
    · rw [List.forall_mem_map]
      exact fun s _ => Percent.not_mem_encode (by decide) s
    · rw [List.forall_mem_map]
      exact fun s hs => mt Percent.encode_eq_nil_iff.mp (h s hs).1
  refine read_eq_ok_iff.mpr (.intro (p := p) ?_ ?_)
  · rw [hpieces, List.forall₂_map_left_iff, List.forall₂_same]
    exact fun s _ => Percent.decode_encode (List.all_eq_true.mp (by decide)) s
  · exact resolve_eq_ok_iff.mp (resolve_eq_self fun s hs => (h s hs).2)

end Path

/-! ### Queries -/

namespace Query

theorem not_mem_writePair {sep : Char} (h : Percent.isEscaped [',', '='] sep = true)
    (p : Text × Text) : sep ∉ writePair p := by
  rw [writePair, List.mem_append, not_or]
  refine ⟨Percent.not_mem_encode (Percent.isEscaped_of_subset h (by simp)) p.1, ?_⟩
  split_ifs
  · exact List.not_mem_nil
  · rw [List.mem_cons, not_or]
    refine ⟨?_, Percent.not_mem_encode (Percent.isEscaped_of_subset h (by simp)) p.2⟩
    rintro rfl
    cases h

theorem pairForm_writePair {p : Text × Text} (h : p.1 ≠ []) : PairForm (writePair p) p := by
  obtain ⟨name, value⟩ := p
  have hn : '=' ∉ Percent.encode [] name :=
    Percent.not_mem_encode (by decide) name
  have hname : NameForm (Percent.encode [] name) name :=
    .named (Percent.decode_encode (by simp) name) h
  rw [writePair]
  split_ifs with hnil
  · rw [List.append_nil, show value = [] from hnil]
    exact .flag hn hname
  · exact .pair hn hname (Percent.decode_encode (List.all_eq_true.mp (by decide)) value)

/-- The pieces of the text of a query are its parameters, one by one. -/
theorem forall₂_pieces_toText {q : Query} (h : ∀ p ∈ q.entries, p.1 ≠ []) :
    List.Forall₂ PairForm (Text.pieces '&' q.toText) q.entries := by
  have hpieces : Text.pieces '&' q.toText = q.entries.map writePair := by
    refine Text.pieces_join ?_ ?_
    · rw [List.forall_mem_map]
      exact fun p _ => not_mem_writePair (by decide) p
    · rw [List.forall_mem_map]
      intro p hp hnil
      exact h p hp (Percent.encode_eq_nil_iff.mp (List.append_eq_nil_iff.mp hnil).1)
  rw [hpieces, List.forall₂_map_left_iff, List.forall₂_same]
  exact fun p hp => pairForm_writePair (h p hp)

/-- A query without empty names is read back from its text. -/
theorem read_toText {q : Query} (h : ∀ p ∈ q.entries, p.1 ≠ []) : read q.toText = .ok q :=
  read_eq_ok_iff.mpr (.intro (forall₂_pieces_toText h) q.nodup_names (.refl _))

theorem hash_not_mem_toText (q : Query) : '#' ∉ q.toText := by
  intro h
  obtain h | ⟨t, ht, h⟩ := Text.mem_join h
  · cases h
  · obtain ⟨p, _, rfl⟩ := List.mem_map.mp ht
    exact not_mem_writePair (by decide) p h

end Query

/-! ### Fragments -/

namespace Fragment

/-- An anchor without `!` in front is read back from its text. -/
theorem form_encode {a : Text} (h : a.head? ≠ some '!') :
    Form (Percent.encode ['!', '/', '~'] a) a [] :=
  .anchor (Percent.decodeLenient_encode (List.all_eq_true.mp (by decide)) a) h

/-- A path behind `#!` is decoded as a whole, so nothing tells the slashes inside its segments from
those between them. -/
theorem decodeLenient_hashBang (p : Path) :
    Percent.decodeLenient ('!' :: '/' :: p.encode) = '!' :: '/' :: p.toText := by
  have hpath : Percent.decode p.encode = .ok p.toText := by
    refine Percent.decode_join (by decide) ?_
    rw [List.forall₂_map_left_iff, List.forall₂_same]
    exact fun s _ => Percent.decode_encode (List.all_eq_true.mp (by decide)) s
  exact Percent.decodeLenient_of_decode (Percent.decode_cons_of_isLiteral (by decide)
    (Percent.decode_cons_of_isLiteral (by decide) hpath))

/-- A path behind `#!` is read back from its text if there is nothing to leave out in it and no
slash in its segments. -/
theorem form_hashBang {p : Path} (h : ∀ s ∈ p, s ≠ [] ∧ s ≠ Path.here ∧ s ≠ Path.parent)
    (hslash : ∀ s ∈ p, '/' ∉ s) : Form ('!' :: '/' :: p.encode) [] p := by
  have hpieces : Text.pieces '/' ('/' :: p.toText) = p := by
    rw [Text.pieces_cons_self, Path.toText, Text.pieces_join hslash fun s hs => (h s hs).1]
  refine .hashBang (decodeLenient_hashBang p) ?_
  rw [hpieces]
  exact Path.resolve_eq_ok_iff.mp (Path.resolve_eq_self fun s hs => (h s hs).2)

end Fragment

/-! ### Authorities -/

namespace Host

/-- Nothing is open in the text of a host. -/
theorem isClosed_toText (h : Host) : RawAuthority.IsClosed h.toText := by
  refine RawAuthority.isClosed_of_brackets ?_
  obtain hchars | ⟨t, ht, hchars⟩ := toText_cases h
  · exact .inl fun hmem => absurd (hchars '[' hmem) (by decide)
  · exact .inr ⟨t, ht, fun hmem => absurd (hchars '[' hmem) (by decide)⟩

/-- Every colon in the text of a host stands behind an open bracket. -/
theorem colonsInside_toText (h : Host) : RawAuthority.ColonsInside h.toText := by
  intro x y hxy hclosed
  obtain hchars | ⟨t, ht, hchars⟩ := toText_cases h
  · exact absurd (hchars ':' (by rw [hxy]; simp)) (by decide)
  · rw [ht] at hxy
    obtain _ | ⟨c, x⟩ := x
    · cases hxy
    · obtain ⟨rfl, hxy⟩ := List.cons.inj hxy
      -- the bracket that closes is the last character, so it is not in front of the colon
      have hmem : ']' ∈ x := hclosed [] x rfl
      obtain rfl | ⟨y, d, rfl⟩ := List.eq_nil_or_concat y
      · cases (List.append_inj' hxy rfl).2
      · have hxy : t ++ [']'] = (x ++ ':' :: y) ++ [d] := by simpa using hxy
        have ht : t = x ++ ':' :: y := (List.append_inj' hxy rfl).1
        exact absurd (hchars ']' (by rw [ht]; simp [hmem])) (by decide)

end Host

/-- The digits that a port is written with have the form of a port. -/
theorem RawAuthority.portForm_write (p : UInt16) : PortForm (Decimal.write p.toNat) p where
  ne_nil := Nat.toDigits_ne_nil
  isDigit _ hc := Nat.isDigit_of_mem_toDigits (by decide) (by decide) hc
  value := Nat.ofDigitChars_ten_toDigits

namespace Uri

/-- The password as it is written. -/
def passwordText (u : Uri) (redaction : Option Text) : Text :=
  if u.password = [] then [] else Percent.encode [] (redaction.getD u.password)

/-- The credentials are found again in front of a text without an at sign, if there are both of
them or none. -/
theorem userForm_credentialsText {u : Uri} (hpaired : u.userName = [] ↔ u.password = [])
    (redaction : Option Text) {s : Text} (hs : '@' ∉ s) :
    RawAuthority.UserForm (u.credentialsText redaction ++ s)
      ((Percent.encode [] u.userName, u.passwordText redaction), s) := by
  have hcolon : ∀ t, ':' ∉ Percent.encode [] t :=
    Percent.not_mem_encode (by decide)
  have hat : ∀ t, '@' ∉ Percent.encode [] t :=
    Percent.not_mem_encode (by decide)
  rw [credentialsText, passwordText]
  by_cases huser : u.userName = []
  · rw [if_pos huser, if_pos (hpaired.mp huser), huser]
    exact .anonymous hs
  · rw [if_neg huser, if_neg (mt hpaired.mpr huser), if_neg (mt hpaired.mpr huser)]
    generalize redaction.getD u.password = password
    have hcredentials := RawAuthority.CredentialsForm.pair (hcolon u.userName) (hcolon password)
    have hat : '@' ∉ Percent.encode [] u.userName ++ ':' :: Percent.encode [] password := by
      rw [List.mem_append, List.mem_cons, not_or, not_or]
      exact ⟨hat _, by decide, hat _⟩
    have h := RawAuthority.UserForm.credentials hat hs hcredentials
    rw [List.append_assoc]
    exact h

theorem not_mem_portText {sep : Char} (hdigit : sep.isDigit = false) (hcolon : sep ≠ ':')
    (u : Uri) : sep ∉ u.portText := by
  rw [portText]
  split_ifs
  · exact List.not_mem_nil
  · rw [List.mem_cons, not_or]
    refine ⟨hcolon, fun h => ?_⟩
    have := (RawAuthority.portForm_write u.port).isDigit sep h
    rw [hdigit] at this
    cases this

/-- An authority ends where it was ended, at the first slash. -/
theorem slash_not_mem_authorityText (u : Uri) (redaction : Option Text) :
    '/' ∉ u.authorityText redaction := by
  have hencode : ∀ t, '/' ∉ Percent.encode [] t :=
    Percent.not_mem_encode (by decide)
  have hcredentials : '/' ∉ u.credentialsText redaction := by
    rw [credentialsText]
    split_ifs <;> simp [hencode]
  have hport : '/' ∉ if u.host.isAbsent then [] else u.portText := by
    split_ifs
    · exact List.not_mem_nil
    · exact not_mem_portText (by decide) (by decide) u
  rw [authorityText, List.mem_append, List.mem_append, not_or, not_or]
  exact ⟨⟨hcredentials, Host.not_mem_toText (by decide) u.host⟩, hport⟩

/-- The port that is written. -/
def shownPort (u : Uri) : Option UInt16 :=
  if u.schemePort = some u.port then none else some u.port

/-- The port is found again behind the host. -/
theorem serverForm_portText (u : Uri) :
    RawAuthority.ServerForm (u.host.toText ++ u.portText)
      (u.host.toText, u.shownPort) := by
  rw [portText, shownPort]
  split_ifs
  · rw [List.append_nil]
    exact .host u.host.colonsInside_toText
  · exact .port u.host.colonsInside_toText (RawAuthority.portForm_write u.port)

theorem cut_authorityText {u : Uri} (hpaired : u.userName = [] ↔ u.password = [])
    (hhost : u.host.isAbsent = false) (redaction : Option Text) :
    RawAuthority.cut (u.authorityText redaction) =
      .ok ⟨Percent.encode [] u.userName, u.passwordText redaction, u.host.toText, u.shownPort⟩ := by
  have hat : '@' ∉ u.host.toText ++ u.portText := by
    rw [List.mem_append, not_or]
    exact ⟨Host.not_mem_toText (by decide) u.host,
      not_mem_portText (by decide) (by decide) u⟩
  rw [RawAuthority.cut_eq_ok_iff, authorityText, hhost]
  refine ⟨u.host.toText ++ u.portText, ?_, u.serverForm_portText, .inr u.host.isClosed_toText,
    Host.toText_ne_nil hhost⟩
  rw [List.append_assoc]
  exact userForm_credentialsText hpaired redaction hat

/-- The host alone decides how the authority is read back. -/
theorem read_authorityText {reg : Registry} {acceptIp : Bool} {u : Uri}
    (hpaired : u.userName = [] ↔ u.password = []) (hhost : u.host.isAbsent = false)
    {a : Authority} :
    Authority.read reg acceptIp (u.authorityText none) = .ok a ↔
      ∃ h, Host.read reg acceptIp u.host.toText = .ok h ∧
        ⟨u.userName, u.password, h, u.shownPort⟩ = a := by
  have hpassword : Percent.decode (u.passwordText none) = .ok u.password := by
    rw [passwordText]
    split_ifs with hnil
    · rw [hnil, Percent.decode_nil]
    · exact Percent.decode_encode (by simp) u.password
  have huser : Percent.decode (Percent.encode [] u.userName) = .ok u.userName :=
    Percent.decode_encode (by simp) u.userName
  rw [Authority.read, cut_authorityText hpaired hhost]
  simp only [bind_eq_ok_iff, Except.ok.injEq, exists_eq_left', Authority.ofRaw_eq_ok_iff, huser,
    hpassword]
  constructor
  · rintro ⟨hu, hp, _, hread, hport⟩
    exact ⟨a.host, hread, by rw [hu, hp, hport]⟩
  · rintro ⟨h, hread, rfl⟩
    exact ⟨rfl, rfl, hpaired, hread, rfl⟩

/-! ### The whole text -/

/-- Parts that say the same when they are read back, whatever the host. -/
structure IsRegular (reg : Registry) (u : Uri) : Prop where
  scheme_ne_nil : u.scheme ≠ []
  scheme : ':' ∉ u.scheme
  schemePort : u.schemePort = reg.defaultPort u.scheme
  credentials : u.userName = [] ↔ u.password = []
  path : ∀ s ∈ u.path, s ≠ [] ∧ s ≠ Path.here ∧ s ≠ Path.parent
  query : ∀ p ∈ u.query.entries, p.1 ≠ []
  anchor : u.anchor.head? ≠ some '!'

/-- What the canonical text says when its authority is read as `a`. -/
def reread (u : Uri) (a : Authority) : Parsed where
  scheme := u.scheme
  schemePort := u.schemePort
  userName := a.userName
  password := a.password
  host := a.host
  port := a.port <|> u.schemePort
  path := u.path
  hashBangPath := []
  query := u.query
  anchor := u.anchor

/-- What the text of some kind says when its authority is read as `a`, and its fragment as an anchor
and a hash-bang path. -/
def rereadAs (u : Uri) (kind : FragmentMode) (anchor : Text) (hashBangPath : Path)
    (a : Authority) : Parsed :=
  { u.reread a with path := u.frontPath kind, hashBangPath := hashBangPath, anchor := anchor }

/-- The canonical text has the main path in front of the query. -/
theorem frontPath_anchor (u : Uri) : u.frontPath .anchor = u.path :=
  if_neg (by simp [movesPath])

private theorem rereadAs_anchor (u : Uri) (a : Authority) :
    u.rereadAs .anchor u.anchor [] a = u.reread a := by
  rw [rereadAs, frontPath_anchor]
  rfl

/-- The canonical text has the anchor for its fragment. -/
theorem form_fragment_anchor {u : Uri} (h : u.anchor.head? ≠ some '!') :
    Fragment.Form ((u.fragment? .anchor).getD []) u.anchor [] := by
  have hfragment : (u.fragment? .anchor).getD [] = Percent.encode ['!', '/', '~'] u.anchor := by
    rw [fragment?]
    split_ifs with hempty
    · rw [hempty]
      rfl
    · rfl
  rw [hfragment]
  exact Fragment.form_encode h

theorem parts_tail (u : Uri) (kind : FragmentMode) (redaction : Option Text) :
    RawTail.parts (u.raw kind redaction).tail =
      ((u.frontPath kind).encode, u.query.toText, (u.fragment? kind).getD []) := by
  have hquery : (if u.query.isEmpty then none else some u.query.toText).getD []
      = u.query.toText := by
    split_ifs with hempty
    · rw [Query.toText, List.isEmpty_iff.mp hempty]
      rfl
    · rfl
  simp only [RawTail.parts, raw, Option.getD_some, hquery]

/-- Behind the authority nothing is lost. -/
private theorem ofRaw_raw_iff {reg : Registry} (mode : ParseMode) {u : Uri} (hu : u.IsRegular reg)
    {kind : FragmentMode} {anchor : Text} {hashBangPath : Path}
    (hfragment : Fragment.Form ((u.fragment? kind).getD []) anchor hashBangPath)
    (authority : Option Text) {p : Parsed} :
    Parsed.ofRaw reg mode { u.raw kind none with authority := authority } = .ok p ↔
      ∃ a, readAuthority reg mode.acceptIp authority = .ok a ∧
        u.rereadAs kind anchor hashBangPath a = p := by
  have hpath : Path.read (u.frontPath kind).encode = .ok (u.frontPath kind) := by
    refine Path.read_encode fun s hs => ?_
    rw [frontPath] at hs
    split_ifs at hs
    · cases hs
    · exact hu.path s hs
  have hfragment := Fragment.form_iff.mp hfragment
  rw [Parsed.ofRaw_eq_ok_iff]
  simp only [parts_tail, ← Path.read_eq_ok_iff, ← Query.read_eq_ok_iff, hpath,
    Query.read_toText hu.query, Fragment.form_iff, hfragment, Except.ok.injEq]
  have hport : reg.defaultPort (u.raw kind none).scheme = u.schemePort := hu.schemePort.symm
  constructor
  · rintro ⟨a, _, _, _, _, ha, rfl, rfl, ⟨rfl, rfl⟩, rfl⟩
    rw [hport]
    exact ⟨a, ha, rfl⟩
  · rintro ⟨a, ha, rfl⟩
    rw [hport]
    exact ⟨a, _, _, _, _, ha, rfl, rfl, ⟨rfl, rfl⟩, rfl⟩

/-- The parts behind the authority keep clear of the separators, whatever is in front of them. -/
private theorem separable_raw {reg : Registry} {u : Uri} (hu : u.IsRegular reg)
    (kind : FragmentMode) (acceptPath : Bool) (authority : Option Text)
    (hslash : ∀ a ∈ authority, '/' ∉ a)
    (hmissing : authority = none ↔ acceptPath = true ∧ authority.getD [] = []) :
    RawUri.Separable acceptPath { u.raw kind none with authority := authority } where
  scheme_ne_nil := hu.scheme_ne_nil
  scheme := hu.scheme
  authority := hslash
  missing := by simpa [raw] using hmissing
  path := by
    rintro _ ⟨⟩
    exact ⟨Path.not_mem_encode (by decide) _,
      Path.not_mem_encode (by decide) _⟩
  query := by
    rintro _ ⟨⟩ q hq
    simp only [Option.mem_def, Option.ite_none_left_eq_some, Option.some.injEq] at hq
    exact hq.2 ▸ u.query.hash_not_mem_toText

/-- The written parts are found again, unless the authority is empty and may be missing. -/
theorem cut_raw {reg : Registry} {u : Uri} (hu : u.IsRegular reg) (kind : FragmentMode)
    {acceptPath : Bool} (hauthority : acceptPath = true → u.authorityText none ≠ []) :
    RawUri.cut acceptPath (u.raw kind none).toText = .ok (u.raw kind none) := by
  refine RawUri.cut_toText (separable_raw hu kind _ (some (u.authorityText none)) ?_ ?_)
  · rintro _ ⟨⟩
    exact slash_not_mem_authorityText u none
  · simpa using hauthority

theorem authorityText_ne_nil {u : Uri} (hhost : u.host.isAbsent = false)
    (redaction : Option Text) : u.authorityText redaction ≠ [] := by
  rw [authorityText, ne_eq, List.append_eq_nil_iff, List.append_eq_nil_iff]
  exact fun h => Host.toText_ne_nil hhost h.1.2

theorem authorityText_of_absent {u : Uri} (hhost : u.host = .absent) (huser : u.userName = [])
    (redaction : Option Text) : u.authorityText redaction = [] := by
  rw [authorityText, credentialsText, if_pos huser, hhost]
  rfl

/-- The text of a URI with a host is read back as the same URI, up to what the text of the host and
the fragment are read as. -/
theorem ofText_raw_iff {reg : Registry} {mode : ParseMode} {u : Uri} (hu : u.IsRegular reg)
    (hhost : u.host.isAbsent = false) {kind : FragmentMode} {anchor : Text} {hashBangPath : Path}
    (hfragment : Fragment.Form ((u.fragment? kind).getD []) anchor hashBangPath) {p : Parsed} :
    Parsed.ofText reg mode (u.raw kind none).toText = .ok p ↔
      ∃ h, Host.read reg mode.acceptIp u.host.toText = .ok h ∧
        u.rereadAs kind anchor hashBangPath ⟨u.userName, u.password, h, u.shownPort⟩ = p := by
  rw [Parsed.ofText, cut_raw hu kind fun _ => authorityText_ne_nil hhost none]
  refine (ofRaw_raw_iff mode hu hfragment (some (u.authorityText none))).trans ?_
  simp only [readAuthority, read_authorityText hu.credentials hhost]
  constructor
  · rintro ⟨_, ⟨h, hh, rfl⟩, rfl⟩
    exact ⟨h, hh, rfl⟩
  · rintro ⟨h, hh, rfl⟩
    exact ⟨_, ⟨h, hh, rfl⟩, rfl⟩

/-- A URI without host and credentials is read back where an authority is optional, up to what the
fragment is read as. -/
theorem ofText_raw_of_absent {reg : Registry} {mode : ParseMode} {u : Uri}
    (hu : u.IsRegular reg) (hhost : u.host = .absent) (huser : u.userName = [])
    (hmode : mode.acceptPath = true) {kind : FragmentMode} {anchor : Text} {hashBangPath : Path}
    (hfragment : Fragment.Form ((u.fragment? kind).getD []) anchor hashBangPath) :
    Parsed.ofText reg mode (u.raw kind none).toText
      = .ok (u.rereadAs kind anchor hashBangPath .absent) := by
  have hauthority := authorityText_of_absent hhost huser none
  -- an empty authority is written like none
  have htext : (u.raw kind none).toText
      = RawUri.toText { u.raw kind none with authority := none } := by
    simp only [RawUri.toText, raw, hauthority, Option.getD_some, Option.getD_none]
  have hsep := separable_raw hu kind mode.acceptPath none (by simp) (by simp [hmode])
  rw [Parsed.ofText, htext, RawUri.cut_toText hsep]
  exact (ofRaw_raw_iff mode hu hfragment none).mpr ⟨.absent, rfl, rfl⟩

/-- The canonical text of a URI with a host is read back as the same URI, up to what the text of
the host is read as. -/
theorem ofText_toText_iff {reg : Registry} {mode : ParseMode} {u : Uri} (hu : u.IsRegular reg)
    (hhost : u.host.isAbsent = false) {p : Parsed} :
    Parsed.ofText reg mode u.toText = .ok p ↔
      ∃ h, Host.read reg mode.acceptIp u.host.toText = .ok h ∧
        u.reread ⟨u.userName, u.password, h, u.shownPort⟩ = p := by
  simp only [← rereadAs_anchor]
  exact ofText_raw_iff hu hhost (form_fragment_anchor hu.anchor)

/-- A URI without host and credentials is read back where an authority is optional. -/
theorem ofText_toText_of_absent {reg : Registry} {mode : ParseMode} {u : Uri}
    (hu : u.IsRegular reg) (hhost : u.host = .absent) (huser : u.userName = [])
    (hmode : mode.acceptPath = true) :
    Parsed.ofText reg mode u.toText = .ok (u.reread .absent) := by
  rw [← rereadAs_anchor]
  exact ofText_raw_of_absent hu hhost huser hmode (form_fragment_anchor hu.anchor)

end Uri

end CanonicalUri
