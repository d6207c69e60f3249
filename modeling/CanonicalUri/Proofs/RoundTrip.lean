import CanonicalUri.Proofs.Resolution
import CanonicalUri.Proofs.SuffixList
import CanonicalUri.Proofs.Written
import CanonicalUri.Uri.Basic

/-!
# Reading the canonical text again

Two statements about reading what was written.

* `Uri.parse_toText`: a URI with regular parts, whose host is the one that the text of the host is
  read as, is read back from its canonical text. It keeps its parts; what is no part of the text
  starts anew.
* `Uri.reparse_toText_iff`: what was read from some text can be read again from its canonical text,
  and has the same canonical text then, exactly when the host is an address or a name that is
  recognized as it is written. The suffix is looked up before escapes are decoded, and the canonical
  text writes the decoded name, so a name whose suffix was hidden in escapes, or that gets one by
  them, may be refused.

Everything that is read has regular parts (`Uri.isRegular_of_parse`), so the host is the only
obstacle.
-/

namespace CanonicalUri

/-! ### What was read is regular -/

/-- A path leads through segments of its own, which are no dots. -/
theorem Path.Resolves.mem {p q : Path} (h : Resolves p q) {s : Text} (hs : s ∈ q) :
    s ∈ p ∧ s ≠ here ∧ s ≠ parent := by
  rw [← resolve_eq_ok_iff] at h
  exact ⟨(sublist_of_resolve h).subset hs, ordinary_of_resolve h hs⟩

theorem Path.Form.mem {t : Text} {p : Path} (h : Form t p) {s : Text} (hs : s ∈ p) :
    s ≠ [] ∧ s ≠ here ∧ s ≠ parent := by
  obtain ⟨hpieces, hresolves⟩ := h
  obtain ⟨hmem, hordinary⟩ := hresolves.mem hs
  refine ⟨?_, hordinary⟩
  rintro rfl
  exact Text.ne_nil_of_mem_pieces ((Percent.nil_mem_iff_of_decode hpieces).mp hmem) rfl

theorem Query.Form.name_ne_nil {t : Text} {q : Query} (h : Form t q) {p : Text × Text}
    (hp : p ∈ q.entries) : p.1 ≠ [] := by
  obtain ⟨hpairs, _, hq⟩ := h
  obtain ⟨_, _, hpiece⟩ := exists_mem_of_forall₂ hpairs (hq.mem_iff.mp hp)
  exact hpiece.name_ne_nil

theorem Fragment.Form.head?_anchor_ne {t a : Text} {p : Path} (h : Form t a p) :
    a.head? ≠ some '!' := by
  obtain ⟨_, hbang⟩ | _ | _ := h
  · exact hbang
  · simp
  · simp

namespace Uri

theorem parse_eq_ok_iff {reg : Registry} {mode : ParseMode} {t : Text} {u : Uri} :
    parse reg mode t = .ok u ↔ ∃ p, Parsed.ofText reg mode t = .ok p ∧ update {} t p = u := by
  rw [parse]
  rcases Parsed.ofText reg mode t with e | p <;> simp

theorem parse_eq_error_iff {reg : Registry} {mode : ParseMode} {t : Text} {r : Rejection} :
    parse reg mode t = .error r ↔ ∃ e, Parsed.ofText reg mode t = .error e ∧ ⟨t, e⟩ = r := by
  rw [parse]
  rcases Parsed.ofText reg mode t with e | p <;> simp

/-- The parts of a URI that was read are regular. -/
theorem isRegular_of_parse {reg : Registry} {mode : ParseMode} {t : Text} {u : Uri}
    (h : parse reg mode t = .ok u) : u.IsRegular reg := by
  obtain ⟨p, hp, rfl⟩ := parse_eq_ok_iff.mp h
  obtain ⟨⟨hne, hcolon⟩, hauthority, _, hpath, hquery, hfragment⟩ := Parsed.form_of_ofText hp
  refine ⟨hne, hcolon, rfl, ?_, fun s hs => hpath.mem hs, fun p hp => hquery.name_ne_nil hp,
    hfragment.head?_anchor_ne⟩
  obtain _ | ⟨_, ⟨_, _, _, _, _, hpaired, _⟩⟩ := hauthority
  · exact Iff.rfl
  · exact hpaired

/-- The host of a URI that was read was read from some text, or there are neither a host nor
credentials. -/
theorem host_of_parse {reg : Registry} {mode : ParseMode} {t : Text} {u : Uri}
    (h : parse reg mode t = .ok u) :
    (u.host = .absent ∧ u.userName = [] ∧ mode.acceptPath = true) ∨
      ∃ raw, Host.read reg mode.acceptIp raw = .ok u.host := by
  obtain ⟨p, hp, rfl⟩ := parse_eq_ok_iff.mp h
  obtain ⟨_, hauthority, _⟩ := Parsed.form_of_ofText hp
  obtain ⟨hmode⟩ | ⟨_, ⟨_, _, _, _, _, _, hhost⟩⟩ := hauthority
  · exact .inl ⟨rfl, rfl, hmode⟩
  · exact .inr ⟨_, hhost⟩

/-- Without a host no port can be named. -/
theorem port_of_parse {reg : Registry} {mode : ParseMode} {t : Text} {u : Uri}
    (h : parse reg mode t = .ok u) (hhost : u.host = .absent) : u.port = u.schemePort.getD 80 := by
  obtain ⟨p, hp, rfl⟩ := parse_eq_ok_iff.mp h
  obtain ⟨_, hauthority, _⟩ := Parsed.form_of_ofText hp
  obtain _ | ⟨_, ⟨_, _, _, _, _, _, hread⟩⟩ := hauthority
  · rfl
  · exact absurd hhost (Host.ne_absent_of_read hread)

/-! ### Reading back -/

/-- The URI that is read from the canonical text of one with regular parts. A port without a host
is not written, so only the one that the scheme implies is left of it. -/
def readBack (u : Uri) : Uri :=
  { u with
    input := u.toText
    port := if u.host.isAbsent then u.schemePort.getD 80 else u.port
    hashBangPath := []
    options := .empty
    lastError := ""
    addresses := none }

/-- What was read is read back whole, except for the hash-bang path. -/
theorem readBack_of_parse {reg : Registry} {mode : ParseMode} {t : Text} {u : Uri}
    (h : parse reg mode t = .ok u) :
    u.readBack = { u with input := u.toText, hashBangPath := [] } := by
  have hport : (if u.host.isAbsent then u.schemePort.getD 80 else u.port) = u.port := by
    obtain ⟨habsent, _⟩ | ⟨raw, hread⟩ := host_of_parse h
    · rw [port_of_parse h habsent, ite_self]
    · rw [if_neg (by simp [Host.isAbsent_of_read hread])]
  obtain ⟨p, _, rfl⟩ := parse_eq_ok_iff.mp h
  rw [readBack, hport]
  rfl

/-- The canonical text depends on what is written in it. -/
theorem toText_congr {u v : Uri} (hscheme : u.scheme = v.scheme)
    (hauthority : u.authorityText none = v.authorityText none) (hpath : u.path = v.path)
    (hquery : u.query = v.query) (hanchor : u.anchor = v.anchor) : u.toText = v.toText := by
  simp only [toText, raw, hscheme, hauthority, frontPath_anchor, hpath, hquery, fragment?, hanchor]

/-- The text of an authority depends on what is written in it; there is no port without a host. -/
theorem authorityText_congr {u v : Uri} (huser : u.userName = v.userName)
    (hpassword : u.password = v.password) (htext : u.host.toText = v.host.toText)
    (habsent : u.host.isAbsent = v.host.isAbsent)
    (hport : v.host.isAbsent = false → u.portText = v.portText) (redaction : Option Text) :
    u.authorityText redaction = v.authorityText redaction := by
  have hend : (if v.host.isAbsent then [] else u.portText)
      = if v.host.isAbsent then [] else v.portText := by
    split_ifs with hhost
    · rfl
    · exact hport (by simpa using hhost)
  simp only [authorityText, credentialsText, huser, hpassword, htext, habsent, hend]

theorem portText_readBack {u : Uri} (hhost : u.host.isAbsent = false) :
    u.readBack.portText = u.portText := by
  simp [readBack, portText, hhost]

/-- What is read back has the same canonical text, also when its host is another one with the same
text. -/
theorem toText_readBack {u : Uri} {h : Host} (htext : h.toText = u.host.toText)
    (habsent : h.isAbsent = u.host.isAbsent) :
    ({ u.readBack with host := h } : Uri).toText = u.toText := by
  refine toText_congr rfl (authorityText_congr ?_ ?_ htext habsent ?_ none) rfl rfl rfl
  · rfl
  · rfl
  · exact portText_readBack

theorem shownPort_or_schemePort (u : Uri) : (u.shownPort <|> u.schemePort) = some u.port := by
  rw [shownPort]
  split_ifs with h
  · exact h
  · rfl

theorem parse_toText_of_absent {reg : Registry} {mode : ParseMode} {u : Uri}
    (hu : u.IsRegular reg) (hhost : u.host = .absent) (huser : u.userName = [])
    (hmode : mode.acceptPath = true) : parse reg mode u.toText = .ok u.readBack := by
  refine parse_eq_ok_iff.mpr ⟨_, ofText_toText_of_absent hu hhost huser hmode, ?_⟩
  have hpassword := hu.credentials.mp huser
  simp [update, reread, readBack, hhost, huser, hpassword, Authority.absent, Host.isAbsent,
    Host.domain]

/-- A URI with a host is read back up to what the text of the host is read as. -/
theorem parse_toText_iff {reg : Registry} {mode : ParseMode} {u v : Uri} (hu : u.IsRegular reg)
    (hhost : u.host.isAbsent = false) :
    parse reg mode u.toText = .ok v ↔
      ∃ h, Host.read reg mode.acceptIp u.host.toText = .ok h ∧
        { u.readBack with host := h } = v := by
  have hupdate : ∀ h : Host,
      update {} u.toText (u.reread ⟨u.userName, u.password, h, u.shownPort⟩)
        = { u.readBack with host := h } := by
    intro h
    simp [update, reread, readBack, hhost, shownPort_or_schemePort]
  simp only [parse_eq_ok_iff, ofText_toText_iff hu hhost]
  constructor
  · rintro ⟨_, ⟨h, hread, rfl⟩, rfl⟩
    exact ⟨h, hread, (hupdate h).symm⟩
  · rintro ⟨h, hread, rfl⟩
    exact ⟨_, ⟨h, hread, rfl⟩, hupdate h⟩

/-- A URI with regular parts is read back from its canonical text when its host is the one that is
read from the text of the host, or when there are neither a host nor credentials and no authority
is asked for. -/
theorem parse_toText {reg : Registry} {mode : ParseMode} {u : Uri} (hu : u.IsRegular reg)
    (hhost : (u.host = .absent ∧ u.userName = [] ∧ mode.acceptPath = true) ∨
      Host.read reg mode.acceptIp u.host.toText = .ok u.host) :
    parse reg mode u.toText = .ok u.readBack ∧ u.readBack.toText = u.toText := by
  refine ⟨?_, toText_readBack rfl rfl⟩
  obtain ⟨habsent, huser, hmode⟩ | hread := hhost
  · exact parse_toText_of_absent hu habsent huser hmode
  · exact (parse_toText_iff hu (Host.isAbsent_of_read hread)).mpr ⟨u.host, hread, rfl⟩

/-- A URI with characters in its parts that separate parts. -/
def withSeparators : Uri where
  scheme := "https".toList
  schemePort := some 443
  userName := "a@b".toList
  password := ":/".toList
  host := .name ["x/y z".toList] "shop".toList ".co.uk".toList
  port := 8080
  path := ["a/b".toList, "?".toList, "...".toList]
  query := Dict.empty.insert "k=".toList "&+".toList
  anchor := "#%é".toList

theorem parse_toText_withSeparators :
    parse Registry.standard {} withSeparators.toText = .ok withSeparators.readBack ∧
      withSeparators.readBack.toText = withSeparators.toText := by
  refine parse_toText ⟨?_, ?_, ?_, ?_, ?_, ?_, ?_⟩ (.inr ?_)
  · decide
  · decide
  · decide +kernel
  · decide
  · decide
  · decide +kernel
  · decide
  · decide +kernel

/-! ### Reading again what was read -/

/-- What was read from some text is read again from its canonical text, which then is its canonical
text again, exactly when its host is found again as it is written there. -/
theorem reparse_toText_iff {reg : Registry} (hreg : reg.IsSuffixList) {mode : ParseMode}
    {t : Text} {u : Uri} (h : parse reg mode t = .ok u) :
    (∃ v, parse reg mode u.toText = .ok v ∧ v.toText = u.toText) ↔
      u.host.IsFoundAgain reg mode.acceptIp := by
  have hu := isRegular_of_parse h
  obtain ⟨habsent, huser, hmode⟩ | ⟨raw, hread⟩ := host_of_parse h
  · refine iff_of_true ⟨_, parse_toText_of_absent hu habsent huser hmode, ?_⟩ ?_
    · exact toText_readBack rfl rfl
    · rw [habsent]
      trivial
  · have hpresent := Host.isAbsent_of_read hread
    rw [← Host.exists_read_toText_iff hreg hread]
    simp only [parse_toText_iff hu hpresent]
    constructor
    · rintro ⟨_, ⟨h', hagain, rfl⟩, _⟩
      exact ⟨h', hagain⟩
    · rintro ⟨h', hagain⟩
      refine ⟨_, ⟨h', hagain, rfl⟩, toText_readBack ?_ ?_⟩
      · exact Host.toText_of_read_toText hreg hread hagain
      · rw [Host.isAbsent_of_read hagain, hpresent]

/-- An escaped space in a sub-domain does not hide the suffix. -/
theorem reparse_toText_escapedSpace :
    let u : Uri :=
      { input := "http://a%20b.shop.co.uk".toList
        host := .name ["a b".toList] "shop".toList ".co.uk".toList }
    (∃ v, parse Registry.standard {} u.toText = .ok v ∧ v.toText = u.toText) ↔
      u.host.IsFoundAgain Registry.standard false :=
  reparse_toText_iff (Registry.isSuffixList_withServices none)
    (show parse Registry.standard {} "http://a%20b.shop.co.uk".toList = .ok _ by decide +kernel)

/-- An escaped letter does: the name is accepted as one under `uk`, while its canonical text is a
public suffix without a name in front of it. -/
theorem not_reparse_escapedSuffix :
    ∃ u, parse Registry.standard {} "http://%63o.uk/".toList = .ok u ∧
      u.toText = "http://co.uk/".toList ∧ ¬∃ v, parse Registry.standard {} u.toText = .ok v := by
  refine ⟨{ input := "http://%63o.uk/".toList, host := .name [] "co".toList ".uk".toList },
    by decide +kernel, by decide +kernel, ?_⟩
  rintro ⟨v, hv⟩
  have herror : parse Registry.standard {} "http://co.uk/".toList =
      .error ⟨"http://co.uk/".toList, .invalidDomain (.unverified "co.uk".toList)⟩ := by
    decide +kernel
  cases herror.symm.trans hv

end Uri

end CanonicalUri
