import CanonicalUri.Proofs.Grammar
import CanonicalUri.Validator

/-!
# More switches, more URIs

The switches of a `ParseMode` add to what is accepted and change nothing else.

* `Parsed.Form.mono`: a text that is accepted is read the same with more switches on.
* `Parsed.of_refused_ip` and `Parsed.of_refused_path`: what a switch adds is one kind of URI, and
  without the switch it is refused for one reason. No other refusal hides behind that one, nor
  comes in front of it.
* `Validator.get_ofParameters`: a validator has the switches on that its parameters leave on, the
  last one that names a switch deciding.

`ParseMode.switches_add` puts these together.
-/

namespace CanonicalUri

namespace ParseMode

/-- The switches of a mode. -/
inductive Switch where
  | path
  | ip
  deriving DecidableEq, Repr

/-- Whether a switch is on. -/
def Switch.get (mode : ParseMode) : Switch → Bool
  | .path => mode.acceptPath
  | .ip => mode.acceptIp

/-- A mode is below the modes that have its switches on, too. -/
instance : LE ParseMode where
  le m n := ∀ s : Switch, s.get m = true → s.get n = true

end ParseMode

/-! ### More switches -/

/-- A host that is read without addresses is read the same with them. -/
theorem Host.read_mono {reg : Registry} {b c : Bool} (hbc : b = true → c = true) {raw : Text}
    {h : Host} (hread : read reg b raw = .ok h) : read reg c raw = .ok h := by
  rw [read_eq_ok_iff] at hread ⊢
  exact hread.imp_right fun ⟨htop, hb, haddress⟩ => ⟨htop, hbc hb, haddress⟩

theorem Authority.Form.mono {reg : Registry} {b c : Bool} (hbc : b = true → c = true) {t : Text}
    {a : Authority} (h : Form reg b t a) : Form reg c t a := by
  obtain ⟨huser, hserver, hne, hu, hp, hpaired, hhost⟩ := h
  exact .intro huser hserver hne hu hp hpaired (Host.read_mono hbc hhost)

theorem AuthorityForm.mono {reg : Registry} {m n : ParseMode} (hmn : m ≤ n) {t rest : Text}
    {a : Authority} (h : AuthorityForm reg m t rest a) : AuthorityForm reg n t rest a := by
  obtain ⟨hmode⟩ | ⟨hslash, ha⟩ := h
  · exact .missing (hmn .path hmode)
  · exact .present hslash (ha.mono (hmn .ip))

/-- What has the form of a URI has it with more switches on, and says the same. -/
theorem Parsed.Form.mono {reg : Registry} {m n : ParseMode} (hmn : m ≤ n) {t : Text} {p : Parsed}
    (h : Form reg m t p) : Form reg n t p := by
  obtain ⟨hscheme, hauthority, htail, hpath, hquery, hfragment⟩ := h
  exact .intro hscheme (hauthority.mono hmn) htail hpath hquery hfragment

/-! ### What a switch adds -/

/-- A host that is read with addresses is read without them, unless it is one. -/
theorem Host.read_false_or {reg : Registry} {raw : Text} {h : Host}
    (hread : read reg true raw = .ok h) :
    read reg false raw = .ok h ∨ (∃ a, Ip.Address.ofHost? raw = some a ∧ h = .ip a) ∧
      read reg false raw = .error (.unverified raw) := by
  obtain hname | ⟨htop, _, haddress⟩ := read_eq_ok_iff.mp hread
  · exact .inl (read_eq_ok_iff.mpr (.inl hname))
  · refine .inr ⟨haddress, ?_⟩
    rw [read, htop]
    rfl

/-- An authority is refused for its host when the credentials in front of it are in order. -/
theorem Authority.ofRaw_of_read_host {reg : Registry} {acceptIp : Bool} {raw : RawAuthority}
    {userName password : Text} {e : HostError} (hu : Percent.decode raw.userName = .ok userName)
    (hp : Percent.decode raw.password = .ok password)
    (hpaired : userName = [] ↔ password = []) (he : Host.read reg acceptIp raw.host = .error e) :
    ofRaw reg acceptIp raw = .error (.invalidDomain e) := by
  simp only [ofRaw, bind_eq_error_iff, Component.decode, mapError_eq_ok_iff]
  refine .inr ⟨userName, hu, .inr ⟨password, hp, ?_⟩⟩
  rw [if_neg (by simpa using hpaired)]
  exact bind_eq_error_iff.mpr (.inl (mapError_eq_error_iff.mpr ⟨e, he, rfl⟩))

namespace Parsed

/-- A text is refused for its authority before anything behind that is read. -/
theorem ofText_of_readAuthority {reg : Registry} {mode : ParseMode} {t : Text} {r : RawUri}
    {e : ParseError} (hcut : RawUri.cut mode.acceptPath t = .ok r)
    (he : readAuthority reg mode.acceptIp r.authority = .error e) :
    ofText reg mode t = .error e := by
  rw [ofText, bind_eq_error_iff]
  refine .inr ⟨r, mapError_eq_ok_iff.mpr hcut, ?_⟩
  rw [ofRaw]
  rcases hauthority : r.authority with _ | s
  · rw [hauthority] at he
    cases he
  · rw [hauthority] at he
    exact bind_eq_error_iff.mpr (.inl he)

theorem ofText_of_hasAuthority {reg : Registry} {mode : ParseMode} {t : Text} {raw : RawAuthority}
    {e : ParseError} (h : HasAuthority t raw)
    (he : Authority.ofRaw reg mode.acceptIp raw = .error e) : ofText reg mode t = .error e := by
  obtain ⟨r, a, hcut, ha, hraw⟩ := (hasAuthority_iff mode.acceptPath).mp h
  refine ofText_of_readAuthority hcut ?_
  rw [ha]
  exact bind_eq_error_iff.mpr (.inr ⟨raw, hraw, he⟩)

/-- What is refused has no form. -/
theorem not_form_of_ofText {reg : Registry} {mode : ParseMode} {t : Text} {e : ParseError}
    (he : ofText reg mode t = .error e) (p : Parsed) : ¬Form reg mode t p := fun hform => by
  cases (ofText_of_form hform).symm.trans he

/-- What is accepted only where addresses are has an address for a host, and is refused for it
elsewhere. -/
theorem of_refused_ip {reg : Registry} {acceptPath : Bool} {t : Text} {p : Parsed} {e : ParseError}
    (h : ofText reg ⟨acceptPath, true⟩ t = .ok p)
    (he : ofText reg ⟨acceptPath, false⟩ t = .error e) :
    ∃ raw a, HasAuthority t raw ∧ Ip.Address.ofHost? raw.host = some a ∧ p.host = .ip a ∧
      e = .invalidDomain (.unverified raw.host) := by
  have hrefused := not_form_of_ofText he p
  obtain ⟨hscheme, hauthority, htail, hpath, hquery, hfragment⟩ := form_of_ofText h
  obtain ⟨hmode⟩ | ⟨hslash, huser, hserver, hne, hu, hp, hpaired, hhost⟩ := hauthority
  · exact (hrefused (.intro hscheme (.missing hmode) htail hpath hquery hfragment)).elim
  · have hclosed := RawAuthority.isClosed_of_read hhost
    obtain hhost | ⟨⟨a, ha, hip⟩, hhost⟩ := Host.read_false_or hhost
    · have hauthority := Authority.Form.intro huser hserver hne hu hp hpaired hhost
      have hform : Form reg ⟨acceptPath, false⟩ _ _ :=
        .intro hscheme (.present hslash hauthority) htail hpath hquery hfragment
      exact (hrefused hform).elim
    · have hraw : HasAuthority _ ⟨_, _, _, _⟩ :=
        .intro hscheme hslash htail huser hserver (.inr hclosed) hne
      have herror : ofText reg ⟨acceptPath, false⟩ _ = _ :=
        ofText_of_hasAuthority hraw (Authority.ofRaw_of_read_host hu hp hpaired hhost)
      exact ⟨_, a, hraw, ha, hip, Except.error.inj (he.symm.trans herror)⟩

/-- What is accepted only where an authority may be missing has none, and is refused for it
elsewhere. -/
theorem of_refused_path {reg : Registry} {acceptIp : Bool} {t : Text} {p : Parsed} {e : ParseError}
    (h : ofText reg ⟨true, acceptIp⟩ t = .ok p) (he : ofText reg ⟨false, acceptIp⟩ t = .error e) :
    (∃ rest, t = p.scheme ++ ":///".toList ++ rest) ∧ p.userName = [] ∧ p.password = [] ∧
      p.host = .absent ∧ p.port = p.schemePort ∧ e = .missingDomain := by
  have hrefused := not_form_of_ofText he p
  obtain @⟨scheme, _, _, _, _, _, _, _, _, _, _, hscheme, hauthority, htail, hpath, hquery,
    hfragment⟩ := form_of_ofText h
  obtain @⟨rest, _⟩ | ⟨hslash, ha⟩ := hauthority
  · -- where it may not be missing, nothing is taken for an authority
    have hcut : RawUri.cut false (scheme ++ "://".toList ++ [] ++ '/' :: rest)
        = .ok ⟨scheme, some [], some (RawTail.cut rest)⟩ :=
      RawUri.cut_eq_ok_iff.mpr ⟨scheme, '/' :: rest, hscheme.1, hscheme.2, by simp, by
        simp [RawUri.cutRest, Text.cut]⟩
    have hmissing : ofText reg ⟨false, acceptIp⟩ (scheme ++ "://".toList ++ [] ++ '/' :: rest)
        = .error .missingDomain := ofText_of_readAuthority hcut rfl
    exact ⟨⟨rest, by simp⟩, rfl, rfl, rfl, rfl, Except.error.inj (he.symm.trans hmissing)⟩
  · exact (hrefused (.intro hscheme (.present hslash ha) htail hpath hquery hfragment)).elim

end Parsed

/-! ### The parameters of a validator -/

namespace Validator

open ParseMode

/-- The parameters that turn a switch on or off. -/
def words : Switch → Bool → List Text
  | .path, true => ["accept_path".toList, "accept-path".toList]
  | .path, false => ["refuse_path".toList, "refuse-path".toList]
  | .ip, true => ["accept_ip".toList, "accept-ip".toList]
  | .ip, false => ["refuse_ip".toList, "refuse-ip".toList]

/-- Some parameter turns a switch on and none behind it names the switch. -/
def LeavesOn (s : Switch) (parameters : List Text) : Prop :=
  ∃ before p after, parameters = before ++ p :: after ∧ p ∈ words s true ∧
    ∀ q ∈ after, q ∉ words s true ∧ q ∉ words s false

/-- A parameter sets the switch that it names and no other one. -/
theorem get_adjust (s : Switch) (mode : ParseMode) (p : Text) :
    s.get ((adjust? mode p).getD mode)
      = if p ∈ words s true then true else if p ∈ words s false then false else s.get mode := by
  rw [adjust?]
  obtain ⟨w, rfl⟩ : ∃ w : String, w.toList = p := ⟨String.ofList p, String.toList_ofList⟩
  rw [String.ofList_toList]
  split
  iterate 8 · cases s <;> rfl
  · have hunnamed : ∀ on, w.toList ∉ words s on := fun on => by
      cases s <;> cases on <;>
        simp only [words, List.mem_cons, String.toList_inj, List.not_mem_nil, or_false, not_or] <;>
        exact ⟨by assumption, by assumption⟩
    rw [if_neg (hunnamed true), if_neg (hunnamed false)]
    rfl

theorem leavesOn_append_singleton {s : Switch} {ps : List Text} {p : Text} :
    LeavesOn s (ps ++ [p]) ↔ p ∈ words s true ∨ p ∉ words s false ∧ LeavesOn s ps := by
  constructor
  · rintro ⟨before, q, after, heq, hq, hafter⟩
    obtain rfl | ⟨after, x, rfl⟩ := List.eq_nil_or_concat after
    · obtain ⟨_, hlast⟩ := List.append_inj' heq rfl
      exact .inl (List.head_eq_of_cons_eq hlast ▸ hq)
    · rw [List.concat_eq_append, ← List.cons_append, ← List.append_assoc] at heq
      obtain ⟨rfl, hlast⟩ := List.append_inj' heq rfl
      obtain rfl := List.head_eq_of_cons_eq hlast
      exact .inr ⟨(hafter p (by simp)).2, before, q, after, rfl, hq,
        fun x hx => hafter x (by simp [hx])⟩
  · rintro (hp | ⟨hoff, before, q, after, rfl, hq, hafter⟩)
    · exact ⟨ps, p, [], rfl, hp, by simp⟩
    · by_cases hp : p ∈ words s true
      · exact ⟨before ++ q :: after, p, [], rfl, hp, by simp⟩
      · refine ⟨before, q, after ++ [p], by simp, hq, fun x hx => ?_⟩
        obtain hx | hx := List.mem_append.mp hx
        · exact hafter x hx
        · exact List.mem_singleton.mp hx ▸ ⟨hp, hoff⟩

theorem mode_append_singleton (ps : List Text) (p : Text) :
    (ofParameters (ps ++ [p])).mode
      = (adjust? (ofParameters ps).mode p).getD (ofParameters ps).mode := by
  rw [ofParameters, List.foldl_append]
  rfl

/-- A validator has the switches on that its parameters leave on. -/
theorem get_ofParameters (s : Switch) (ps : List Text) :
    s.get (ofParameters ps).mode = true ↔ LeavesOn s ps := by
  induction ps using List.reverseRecOn with
  | nil => cases s <;> simp [LeavesOn, ofParameters, Switch.get]
  | append_singleton ps p ih =>
    rw [mode_append_singleton, get_adjust, leavesOn_append_singleton, ← ih]
    split_ifs with hon hoff
    · simp [hon]
    · simp [hon, hoff]
    · simp [hon, hoff]

/-- No parameter that turns a switch on turns one off. -/
theorem le_mode_append_singleton {s : Switch} {p : Text} (hp : p ∈ words s true)
    (ps : List Text) : (ofParameters ps).mode ≤ (ofParameters (ps ++ [p])).mode := by
  intro s' hs'
  have hoff : ∀ p ∈ words s true, p ∉ words s' false := by cases s <;> cases s' <;> decide
  rw [mode_append_singleton, get_adjust, if_neg (hoff p hp), hs', ite_self]

theorem validate_eq_true_iff {reg : Registry} {v : Validator} {t : Text} :
    v.validate reg t = true ↔ ∃ p, Parsed.ofText reg v.mode t = .ok p := by
  rw [validate, Uri.assign]
  rcases Parsed.ofText reg v.mode t with e | p
  · simp
  · simp

end Validator

/-! ### All of it -/

namespace ParseMode

/-- With more switches on, what was accepted says the same. What one switch adds is one kind of URI,
which is refused for one reason without it. So a validator with another parameter that turns a
switch on accepts what it accepted before; of the parameters that name a switch, the last one
decides. -/
theorem switches_add (reg : Registry) (t : Text) :
    (∀ m n p, m ≤ n → Parsed.ofText reg m t = .ok p → Parsed.ofText reg n t = .ok p) ∧
    (∀ acceptPath p e, Parsed.ofText reg ⟨acceptPath, true⟩ t = .ok p →
      Parsed.ofText reg ⟨acceptPath, false⟩ t = .error e →
      ∃ raw a, HasAuthority t raw ∧ Ip.Address.ofHost? raw.host = some a ∧ p.host = .ip a ∧
        e = .invalidDomain (.unverified raw.host)) ∧
    (∀ acceptIp p e, Parsed.ofText reg ⟨true, acceptIp⟩ t = .ok p →
      Parsed.ofText reg ⟨false, acceptIp⟩ t = .error e →
      (∃ rest, t = p.scheme ++ ":///".toList ++ rest) ∧ p.userName = [] ∧ p.password = [] ∧
        p.host = .absent ∧ p.port = p.schemePort ∧ e = .missingDomain) ∧
    (∀ s ps, ∀ p ∈ Validator.words s true, (Validator.ofParameters ps).validate reg t = true →
      (Validator.ofParameters (ps ++ [p])).validate reg t = true) ∧
    (∀ s ps, s.get (Validator.ofParameters ps).mode = true ↔ Validator.LeavesOn s ps) := by
  have hmono : ∀ m n p, m ≤ n → Parsed.ofText reg m t = .ok p → Parsed.ofText reg n t = .ok p := by
    intro m n p hmn h
    rw [Parsed.ofText_eq_ok_iff] at h ⊢
    exact h.mono hmn
  refine ⟨hmono, fun _ _ _ => Parsed.of_refused_ip, fun _ _ _ => Parsed.of_refused_path, ?_,
    Validator.get_ofParameters⟩
  intro s ps p hp hvalid
  obtain ⟨parsed, hparsed⟩ := Validator.validate_eq_true_iff.mp hvalid
  have hle := Validator.le_mode_append_singleton hp ps
  exact Validator.validate_eq_true_iff.mpr ⟨parsed, hmono _ _ parsed hle hparsed⟩

/-- A URI of each of the two kinds. -/
theorem switches_add_addressAndPath :
    let address := "http://me:pw@[::1]:81/a".toList
    let path := "file:///etc/hosts".toList
    (∃ p raw a, Parsed.ofText Registry.standard ⟨false, true⟩ address = .ok p ∧
      HasAuthority address raw ∧ Ip.Address.ofHost? raw.host = some a ∧ p.host = .ip a ∧
      Parsed.ofText Registry.standard ⟨false, false⟩ address
        = .error (.invalidDomain (.unverified raw.host))) ∧
    ∃ p, Parsed.ofText Registry.standard ⟨true, false⟩ path = .ok p ∧ p.host = .absent ∧
      Parsed.ofText Registry.standard ⟨false, false⟩ path = .error .missingDomain := by
  intro address path
  constructor
  · have hp : Parsed.ofText Registry.standard ⟨false, true⟩ address
        = .ok { scheme := "http".toList
                schemePort := some 80
                userName := "me".toList
                password := "pw".toList
                host := .ip (.v6 ⟨[0, 0, 0, 0, 0, 0, 0, 1], rfl⟩)
                port := some 81
                path := ["a".toList]
                hashBangPath := []
                query := .empty
                anchor := [] } := by
      decide +kernel
    have he : Parsed.ofText Registry.standard ⟨false, false⟩ address
        = .error (.invalidDomain (.unverified "[::1]".toList)) := by
      decide +kernel
    obtain ⟨raw, a, hraw, ha, hhost, heq⟩ :=
      (switches_add Registry.standard address).2.1 false _ _ hp he
    exact ⟨_, raw, a, hp, hraw, ha, hhost, heq ▸ he⟩
  · have hp : Parsed.ofText Registry.standard ⟨true, false⟩ path
        = .ok { scheme := "file".toList
                schemePort := none
                userName := []
                password := []
                host := .absent
                port := none
                path := ["etc".toList, "hosts".toList]
                hashBangPath := []
                query := .empty
                anchor := [] } := by
      decide +kernel
    have he : Parsed.ofText Registry.standard ⟨false, false⟩ path = .error .missingDomain := by
      decide +kernel
    obtain ⟨_, _, _, hhost, _, _⟩ := (switches_add Registry.standard path).2.2.1 false _ _ hp he
    exact ⟨_, hp, hhost, he⟩

end ParseMode

end CanonicalUri
