import CanonicalUri.Proofs.RoundTrip
import CanonicalUri.Uri.Order

/-!
# What equal URIs have in common

URIs count as the same when they have the same canonical text and the same hash-bang path. That text
determines what was read (`Uri.sameContents_of_same`): scheme, credentials, port, path, parameters,
anchor and the whole decoded name of the host. It does not determine where that name is cut into
labels, since the cuts are made before escapes are decoded and a dot is written as a dot either way.
The hosts are equal exactly when their names are cut at the same dots.

* `Text.join_inj_of_count`: joined texts can be told apart by the separators in each of them.
* `Uri.toText_eq_iff`: the canonical texts of regular URIs are equal part by part.
* `Host.eq_iff_of_fullDomain_eq`: when two hosts with the same name are equal.
-/

namespace CanonicalUri

/-! ### Joined texts -/

namespace Text

private theorem append_cons_inj_of_count {sep : Char} {s t x y : Text}
    (h : s ++ sep :: x = t ++ sep :: y) (hcount : s.count sep = t.count sep) :
    s = t ∧ x = y := by
  -- a longer front would have passed one more separator
  have hfront : ∀ {s t x y : Text} {a : Text}, s = t ++ a → sep :: y = a ++ sep :: x →
      s.count sep = t.count sep → a = [] := by
    rintro s t x y (_ | ⟨c, a⟩) rfl hxy hcount
    · rfl
    · obtain ⟨rfl, _⟩ := List.cons.inj hxy
      rw [List.count_append, List.count_cons_self] at hcount
      omega
  obtain ⟨a, ht, hx⟩ | ⟨a, hs, hy⟩ := List.append_eq_append_iff.mp h
  · obtain rfl := hfront ht hx hcount.symm
    rw [List.append_nil] at ht
    exact ⟨ht.symm, (List.cons.inj hx).2⟩
  · obtain rfl := hfront hs hy hcount
    rw [List.append_nil] at hs
    exact ⟨hs, (List.cons.inj hy).2.symm⟩

/-- Joined texts are found again if it is known how many separators each of them holds. -/
theorem join_inj_of_count {sep : Char} {ss ts : List Text} (h : join sep ss = join sep ts)
    (hcount : ss.map (List.count sep) = ts.map (List.count sep)) : ss = ts := by
  induction ss generalizing ts with
  | nil => exact (List.map_eq_nil_iff.mp hcount.symm).symm
  | cons s ss ih =>
    obtain ⟨t, ts, rfl, hhead, htail⟩ := List.map_eq_cons_iff.mp hcount.symm
    obtain _ | ⟨s', ss⟩ := ss
    · obtain rfl := List.map_eq_nil_iff.mp htail
      rw [join_singleton, join_singleton] at h
      rw [h]
    · obtain ⟨t', ts, rfl, _⟩ := List.map_eq_cons_iff.mp htail
      rw [join_cons_cons, join_cons_cons] at h
      obtain ⟨rfl, hrest⟩ := append_cons_inj_of_count h hhead.symm
      rw [ih hrest htail.symm]

end Text

/-! ### Hosts with the same name -/

namespace Host

/-- How many dots each of the labels holds. The cuts are made before escapes are decoded, so a label
holds the dots that were escaped in it. -/
def labelDots (h : Host) : List Nat :=
  (h.subDomains ++ [h.domain]).map (List.count '.')

/-- A host is written as its escaped name, unless it is an address in brackets. -/
theorem toText_eq_encode_or (h : Host) :
    h.toText = Percent.encode [] h.fullDomain ∨ ∃ a, h = .ip a ∧ '[' ∈ h.toText := by
  obtain _ | (ip | ip) | _ := h
  · exact .inl rfl
  · have hchars : ∀ c ∈ ip.toText, Percent.isUnreserved c = true ∨ c ∈ ([] : List Char) := by
      intro c hc
      obtain hdigit | rfl := Ip.V4.mem_toText hc
      · exact .inl (by simp [Percent.isUnreserved, Char.isAlphanum, hdigit])
      · exact .inl (by decide)
    rw [fullDomain_ip]
    exact .inl (Percent.encode_eq_self_iff.mpr hchars).symm
  · exact .inr ⟨.v6 ip, rfl, List.mem_cons_self⟩
  · exact .inl rfl

/-- Hosts that are written alike have the same name. -/
theorem fullDomain_eq_of_toText_eq {h h' : Host} (htext : h.toText = h'.toText) :
    h.fullDomain = h'.fullDomain := by
  have hbracket : ∀ t, '[' ∉ Percent.encode [] t := Percent.not_mem_encode (by decide)
  obtain hname | ⟨a, rfl, hmem⟩ := h.toText_eq_encode_or
  · obtain hname' | ⟨_, _, hmem'⟩ := h'.toText_eq_encode_or
    · rw [hname, hname'] at htext
      exact Percent.encode_inj (by simp) htext
    · rw [← htext, hname] at hmem'
      exact absurd hmem' (hbracket _)
  · obtain hname' | ⟨a', rfl, _⟩ := h'.toText_eq_encode_or
    · rw [htext, hname'] at hmem
      exact absurd hmem (hbracket _)
    · rw [fullDomain_ip, fullDomain_ip]
      exact htext

/-- Hosts with the same name are equal exactly when the name is cut at the same dots. -/
theorem eq_iff_of_fullDomain_eq {reg : Registry} {acceptIp : Bool} {raw raw' : Text} {h h' : Host}
    (hread : read reg acceptIp raw = .ok h) (hread' : read reg acceptIp raw' = .ok h')
    (hname : h.fullDomain = h'.fullDomain) :
    h = h' ↔ h.topLevel = h'.topLevel ∧ h.labelDots = h'.labelDots := by
  refine ⟨by rintro rfl; exact ⟨rfl, rfl⟩, fun ⟨htop, hdots⟩ => ?_⟩
  obtain ⟨a, rfl⟩ | ⟨subDomains, domain, top, rfl, hne, htop_ne⟩ := cases_of_read hread
  · obtain ⟨a', rfl⟩ | ⟨_, _, _, rfl, _, htop_ne⟩ := cases_of_read hread'
    · rw [fullDomain_ip, fullDomain_ip] at hname
      rw [Ip.Address.toHost_inj hname]
    · exact absurd htop.symm htop_ne
  · obtain ⟨_, rfl⟩ | ⟨subDomains', domain', top', rfl, hne', _⟩ := cases_of_read hread'
    · exact absurd htop htop_ne
    · have htop : top = top' := htop
      rw [fullDomain_name hne, fullDomain_name hne', htop] at hname
      have hlabels := Text.join_inj_of_count (List.append_cancel_right hname) hdots
      obtain ⟨hsub, hdomain⟩ := List.append_inj' hlabels rfl
      rw [hsub, List.singleton_injective hdomain, htop]

end Host

namespace Uri

/-! ### The canonical text, part by part -/

/-- The canonical texts of regular URIs are equal exactly when all their parts are written alike. -/
theorem toText_eq_iff {reg : Registry} {u v : Uri} (hu : u.IsRegular reg) (hv : v.IsRegular reg) :
    u.toText = v.toText ↔ u.scheme = v.scheme ∧ u.authorityText none = v.authorityText none ∧
      u.path = v.path ∧ u.query = v.query ∧ u.anchor = v.anchor := by
  refine ⟨fun h => ?_, fun ⟨hscheme, hauthority, hpath, hquery, hanchor⟩ =>
    toText_congr hscheme hauthority hpath hquery hanchor⟩
  -- one text is cut in one way
  have hraw : u.raw .anchor none = v.raw .anchor none := by
    have hcut : RawUri.cut false (u.raw .anchor none).toText = .ok (u.raw .anchor none) :=
      cut_raw hu .anchor (by simp)
    have hcut' : RawUri.cut false (v.raw .anchor none).toText = .ok (v.raw .anchor none) :=
      cut_raw hv .anchor (by simp)
    rw [show (u.raw .anchor none).toText = (v.raw .anchor none).toText from h, hcut'] at hcut
    exact (Except.ok.inj hcut).symm
  have hparts := congrArg (fun r : RawUri => RawTail.parts r.tail) hraw
  simp only [parts_tail, frontPath_anchor, Prod.mk.injEq] at hparts
  obtain ⟨hpath, hquery, hfragment⟩ := hparts
  refine ⟨congrArg RawUri.scheme hraw, Option.some.inj (congrArg RawUri.authority hraw), ?_, ?_, ?_⟩
  · have hread := Path.read_encode hu.path
    rw [hpath, Path.read_encode hv.path] at hread
    exact (Except.ok.inj hread).symm
  · have hread := Query.read_toText hu.query
    rw [hquery, Query.read_toText hv.query] at hread
    exact (Except.ok.inj hread).symm
  · have hform := (Fragment.form_iff.mp (form_fragment_anchor hu.anchor)).1
    rw [hfragment, (Fragment.form_iff.mp (form_fragment_anchor hv.anchor)).1] at hform
    exact hform.symm

theorem passwordText_none (u : Uri) : u.passwordText none = Percent.encode [] u.password := by
  rw [passwordText]
  split_ifs with hnil
  · rw [hnil, Percent.encode_nil]
  · rfl

/-- The authorities of URIs with a host are written alike exactly when all their parts are. -/
theorem authorityText_eq_iff {u v : Uri} (hu : u.userName = [] ↔ u.password = [])
    (hv : v.userName = [] ↔ v.password = []) (hhost : u.host.isAbsent = false)
    (hhost' : v.host.isAbsent = false) (hport : u.schemePort = v.schemePort) :
    u.authorityText none = v.authorityText none ↔ u.userName = v.userName ∧
      u.password = v.password ∧ u.host.toText = v.host.toText ∧ u.port = v.port := by
  constructor
  · intro h
    have hcut := cut_authorityText hu hhost none
    rw [h, cut_authorityText hv hhost' none, passwordText_none, passwordText_none] at hcut
    obtain ⟨huser, hpassword, htext, hshown⟩ := RawAuthority.mk.inj (Except.ok.inj hcut)
    have hkeep : ∀ c ∈ ([] : List Char), Percent.isLiteral c = true := by simp
    have hsome := u.shownPort_or_schemePort
    rw [← hshown, hport, shownPort_or_schemePort] at hsome
    exact ⟨(Percent.encode_inj hkeep huser).symm, (Percent.encode_inj hkeep hpassword).symm,
      htext.symm, (Option.some.inj hsome).symm⟩
  · rintro ⟨huser, hpassword, htext, hport'⟩
    refine authorityText_congr huser hpassword htext (hhost.trans hhost'.symm) (fun _ => ?_) none
    rw [portText, portText, hport, hport']

/-! ### What was read -/

/-- If authorities are written alike, both URIs have a host or neither of them has one. -/
theorem hosts_of_authorityText_eq {reg : Registry} {mode : ParseMode} {s t : Text} {u v : Uri}
    (hu : parse reg mode s = .ok u) (hv : parse reg mode t = .ok v)
    (h : u.authorityText none = v.authorityText none) :
    ((u.host = .absent ∧ u.userName = []) ∧ v.host = .absent ∧ v.userName = []) ∨
      ((∃ raw, Host.read reg mode.acceptIp raw = .ok u.host) ∧
        ∃ raw, Host.read reg mode.acceptIp raw = .ok v.host) := by
  obtain ⟨habsent, huser, _⟩ | ⟨raw, hread⟩ := host_of_parse hu
  · obtain ⟨habsent', huser', _⟩ | ⟨_, hread'⟩ := host_of_parse hv
    · exact .inl ⟨⟨habsent, huser⟩, habsent', huser'⟩
    · rw [authorityText_of_absent habsent huser none] at h
      exact absurd h.symm (authorityText_ne_nil (Host.isAbsent_of_read hread') none)
  · obtain ⟨habsent', huser', _⟩ | hread' := host_of_parse hv
    · rw [authorityText_of_absent habsent' huser' none] at h
      exact absurd h (authorityText_ne_nil (Host.isAbsent_of_read hread) none)
    · exact .inr ⟨⟨raw, hread⟩, hread'⟩

/-- URIs with the same parts, up to where the name of the host is cut into labels. -/
structure SameContents (u v : Uri) : Prop where
  scheme : u.scheme = v.scheme
  userName : u.userName = v.userName
  password : u.password = v.password
  port : u.port = v.port
  fullDomain : u.host.fullDomain = v.host.fullDomain
  path : u.path = v.path
  query : u.query = v.query
  anchor : u.anchor = v.anchor

/-- Equal URIs that were read have the same parts and the same name of the host. Their hosts are
equal exactly when the name is cut at the same dots, and they are equal when each of them is the one
that is read from its text. -/
theorem sameContents_of_same {reg : Registry} {mode : ParseMode} {s t : Text} {u v : Uri}
    (hu : parse reg mode s = .ok u) (hv : parse reg mode t = .ok v) (h : same u v = true) :
    SameContents u v ∧
    (u.host = v.host ↔
      u.host.topLevel = v.host.topLevel ∧ u.host.labelDots = v.host.labelDots) ∧
    (Host.read reg mode.acceptIp u.host.toText = .ok u.host →
      Host.read reg mode.acceptIp v.host.toText = .ok v.host → u.host = v.host) := by
  have hregular := isRegular_of_parse hu
  have hregular' := isRegular_of_parse hv
  have htext : u.toText = v.toText := congrArg Prod.fst (of_decide_eq_true h)
  obtain ⟨hscheme, hauthority, hpath, hquery, hanchor⟩ :=
    (toText_eq_iff hregular hregular').mp htext
  have hport : u.schemePort = v.schemePort := by
    rw [hregular.schemePort, hregular'.schemePort, hscheme]
  obtain ⟨⟨habsent, huser⟩, habsent', huser'⟩ | ⟨⟨_, hread⟩, _, hread'⟩ :=
    hosts_of_authorityText_eq hu hv hauthority
  · have hpassword : u.password = v.password := by
      rw [hregular.credentials.mp huser, hregular'.credentials.mp huser']
    have hport : u.port = v.port := by
      rw [port_of_parse hu habsent, port_of_parse hv habsent', hport]
    have hhost : u.host = v.host := habsent.trans habsent'.symm
    refine ⟨⟨hscheme, huser.trans huser'.symm, hpassword, hport, by rw [hhost], hpath, hquery,
      hanchor⟩, iff_of_true hhost ?_, fun _ _ => hhost⟩
    rw [hhost]
    exact ⟨rfl, rfl⟩
  · obtain ⟨huser, hpassword, hhostText, hport⟩ := (authorityText_eq_iff hregular.credentials
      hregular'.credentials (Host.isAbsent_of_read hread) (Host.isAbsent_of_read hread')
      hport).mp hauthority
    have hname := Host.fullDomain_eq_of_toText_eq hhostText
    refine ⟨⟨hscheme, huser, hpassword, hport, hname, hpath, hquery, hanchor⟩,
      Host.eq_iff_of_fullDomain_eq hread hread' hname, fun hagain hagain' => ?_⟩
    rw [hhostText, hagain'] at hagain
    exact (Except.ok.inj hagain).symm

/-- A named port, slashes and the order of the parameters make no difference. -/
theorem sameContents_of_same_reordered :
    let s := "http://me:pw@a.b.com:80//x/?k=v&flag#end".toList
    let t := "http://me:pw@a.b.com/./x?flag&k=v#end".toList
    let u : Uri :=
      { input := s
        userName := "me".toList
        password := "pw".toList
        host := .name ["a".toList] "b".toList ".com".toList
        path := ["x".toList]
        query := (Dict.empty.insert "flag".toList []).insert "k".toList "v".toList
        anchor := "end".toList }
    let v : Uri := { u with input := t }
    let mode : ParseMode := {}
    (parse Registry.standard mode s = .ok u ∧ parse Registry.standard mode t = .ok v ∧
      same u v = true) ∧
    SameContents u v ∧
    (u.host = v.host ↔
      u.host.topLevel = v.host.topLevel ∧ u.host.labelDots = v.host.labelDots) ∧
    (Host.read Registry.standard mode.acceptIp u.host.toText = .ok u.host →
      Host.read Registry.standard mode.acceptIp v.host.toText = .ok v.host →
        u.host = v.host) := by
  intro s t u v mode
  have hu : parse Registry.standard mode s = .ok u := by decide +kernel
  have hv : parse Registry.standard mode t = .ok v := by decide +kernel
  have h : same u v = true := by decide +kernel
  exact ⟨⟨hu, hv, h⟩, sameContents_of_same hu hv h⟩

/-- An escaped dot is part of its label, and is written as the dot between two labels is. -/
theorem same_escapedDot :
    ∃ u v, parse Registry.standard {} "http://a%2Eb.com/".toList = .ok u ∧
      parse Registry.standard {} "http://a.b.com/".toList = .ok v ∧ same u v = true ∧
      u.host.subDomains ≠ v.host.subDomains := by
  refine ⟨{ input := "http://a%2Eb.com/".toList, host := .name [] "a.b".toList ".com".toList },
    { input := "http://a.b.com/".toList
      host := .name ["a".toList] "b".toList ".com".toList }, ?_, ?_, ?_, ?_⟩
  · decide +kernel
  · decide +kernel
  · decide +kernel
  · decide

end Uri

end CanonicalUri
