import CanonicalUri.Proofs.RoundTrip
import CanonicalUri.Uri.Order

/-!
# Hash-bang paths

The canonical text of a URI leaves its hash-bang path out. In hash-bang mode the path is written
behind `#!`, one segment after the other, whereas it is read leniently and as a whole before it is
split.

* `Fragment.Form.mem`: whatever a hash-bang path is read from, its segments are not empty, are no
  dots and hold no slash, and there is no anchor beside it.
* `Uri.parse_write_hashBang`: so a URI that was read with a hash-bang path can be written with it,
  and is read back from that text, as long as its host is.
-/

namespace CanonicalUri

/-! ### The path that was read -/

/-- A path that is split after it was decoded has no slash in its segments, and nothing is left to
leave out in it. -/
theorem Path.Resolves.mem_of_pieces {t : Text} {p : Path} (h : Resolves (Text.pieces '/' t) p)
    {s : Text} (hs : s ∈ p) : (s ≠ [] ∧ s ≠ here ∧ s ≠ parent) ∧ '/' ∉ s := by
  obtain ⟨hmem, hordinary⟩ := h.mem hs
  exact ⟨⟨Text.ne_nil_of_mem_pieces hmem, hordinary⟩,
    Text.not_mem_of_mem_splitOn (List.mem_filter.mp hmem).1⟩

theorem Path.mem_of_resolve_segments {t : Text} {p : Path} (h : resolve (segments t) = .ok p)
    {s : Text} (hs : s ∈ p) : (s ≠ [] ∧ s ≠ here ∧ s ≠ parent) ∧ '/' ∉ s := by
  rw [segments, resolve_filter_here, resolve_eq_ok_iff] at h
  exact h.mem_of_pieces hs

theorem Fragment.Form.mem {t a : Text} {p : Path} (h : Form t a p) {s : Text} (hs : s ∈ p) :
    (s ≠ [] ∧ s ≠ Path.here ∧ s ≠ Path.parent) ∧ '/' ∉ s := by
  obtain _ | ⟨_, hp⟩ | _ := h
  · cases hs
  · exact hp.mem_of_pieces hs
  · cases hs

/-- A fragment is an anchor or a hash-bang path. -/
theorem Fragment.Form.anchor_eq_nil {t a : Text} {p : Path} (h : Form t a p) (hp : p ≠ []) :
    a = [] := by
  obtain _ | _ | _ := h
  · exact absurd rfl hp
  · rfl
  · rfl

theorem Path.encode_eq_nil_iff {p : Path} (h : [] ∉ p) : p.encode = [] ↔ p = [] := by
  have hnil : [] ∉ p.map (Percent.encode ['~']) := by
    intro hmem
    obtain ⟨s, hs, hencode⟩ := List.mem_map.mp hmem
    exact h (Percent.encode_eq_nil_iff.mp hencode ▸ hs)
  rw [encode, Text.join_eq_nil_iff hnil, List.map_eq_nil_iff]

namespace Uri

/-- Anchor and hash-bang path come from one fragment. -/
theorem exists_fragment_of_parse {reg : Registry} {mode : ParseMode} {t : Text} {u : Uri}
    (h : parse reg mode t = .ok u) :
    ∃ fragment, Fragment.Form fragment u.anchor u.hashBangPath := by
  obtain ⟨p, hp, rfl⟩ := parse_eq_ok_iff.mp h
  obtain ⟨_, _, _, _, _, hfragment⟩ := Parsed.form_of_ofText hp
  exact ⟨_, hfragment⟩

/-! ### Writing it and reading it again -/

/-- In hash-bang mode the fragment is the path that is written there. -/
theorem form_fragment_hashBang {u : Uri}
    (h : ∀ s ∈ u.backPath, (s ≠ [] ∧ s ≠ Path.here ∧ s ≠ Path.parent) ∧ '/' ∉ s) :
    Fragment.Form ((u.fragment? .hashBang).getD []) [] u.backPath := by
  have hnil : [] ∉ u.backPath := fun hmem => (h [] hmem).1.1 rfl
  rw [fragment?]
  split_ifs with hempty
  · rw [(Path.encode_eq_nil_iff hnil).mp hempty]
    exact Fragment.form_encode (a := []) (by simp)
  · exact Fragment.form_hashBang (fun s hs => (h s hs).1) fun s hs => (h s hs).2

/-- The URI that is read from the text in hash-bang mode: its main path stands in front of the query
or behind `#!`. -/
def readBackHashBang (u : Uri) : Uri :=
  { u.readBack with
    input := (u.raw .hashBang none).toText
    path := u.frontPath .hashBang
    hashBangPath := u.backPath
    anchor := [] }

/-- The text in hash-bang mode is read back up to what its fragment is read as. -/
theorem parse_raw_of_form_fragment {reg : Registry} {mode : ParseMode} {u : Uri}
    (hu : u.IsRegular reg) {p : Path}
    (hfragment : Fragment.Form ((u.fragment? .hashBang).getD []) [] p)
    (hhost : (u.host = .absent ∧ u.userName = [] ∧ mode.acceptPath = true) ∨
      Host.read reg mode.acceptIp u.host.toText = .ok u.host) :
    parse reg mode (u.raw .hashBang none).toText
      = .ok { u.readBackHashBang with hashBangPath := p } := by
  rw [parse_eq_ok_iff]
  obtain ⟨habsent, huser, hmode⟩ | hread := hhost
  · refine ⟨_, ofText_raw_of_absent hu habsent huser hmode hfragment, ?_⟩
    have hpassword := hu.credentials.mp huser
    simp [update, rereadAs, reread, readBackHashBang, readBack, habsent, huser, hpassword,
      Authority.absent, Host.isAbsent, Host.domain]
  · have hpresent := Host.isAbsent_of_read hread
    refine ⟨_, (ofText_raw_iff hu hpresent hfragment).mpr ⟨u.host, hread, rfl⟩, ?_⟩
    simp [update, rereadAs, reread, readBackHashBang, readBack, hpresent, shownPort_or_schemePort]

theorem parse_raw_hashBang {reg : Registry} {mode : ParseMode} {u : Uri} (hu : u.IsRegular reg)
    (hback : ∀ s ∈ u.backPath, (s ≠ [] ∧ s ≠ Path.here ∧ s ≠ Path.parent) ∧ '/' ∉ s)
    (hhost : (u.host = .absent ∧ u.userName = [] ∧ mode.acceptPath = true) ∨
      Host.read reg mode.acceptIp u.host.toText = .ok u.host) :
    parse reg mode (u.raw .hashBang none).toText = .ok u.readBackHashBang :=
  parse_raw_of_form_fragment hu (form_fragment_hashBang hback) hhost

/-- Where no host was read there are no credentials either, and the mode allows it. -/
theorem absent_or_read_of_parse {reg : Registry} {mode : ParseMode} {t : Text} {u : Uri}
    (h : parse reg mode t = .ok u)
    (hhost : u.host = .absent ∨ Host.read reg mode.acceptIp u.host.toText = .ok u.host) :
    (u.host = .absent ∧ u.userName = [] ∧ mode.acceptPath = true) ∨
      Host.read reg mode.acceptIp u.host.toText = .ok u.host := by
  refine hhost.imp_left fun habsent => (host_of_parse h).resolve_right ?_
  rintro ⟨raw, hread⟩
  exact Host.ne_absent_of_read hread habsent

theorem write_hashBang {u : Uri} (hanchor : u.anchor = []) :
    u.write .hashBang none = .ok (u.raw .hashBang none).toText :=
  if_neg (by simp [hanchor])

/-- A hash-bang path leaves the main path in its place. -/
theorem frontPath_eq_path {u : Uri} (hbang : u.hashBangPath ≠ []) (kind : FragmentMode) :
    u.frontPath kind = u.path :=
  if_neg (by simp [movesPath, hbang])

/-- Nothing that is written of a URI with a hash-bang path is lost. -/
theorem raw_readBackHashBang {u : Uri} (hbang : u.hashBangPath ≠ []) (hanchor : u.anchor = [])
    (kind : FragmentMode) : u.readBackHashBang.raw kind none = u.raw kind none := by
  have hback : u.backPath = u.hashBangPath := if_neg hbang
  have hbang' : u.readBackHashBang.hashBangPath ≠ [] := by
    rw [readBackHashBang, hback]
    exact hbang
  have hfront : u.readBackHashBang.frontPath kind = u.frontPath kind := by
    rw [frontPath_eq_path hbang', frontPath_eq_path hbang, readBackHashBang,
      frontPath_eq_path hbang]
  have hauthority : u.readBackHashBang.authorityText none = u.authorityText none := by
    refine authorityText_congr ?_ ?_ ?_ ?_ ?_ none
    · rfl
    · rfl
    · rfl
    · rfl
    · exact portText_readBack
  have hfragment : u.readBackHashBang.fragment? kind = u.fragment? kind := by
    obtain _ | _ := kind
    · simp [fragment?, readBackHashBang, hanchor]
    · simp [fragment?, readBackHashBang, backPath, hbang]
  simp only [raw, hfront, hauthority, hfragment]
  rfl

/-- A URI that was read with a hash-bang path is written with it, and is read back from that text
with the same paths and parameters and the same text, when its host is the one that is read from the
text of the host or there is none. -/
theorem parse_write_hashBang {reg : Registry} {mode : ParseMode} {s : Text} {u : Uri}
    (h : parse reg mode s = .ok u) (hbang : u.hashBangPath ≠ [])
    (hhost : u.host = .absent ∨ Host.read reg mode.acceptIp u.host.toText = .ok u.host) :
    ∃ t v, u.write .hashBang none = .ok t ∧ parse reg mode t = .ok v ∧ same u v = true ∧
      v.path = u.path ∧ v.query = u.query ∧ v.hashBangPath = u.hashBangPath ∧
      v.write .hashBang none = .ok t := by
  obtain ⟨_, hfragment⟩ := exists_fragment_of_parse h
  have hanchor : u.anchor = [] := hfragment.anchor_eq_nil hbang
  have hback : u.backPath = u.hashBangPath := if_neg hbang
  have hraw := raw_readBackHashBang hbang hanchor
  have hparse := parse_raw_hashBang (isRegular_of_parse h)
    (by rw [hback]; exact fun s => hfragment.mem) (absent_or_read_of_parse h hhost)
  have hkey : u.key = u.readBackHashBang.key :=
    Prod.ext (congrArg RawUri.toText (hraw .anchor)).symm hback.symm
  refine ⟨_, _, write_hashBang hanchor, hparse, decide_eq_true hkey, frontPath_eq_path hbang _, rfl,
    hback, ?_⟩
  rw [← hraw]
  exact write_hashBang rfl

/-- A stray percent sign and a byte that is no UTF-8 are written as what they were read as. -/
theorem parse_write_hashBang_stray :
    let s := "http://a.com/x?k=v#!/100%//a+b/../%FF".toList
    let u : Uri :=
      { input := s
        host := .name [] "a".toList ".com".toList
        path := ["x".toList]
        hashBangPath := ["100%".toList, [Char.ofNat 0xFFFD]]
        query := Dict.empty.insert "k".toList "v".toList }
    parse Registry.standard {} s = .ok u ∧
      ∃ t v, u.write .hashBang none = .ok t ∧ parse Registry.standard {} t = .ok v ∧
        same u v = true ∧ v.path = u.path ∧ v.query = u.query ∧
        v.hashBangPath = u.hashBangPath ∧ v.write .hashBang none = .ok t := by
  intro s u
  have h : parse Registry.standard {} s = .ok u := by decide +kernel
  exact ⟨h, parse_write_hashBang h (by decide) (.inr (by decide +kernel))⟩

end Uri

end CanonicalUri
