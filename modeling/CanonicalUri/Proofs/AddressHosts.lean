import CanonicalUri.Proofs.RoundTrip

/-!
# Addresses as hosts

What becomes of a host that is given as an IP address, in a registry of public suffixes that are no
endings of addresses.

* `Host.isIp_read_iff`: the texts that are read as IP addresses are those that denote one.
* `Uri.exists_parse_server`: a host that is read from its own text is found again behind `http://`
  and in front of any port, since the colons in it stand between brackets.
* `Host.read_normalized` puts these together with the normal form of addresses: the text that an
  address is kept as is its normal form, is read as it stands, and is the same for all texts that
  denote the address.
-/

namespace CanonicalUri

open Ip

namespace Host

theorem isIp_ip (a : Address) : (ip a).isIp = true :=
  decide_eq_true ⟨rfl, a.toHost_ne_nil⟩

/-- Where addresses are allowed, what is read from a text is an IP address exactly when the text
denotes one, and then it is that address. -/
theorem isIp_read_iff {reg : Registry} (hreg : reg.IsSuffixList) {raw : Text} {h : Host} :
    read reg true raw = .ok h ∧ h.isIp = true ↔ ∃ a, h = .ip a ∧ Address.Denotes raw a := by
  constructor
  · rintro ⟨hread, hip⟩
    obtain ⟨a, rfl⟩ | ⟨_, _, top, rfl, _, htop⟩ := cases_of_read hread
    · exact ⟨a, rfl, (read_eq_ip_iff hreg).mp hread⟩
    · exact absurd (of_decide_eq_true hip).1 htop
  · rintro ⟨a, rfl, ha⟩
    exact ⟨(read_eq_ip_iff hreg).mpr ha, isIp_ip a⟩

end Host

/-- A host that is read from its own text is read behind `http://`, and a port behind it. -/
theorem Uri.exists_parse_server {reg : Registry} {mode : ParseMode} {h : Host}
    (hread : Host.read reg mode.acceptIp h.toText = .ok h) (port : UInt16) :
    ∃ u, parse reg mode ("http://".toList ++ h.toText ++ ':' :: Decimal.write port.toNat ++ ['/'])
      = .ok u ∧ u.host = h ∧ u.port = port := by
  have hport := RawAuthority.portForm_write port
  have hout : ∀ {sep : Char}, sep.isDigit = false → sep ≠ ':' →
      Percent.isEscaped [':', '[', ']'] sep = true →
      sep ∉ h.toText ++ ':' :: Decimal.write port.toNat := by
    intro sep hdigit hcolon hsep hmem
    rw [List.mem_append, List.mem_cons] at hmem
    obtain hmem | hmem | hmem := hmem
    · exact h.not_mem_toText hsep hmem
    · exact hcolon hmem
    · rw [hport.isDigit sep hmem] at hdigit
      cases hdigit
  have hauthority : Authority.Form reg mode.acceptIp (h.toText ++ ':' :: Decimal.write port.toNat)
      ⟨[], [], h, some port⟩ :=
    .intro (.anonymous (hout (by decide) (by decide) (by decide)))
      (.port h.colonsInside_toText hport) (Host.toText_ne_nil (Host.isAbsent_of_read hread))
      Percent.decode_nil Percent.decode_nil Iff.rfl hread
  have htail : TailForm ['/'] ([], [], []) :=
    .slash ⟨List.not_mem_nil, List.not_mem_nil⟩ .absent List.not_mem_nil .absent
  have hparsed := Parsed.ofText_of_form (.intro
    (show "http".toList ≠ [] ∧ ':' ∉ "http".toList by decide)
    (.present (hout (by decide) (by decide) (by decide)) hauthority) htail
    (Path.read_eq_ok_iff.mp Path.read_nil) (Query.read_eq_ok_iff.mp rfl)
    (Fragment.form_iff.mpr ⟨rfl, rfl⟩))
  have htext : "http".toList ++ "://".toList ++ (h.toText ++ ':' :: Decimal.write port.toNat)
      ++ ['/'] = "http://".toList ++ h.toText ++ ':' :: Decimal.write port.toNat ++ ['/'] := by
    simp
  rw [htext] at hparsed
  exact ⟨_, parse_eq_ok_iff.mpr ⟨_, hparsed, rfl⟩, rfl, rfl⟩

namespace Host

/-- A text is read as an IP address exactly when it denotes one, and the domain that is kept for it
is the normal form of that address: it is read as the same host again, it is without brackets
exactly for an IPv4 address, and other texts that are read as IP addresses have it in common exactly
when they denote the same address. With any port behind it, it is the host of a URI from which the
same host and that port are read. -/
theorem read_normalized {reg : Registry} (hreg : reg.IsSuffixList) (raw : Text) :
    ((∃ h, read reg true raw = .ok h ∧ h.isIp = true) ↔ ∃ a, Address.Denotes raw a) ∧
    ∀ h, read reg true raw = .ok h → h.isIp = true →
      (∃ a, Address.Denotes raw a ∧ a.Spelling h.domain) ∧
      read reg true h.domain = .ok h ∧
      ('[' ∉ h.domain ↔ ∃ ip, Address.Denotes raw (.v4 ip)) ∧
      (∀ raw' h', read reg true raw' = .ok h' → h'.isIp = true →
        (h'.domain = h.domain ↔ ∃ a, Address.Denotes raw a ∧ Address.Denotes raw' a)) ∧
      ∀ (acceptPath : Bool) (port : UInt16), ∃ u, Uri.parse reg ⟨acceptPath, true⟩
        ("http://".toList ++ h.domain ++ ':' :: Decimal.write port.toNat ++ ['/']) = .ok u ∧
          u.host = h ∧ u.port = port := by
  refine ⟨?_, fun h hread hip => ?_⟩
  · simp only [isIp_read_iff hreg]
    rw [exists_comm]
    simp only [exists_eq_left]
  obtain ⟨a, rfl, ha⟩ := (isIp_read_iff hreg).mp ⟨hread, hip⟩
  have hagain : read reg true a.toHost = .ok (.ip a) := read_toHost hreg a
  refine ⟨⟨a, ha, a.spelling_toHost⟩, hagain, ?_, fun raw' h' hread' hip' => ?_,
    fun acceptPath port => @Uri.exists_parse_server reg ⟨acceptPath, true⟩ (.ip a) hagain port⟩
  · rw [domain, Address.open_mem_toHost_iff, Bool.not_eq_false]
    constructor
    · intro hv4
      obtain ip | ip := a
      · exact ⟨ip, ha⟩
      · cases hv4
    · rintro ⟨ip, hip⟩
      rw [ha.unique hip]
      rfl
  · obtain ⟨a', rfl, ha'⟩ := (isIp_read_iff hreg).mp ⟨hread', hip'⟩
    constructor
    · intro hdomain
      exact ⟨a, ha, Address.toHost_inj hdomain ▸ ha'⟩
    · rintro ⟨b, hb, hb'⟩
      rw [ha.unique hb, ha'.unique hb']

/-- Two runs of two zeros each: whichever of them is left out of a text, in part or in full, and
whether the end is given as an IPv4 address, the first one is left out of the domain. -/
theorem read_normalized_tiedRuns :
    let raw := "1:0:0:2::3:4".toList
    let other := "[01:0::0002:0:0:0.3.0.4]".toList
    ∃ h h', read .standard true raw = .ok h ∧ h.domain = "[1::2:0:0:3:4]".toList ∧
      read .standard true h.domain = .ok h ∧ read .standard true other = .ok h' ∧
      h'.domain = h.domain ∧ ∃ u, Uri.parse .standard ⟨false, true⟩
        ("http://".toList ++ h.domain ++ ":80/".toList) = .ok u ∧ u.host = h ∧ u.port = 80 := by
  intro raw other
  have hreg : Registry.standard.IsSuffixList := Registry.isSuffixList_withServices none
  let ip : V6 := ⟨[1, 0, 0, 2, 0, 0, 3, 4], rfl⟩
  have ha : Address.Denotes raw (.v6 ip) := Address.ofHost?_eq_some_iff.mp (by decide +kernel)
  have ha' : Address.Denotes other (.v6 ip) := Address.ofHost?_eq_some_iff.mp (by decide +kernel)
  have hread := (read_eq_ip_iff hreg).mpr ha
  have hread' := (read_eq_ip_iff hreg).mpr ha'
  obtain ⟨_, hagain, _, hcommon, hserver⟩ := (read_normalized hreg raw).2 _ hread (isIp_ip _)
  exact ⟨_, _, hread, by decide +kernel, hagain, hread',
    (hcommon other _ hread' (isIp_ip _)).mpr ⟨_, ha, ha'⟩, hserver false 80⟩

end Host

end CanonicalUri
