import CanonicalUri.Host
import CanonicalUri.Proofs.AddressText
import CanonicalUri.Proofs.Escapes

/-!
# Hosts and their texts

How a host is read from a text, and how the text of a host reads.

* `readName_eq_ok_iff` and `read_eq_ok_iff` say when a host is read and which one: the labels before
  the suffix are the sub-domains and the domain, one by one, and none of them is empty.
* `decode_of_readName`: the whole name is the decoded text, whatever the place of the suffix.
* So what a written name is read as has that text again (`toText_of_read_encode`), if the name is
  read at all. That is decided by the look-up in the *written* name alone, since all its labels can
  be decoded: `exists_read_encode_iff`.
* `cases_of_read` and `toText_cases`: the kinds of hosts, and the characters of their texts.
-/

namespace CanonicalUri

namespace Host

/-! ### The place of the suffix -/

/-- A top-level domain begins with a dot, and there is text in front of it. -/
theorem eq_dot_cons_of_cutSuffix {raw suffix before topLevel : Text}
    (h : cutSuffix raw suffix = some (before, topLevel)) :
    before ≠ [] ∧ ∃ rest, topLevel = '.' :: rest := by
  simp only [cutSuffix] at h
  split at h
  · rename_i hn
    obtain ⟨hlt, hget⟩ := List.getElem?_eq_some_iff.mp hn.2
    cases h
    refine ⟨fun hnil => ?_, _, by rw [List.drop_eq_getElem_cons hlt, hget]⟩
    rw [List.take_eq_nil_iff] at hnil
    obtain hnil | hnil := hnil
    · omega
    · rw [hnil] at hlt
      cases hlt
  · cases h

theorem of_topLevel? {reg : Registry} {raw before topLevel : Text}
    (h : topLevel? reg raw = some (before, topLevel)) :
    before ++ topLevel = raw ∧ before ≠ [] ∧ ∃ rest, topLevel = '.' :: rest := by
  rw [topLevel?] at h
  split at h
  · cases h
  · obtain ⟨suffix, _, hcut⟩ := Option.bind_eq_some_iff.mp h
    exact ⟨append_of_cutSuffix hcut, eq_dot_cons_of_cutSuffix hcut⟩

/-! ### Reading -/

@[simp] theorem readPart_eq_ok_iff {t s : Text} :
    readPart t = .ok s ↔ Percent.decode t = .ok s := by
  rw [readPart, mapError_eq_ok_iff]

/-- A label is empty before it is decoded exactly when it is so afterwards. -/
theorem readSubDomain_eq_ok_iff {raw label t : Text} :
    readSubDomain raw label = .ok t ↔ label ≠ [] ∧ Percent.decode label = .ok t := by
  rw [readSubDomain]
  simp only [bind_eq_ok_iff, readPart_eq_ok_iff]
  constructor
  · rintro ⟨s, hs, h⟩
    split at h
    · simp at h
    · rename_i hne
      cases pure_eq_ok_iff.mp h
      exact ⟨mt (Percent.eq_nil_iff_of_decode hs).mpr hne, hs⟩
  · rintro ⟨hne, h⟩
    have ht : t ≠ [] := mt (Percent.eq_nil_iff_of_decode h).mp hne
    exact ⟨t, h, by simp [ht]⟩

/-- A name is read exactly when all its labels and the suffix can be decoded and no label is
empty; the labels are then the sub-domains and the domain, one by one. -/
theorem readName_eq_ok_iff {raw before topLevel : Text} {h : Host} :
    readName raw before topLevel = .ok h ↔
      ∃ subDomains domain top, h = .name subDomains domain top ∧ [] ∉ before.splitOn '.' ∧
        List.Forall₂ (fun l t => Percent.decode l = .ok t) (before.splitOn '.')
          (subDomains ++ [domain]) ∧
        Percent.decode topLevel = .ok top := by
  -- the last label is the domain, all others are sub-domains
  obtain ⟨labels, label, hlabels⟩ : ∃ labels label, before.splitOn '.' = labels ++ [label] :=
    ⟨_, _, (List.dropLast_append_getLast (List.splitOn_ne_nil '.' before)).symm⟩
  have hsub : ∀ subDomains, labels.mapM (readSubDomain raw) = .ok subDomains ↔
      [] ∉ labels ∧ List.Forall₂ (fun l t => Percent.decode l = .ok t) labels subDomains := by
    intro subDomains
    rw [mapM_eq_ok_iff]
    simp only [readSubDomain_eq_ok_iff]
    rw [List.forall₂_and_left, ← List.forall_mem_ne']
  rw [readName, hlabels]
  simp only [List.getLastD_concat, List.dropLast_concat, List.mem_append, List.mem_singleton,
    not_or]
  refine ⟨fun hread => ?_, ?_⟩
  · split at hread
    · simp at hread
    · rename_i hne
      simp only [bind_eq_ok_iff, readPart_eq_ok_iff, pure_eq_ok_iff, hsub] at hread
      obtain ⟨subDomains, ⟨hlabels, hdecode⟩, domain, hdomain, top, htop, rfl⟩ := hread
      exact ⟨subDomains, domain, top, rfl, ⟨hlabels, Ne.symm hne⟩,
        forall₂_append_singleton_iff.mpr ⟨hdecode, hdomain⟩, htop⟩
  · rintro ⟨subDomains, domain, top, rfl, ⟨hlabels, hne⟩, hdecode, htop⟩
    obtain ⟨hdecode, hdomain⟩ := forall₂_append_singleton_iff.mp hdecode
    rw [if_neg (Ne.symm hne)]
    simp only [bind_eq_ok_iff, readPart_eq_ok_iff, pure_eq_ok_iff, hsub]
    exact ⟨subDomains, ⟨hlabels, hdecode⟩, domain, hdomain, top, htop, rfl⟩

/-- A host is a domain name under the suffix that is found, or else an address where addresses
are allowed. -/
theorem read_eq_ok_iff {reg : Registry} {acceptIp : Bool} {raw : Text} {h : Host} :
    read reg acceptIp raw = .ok h ↔
      (∃ before topLevel, topLevel? reg raw = some (before, topLevel) ∧
        readName raw before topLevel = .ok h) ∨
      (topLevel? reg raw = none ∧ acceptIp = true ∧
        ∃ address, Ip.Address.ofHost? raw = some address ∧ h = .ip address) := by
  rw [read]
  rcases htop : topLevel? reg raw with _ | ⟨before, topLevel⟩
  · cases acceptIp with
    | false => simp
    | true =>
      rcases haddress : Ip.Address.ofHost? raw with _ | address
      · simp
      · simp [eq_comm]
  · simp

/-! ### The whole name -/

/-- The labels with dots between them, and the top-level domain with its own dot. -/
theorem fullDomain_name {subDomains : List Text} (h : [] ∉ subDomains) (domain top : Text) :
    (name subDomains domain top).fullDomain = Text.join '.' (subDomains ++ [domain]) ++ top := by
  rw [fullDomain]
  simp only [subDomainsText, Host.subDomains, Host.domain, topLevel, Text.join_eq_nil_iff h]
  by_cases hnil : subDomains = []
  · simp [hnil]
  · rw [if_neg hnil, Text.join_append_singleton hnil]
    simp

theorem fullDomain_ip (a : Ip.Address) : (ip a).fullDomain = a.toHost := by
  simp [fullDomain, subDomainsText, Host.subDomains, Host.domain, topLevel]

/-- The whole name is what the text in front of the suffix and the suffix stand for together. -/
theorem decode_of_readName {raw before topLevel : Text} {h : Host}
    (hread : readName raw before topLevel = .ok h) :
    Percent.decode (before ++ topLevel) = .ok h.fullDomain := by
  obtain ⟨subDomains, domain, top, rfl, hne, hlabels, htop⟩ := readName_eq_ok_iff.mp hread
  have hsub : [] ∉ subDomains := fun hmem =>
    hne ((Percent.nil_mem_iff_of_decode hlabels).mp (List.mem_append_left _ hmem))
  rw [fullDomain_name hsub]
  refine Percent.decode_append ?_ htop
  have hjoin := Percent.decode_join (show Percent.isLiteral '.' = true by decide) hlabels
  rwa [Text.join, List.intercalate_splitOn] at hjoin

/-- A host that was read is an address, or a name without empty sub-domains under a top-level
domain. -/
theorem cases_of_read {reg : Registry} {acceptIp : Bool} {raw : Text} {h : Host}
    (hread : read reg acceptIp raw = .ok h) :
    (∃ a, h = .ip a) ∨ ∃ subDomains domain top, h = .name subDomains domain top ∧
      [] ∉ subDomains ∧ top ≠ [] := by
  obtain ⟨before, topLevel, htop, hname⟩ | ⟨_, _, a, _, rfl⟩ := read_eq_ok_iff.mp hread
  · obtain ⟨subDomains, domain, top, rfl, hne, hlabels, hdecode⟩ := readName_eq_ok_iff.mp hname
    obtain ⟨_, _, rest, rfl⟩ := of_topLevel? htop
    refine .inr ⟨_, _, _, rfl, fun hmem => ?_, fun hnil => ?_⟩
    · exact hne ((Percent.nil_mem_iff_of_decode hlabels).mp (List.mem_append_left _ hmem))
    · cases (Percent.eq_nil_iff_of_decode hdecode).mp hnil
  · exact .inl ⟨a, rfl⟩

/-- Square brackets stand around an address as a whole, and nowhere else in a host. -/
theorem brackets_of_read {reg : Registry} {acceptIp : Bool} {raw : Text} {h : Host}
    (hread : read reg acceptIp raw = .ok h) :
    '[' ∉ raw ∨ ∃ t, raw = '[' :: t ++ [']'] ∧ '[' ∉ t := by
  obtain ⟨before, topLevel, htop, hname⟩ | ⟨_, _, a, ha, _⟩ := read_eq_ok_iff.mp hread
  · have hdecode := decode_of_readName hname
    rw [(of_topLevel? htop).1] at hdecode
    refine .inl fun hmem => ?_
    rcases Percent.isLiteral_of_mem hdecode hmem with h | h | h <;> exact absurd h (by decide)
  · exact (Ip.Address.ofHost?_eq_some_iff.mp ha).brackets

/-! ### Written names -/

theorem toText_of_readName {raw before topLevel : Text} {h : Host}
    (hread : readName raw before topLevel = .ok h) : h.toText = Percent.encode [] h.fullDomain := by
  obtain ⟨subDomains, domain, top, rfl, _⟩ := readName_eq_ok_iff.mp hread
  rfl

private theorem ofHost?_encode (t : Text) :
    Ip.Address.ofHost? (Percent.encode [] t) = (Ip.V4.parse? (Percent.encode [] t)).map .v4 :=
  Ip.Address.ofHost?_of_not_mem (Percent.not_mem_encode (by decide) t)
    (Percent.not_mem_encode (by decide) t)

/-- Whatever a written name is read as, it has that text again. -/
theorem toText_of_read_encode {reg : Registry} {acceptIp : Bool} {t : Text} {h : Host}
    (hread : read reg acceptIp (Percent.encode [] t) = .ok h) :
    h.toText = Percent.encode [] t := by
  obtain ⟨before, topLevel, htop, hname⟩ | ⟨_, _, address, ha, rfl⟩ := read_eq_ok_iff.mp hread
  · -- decoding the written name gives the name back, and it gives the whole name that was read
    have hdecode := decode_of_readName hname
    rw [(of_topLevel? htop).1, Percent.decode_encode (by simp)] at hdecode
    rw [toText_of_readName hname, ← Except.ok.inj hdecode]
  · rw [ofHost?_encode, Option.map_eq_some_iff] at ha
    obtain ⟨ip, hip, rfl⟩ := ha
    exact Ip.V4.toText_of_parse? hip

/-- Whether a text is a domain name with no empty label in front of its public suffix or, without
a suffix and where addresses are allowed, an IPv4 address. -/
def IsRecognized (reg : Registry) (acceptIp : Bool) (text : Text) : Prop :=
  match topLevel? reg text with
  | some (before, _) => [] ∉ before.splitOn '.'
  | none => acceptIp = true ∧ ∃ ip, Ip.V4.parse? text = some ip

/-- The labels of a written name can be decoded, on both sides of the dot of a suffix. -/
private theorem decode_of_append_eq_encode {before rest t : Text}
    (h : before ++ '.' :: rest = Percent.encode [] t) :
    (∃ labels, List.Forall₂ (fun l s => Percent.decode l = .ok s) (before.splitOn '.') labels) ∧
      ∃ s, Percent.decode rest = .ok s := by
  have hkeep : ∀ c ∈ ([] : List Char), Percent.isLiteral c = true := by simp
  have hlabels : ∀ ls : List Text,
      List.Forall₂ (fun l s => Percent.decode l = .ok s) (ls.map (Percent.encode [])) ls := by
    intro ls
    rw [List.forall₂_map_left_iff, List.forall₂_same]
    exact fun l _ => Percent.decode_encode hkeep l
  have hsplit := Percent.splitOn_encode [] t
  rw [← h, List.splitOn_append_cons_self] at hsplit
  obtain ⟨front, back, _, hfront, hback⟩ := List.map_eq_append_iff.mp hsplit.symm
  refine ⟨⟨front, hfront ▸ hlabels front⟩, Text.join '.' back, ?_⟩
  have hjoin := Percent.decode_join (show Percent.isLiteral '.' = true by decide) (hlabels back)
  rwa [hback, Text.join, List.intercalate_splitOn] at hjoin

/-- A written name is read exactly when it is recognized: all its labels can be decoded, so the
look-up alone decides. -/
theorem exists_read_encode_iff {reg : Registry} {acceptIp : Bool} {t : Text} :
    (∃ h, read reg acceptIp (Percent.encode [] t) = .ok h) ↔
      IsRecognized reg acceptIp (Percent.encode [] t) := by
  simp only [read_eq_ok_iff, IsRecognized]
  rcases htop : topLevel? reg (Percent.encode [] t) with _ | ⟨before, topLevel⟩
  · simp only [ofHost?_encode, Option.map_eq_some_iff]
    constructor
    · rintro ⟨h, ⟨_, _, hsome, _⟩ | ⟨_, hip, address, ⟨ip, hparse, _⟩, _⟩⟩
      · cases hsome
      · exact ⟨hip, ip, hparse⟩
    · rintro ⟨hip, ip, hparse⟩
      exact ⟨_, .inr ⟨trivial, hip, _, ⟨ip, hparse, rfl⟩, rfl⟩⟩
  · constructor
    · rintro ⟨h, ⟨_, _, hsome, hname⟩ | ⟨hnone, _⟩⟩
      · cases hsome
        obtain ⟨_, _, _, _, hne, _⟩ := readName_eq_ok_iff.mp hname
        exact hne
      · cases hnone
    · intro hne
      obtain ⟨happend, _, rest, rfl⟩ := of_topLevel? htop
      obtain ⟨⟨labels, hlabels⟩, top, hrest⟩ := decode_of_append_eq_encode happend
      have hlabels_ne : labels ≠ [] := by
        rintro rfl
        exact List.splitOn_ne_nil _ _ (List.forall₂_nil_right_iff.mp hlabels)
      rw [← List.dropLast_append_getLast hlabels_ne] at hlabels
      have htop := Percent.decode_cons_of_isLiteral (c := '.') (by decide) hrest
      exact ⟨_, .inl ⟨before, _, rfl,
        readName_eq_ok_iff.mpr ⟨_, _, _, rfl, hne, hlabels, htop⟩⟩⟩

/-! ### The characters of a host -/

/-- The text of an IPv6 address holds digits, colons and dots. -/
private theorem mem_v6 {ip : Ip.V6} {c : Char} (hc : c ∈ ip.toText) :
    Percent.isUnreserved c = true ∨ c = ':' := by
  have hchar := ip.denotes_toText.isAddressChar_of_mem hc
  simp only [Ip.isAddressChar, Bool.or_eq_true, beq_iff_eq] at hchar
  obtain (hchar | hchar) | rfl := hchar
  · obtain ⟨n, hn⟩ := Option.isSome_iff_exists.mp hchar
    exact .inl (Percent.isUnreserved_of_value? hn)
  · exact .inr hchar
  · exact .inl (by decide)

/-- The text of a host holds unreserved characters and percent signs only, unless it is an IPv6
address in brackets. -/
theorem toText_cases (h : Host) :
    (∀ c ∈ h.toText, Percent.isUnreserved c = true ∨ c = '%') ∨
      ∃ t, h.toText = '[' :: t ++ [']'] ∧ ∀ c ∈ t, Percent.isUnreserved c = true ∨ c = ':' := by
  obtain _ | (ip | ip) | ⟨subDomains, domain, top⟩ := h
  · exact .inl fun c hc => by cases hc
  · refine .inl fun c hc => .inl ?_
    obtain hc | rfl := Ip.V4.mem_toText hc
    · obtain ⟨n, hn⟩ := Option.isSome_iff_exists.mp (Hex.isSome_value?_of_isDigit hc)
      exact Percent.isUnreserved_of_value? hn
    · decide
  · exact .inr ⟨ip.toText, rfl, fun c hc => mem_v6 hc⟩
  · refine .inl fun c hc => ?_
    obtain hc | hc | hc := Percent.mem_encode hc
    · exact .inl hc
    · cases hc
    · exact .inr hc

/-- The text of a host holds none of the separators around it. -/
theorem not_mem_toText {sep : Char} (hsep : Percent.isEscaped [':', '[', ']'] sep = true)
    (h : Host) : sep ∉ h.toText := by
  obtain ⟨hunreserved, hbracket, hpercent⟩ := Percent.isEscaped_iff.mp hsep
  intro hmem
  obtain hchars | ⟨t, ht, hchars⟩ := toText_cases h
  · obtain h | h := hchars sep hmem
    · rw [hunreserved] at h
      cases h
    · exact hpercent h
  · rw [ht, List.cons_append, List.mem_cons, List.mem_append, List.mem_singleton] at hmem
    obtain rfl | hmem | rfl := hmem
    · exact hbracket (by simp)
    · obtain h | rfl := hchars sep hmem
      · rw [hunreserved] at h
        cases h
      · exact hbracket (by simp)
    · exact hbracket (by simp)

/-- A host that is read is a host. -/
theorem isAbsent_of_read {reg : Registry} {acceptIp : Bool} {raw : Text} {h : Host}
    (hread : read reg acceptIp raw = .ok h) : h.isAbsent = false := by
  have hdomain : h.domain ≠ [] := by
    obtain ⟨before, topLevel, _, hname⟩ | ⟨_, _, a, _, rfl⟩ := read_eq_ok_iff.mp hread
    · obtain ⟨subDomains, domain, top, rfl, hne, hlabels, _⟩ := readName_eq_ok_iff.mp hname
      rintro rfl
      exact hne ((Percent.nil_mem_iff_of_decode hlabels).mp (by simp))
    · exact a.toHost_ne_nil
  exact decide_eq_false hdomain

theorem ne_absent_of_read {reg : Registry} {acceptIp : Bool} {raw : Text} {h : Host}
    (hread : read reg acceptIp raw = .ok h) : h ≠ .absent := by
  rintro rfl
  cases isAbsent_of_read hread

/-- Where there is a host, there is a text for it. -/
theorem toText_ne_nil {h : Host} (hne : h.isAbsent = false) : h.toText ≠ [] := by
  have hdomain : h.domain ≠ [] := of_decide_eq_false hne
  obtain _ | a | ⟨subDomains, domain, top⟩ := h
  · exact absurd rfl hdomain
  · exact hdomain
  · rw [toText, ne_eq, Percent.encode_eq_nil_iff, fullDomain, List.append_eq_nil_iff,
      List.append_eq_nil_iff]
    · exact fun h => hdomain h.1.2
    · exact fun a h => by cases h

end Host

end CanonicalUri
