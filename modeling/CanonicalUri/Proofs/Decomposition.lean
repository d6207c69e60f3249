import CanonicalUri.Proofs.HostText

/-!
# The parts of a domain name

How a domain name is taken apart, and what can be wrong with it. The look-up is only expected to
answer with endings of the names it is asked for, and it is asked for none that ends in a dot.

* `Host.FindsSuffix`: the suffix is an ending in lower case, behind a dot that is not the first
  character. `Host.topLevel?_eq_some_iff` says that the name is cut at that dot.
* `Host.readName_eq_error_iff`: unless the label in front of it is empty, the parts are decoded from
  left to right, and the first one that is empty or cannot be decoded is reported.
* `Host.read_decomposed` puts together what is read from a name with a suffix, and from all others.
-/

namespace CanonicalUri

namespace Host

/-! ### The suffix that is found -/

/-- The look-up finds a public suffix in a text: it is what `rest` is in lower case, and in front of
it there is a dot and more text. A text that ends in a dot has none. -/
structure FindsSuffix (reg : Registry) (raw before rest : Text) : Prop where
  eq_append : raw = before ++ '.' :: rest
  before_ne_nil : before ≠ []
  not_dot : raw.getLast? ≠ some '.'
  suffix : reg.suffix? (raw.map Char.toLower) = some (rest.map Char.toLower)

theorem cutSuffix_append {before rest suffix : Text} (hne : before ≠ [])
    (hlen : suffix.length = rest.length) :
    cutSuffix (before ++ '.' :: rest) suffix = some (before, '.' :: rest) := by
  have hn : (before ++ '.' :: rest).length - (suffix.length + 1) = before.length := by
    rw [List.length_append, List.length_cons]
    omega
  rw [cutSuffix, hn, List.take_left, List.drop_left]
  exact if_pos ⟨List.length_pos_iff.mpr hne, by simp⟩

theorem length_of_cutSuffix {raw suffix before rest : Text}
    (h : cutSuffix raw suffix = some (before, '.' :: rest)) : suffix.length = rest.length := by
  simp only [cutSuffix] at h
  split at h
  · rename_i hn
    obtain ⟨_, hrest⟩ := Prod.mk.inj (Option.some.inj h)
    have hlen := congrArg List.length hrest
    rw [List.length_drop, List.length_cons] at hlen
    omega
  · cases h

/-- A name is cut at the dot in front of the suffix that is found. -/
theorem topLevel?_eq_some_iff {reg : Registry}
    (hreg : ∀ {name s}, name.getLast? ≠ some '.' → reg.suffix? name = some s → s <:+ name)
    {raw before top : Text} :
    topLevel? reg raw = some (before, top) ↔
      ∃ rest, top = '.' :: rest ∧ FindsSuffix reg raw before rest := by
  constructor
  · intro h
    obtain ⟨rfl, hne, rest, rfl⟩ := of_topLevel? h
    rw [topLevel?] at h
    split at h
    · cases h
    · rename_i hdot
      obtain ⟨suffix, hsuffix, hcut⟩ := Option.bind_eq_some_iff.mp h
      -- two endings of one length are the same
      have hrest : rest.map Char.toLower <:+ (before ++ '.' :: rest).map Char.toLower :=
        List.IsSuffix.map _ ((List.suffix_cons '.' rest).trans (List.suffix_append before _))
      have hlen : suffix.length = (rest.map Char.toLower).length := by
        rw [List.length_map, length_of_cutSuffix hcut]
      have hname := mt (Text.getLast?_map_toLower (by decide) _).mp hdot
      have heq : suffix = rest.map Char.toLower :=
        (List.suffix_of_suffix_length_le (hreg hname hsuffix) hrest
          (Nat.le_of_eq hlen)).eq_of_length hlen
      exact ⟨rest, rfl, rfl, hne, hdot, heq ▸ hsuffix⟩
  · rintro ⟨rest, rfl, rfl, hne, hdot, hsuffix⟩
    rw [topLevel?, if_neg hdot, hsuffix, Option.bind_some,
      cutSuffix_append hne (List.length_map _)]

/-! ### Parts that cannot be read -/

/-- What is wrong with a part of the name `raw`. -/
inductive PartFault (raw : Text) : Text → HostError → Prop
  | empty : PartFault raw [] (.emptySubDomain raw)
  | encoding {part : Text} {e : Percent.DecodeError} (h : Percent.decode part = .error e) :
      PartFault raw part (.invalidEncoding e)

/-- The first of some parts, from left to right, that cannot be read, by what is wrong with it. -/
def FirstFault (raw : Text) (parts : List Text) (e : HostError) : Prop :=
  ∃ front part back, parts = front ++ part :: back ∧
    (∀ p ∈ front, p ≠ [] ∧ ∃ t, Percent.decode p = .ok t) ∧ PartFault raw part e

theorem readSubDomain_of_ne_nil {raw part : Text} (h : part ≠ []) :
    readSubDomain raw part = readPart part := by
  rw [readSubDomain]
  rcases hpart : readPart part with e | t
  · rfl
  · have ht : t ≠ [] := fun ht =>
      h ((Percent.eq_nil_iff_of_decode (readPart_eq_ok_iff.mp hpart)).mp ht)
    simp [bind, Except.bind, ht]

theorem readSubDomain_eq_error_iff {raw part : Text} {e : HostError} :
    readSubDomain raw part = .error e ↔ PartFault raw part e := by
  by_cases h : part = []
  · subst h
    have hempty : readSubDomain raw [] = .error (.emptySubDomain raw) := by
      rw [readSubDomain, readPart, Percent.decode_nil]
      rfl
    rw [hempty]
    constructor
    · rintro ⟨⟩
      exact .empty
    · rintro (_ | hd)
      · rfl
      · rw [Percent.decode_nil] at hd
        cases hd
  · rw [readSubDomain_of_ne_nil h, readPart, mapError_eq_error_iff]
    constructor
    · rintro ⟨e', hd, rfl⟩
      exact .encoding hd
    · rintro (_ | hd)
      · exact absurd rfl h
      · exact ⟨_, hd, rfl⟩

theorem exists_readSubDomain_iff {raw part : Text} :
    (∃ t, readSubDomain raw part = .ok t) ↔ part ≠ [] ∧ ∃ t, Percent.decode part = .ok t := by
  simp only [readSubDomain_eq_ok_iff, exists_and_left]

/-- Reading parts one by one fails with the first fault. -/
theorem mapM_readSubDomain_eq_error_iff {raw : Text} {parts : List Text} {e : HostError} :
    parts.mapM (readSubDomain raw) = .error e ↔ FirstFault raw parts e := by
  simp only [mapM_eq_error_iff, exists_readSubDomain_iff, readSubDomain_eq_error_iff, FirstFault]

/-- A name is refused for an empty label in front of the suffix, or else for the first of its parts
that cannot be read. -/
theorem readName_eq_error_iff {raw before top label : Text} {labels : List Text}
    (hlabels : before.splitOn '.' = labels ++ [label]) (htop : top ≠ []) {e : HostError} :
    readName raw before top = .error e ↔ label = [] ∧ e = .unverified raw ∨
      label ≠ [] ∧ FirstFault raw (labels ++ [label, top]) e := by
  rw [readName, hlabels]
  simp only [List.getLastD_concat, List.dropLast_concat]
  by_cases hlabel : label = []
  · simp [hlabel, throw, throwThe, MonadExceptOf.throw, bind, Except.bind, eq_comm]
  · -- neither the label nor the suffix is empty, so they are read like sub-domains
    rw [← mapM_readSubDomain_eq_error_iff, List.mapM_append, if_neg hlabel]
    simp [hlabel, readSubDomain_of_ne_nil hlabel, readSubDomain_of_ne_nil htop]

/-! ### What is read -/

/-- A name is read exactly when none of its labels is empty and all its parts can be decoded. -/
theorem exists_readName_iff {raw before top label : Text} {labels : List Text}
    (hlabels : before.splitOn '.' = labels ++ [label]) :
    (∃ h, readName raw before top = .ok h) ↔ label ≠ [] ∧ [] ∉ labels ∧
      ∀ p ∈ labels ++ [label, top], ∃ t, Percent.decode p = .ok t := by
  have hne : [] ∉ labels ++ [label] ↔ label ≠ [] ∧ [] ∉ labels := by
    rw [List.mem_append, List.mem_singleton, not_or, and_comm, eq_comm]
  simp only [readName_eq_ok_iff, hlabels, hne, List.forall_mem_append, List.forall_mem_cons]
  constructor
  · rintro ⟨_, subDomains, domain, t, rfl, ⟨hlabel, hsub⟩, hdecode, htop⟩
    obtain ⟨hdecode, hdomain⟩ := forall₂_append_singleton_iff.mp hdecode
    exact ⟨hlabel, hsub, exists_forall₂_iff.mp ⟨subDomains, hdecode⟩, ⟨domain, hdomain⟩, ⟨t, htop⟩,
      List.forall_mem_nil _⟩
  · rintro ⟨hlabel, hsub, hdecode, ⟨domain, hdomain⟩, ⟨t, htop⟩, _⟩
    obtain ⟨subDomains, hdecode⟩ := exists_forall₂_iff.mpr hdecode
    exact ⟨_, subDomains, domain, t, rfl, ⟨hlabel, hsub⟩,
      forall₂_append_singleton_iff.mpr ⟨hdecode, hdomain⟩, htop⟩

/-- What is read as a name has the parts of the text, decoded, and is the decoded text. -/
theorem parts_of_readName {raw before top label : Text} {labels : List Text} {h : Host}
    (hlabels : before.splitOn '.' = labels ++ [label]) (hread : readName raw before top = .ok h) :
    List.Forall₂ (fun l t => Percent.decode l = .ok t) labels h.subDomains ∧
      Percent.decode label = .ok h.domain ∧ Percent.decode top = .ok h.topLevel := by
  obtain ⟨subDomains, domain, t, rfl, _, hdecode, htop⟩ := readName_eq_ok_iff.mp hread
  rw [hlabels] at hdecode
  obtain ⟨hsub, hdomain⟩ := forall₂_append_singleton_iff.mp hdecode
  exact ⟨hsub, hdomain, htop⟩

/-- What is read from a text. If a suffix is found, the text is a domain name: it is read exactly
when none of its parts is empty and all can be decoded, and then it has the decoded parts, in order,
and its whole name is the decoded text. If it is not read, an empty label in front of the suffix is
the reason, or else the first part, from left to right, that cannot be read. If no suffix is found,
the text is an address, where addresses are allowed, or nothing. -/
theorem read_decomposed {reg : Registry}
    (hreg : ∀ {name s}, reg.suffix? name = some s → s <:+ name) (acceptIp : Bool) (raw : Text) :
    (∀ before rest labels label, FindsSuffix reg raw before rest →
      before.splitOn '.' = labels ++ [label] →
      ((∃ h, read reg acceptIp raw = .ok h) ↔ label ≠ [] ∧ [] ∉ labels ∧
        ∀ p ∈ labels ++ [label, '.' :: rest], ∃ t, Percent.decode p = .ok t) ∧
      (∀ h, read reg acceptIp raw = .ok h →
        List.Forall₂ (fun l t => Percent.decode l = .ok t) labels h.subDomains ∧
          Percent.decode label = .ok h.domain ∧
          Percent.decode ('.' :: rest) = .ok h.topLevel ∧
          Percent.decode raw = .ok h.fullDomain) ∧
      ∀ e, read reg acceptIp raw = .error e ↔ label = [] ∧ e = .unverified raw ∨
        label ≠ [] ∧ FirstFault raw (labels ++ [label, '.' :: rest]) e) ∧
    ((∀ before rest, ¬FindsSuffix reg raw before rest) →
      (acceptIp = true ∧ ∃ a, Ip.Address.ofHost? raw = some a ∧
        read reg acceptIp raw = .ok (.ip a)) ∨
      ((acceptIp = false ∨ Ip.Address.ofHost? raw = none) ∧
        read reg acceptIp raw = .error (.unverified raw))) := by
  refine ⟨fun before rest labels label hfinds hlabels => ?_, fun hnone => ?_⟩
  · have htop : topLevel? reg raw = some (before, '.' :: rest) :=
      (topLevel?_eq_some_iff fun _ => hreg).mpr ⟨rest, rfl, hfinds⟩
    have hread : read reg acceptIp raw = readName raw before ('.' :: rest) := by
      rw [read, htop]
    rw [hread]
    refine ⟨exists_readName_iff hlabels, fun h hok => ?_,
      fun e => readName_eq_error_iff hlabels (List.cons_ne_nil _ _)⟩
    obtain ⟨hsub, hdomain, hrest⟩ := parts_of_readName hlabels hok
    refine ⟨hsub, hdomain, hrest, ?_⟩
    rw [hfinds.eq_append]
    exact decode_of_readName hok
  · have htop : topLevel? reg raw = none := by
      rw [Option.eq_none_iff_forall_ne_some]
      rintro ⟨before, top⟩ htop
      obtain ⟨rest, _, hfinds⟩ := (topLevel?_eq_some_iff fun _ => hreg).mp htop
      exact hnone before rest hfinds
    cases acceptIp with
    | false => exact .inr ⟨.inl rfl, by rw [read, htop]; rfl⟩
    | true =>
      rcases ha : Ip.Address.ofHost? raw with _ | a
      · exact .inr ⟨.inr rfl, by rw [read, htop]; simp [ha]⟩
      · exact .inl ⟨rfl, a, rfl, by rw [read, htop]; simp [ha]⟩

/-- The first name has a suffix that a wildcard matches with an empty label; the second one has two
faults, of which the empty sub-domain comes first; the third text has no suffix. -/
theorem read_decomposed_wildcard :
    let name := "A%2E.b..CK".toList
    let faulty := "x..b%zz.com".toList
    let address := "[0:0::1]".toList
    (∃ h, read .standard false name = .ok h ∧
      List.Forall₂ (fun l t => Percent.decode l = .ok t) ["A%2E".toList] h.subDomains ∧
      Percent.decode "b".toList = .ok h.domain ∧ Percent.decode "..CK".toList = .ok h.topLevel ∧
      Percent.decode name = .ok h.fullDomain) ∧
      read .standard false faulty = .error (.emptySubDomain faulty) ∧
      ∃ a, read .standard true address = .ok (.ip a) := by
  intro name faulty address
  have hreg : ∀ {name s}, Registry.standard.suffix? name = some s → s <:+ name := fun h =>
    PublicSuffix.suffix?_isSuffix h
  refine ⟨?_, ?_, ?_⟩
  · have hfinds : FindsSuffix .standard name "A%2E.b".toList ".CK".toList :=
      ⟨by decide, by decide, by decide, by decide +kernel⟩
    obtain ⟨hread, hparts, _⟩ := (read_decomposed hreg false name).1 _ _ ["A%2E".toList] "b".toList
      hfinds (by decide)
    have hdecode : ∀ p ∈ ["A%2E".toList] ++ ["b".toList, "..CK".toList],
        ∃ t, Percent.decode p = .ok t := by
      simp only [List.forall_mem_append, List.forall_mem_singleton, List.forall_mem_cons]
      exact ⟨⟨"A.".toList, by decide +kernel⟩, ⟨"b".toList, by decide +kernel⟩,
        "..CK".toList, by decide +kernel⟩
    obtain ⟨h, hok⟩ := hread.mpr ⟨by decide, by decide, hdecode⟩
    exact ⟨h, hok, hparts h hok⟩
  · have hfinds : FindsSuffix .standard faulty "x..b%zz".toList "com".toList :=
      ⟨by decide, by decide, by decide, by decide +kernel⟩
    obtain ⟨_, _, herror⟩ := (read_decomposed hreg false faulty).1 _ _ ["x".toList, []]
      "b%zz".toList hfinds (by decide)
    refine (herror _).mpr (.inr ⟨by decide, ["x".toList], [], _, rfl, ?_, .empty⟩)
    exact List.forall_mem_singleton.mpr ⟨by decide, "x".toList, by decide +kernel⟩
  · have hnone : Registry.standard.suffix? (address.map Char.toLower) = none := by decide +kernel
    obtain ⟨_, a, _, hok⟩ | ⟨hrefused, _⟩ := (read_decomposed hreg true address).2
      fun before rest hfinds => by cases hnone.symm.trans hfinds.suffix
    · exact ⟨a, hok⟩
    · have hsome : Ip.Address.ofHost? address ≠ none := by decide +kernel
      exact absurd hrefused (by simp [hsome])

end Host

end CanonicalUri
