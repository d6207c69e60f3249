import CanonicalUri.Proofs.Decomposition

/-!
# Lists of public suffixes

What host names rely on in a list of public suffixes, stated for any registry: a suffix is an
ending of the name it is found for, and its last label is neither a number nor closed by a bracket.
A name that ends in a dot is never looked up, so the list may answer anything for it.

So no text that denotes an address has a public suffix, and the texts that are read as an address
are those that denote it (`Host.read_eq_ip_iff`), its own host text among them. For a name it
depends on the text whether its host is found again (`Host.exists_read_toText_iff`); one that was
written without escapes always is.

`PublicSuffix.suffix?` has these properties for every list of rules whose last labels have them,
and the rules in use are such a list: `Registry.isSuffixList_withServices`.
-/

namespace CanonicalUri

namespace PublicSuffix

/-- The label after the last dot. -/
def lastLabel (t : Text) : Text :=
  (t.splitOn '.').getLastD []

theorem lastLabel_mem_splitOn (t : Text) : lastLabel t ∈ t.splitOn '.' := by
  rw [lastLabel, List.getLastD_eq_getLast?, List.getLast?_eq_getLast_of_ne_nil
    (List.splitOn_ne_nil '.' t)]
  exact List.getLast_mem _

theorem lastLabel_subset (t : Text) : lastLabel t ⊆ t := by
  have h : lastLabel t ⊆ Text.join '.' (t.splitOn '.') :=
    Text.subset_join (lastLabel_mem_splitOn t)
  rwa [Text.join, List.intercalate_splitOn] at h

/-- A text that does not end in a dot ends as its last label does. -/
theorem getLast?_lastLabel {t : Text} {c : Char} (h : t.getLast? = some c) (hc : c ≠ '.') :
    (lastLabel t).getLast? = some c := by
  obtain ⟨labels, label, hlabels⟩ : ∃ labels label, t.splitOn '.' = labels ++ [label] :=
    ⟨_, _, (List.dropLast_append_getLast (List.splitOn_ne_nil '.' t)).symm⟩
  have ht : Text.join '.' (labels ++ [label]) = t := by
    rw [← hlabels]
    exact List.intercalate_splitOn '.'
  rw [lastLabel, hlabels, List.getLastD_concat]
  rw [← ht] at h
  by_cases hnil : labels = []
  · simpa [hnil] using h
  · rw [Text.join_append_singleton hnil] at h
    cases label with
    | nil =>
      simp only [List.getLast?_concat, Option.some.injEq] at h
      exact absurd h.symm hc
    | cons d label => simpa using h

/-! ### The rules behind a suffix -/

private theorem exists_of_longest_ne_zero {rules : List Rule} {labels : List Text}
    (h : longest rules labels ≠ 0) :
    ∃ r ∈ rules, r.covers labels = true ∧ r.labels ≠ [] := by
  rw [longest] at h
  -- what has been found so far is nothing, or the length of a rule that covers the name
  suffices hinv : ∀ (rs : List Rule) (best : Nat), rs ⊆ rules →
      (best ≠ 0 → ∃ r ∈ rules, r.covers labels = true ∧ r.labels ≠ []) →
      rs.foldl (fun best r =>
        if !r.isException && r.covers labels && decide (best < r.labels.length)
        then r.labels.length else best) best ≠ 0 →
      ∃ r ∈ rules, r.covers labels = true ∧ r.labels ≠ [] from
    hinv rules 0 (List.Subset.refl _) (fun h => absurd rfl h) h
  intro rs
  induction rs with
  | nil => exact fun best _ hbest h => hbest h
  | cons r rs ih =>
    intro best hsub hbest h
    refine ih _ (List.subset_of_cons_subset hsub) (fun hne => ?_) h
    dsimp only at hne
    split at hne
    · rename_i hr
      simp only [Bool.and_eq_true, Bool.not_eq_true', decide_eq_true_eq] at hr
      exact ⟨r, hsub List.mem_cons_self, hr.1.2, fun hnil => hne (by simp [hnil])⟩
    · exact hbest hne

private theorem exists_of_suffixLength_ne_zero {rules : List Rule} {labels : List Text}
    (h : suffixLength rules labels ≠ 0) :
    ∃ r ∈ rules, r.covers labels = true ∧ r.labels ≠ [] := by
  rw [suffixLength] at h
  split at h
  · rename_i r hr
    have hcovers := List.find?_some hr
    rw [Bool.and_eq_true] at hcovers
    exact ⟨r, List.mem_of_find?_eq_some hr, hcovers.2, fun hnil => h (by simp [hnil])⟩
  · exact exists_of_longest_ne_zero h

/-- A suffix ends in the last label of the name, and a rule covers the name. -/
theorem lastLabel_of_suffix? {rules : List Rule} {name s : Text}
    (h : suffix? rules name = some s) :
    lastLabel s = lastLabel name ∧
      ∃ r ∈ rules, r.covers (name.splitOn '.').reverse = true ∧ r.labels ≠ [] := by
  simp only [suffix?] at h
  split at h
  · cases h
  · rename_i n hlength
    refine ⟨?_, exists_of_suffixLength_ne_zero (by omega)⟩
    have hpos := List.length_pos_iff.mpr (List.splitOn_ne_nil '.' name)
    have hdrop : (name.splitOn '.').drop ((name.splitOn '.').length - (n + 1)) ≠ [] := by
      rw [ne_eq, List.drop_eq_nil_iff]
      omega
    cases h
    rw [lastLabel, Text.join, List.splitOn_intercalate '.'
      (fun l hl => Text.not_mem_of_mem_splitOn (List.mem_of_mem_drop hl)) hdrop, lastLabel,
      List.getLastD_eq_getLast?, List.getLastD_eq_getLast?, List.getLast?_drop, if_neg (by omega)]

/-- The label that a rule demands last, if it demands one. -/
def Rule.lastLabel? (r : Rule) : Option Text :=
  r.labels.head?.join

/-- A name that a rule covers ends in the label that the rule demands last. -/
theorem Rule.lastLabel_of_covers {r : Rule} {name label : Text}
    (hcovers : r.covers (name.splitOn '.').reverse = true) (hr : r.lastLabel? = some label) :
    lastLabel name = label := by
  obtain ⟨labels, last, hlabels⟩ : ∃ labels label, name.splitOn '.' = labels ++ [label] :=
    ⟨_, _, (List.dropLast_append_getLast (List.splitOn_ne_nil '.' name)).symm⟩
  rw [lastLabel, hlabels, List.getLastD_concat]
  rw [hlabels, List.reverse_append, List.reverse_singleton, List.singleton_append] at hcovers
  obtain ⟨ps, _⟩ := r
  cases ps with
  | nil => cases hr
  | cons p ps =>
    simp only [Rule.lastLabel?, List.head?_cons, Option.join_some] at hr
    subst hr
    simp only [Rule.covers, Rule.heads, Bool.and_eq_true, beq_iff_eq] at hcovers
    exact hcovers.1.symm

end PublicSuffix

open PublicSuffix

/-! ### The property of a registry -/

/-- A registry whose public suffixes are endings of names and end in no address: the last label of a
suffix is neither a number nor closed by a bracket. Nothing is asked of names that end in a dot. -/
structure Registry.IsSuffixList (reg : Registry) : Prop where
  isSuffix : ∀ {name s : Text}, name.getLast? ≠ some '.' → reg.suffix? name = some s → s <:+ name
  not_digits : ∀ {name s : Text}, name.getLast? ≠ some '.' → reg.suffix? name = some s →
    ¬∀ c ∈ lastLabel s, c.isDigit = true
  not_bracket : ∀ {name s : Text}, name.getLast? ≠ some '.' → reg.suffix? name = some s →
    (lastLabel s).getLast? ≠ some ']'

/-- The rules in use, with any services database, are such a registry. -/
theorem Registry.isSuffixList_withServices (services : Option Text) :
    (withServices services).IsSuffixList := by
  have hrules : ∀ r ∈ rules, ∃ label, r.lastLabel? = some label ∧
      (¬∀ c ∈ label, c.isDigit = true) ∧ label.getLast? ≠ some ']' := by
    have hall : (rules.all fun r => r.lastLabel?.any fun label =>
        !label.all Char.isDigit && label.getLast? != some ']') = true := by decide +kernel
    intro r hr
    have h := List.all_eq_true.mp hall r hr
    obtain ⟨label, hlabel, h⟩ := (Option.any_eq_true _ _).mp h
    rw [Bool.and_eq_true] at h
    exact ⟨label, hlabel, by simpa using h.1, by simpa using h.2⟩
  have hlast : ∀ {name s : Text}, (withServices services).suffix? name = some s →
      (¬∀ c ∈ lastLabel s, c.isDigit = true) ∧ (lastLabel s).getLast? ≠ some ']' := by
    intro name s h
    obtain ⟨heq, r, hr, hcovers, _⟩ := lastLabel_of_suffix? h
    obtain ⟨label, hlabel, hlaws⟩ := hrules r hr
    rw [heq, Rule.lastLabel_of_covers hcovers hlabel]
    exact hlaws
  exact ⟨fun _ h => suffix?_isSuffix h, fun _ h => (hlast h).1, fun _ h => (hlast h).2⟩

/-! ### Addresses -/

/-- No text that denotes an address has a public suffix: behind its dots, if there are any, there
are the octets of an IPv4 address, and perhaps a bracket. -/
theorem Host.not_findsSuffix_of_denotes {reg : Registry} (hreg : reg.IsSuffixList) {raw : Text}
    {a : Ip.Address} (ha : Ip.Address.Denotes raw a) (before rest : Text) :
    ¬FindsSuffix reg raw before rest := by
  rintro ⟨rfl, _, hdot, hsuffix⟩
  have hname := mt (Text.getLast?_map_toLower (by decide) _).mp hdot
  obtain hlast | hdigits : rest.getLast? = some ']' ∨ ∀ c ∈ rest, c.isDigit = true ∨ c = '.' := by
    generalize hraw : before ++ '.' :: rest = raw at ha
    obtain ip | ht | ht := ha
    · refine .inr fun c hc => Ip.V4.mem_toText (show c ∈ Ip.V4.toText ip from ?_)
      rw [← hraw]
      exact List.mem_append_right before (List.mem_cons_of_mem _ hc)
    · subst hraw
      exact .inr fun _ => ht.digits_behind_dot
    · refine .inl ?_
      have hlast := congrArg List.getLast? hraw
      rw [List.getLast?_concat, List.getLast?_append_cons] at hlast
      cases rest with
      | nil => cases hlast
      | cons c rest => simpa using hlast
  · refine hreg.not_bracket hname hsuffix (getLast?_lastLabel ?_ (by decide))
    rw [List.getLast?_map, hlast]
    rfl
  · have hlower : rest.map Char.toLower = rest := Text.map_toLower_of_not_isAlpha fun c hc => by
      obtain hc | rfl := hdigits c hc
      · exact Text.not_isAlpha_of_isDigit hc
      · rfl
    rw [hlower] at hsuffix
    refine hreg.not_digits hname hsuffix fun c hc => ?_
    refine (hdigits c (lastLabel_subset rest hc)).resolve_right ?_
    rintro rfl
    exact Text.not_mem_of_mem_splitOn (lastLabel_mem_splitOn rest) hc

/-- Where addresses are allowed, a text is read as an address exactly when it denotes that. -/
theorem Host.read_eq_ip_iff {reg : Registry} (hreg : reg.IsSuffixList) {raw : Text}
    {a : Ip.Address} : Host.read reg true raw = .ok (.ip a) ↔ Ip.Address.Denotes raw a := by
  rw [read_eq_ok_iff]
  constructor
  · rintro (⟨before, topLevel, _, hname⟩ | ⟨_, _, a', ha, heq⟩)
    · obtain ⟨_, _, _, heq, _⟩ := readName_eq_ok_iff.mp hname
      cases heq
    · cases heq
      exact Ip.Address.ofHost?_eq_some_iff.mp ha
  · intro ha
    refine .inr ⟨?_, rfl, a, Ip.Address.ofHost?_eq_some_iff.mpr ha, rfl⟩
    rw [Option.eq_none_iff_forall_ne_some]
    rintro ⟨before, topLevel⟩ htop
    obtain ⟨rest, _, hfinds⟩ := (topLevel?_eq_some_iff hreg.isSuffix).mp htop
    exact not_findsSuffix_of_denotes hreg ha before rest hfinds

/-- Where addresses are allowed, an address is read from its host text. -/
theorem Host.read_toHost {reg : Registry} (hreg : reg.IsSuffixList) (a : Ip.Address) :
    Host.read reg true a.toHost = .ok (.ip a) :=
  (read_eq_ip_iff hreg).mpr a.denotes_toHost

/-! ### Reading a host again -/

/-- Whether a host is found again in its text: an address always is, and a name if the text that it
is written as is recognized. -/
def Host.IsFoundAgain (reg : Registry) (acceptIp : Bool) (h : Host) : Prop :=
  match h with
  | .name .. => IsRecognized reg acceptIp h.toText
  | _ => True

/-- A host that was read can be read from its own text exactly when it is found again there. -/
theorem Host.exists_read_toText_iff {reg : Registry} (hreg : reg.IsSuffixList) {acceptIp : Bool}
    {raw : Text} {h : Host} (hread : Host.read reg acceptIp raw = .ok h) :
    (∃ h', Host.read reg acceptIp h.toText = .ok h') ↔ h.IsFoundAgain reg acceptIp := by
  obtain ⟨_, _, _, hname⟩ | ⟨_, rfl, a, _, rfl⟩ := read_eq_ok_iff.mp hread
  · obtain ⟨subDomains, domain, top, rfl, _⟩ := readName_eq_ok_iff.mp hname
    exact exists_read_encode_iff
  · exact iff_of_true ⟨_, read_toHost hreg a⟩ trivial

/-- Whatever the text of a host is read as, it has that text again. -/
theorem Host.toText_of_read_toText {reg : Registry} (hreg : reg.IsSuffixList) {acceptIp : Bool}
    {raw : Text} {h h' : Host} (hread : Host.read reg acceptIp raw = .ok h)
    (hagain : Host.read reg acceptIp h.toText = .ok h') : h'.toText = h.toText := by
  obtain ⟨_, _, _, hname⟩ | ⟨_, rfl, a, _, rfl⟩ := read_eq_ok_iff.mp hread
  · obtain ⟨subDomains, domain, top, rfl, _⟩ := readName_eq_ok_iff.mp hname
    exact toText_of_read_encode hagain
  · cases (read_toHost hreg a).symm.trans hagain
    rfl

/-- A host that was read from a text without escapes is found again. -/
theorem Host.isFoundAgain_of_read {reg : Registry} {acceptIp : Bool} {raw : Text} {h : Host}
    (hread : Host.read reg acceptIp raw = .ok h)
    (hraw : ∀ c ∈ raw, Percent.isUnreserved c = true) : h.IsFoundAgain reg acceptIp := by
  have hself : Percent.encode [] raw = raw :=
    Percent.encode_eq_self_iff.mpr fun c hc => .inl (hraw c hc)
  obtain ⟨before, topLevel, htop, hname⟩ | ⟨_, _, a, _, rfl⟩ := read_eq_ok_iff.mp hread
  · have hdecode := decode_of_readName hname
    rw [(of_topLevel? htop).1] at hdecode
    have hfull : raw = h.fullDomain := by
      rw [← hself, Percent.decode_encode (by simp)] at hdecode
      exact Except.ok.inj hdecode
    have hagain : ∃ h', Host.read reg acceptIp (Percent.encode [] h.fullDomain) = .ok h' :=
      ⟨h, by rw [← hfull, hself]; exact hread⟩
    have hrecognized := exists_read_encode_iff.mp hagain
    rw [← toText_of_readName hname] at hrecognized
    obtain ⟨subDomains, domain, top, rfl, _⟩ := readName_eq_ok_iff.mp hname
    exact hrecognized
  · trivial

end CanonicalUri
