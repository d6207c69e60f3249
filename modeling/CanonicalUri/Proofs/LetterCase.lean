import CanonicalUri.Proofs.Decomposition
import CanonicalUri.Proofs.StrictReading

/-!
# Letter case in hosts

Hosts are read in the same way whatever the case of their letters is, and what is read keeps the
case that was written. Each section says this of one step of the reading.

* Bytes: whether bytes are UTF-8 does not depend on the case of the letters among them.
* Decoding: the digits of an escape have no case, and all other letters are read as themselves. So
  two texts that are equal up to case consist of tokens up to the same place
  (`Percent.Tokens.exists_of_eqUpToCase`), and what is wrong there is the same up to case.
* Addresses: letters are digits only, so the address is the same.
* Hosts: the suffix is looked up in lower case and found at the same place, and the parts agree one
  by one. `Host.read_eqUpToCase` puts this together.
-/

namespace CanonicalUri

/-! ### Bytes -/

namespace Utf8

/-- The byte of a letter in lower case; every other byte as it is. -/
def lowerByte (b : UInt8) : UInt8 :=
  if 0x41 ≤ b.toNat ∧ b.toNat ≤ 0x5A then b + 0x20 else b

theorem lowerByte_of_le {b : UInt8} (h : 0x80 ≤ b.toNat) : lowerByte b = b :=
  if_neg (by omega)

private theorem toNat_lowerByte (b : UInt8) : (lowerByte b).toNat =
    if 0x41 ≤ b.toNat ∧ b.toNat ≤ 0x5A then b.toNat + 0x20 else b.toNat := by
  rw [lowerByte]
  split
  · rw [UInt8.toNat_add]
    change (b.toNat + 0x20) % 256 = b.toNat + 0x20
    omega
  · rfl

theorem toNat_lowerByte_lt_iff {b : UInt8} : (lowerByte b).toNat < 0x80 ↔ b.toNat < 0x80 := by
  rw [toNat_lowerByte]
  split <;> omega

theorem lowerByte_eq_percent_iff {b : UInt8} : lowerByte b = 0x25 ↔ b = 0x25 := by
  rw [← UInt8.toNat_inj, ← UInt8.toNat_inj, toNat_lowerByte]
  change _ = 0x25 ↔ b.toNat = 0x25
  split <;> omega

theorem le_toNat_of_mem_encodeChar {c : Char} (hc : 128 ≤ c.toNat) {b : UInt8}
    (hb : b ∈ String.utf8EncodeChar c) : 0x80 ≤ b.toNat := by
  have hval : c.val.toNat = c.toNat := rfl
  rw [String.utf8EncodeChar] at hb
  simp only [hval] at hb
  split_ifs at hb
  · omega
  all_goals
    simp only [List.mem_cons, List.not_mem_nil, or_false] at hb
    rcases hb with rfl | rfl | rfl | rfl
    all_goals
      simp only [UInt8.toNat_ofNat']
      omega

/-- The byte of an ASCII character is found in that character alone. -/
theorem mem_encodeChar_iff {c d : Char} (hc : c.toNat < 128) :
    UInt8.ofNat c.toNat ∈ String.utf8EncodeChar d ↔ c = d := by
  have hbyte : (UInt8.ofNat c.toNat).toNat = c.toNat := by
    rw [UInt8.toNat_ofNat']
    omega
  by_cases hd : d.toNat < 128
  · rw [Percent.utf8EncodeChar_of_lt hd, List.mem_singleton, ← UInt8.toNat_inj, hbyte,
      UInt8.toNat_ofNat', Nat.mod_eq_of_lt (by omega)]
    exact ⟨fun h => Char.ext (UInt32.toNat_inj.mp h), fun h => h ▸ rfl⟩
  · refine iff_of_false (fun h => ?_) (by rintro rfl; exact hd hc)
    have hle := le_toNat_of_mem_encodeChar (by omega) h
    omega

private theorem map_lowerByte_of_forall {bytes : List UInt8} (h : ∀ b ∈ bytes, 0x80 ≤ b.toNat) :
    bytes.map lowerByte = bytes :=
  (List.map_congr_left fun b hb => lowerByte_of_le (h b hb)).trans (List.map_id bytes)

theorem encodeChar_toLower (c : Char) :
    String.utf8EncodeChar c.toLower = (String.utf8EncodeChar c).map lowerByte := by
  obtain hc | hc := Nat.lt_or_ge c.toNat 128
  · exact Text.forall_ascii (P := fun c =>
      String.utf8EncodeChar c.toLower = (String.utf8EncodeChar c).map lowerByte) (by decide) hc
  · rw [Text.toLower_of_le hc, map_lowerByte_of_forall fun b => le_toNat_of_mem_encodeChar hc]

theorem encode_map_toLower (t : Text) :
    encode (t.map Char.toLower) = (encode t).map lowerByte := by
  rw [encode, encode, List.flatMap_map, List.map_flatMap]
  simp only [encodeChar_toLower]

/-- Bytes that are those of a character in lower case are those of a character. -/
theorem exists_encodeChar {bytes : List UInt8} {c : Char}
    (h : bytes.map lowerByte = String.utf8EncodeChar c) : ∃ d, bytes = String.utf8EncodeChar d := by
  obtain hc | hc := Nat.lt_or_ge c.toNat 128
  · rw [Percent.utf8EncodeChar_of_lt hc, List.map_eq_singleton_iff] at h
    obtain ⟨b, rfl, hb⟩ := h
    have hlt : b.toNat < 128 := by
      rw [← toNat_lowerByte_lt_iff, hb, UInt8.toNat_ofNat']
      omega
    have hd : ∀ n, n < 128 → (Char.ofNat n).toNat = n := by decide
    refine ⟨Char.ofNat b.toNat, ?_⟩
    rw [Percent.utf8EncodeChar_of_lt (by rwa [hd _ hlt]), hd _ hlt, UInt8.ofNat_toNat]
  · refine ⟨c, ?_⟩
    rw [← h, map_lowerByte_of_forall]
    intro b hb
    have hmem : lowerByte b ∈ String.utf8EncodeChar c := h ▸ List.mem_map_of_mem hb
    have hle := le_toNat_of_mem_encodeChar hc hmem
    have hiff := toNat_lowerByte_lt_iff (b := b)
    omega

theorem exists_encode {bytes : List UInt8} {t : Text} (h : bytes.map lowerByte = encode t) :
    ∃ s, bytes = encode s := by
  induction t generalizing bytes with
  | nil => exact ⟨[], List.map_eq_nil_iff.mp h⟩
  | cons c t ih =>
    rw [encode, List.flatMap_cons, List.map_eq_append_iff] at h
    obtain ⟨front, back, rfl, hfront, hback⟩ := h
    obtain ⟨d, rfl⟩ := exists_encodeChar hfront
    obtain ⟨s, rfl⟩ := ih hback
    exact ⟨d :: s, rfl⟩

/-- Whether bytes are those of a text does not depend on the case of letters. -/
theorem decode?_map_lowerByte (bytes : List UInt8) :
    decode? (bytes.map lowerByte) = (decode? bytes).map (List.map Char.toLower) := by
  rcases h : decode? bytes with _ | s
  · rw [Option.map_none, Option.eq_none_iff_forall_ne_some]
    intro t ht
    obtain ⟨s, rfl⟩ := exists_encode (decode?_eq_some_iff.mp ht)
    rw [decode?_encode] at h
    cases h
  · rw [decode?_eq_some_iff.mp h, ← encode_map_toLower, decode?_encode, Option.map_some]

end Utf8

/-! ### Decoding -/

namespace Percent

/-- Two faults of one kind that show the same bytes up to the case of letters. -/
inductive Fault.EqUpToCase : Fault → Fault → Prop
  | badEscape {a b a' b' : UInt8} (ha : Utf8.lowerByte a = Utf8.lowerByte a')
      (hb : Utf8.lowerByte b = Utf8.lowerByte b') :
      Fault.EqUpToCase (.badEscape a b) (.badEscape a' b')
  | badChar {b b' : UInt8} (hb : Utf8.lowerByte b = Utf8.lowerByte b') :
      Fault.EqUpToCase (.badChar b) (.badChar b')
  | notUtf8 : Fault.EqUpToCase .notUtf8 .notUtf8

/-- Two errors that quote the same up to the case of letters. -/
structure DecodeError.EqUpToCase (d e : DecodeError) : Prop where
  input : Text.EqUpToCase d.input e.input
  fault : d.fault.EqUpToCase e.fault

theorem isLiteral_toLower (c : Char) : isLiteral c.toLower = isLiteral c := by
  obtain hc | hc := Nat.lt_or_ge c.toNat 128
  · exact Text.forall_ascii (P := fun c => isLiteral c.toLower = isLiteral c) (by decide) hc
  · rw [Text.toLower_of_le hc]

private theorem map_lowerByte_encode {s t : Text} (h : Text.EqUpToCase s t) :
    (Utf8.encode s).map Utf8.lowerByte = (Utf8.encode t).map Utf8.lowerByte := by
  rw [← Utf8.encode_map_toLower, h, Utf8.encode_map_toLower]

theorem offenceAt_eqUpToCase {raw raw' : List UInt8}
    (h : raw.map Utf8.lowerByte = raw'.map Utf8.lowerByte) (k : Nat) :
    (offenceAt raw k).EqUpToCase (offenceAt raw' k) := by
  have hget : ∀ i, Utf8.lowerByte (raw.getD i 0) = Utf8.lowerByte (raw'.getD i 0) := fun i => by
    have hmap := congrArg (·.getD i (Utf8.lowerByte 0)) h
    simpa only [List.getD_map] using hmap
  have hpercent : raw[k]? = some 0x25 ↔ raw'[k]? = some 0x25 := by
    have hmap := congrArg (·[k]? = some 0x25) h
    simpa [Utf8.lowerByte_eq_percent_iff] using hmap
  rw [offenceAt, offenceAt]
  simp only [hpercent]
  split
  · exact .badEscape (hget _) (hget _)
  · exact .badChar (hget _)

/-- Letters of the other case make a token again. An escape even stands for the same byte. -/
theorem Token.exists_of_eqUpToCase {s t : Text} {b : UInt8} (h : Token s b)
    (hst : Text.EqUpToCase s t) : ∃ b', Token t b' ∧ Utf8.lowerByte b = Utf8.lowerByte b' := by
  cases h with
  | plus =>
    obtain ⟨_, rfl, hnil⟩ := (Text.eqUpToCase_cons_iff_of_not_isAlpha (by decide)).mp hst
    rw [Text.eqUpToCase_nil_iff.mp hnil]
    exact ⟨_, .plus, rfl⟩
  | escape hm hn hhigh hlow =>
    obtain ⟨_, rfl, hdigits⟩ := (Text.eqUpToCase_cons_iff_of_not_isAlpha (by decide)).mp hst
    obtain ⟨high, _, rfl, hhigh', hdigits⟩ := Text.eqUpToCase_cons_iff.mp hdigits
    obtain ⟨low, _, rfl, hlow', hnil⟩ := Text.eqUpToCase_cons_iff.mp hdigits
    rw [Text.eqUpToCase_nil_iff.mp hnil]
    exact ⟨_, .escape hm hn (hhigh'.symm.trans hhigh) (hlow'.symm.trans hlow), rfl⟩
  | @literal c hc =>
    obtain ⟨d, _, rfl, hcd, hnil⟩ := Text.eqUpToCase_cons_iff.mp hst
    rw [Text.eqUpToCase_nil_iff.mp hnil]
    rw [← isLiteral_iff] at hc
    have hd : isLiteral d = true := by rwa [← isLiteral_toLower, ← hcd, isLiteral_toLower]
    have hbytes := Utf8.encodeChar_toLower c
    rw [hcd, Utf8.encodeChar_toLower, utf8EncodeChar_of_lt (toNat_lt_of_isLiteral hc),
      utf8EncodeChar_of_lt (toNat_lt_of_isLiteral hd)] at hbytes
    exact ⟨_, .literal (isLiteral_iff.mp hd), (List.singleton_inj.mp hbytes).symm⟩

theorem Tokens.exists_of_eqUpToCase {s t : Text} {bytes : List UInt8} (h : Tokens s bytes)
    (hst : Text.EqUpToCase s t) :
    ∃ bytes', Tokens t bytes' ∧ bytes.map Utf8.lowerByte = bytes'.map Utf8.lowerByte := by
  induction h generalizing t with
  | nil =>
    rw [Text.eqUpToCase_nil_iff.mp hst]
    exact ⟨[], .nil, rfl⟩
  | cons hs _ ih =>
    obtain ⟨u, u', rfl, hu, hu'⟩ := Text.eqUpToCase_append_iff.mp hst
    obtain ⟨b, htoken, hb⟩ := hs.exists_of_eqUpToCase hu
    obtain ⟨bytes, htokens, hbytes⟩ := ih hu'
    exact ⟨b :: bytes, .cons htoken htokens, by rw [List.map_cons, List.map_cons, hb, hbytes]⟩

theorem IsStuck.of_eqUpToCase {s t : Text} (h : IsStuck s) (hst : Text.EqUpToCase s t) :
    IsStuck t := by
  rintro p b hp ⟨r, rfl⟩
  obtain ⟨p', r', rfl, hp', _⟩ := Text.eqUpToCase_append_iff.mp hst.symm
  obtain ⟨b', hb', _⟩ := hp.exists_of_eqUpToCase hp'
  exact h p' b' hb' (List.prefix_append p' r')

/-- A text is read as the same bytes up to the case of letters, or gets stuck at the same place. -/
theorem readBytes_agree {s t : Text} (h : Text.EqUpToCase s t) :
    Agree (fun bs cs => bs.map Utf8.lowerByte = cs.map Utf8.lowerByte) Fault.EqUpToCase
      (readBytes s) (readBytes t) := by
  obtain ⟨front, bytes, rest, rfl, htokens, hstuck⟩ := exists_tokens_append s
  obtain ⟨front', rest', rfl, hfront, hrest⟩ := Text.eqUpToCase_append_iff.mp h
  obtain ⟨bytes', htokens', hbytes⟩ := htokens.exists_of_eqUpToCase hfront
  rw [readBytes_append htokens.readBytes, readBytes_append htokens'.readBytes]
  suffices hread : Agree (fun bs cs => bs.map Utf8.lowerByte = cs.map Utf8.lowerByte)
      Fault.EqUpToCase (readBytes rest) (readBytes rest') from
    hread.map fun bs cs hbs => by rw [List.map_append, List.map_append, hbytes, hbs]
  by_cases hnil : rest = []
  · subst hnil
    rw [Text.eqUpToCase_nil_iff.mp hrest]
    exact .ok rfl
  · have hnil' : rest' ≠ [] := mt hrest.eq_nil_iff.mpr hnil
    rw [readBytes_of_isStuck hnil hstuck,
      readBytes_of_isStuck hnil' (hstuck.of_eqUpToCase hrest)]
    exact .error (offenceAt_eqUpToCase (map_lowerByte_encode hrest) 0)

theorem decode_agree {s t : Text} (h : Text.EqUpToCase s t) :
    Agree Text.EqUpToCase DecodeError.EqUpToCase (decode s) (decode t) := by
  have hbytes := (readBytes_agree h).mapError (f := (⟨s, ·⟩)) (g := (⟨t, ·⟩))
    fun d e hde => DecodeError.EqUpToCase.mk h hde
  refine hbytes.bind fun bs cs hbs => ?_
  have hdecode := Utf8.decode?_map_lowerByte bs
  rw [hbs, Utf8.decode?_map_lowerByte] at hdecode
  rcases hs : Utf8.decode? bs with _ | s' <;> rcases ht : Utf8.decode? cs with _ | t'
  · exact .error ⟨h, .notUtf8⟩
  · simp [hs, ht] at hdecode
  · simp [hs, ht] at hdecode
  · rw [hs, ht] at hdecode
    exact .ok (Option.some.inj hdecode).symm

end Percent

/-! ### Addresses -/

theorem Hex.readOnto_map_toLower (n : Nat) (t : Text) :
    readOnto n (t.map Char.toLower) = readOnto n t := by
  induction t generalizing n with
  | nil => rfl
  | cons c t ih => simp only [List.map_cons, readOnto, value?_toLower, ih]

theorem Hex.read?_map_toLower (t : Text) : read? (t.map Char.toLower) = read? t := by
  simp only [read?, List.map_eq_nil_iff, readOnto_map_toLower]

namespace Ip

theorem V4.parse?_map_toLower (t : Text) : parse? (t.map Char.toLower) = parse? t := by
  -- the text of an address holds no letters
  have h : Text.EqUpToCase t (t.map Char.toLower) := (Text.map_toLower_map_toLower t).symm
  refine Option.ext fun ip => ⟨fun hlower => ?_, fun hip => ?_⟩
  · have htext := parse?_eq_some_iff.mp hlower
    rwa [h.symm.eq_of_not_isAlpha fun _ hc => not_isAlpha_of_mem_toText (htext ▸ hc)] at hlower
  · have htext := parse?_eq_some_iff.mp hip
    rwa [← h.eq_of_not_isAlpha fun _ hc => not_isAlpha_of_mem_toText (htext ▸ hc)]

namespace V6

theorem group?_map_toLower (t : Text) : group? (t.map Char.toLower) = group? t := by
  rw [group?, group?, List.length_map, Hex.read?_map_toLower]

theorem groups?_map_toLower (ts : List Text) :
    groups? (ts.map (List.map Char.toLower)) = groups? ts := by
  fun_induction groups? ts with
  | case1 => rfl
  | case2 t =>
    simp only [List.map_cons, List.map_nil, groups?, group?_map_toLower, V4.parse?_map_toLower]
  | case3 t ts hne ih =>
    rw [List.map_cons, groups?, group?_map_toLower, ih]
    simpa using hne

theorem cutGap_map_toLower (t : Text) :
    cutGap (t.map Char.toLower)
      = (cutGap t).map (Prod.map (List.map Char.toLower) (List.map Char.toLower)) := by
  fun_induction cutGap t with
  | case1 => rfl
  | case2 rest => rfl
  | case3 c t hne ih =>
    have hcolon : c.toLower = ':' → (t.map Char.toLower).head? ≠ some ':' := by
      intro hc hhead
      obtain rfl := (Text.toLower_eq_iff (by decide)).mp hc
      rw [List.head?_map, Option.map_eq_some_iff] at hhead
      obtain ⟨d, hd, hlower⟩ := hhead
      obtain rfl := (Text.toLower_eq_iff (by decide)).mp hlower
      obtain ⟨rest, rfl⟩ := List.head?_eq_some_iff.mp hd
      exact hne rest rfl rfl
    rw [List.map_cons, cutGap_cons hcolon, ih, Option.map_map, Option.map_map]
    rfl

private theorem splitOn_colon_map_toLower (t : Text) :
    (t.map Char.toLower).splitOn ':' = (t.splitOn ':').map (List.map Char.toLower) :=
  Text.splitOn_map_toLower (by decide) t

theorem fields_map_toLower (t : Text) :
    fields (t.map Char.toLower) = (fields t).map (List.map Char.toLower) := by
  simp only [fields, List.map_eq_nil_iff, splitOn_colon_map_toLower]
  split <;> rfl

theorem parse?_map_toLower (t : Text) : parse? (t.map Char.toLower) = parse? t := by
  rw [parse?, parse?, cutGap_map_toLower]
  rcases cutGap t with _ | ⟨before, after⟩
  · simp only [Option.map_none, splitOn_colon_map_toLower, groups?_map_toLower]
  · simp only [Option.map_some, Prod.map_apply, fields_map_toLower, groups?_map_toLower,
      List.mapM_map, Function.comp_def, group?_map_toLower]

end V6

namespace Address

theorem parse?_map_toLower (t : Text) : parse? (t.map Char.toLower) = parse? t := by
  rw [parse?, parse?, V4.parse?_map_toLower, V6.parse?_map_toLower]

/-- The address that a text denotes does not depend on the case of its digits. -/
theorem ofHost?_map_toLower (t : Text) : ofHost? (t.map Char.toLower) = ofHost? t := by
  rcases t with _ | ⟨c, t⟩
  · rfl
  by_cases hc : c = '['
  · subst hc
    have hlast := Text.getLast?_map_toLower (show ']'.isAlpha = false by decide) t
    have hlower : ('[' :: t).map Char.toLower = '[' :: t.map Char.toLower := rfl
    rw [hlower, ofHost?, ofHost?]
    simp only [hlast, ← List.map_dropLast, V6.parse?_map_toLower]
  · have hlower : ¬c.toLower = '[' := mt (Text.toLower_eq_iff (by decide)).mp hc
    have hparse : ∀ {d : Char} {u : Text}, ¬d = '[' → ofHost? (d :: u) = parse? (d :: u) := by
      intro d u hd
      rw [ofHost?]
      rintro _ ⟨⟩
      exact hd rfl
    rw [List.map_cons, hparse hlower, hparse hc, ← List.map_cons, parse?_map_toLower]

end Address

end Ip

/-! ### Hosts -/

/-- Two errors of one kind that quote the same up to the case of letters. -/
inductive HostError.EqUpToCase : HostError → HostError → Prop
  | unverified {s t : Text} (h : Text.EqUpToCase s t) :
      HostError.EqUpToCase (.unverified s) (.unverified t)
  | emptySubDomain {s t : Text} (h : Text.EqUpToCase s t) :
      HostError.EqUpToCase (.emptySubDomain s) (.emptySubDomain t)
  | invalidEncoding {d e : Percent.DecodeError} (h : d.EqUpToCase e) :
      HostError.EqUpToCase (.invalidEncoding d) (.invalidEncoding e)

namespace Host

/-- The same address, or two names with as many labels that are the same up to the case of letters,
one by one. -/
inductive EqUpToCase : Host → Host → Prop
  | absent : EqUpToCase .absent .absent
  | ip (a : Ip.Address) : EqUpToCase (.ip a) (.ip a)
  | name {subDomains subDomains' : List Text} {domain domain' topLevel topLevel' : Text}
      (hsub : List.Forall₂ Text.EqUpToCase subDomains subDomains')
      (hdomain : Text.EqUpToCase domain domain') (htop : Text.EqUpToCase topLevel topLevel') :
      EqUpToCase (.name subDomains domain topLevel) (.name subDomains' domain' topLevel')

theorem cutSuffix_map_toLower (raw suffix : Text) :
    cutSuffix (raw.map Char.toLower) suffix
      = (cutSuffix raw suffix).map (Prod.map (List.map Char.toLower) (List.map Char.toLower)) := by
  have hdot : ∀ n : Nat, (raw.map Char.toLower)[n]? = some '.' ↔ raw[n]? = some '.' := fun n => by
    simp [Text.toLower_eq_iff (show '.'.isAlpha = false by decide)]
  simp only [cutSuffix, List.length_map, hdot]
  split
  · rw [Option.map_some, Prod.map_apply, List.map_take, List.map_drop]
  · rfl

/-- The look-up is made in lower case, so the name is cut at the same place. -/
theorem topLevel?_map_toLower (reg : Registry) (raw : Text) :
    topLevel? reg (raw.map Char.toLower)
      = (topLevel? reg raw).map (Prod.map (List.map Char.toLower) (List.map Char.toLower)) := by
  have hdot := Text.getLast?_map_toLower (show '.'.isAlpha = false by decide) raw
  simp only [topLevel?, hdot, Text.map_toLower_map_toLower]
  split
  · rfl
  · cases reg.suffix? (raw.map Char.toLower) with
    | none => rfl
    | some suffix => exact cutSuffix_map_toLower raw suffix

theorem readPart_agree {s t : Text} (h : Text.EqUpToCase s t) :
    Agree Text.EqUpToCase HostError.EqUpToCase (readPart s) (readPart t) :=
  (Percent.decode_agree h).mapError fun _ _ => .invalidEncoding

theorem readSubDomain_agree {raw raw' s t : Text} (hraw : Text.EqUpToCase raw raw')
    (h : Text.EqUpToCase s t) : Agree Text.EqUpToCase HostError.EqUpToCase
      (readSubDomain raw s) (readSubDomain raw' t) := by
  refine (readPart_agree h).bind fun a b hab => ?_
  simp only [hab.eq_nil_iff]
  split
  · exact .error (.emptySubDomain hraw)
  · exact .ok hab

theorem readName_agree {raw raw' before before' top top' : Text} (hraw : Text.EqUpToCase raw raw')
    (hbefore : Text.EqUpToCase before before') (htop : Text.EqUpToCase top top') :
    Agree EqUpToCase HostError.EqUpToCase
      (readName raw before top) (readName raw' before' top') := by
  have hlabels := congrArg (List.splitOn '.') hbefore
  rw [Text.splitOn_map_toLower (by decide), Text.splitOn_map_toLower (by decide)] at hlabels
  have hdomain : Text.EqUpToCase ((before.splitOn '.').getLastD [])
      ((before'.splitOn '.').getLastD []) := by
    have hlast := congrArg (·.getLastD (List.map Char.toLower [])) hlabels
    rwa [List.getLastD_map, List.getLastD_map] at hlast
  have hsub : List.Forall₂ Text.EqUpToCase (before.splitOn '.').dropLast
      (before'.splitOn '.').dropLast := by
    have hdrop := congrArg List.dropLast hlabels
    rw [← List.map_dropLast, ← List.map_dropLast, ← List.forall₂_eq_eq_eq,
      List.forall₂_map_left_iff, List.forall₂_map_right_iff] at hdrop
    exact hdrop
  rw [readName, readName]
  simp only [hdomain.eq_nil_iff]
  split
  · exact .error (.unverified hraw)
  · refine (Agree.mapM hsub fun _ _ => readSubDomain_agree hraw).bind fun ss ss' hss => ?_
    refine (readPart_agree hdomain).bind fun d d' hd => ?_
    refine (readPart_agree htop).bind fun t t' ht => ?_
    exact .ok (.name hss hd ht)

/-- Whether a host is read, where it is taken apart and what is wrong with it do not depend on the
case of letters, and an address is the same. The case is kept, too: the whole name is what the text
stands for. -/
theorem read_eqUpToCase {raw raw' : Text} (h : Text.EqUpToCase raw raw') (reg : Registry)
    (acceptIp : Bool) :
    Agree EqUpToCase HostError.EqUpToCase (read reg acceptIp raw) (read reg acceptIp raw') ∧
      ∀ host, read reg acceptIp raw = .ok host →
        (∃ a, host = .ip a) ∨ Percent.decode raw = .ok host.fullDomain := by
  constructor
  · have htop := topLevel?_map_toLower reg raw
    rw [h, topLevel?_map_toLower] at htop
    have haddress : Ip.Address.ofHost? raw = Ip.Address.ofHost? raw' := by
      rw [← Ip.Address.ofHost?_map_toLower, h, Ip.Address.ofHost?_map_toLower]
    rw [read, read]
    rcases hraw : topLevel? reg raw with _ | ⟨before, top⟩ <;>
      rcases hraw' : topLevel? reg raw' with _ | ⟨before', top'⟩ <;> rw [hraw, hraw'] at htop
    · rw [haddress]
      dsimp only
      split
      · exact .ok (.ip _)
      · exact .error (.unverified h)
    · cases htop
    · cases htop
    · obtain ⟨hbefore, htop⟩ := Prod.mk.inj (Option.some.inj htop)
      exact readName_agree h hbefore.symm htop.symm
  · intro host hread
    obtain ⟨before, top, htop, hname⟩ | ⟨_, _, a, _, rfl⟩ := read_eq_ok_iff.mp hread
    · rw [← (of_topLevel? htop).1]
      exact .inr (decode_of_readName hname)
    · exact .inl ⟨a, rfl⟩

/-- The digits of an escape do not count as letters, and the letter that it stands for keeps its
case. -/
theorem read_eqUpToCase_escape :
    let raw := "WWW.Ex%4aMple.COM".toList
    let raw' := "www.eX%4AmPLE.com".toList
    let host := name ["WWW".toList] "ExJMple".toList ".COM".toList
    read .standard false raw = .ok host ∧ Percent.decode raw = .ok host.fullDomain ∧
      ∃ host', read .standard false raw' = .ok host' ∧ host.EqUpToCase host' := by
  intro raw raw' host
  have h : Text.EqUpToCase raw raw' := by decide
  have hread : read .standard false raw = .ok host := by decide +kernel
  obtain ⟨hagree, hcase⟩ := read_eqUpToCase h .standard false
  have hname : ¬∃ a, host = .ip a := by simp [host]
  refine ⟨hread, (hcase host hread).resolve_left hname, ?_⟩
  rw [hread] at hagree
  generalize read .standard false raw' = result' at hagree
  cases hagree with
  | ok hhost => exact ⟨_, rfl, hhost⟩

end Host

end CanonicalUri
