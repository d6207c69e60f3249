import CanonicalUri.Proofs.LetterCase
import CanonicalUri.Proofs.LossyText
import CanonicalUri.Proofs.Reachable
import CanonicalUri.Proofs.Setters

/-!
# Number signs in anchors

The anchor of a URI is set as it is, but read with escapes. So a number sign, which is refused when
it is set, can be read: from an escape, or as it is, since a fragment goes on behind further number
signs.

* `Utf8.mem_decodeLossy_iff`: lossy decoding finds the ASCII characters whose byte is there, and
  `Percent.hash_mem_decodeLenient_iff` tells from a text whether a number sign is read from it.
* `Edit.anchor_apply`: an edit keeps text and anchor, or replaces the anchor by one without a number
  sign, or replaces both by a text and what is read from it. So number signs in anchors come from
  reading (`Uri.Reachable.anchor_of_hash`).
* `Uri.setAnchor_anchor`: setting an anchor that was read changes nothing, and is refused exactly
  when there is a number sign in it.
-/

namespace CanonicalUri

/-! ### Characters that are read leniently -/

namespace Utf8

/-- A byte below all that make up longer characters is a character of its own. -/
theorem encodeChar_ofNat {b : UInt8} (h : b.toNat < 0x80) :
    String.utf8EncodeChar (Char.ofNat b.toNat) = [b] := by
  have hchar : ∀ n, n < 0x80 → (Char.ofNat n).toNat = n := by decide
  rw [Percent.utf8EncodeChar_of_lt (by rw [hchar _ h]; exact h), hchar _ h, UInt8.ofNat_toNat]

/-- No ASCII byte is replaced, neither alone nor at the beginning of a character. -/
theorem IsMaximalSubpart.le_toNat {bad rest : List UInt8} (h : IsMaximalSubpart bad rest)
    {b : UInt8} (hb : b ∈ bad) : 0x80 ≤ b.toNat := by
  by_contra hlt
  have hone : bad.length = 1 := by
    obtain hone | ⟨c, hc⟩ := h.begins
    · exact hone
    · have hascii : c.toNat < 128 := by
        by_contra hle
        exact hlt (le_toNat_of_mem_encodeChar (by omega) (hc.subset hb))
      have hle := hc.length_le
      rw [Percent.utf8EncodeChar_of_lt hascii, List.length_singleton] at hle
      exact Nat.le_antisymm hle (List.length_pos_of_mem hb)
  obtain ⟨a, rfl⟩ := List.length_eq_one_iff.mp hone
  obtain rfl := List.mem_singleton.mp hb
  refine h.not_char (Char.ofNat b.toNat) ?_
  rw [encodeChar_ofNat (by omega)]
  exact List.prefix_append [b] rest

/-- An ASCII character is shown for its byte, wherever that is, and for nothing else. -/
theorem Lossy.mem_iff {bytes : List UInt8} {t : Text} (h : Lossy bytes t) {c : Char}
    (hc : c.toNat < 128) : c ∈ t ↔ UInt8.ofNat c.toNat ∈ bytes := by
  induction h with
  | nil => simp
  | char d _ ih => rw [List.mem_cons, List.mem_append, mem_encodeChar_iff hc, ih]
  | bad hbad _ ih =>
    have hne : c ≠ Char.ofNat 0xFFFD := by
      rintro rfl
      revert hc
      decide
    have hbyte : UInt8.ofNat c.toNat ∉ _ := fun h => by
      have hle := hbad.le_toNat h
      rw [UInt8.toNat_ofNat'] at hle
      omega
    rw [List.mem_cons, List.mem_append, ih, or_iff_right hne, or_iff_right hbyte]

theorem mem_decodeLossy_iff {c : Char} (hc : c.toNat < 128) {bytes : List UInt8} :
    c ∈ decodeLossy bytes ↔ UInt8.ofNat c.toNat ∈ bytes :=
  (lossy_iff.mpr rfl).mem_iff hc

end Utf8

/-- A decimal digit is the only one with its value. -/
theorem Hex.value?_eq_some_iff_of_lt {c : Char} {n : Nat} (hn : n < 10) :
    value? c = some n ↔ c = n.digitChar := by
  have hdigit : ∀ n, n < 10 → Char.ofNat (0x30 + n) = n.digitChar := by decide
  constructor
  · intro h
    rw [value?] at h
    split_ifs at h <;> rw [Option.some.injEq] at h
    · rw [← hdigit n hn, ← Char.ofNat_toNat c]
      congr 1
      omega
    all_goals omega
  · rintro rfl
    exact value?_digitChar (by omega)

namespace Percent

theorem byteOf?_eq_hash_iff {high low : Char} :
    byteOf? high low = some 0x23 ↔ high = '2' ∧ low = '3' := by
  simp only [byteOf?, Option.bind_eq_bind, Option.bind_eq_some_iff, Option.pure_def,
    Option.some.injEq]
  constructor
  · rintro ⟨m, hm, n, hn, hb⟩
    have hm' := (Hex.value?_eq_some_iff.mp hm).1
    have hn' := (Hex.value?_eq_some_iff.mp hn).1
    have hval := congrArg UInt8.toNat hb
    rw [UInt8.toNat_ofNat', Nat.mod_eq_of_lt (by omega)] at hval
    obtain ⟨rfl, rfl⟩ : m = 2 ∧ n = 3 := by
      change _ = 35 at hval
      omega
    exact ⟨(Hex.value?_eq_some_iff_of_lt (by decide)).mp hm,
      (Hex.value?_eq_some_iff_of_lt (by decide)).mp hn⟩
  · rintro ⟨rfl, rfl⟩
    exact ⟨2, rfl, 3, rfl, rfl⟩

/-- What is no digit does not stand in an escape. -/
theorem ne_of_byteOf? {c : Char} (hc : Hex.value? c = none) {high low : Char} {b : UInt8}
    (h : byteOf? high low = some b) : c ≠ high ∧ c ≠ low := by
  simp only [byteOf?, Option.bind_eq_bind, Option.bind_eq_some_iff] at h
  obtain ⟨m, hm, n, hn, _⟩ := h
  refine ⟨?_, ?_⟩ <;> (rintro rfl; simp [hc] at hm hn)

/-- An escape that does not begin with a character is behind it. -/
private theorem infix_cons_of_not_isPrefix {s rest : Text} {c : Char} (h : ¬s <+: c :: rest) :
    s <:+: c :: rest ↔ s <:+: rest := by
  rw [List.infix_cons_iff, or_iff_right h]

/-- Whether the byte of a number sign is read. A percent sign never stands inside of an escape, so
each escape that is seen in the text is read as one. -/
theorem hash_mem_readBytesLenient_iff {t : Text} :
    0x23 ∈ readBytesLenient t ↔ '#' ∈ t ∨ ['%', '2', '3'] <:+: t := by
  fun_induction readBytesLenient t with
  | case1 => simp
  | case2 rest ih => simp [ih, List.infix_cons_iff]
  | case3 high low rest b hb _ ih =>
    have hhash := ne_of_byteOf? (c := '#') rfl hb
    have hpercent := ne_of_byteOf? (c := '%') rfl hb
    have hescape : 0x23 = b ↔ ['%', '2', '3'] <+: '%' :: high :: low :: rest := by
      have hbyte : byteOf? high low = some 0x23 ↔ high = '2' ∧ low = '3' :=
        byteOf?_eq_hash_iff
      rw [hb, Option.some.injEq] at hbyte
      simp [eq_comm, hbyte]
    rw [List.mem_cons, ih, hescape, List.infix_cons_iff,
      infix_cons_of_not_isPrefix (by simp [hpercent]),
      infix_cons_of_not_isPrefix (by simp [hpercent])]
    simp [hhash, or_left_comm]
  | case4 high low rest hb _ ih =>
    have hescape : ¬['%', '2', '3'] <+: '%' :: high :: low :: rest := by
      have hbyte : byteOf? high low = some 0x23 ↔ high = '2' ∧ low = '3' :=
        byteOf?_eq_hash_iff
      simpa [hb, eq_comm] using hbyte
    rw [List.mem_cons, ih, infix_cons_of_not_isPrefix hescape]
    simp
  | case5 rest h _ ih =>
    have hescape : ¬['%', '2', '3'] <+: '%' :: rest := by
      rintro ⟨rest', hrest⟩
      exact h '2' '3' rest' (List.cons.inj hrest).2.symm
    rw [List.mem_cons, ih, infix_cons_of_not_isPrefix hescape]
    simp
  | case6 c rest hplus hpercent ih =>
    have hbyte : 0x23 ∈ String.utf8EncodeChar c ↔ '#' = c :=
      Utf8.mem_encodeChar_iff (c := '#') (by decide)
    have hescape : ¬['%', '2', '3'] <+: c :: rest := by simp [Ne.symm hpercent]
    rw [List.mem_append, ih, hbyte, infix_cons_of_not_isPrefix hescape, List.mem_cons, or_assoc]

/-- A number sign is read from a number sign or from its escape. -/
theorem hash_mem_decodeLenient_iff {t : Text} :
    '#' ∈ decodeLenient t ↔ '#' ∈ t ∨ "%23".toList <:+: t :=
  (Utf8.mem_decodeLossy_iff (by decide)).trans hash_mem_readBytesLenient_iff

end Percent

/-! ### Anchors that are read -/

/-- The fragment of a text, as it is written: all that stands behind the first number sign in what
follows the authority, or nothing. -/
inductive HasFragment : Text → Text → Prop
  | intro {scheme authority tail path query fragment : Text}
      (hscheme : scheme ≠ [] ∧ ':' ∉ scheme) (hslash : '/' ∉ authority)
      (htail : TailForm tail (path, query, fragment)) :
      HasFragment (scheme ++ "://".toList ++ authority ++ tail) fragment

/-- A text has one fragment at most. -/
theorem HasFragment.unique {t f f' : Text} (h : HasFragment t f) (h' : HasFragment t f') :
    f = f' := by
  have hcut : ∀ {f : Text}, HasFragment t f →
      ∃ r, RawUri.cut false t = .ok r ∧ (RawTail.parts r.tail).2.2 = f := by
    rintro _ @⟨scheme, authority, _, _, _, _, ⟨hne, hcolon⟩, hslash, htail⟩
    obtain ⟨tail, rfl, hparts⟩ := tailForm_iff.mp htail
    refine ⟨_, RawUri.cut_eq_ok_iff.mpr
      ⟨scheme, _, hne, hcolon, append_uncut_slash scheme authority tail, rfl⟩, ?_⟩
    rw [RawUri.cutRest, Text.cut_uncut hslash tail, ← hparts]
  obtain ⟨r, hr, rfl⟩ := hcut h
  obtain ⟨r', hr', rfl⟩ := hcut h'
  cases hr.symm.trans hr'
  rfl

/-- The anchor of a fragment has a number sign if there is one in the fragment, as it is or escaped,
and the fragment is no hash-bang path. -/
theorem Fragment.Form.hash_mem_iff {t a : Text} {p : Path} (h : Form t a p) :
    '#' ∈ a ↔ (Percent.decodeLenient t).head? ≠ some '!' ∧ ('#' ∈ t ∨ "%23".toList <:+: t) := by
  rw [← Percent.hash_mem_decodeLenient_iff]
  obtain ⟨rfl, hbang⟩ | ⟨ht, _⟩ | ⟨ht, _⟩ := h
  · simp [hbang]
  · simp [ht]
  · simp [ht]

theorem Uri.exists_hasFragment_of_parse {reg : Registry} {mode : ParseMode} {t : Text} {u : Uri}
    (h : parse reg mode t = .ok u) :
    ∃ fragment, HasFragment t fragment ∧ Fragment.Form fragment u.anchor u.hashBangPath := by
  obtain ⟨p, hp, rfl⟩ := parse_eq_ok_iff.mp h
  obtain @⟨_, authority, _, _, _, fragment, _, _, _, _, _, hscheme, hauthority, htail, _, _,
    hfragment⟩ := Parsed.form_of_ofText hp
  have hslash : '/' ∉ authority := by
    obtain _ | ⟨hslash, _⟩ := hauthority
    · exact List.not_mem_nil
    · exact hslash
  exact ⟨fragment, .intro hscheme hslash htail, hfragment⟩

/-! ### Anchors that are set -/

namespace Edit

open Uri

variable (reg : Registry) (resolver : Resolver)

/-- Setting the anchor that is there changes nothing, whether it is refused or not. -/
theorem apply_setAnchor_anchor (u : Uri) : apply reg resolver u (.setAnchor u.anchor)
    = (if '#' ∈ u.anchor then .failed (.hashInAnchor u.anchor) else .done, u) := by
  rw [apply, run_setAnchor, List.contains_eq_mem]
  by_cases h : '#' ∈ u.anchor
  · simp [h, answer]
  · simp [h, answer]

/-- A setter of another field keeps the anchor, and the text that it may have been read from. -/
theorem keeps_anchor_of_field? (u : Uri) {e : Edit} {f : Field} (he : e.field? = some f)
    (hf : f ≠ .anchor) :
    (apply reg resolver u e).2.input = u.input ∧ (apply reg resolver u e).2.anchor = u.anchor := by
  obtain ⟨_, h⟩ | ⟨_, _, new, h⟩ := sets_apply reg resolver u he
  · rw [h u (.refl u f)]
    exact ⟨rfl, rfl⟩
  · have hanchor : (u.adopt reg new f).Agrees u .anchor := agrees_adopt hf.symm reg u new
    rw [h u (.refl u f)]
    refine ⟨?_, hanchor⟩
    cases f <;> rfl

/-- What an edit does to text and anchor: it keeps both, or the anchor that it leaves was checked,
or both come from one reading. -/
theorem anchor_apply (u : Uri) (e : Edit) : let v := (apply reg resolver u e).2
    (v.input = u.input ∧ v.anchor = u.anchor) ∨ '#' ∉ v.anchor ∨
      ∃ mode p, Parsed.ofText reg mode v.input = .ok p ∧ p.anchor = v.anchor := by
  cases e with
  | assign mode t =>
    simp only [apply, Uri.assign]
    split
    · rename_i p hp
      exact .inr (.inr ⟨mode, p, hp, rfl⟩)
    · exact .inl ⟨rfl, rfl⟩
  | setAnchor t =>
    simp only [apply, run_setAnchor]
    split_ifs with hhash
    · exact .inl ⟨rfl, rfl⟩
    · rw [List.contains_eq_mem, decide_eq_true_eq] at hhash
      exact .inr (.inl hhash)
  | resolve =>
    simp only [apply, Uri.resolve]
    rcases u.addresses with _ | known
    · rcases u.lookUp resolver with e | found
      · exact .inl ⟨rfl, rfl⟩
      · exact .inl ⟨rfl, rfl⟩
    · exact .inl ⟨rfl, rfl⟩
  | _ => exact .inl (keeps_anchor_of_field? reg resolver u rfl (by decide))

end Edit

namespace Uri

/-- A number sign in an anchor was read: setting other fields and refused edits leave it there, and
no edit but reading brings one in. -/
theorem Reachable.anchor_of_hash {reg : Registry} {u : Uri} (h : Reachable reg u)
    (hhash : '#' ∈ u.anchor) :
    ∃ mode v, Uri.parse reg mode u.input = .ok v ∧ v.anchor = u.anchor := by
  suffices hread : ∃ mode p, Parsed.ofText reg mode u.input = .ok p ∧ p.anchor = u.anchor by
    obtain ⟨mode, p, hp, hanchor⟩ := hread
    exact ⟨mode, _, parse_eq_ok_iff.mpr ⟨p, hp, rfl⟩, hanchor⟩
  induction h with
  | new => cases hhash
  | @parse mode t u h =>
    obtain ⟨p, hp, rfl⟩ := parse_eq_ok_iff.mp h
    exact ⟨mode, p, hp, rfl⟩
  | @edit u _ resolver e ih =>
    obtain ⟨hinput, hanchor⟩ | hnone | hread := Edit.anchor_apply reg resolver u e
    · rw [hanchor] at hhash ⊢
      rw [hinput]
      exact ih hhash
    · exact absurd hhash hnone
    · exact hread

/-- An anchor that was read can be set again, which changes nothing, unless there is a number sign
in it; then it is refused, which changes nothing either. There is one if the fragment is no
hash-bang path and has a number sign in it, as it is or escaped. In whatever a URI can become, an
anchor with a number sign is the one that is read from its text. -/
theorem setAnchor_anchor (reg : Registry) :
    (∀ {mode : ParseMode} {t : Text} {u : Uri}, parse reg mode t = .ok u →
        (∀ resolver, Edit.apply reg resolver u (.setAnchor u.anchor)
          = (if '#' ∈ u.anchor then .failed (.hashInAnchor u.anchor) else .done, u)) ∧
        ∃ fragment, (∀ f, HasFragment t f ↔ f = fragment) ∧ ('#' ∈ u.anchor ↔
          (Percent.decodeLenient fragment).head? ≠ some '!' ∧
            ('#' ∈ fragment ∨ "%23".toList <:+: fragment))) ∧
      ∀ {u : Uri}, Reachable reg u → '#' ∈ u.anchor →
        ∃ mode v, parse reg mode u.input = .ok v ∧ v.anchor = u.anchor := by
  refine ⟨fun {mode t u} h => ⟨fun resolver => Edit.apply_setAnchor_anchor reg resolver u, ?_⟩,
    Reachable.anchor_of_hash⟩
  obtain ⟨fragment, hfragment, hform⟩ := exists_hasFragment_of_parse h
  exact ⟨fragment, fun f => ⟨fun h => h.unique hfragment, fun h => h ▸ hfragment⟩,
    hform.hash_mem_iff⟩

/-- Both forms of a number sign are read, and stay while another anchor with one is refused and
other parts are replaced. -/
theorem setAnchor_anchor_twoSigns :
    let reg := Registry.standard
    let t := "http://a.com/?q#a%23b#".toList
    let edits : List Edit := [.setAnchor "#".toList, .setPath "x".toList, .assign {} "#".toList]
    ∃ u, parse reg {} t = .ok u ∧
      Edit.apply reg (fun _ _ => .ok []) u (.setAnchor u.anchor)
        = (.failed (.hashInAnchor "a#b#".toList), u) ∧
      (∃ fragment, (∀ f, HasFragment t f ↔ f = fragment) ∧ ('#' ∈ u.anchor ↔
        (Percent.decodeLenient fragment).head? ≠ some '!' ∧
          ('#' ∈ fragment ∨ "%23".toList <:+: fragment))) ∧
      let v := Edit.run reg (fun _ _ => .ok []) u edits
      v ≠ u ∧ '#' ∈ v.anchor ∧ ∃ mode w, parse reg mode v.input = .ok w ∧ w.anchor = v.anchor := by
  intro reg t edits
  obtain ⟨hread, hreachable⟩ := setAnchor_anchor reg
  have h : parse reg {} t = .ok
      { input := t
        host := .name [] "a".toList ".com".toList
        query := Dict.empty.insert "q".toList []
        anchor := "a#b#".toList } := by
    decide +kernel
  obtain ⟨hset, hfragment⟩ := hread h
  refine ⟨_, h, hset _, hfragment, by decide +kernel, by decide +kernel, ?_⟩
  exact hreachable ((Reachable.parse h).run (fun _ _ => .ok []) edits) (by decide +kernel)

/-- The anchor behind an escaped number sign is read, and cannot be set. -/
theorem not_setAnchor_escapedHash :
    ∃ u, parse Registry.standard {} "http://a.com/#a%23b".toList = .ok u ∧
      Reachable Registry.standard u ∧ '#' ∈ u.anchor ∧ ∀ resolver,
        Edit.apply Registry.standard resolver u (.setAnchor u.anchor)
          = (.failed (.hashInAnchor "a#b".toList), u) := by
  have h : parse Registry.standard {} "http://a.com/#a%23b".toList = .ok
      { input := "http://a.com/#a%23b".toList
        host := .name [] "a".toList ".com".toList
        anchor := "a#b".toList } := by
    decide +kernel
  exact ⟨_, h, .parse h, by decide, fun _ => rfl⟩

end Uri

end CanonicalUri
