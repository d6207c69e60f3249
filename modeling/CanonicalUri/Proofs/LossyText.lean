import CanonicalUri.Proofs.StrictReading

/-!
# Bytes shown as text

Lenient decoding shows any bytes as text. `Utf8.Lossy` says how without reading them: characters
stay, and in between the longest stretch that could still become a character, or a single byte if
there is none, is shown as one replacement character.

* `Utf8.isMaximalSubpart_of_pieces`: the bad pieces that reading finds are these stretches.
* `Utf8.lossy_iff`: so there is one text for any bytes, and it is the one that lossy decoding gives.
* `Percent.decodeLenient_extends`: lenient decoding agrees with strict decoding wherever that
  succeeds, and shows the bytes in this manner where they are the only thing wrong.
-/

namespace CanonicalUri

namespace Utf8

/-! ### What is replaced -/

/-- Some bytes in front of others that are replaced as a whole. No character is there, the bytes are
the beginning of one or just one byte, and no longer beginning of a character is there. -/
structure IsMaximalSubpart (bad rest : List UInt8) : Prop where
  ne_nil : bad ≠ []
  not_char : ∀ c, ¬String.utf8EncodeChar c <+: bad ++ rest
  begins : bad.length = 1 ∨ ∃ c, bad <+: String.utf8EncodeChar c
  longest : ∀ longer c, longer <+: bad ++ rest → longer <+: String.utf8EncodeChar c →
    longer.length ≤ bad.length

/-- A text that shows some bytes: it has their characters, and one replacement character for each
stretch that is replaced. -/
inductive Lossy : List UInt8 → Text → Prop
  | nil : Lossy [] []
  | char (c : Char) {bytes : List UInt8} {t : Text} (h : Lossy bytes t) :
      Lossy (String.utf8EncodeChar c ++ bytes) (c :: t)
  | bad {bad bytes : List UInt8} {t : Text} (hbad : IsMaximalSubpart bad bytes)
      (h : Lossy bytes t) : Lossy (bad ++ bytes) (Char.ofNat 0xFFFD :: t)

/-! ### Bad pieces -/

@[simp] theorem pieces_nil : pieces [] = [] := rfl

theorem eq_encodeChar_of_pieces {bytes : List UInt8} {c : Char} (h : pieces bytes = [.char c]) :
    String.utf8EncodeChar c = bytes := by
  have hbytes := flatMap_bytes_pieces bytes
  rw [h] at hbytes
  simpa [Piece.bytes] using hbytes

/-- Two bytes that may follow each other begin a character of more than two bytes. -/
private theorem exists_char_of_two {a b : UInt8} (h0 : width a ≠ 0) (h1 : width a ≠ 1)
    (h2 : width a ≠ 2) (hb : mayFollow a b = true) :
    ∃ c, [a, b] <+: String.utf8EncodeChar c := by
  have htail : isTail 0x80 = true := rfl
  by_cases h3 : width a = 3
  · have hchar : pieces [a, b, 0x80] = [.char (three a b 0x80)] := by
      rw [pieces.eq_def]
      simp [h3, hb, htail]
    exact ⟨_, by rw [eq_encodeChar_of_pieces hchar]; exact List.prefix_append [a, b] [0x80]⟩
  · have hchar : pieces [a, b, 0x80, 0x80] = [.char (four a b 0x80 0x80)] := by
      rw [pieces.eq_def]
      simp [h0, h1, h2, h3, hb, htail]
    exact ⟨_, by rw [eq_encodeChar_of_pieces hchar]; exact List.prefix_append [a, b] [0x80, 0x80]⟩

/-- Three bytes that may follow each other begin a character of four bytes. -/
private theorem exists_char_of_three {a b c : UInt8} (h0 : width a ≠ 0) (h1 : width a ≠ 1)
    (h2 : width a ≠ 2) (hb : mayFollow a b = true) (h3 : width a ≠ 3) (hc : isTail c = true) :
    ∃ d, [a, b, c] <+: String.utf8EncodeChar d := by
  have htail : isTail 0x80 = true := rfl
  have hchar : pieces [a, b, c, 0x80] = [.char (four a b c 0x80)] := by
    rw [pieces.eq_def]
    simp [h0, h1, h2, h3, hb, hc, htail]
  exact ⟨_, by rw [eq_encodeChar_of_pieces hchar]; exact List.prefix_append [a, b, c] [0x80]⟩

/-- Where the first piece of some bytes ends. A bad piece begins a character or is a single byte,
and one look at the byte behind it tells that it ends there. -/
private theorem exists_rest_of_pieces {bytes : List UInt8} {p : Piece} {ps : List Piece}
    (h : pieces bytes = p :: ps) :
    ∃ rest, ps = pieces rest ∧ ∀ bad, p = .bad bad →
      bad ≠ [] ∧ (bad.length = 1 ∨ ∃ c, bad <+: String.utf8EncodeChar c) ∧
        ∀ x ∈ rest.head?, ∀ more, pieces (bad ++ x :: more) = .bad bad :: pieces (x :: more) := by
  revert h
  fun_cases pieces bytes with
  | case1 => exact fun h => by cases h
  | case2 a rest h0 =>
    rintro ⟨⟩
    refine ⟨rest, rfl, ?_⟩
    rintro _ ⟨⟩
    refine ⟨by simp, .inl rfl, fun x _ more => ?_⟩
    rw [List.singleton_append, pieces.eq_def]
    simp [h0]
  | case3 a rest =>
    rintro ⟨⟩
    exact ⟨rest, rfl, fun bad hbad => by cases hbad⟩
  | case4 a =>
    rintro ⟨⟩
    refine ⟨[], rfl, ?_⟩
    rintro _ ⟨⟩
    exact ⟨by simp, .inl rfl, fun x hx => by cases hx⟩
  | case5 a h0 h1 b s hb =>
    rintro ⟨⟩
    refine ⟨b :: s, rfl, ?_⟩
    rintro _ ⟨⟩
    refine ⟨by simp, .inl rfl, fun x hx more => ?_⟩
    cases hx
    rw [List.singleton_append, pieces.eq_def]
    simp [h0, h1, hb]
  | case6 a h0 h1 b s =>
    rintro ⟨⟩
    exact ⟨s, rfl, fun bad hbad => by cases hbad⟩
  | case7 a h0 h1 b hb h2 =>
    rintro ⟨⟩
    refine ⟨[], rfl, ?_⟩
    rintro _ ⟨⟩
    have hbegins := exists_char_of_two h0 h1 h2 (by simpa using hb)
    exact ⟨by simp, .inr hbegins, fun x hx => by cases hx⟩
  | case8 a h0 h1 b hb h2 c t hc =>
    rintro ⟨⟩
    refine ⟨c :: t, rfl, ?_⟩
    rintro _ ⟨⟩
    have hbegins := exists_char_of_two h0 h1 h2 (by simpa using hb)
    refine ⟨by simp, .inr hbegins, fun x hx more => ?_⟩
    cases hx
    rw [List.cons_append, List.singleton_append, pieces.eq_def]
    simp [h0, h1, hb, h2, hc]
  | case9 a h0 h1 b hb h2 c t =>
    rintro ⟨⟩
    exact ⟨t, rfl, fun bad hbad => by cases hbad⟩
  | case10 a h0 h1 b hb h2 c hc h3 =>
    rintro ⟨⟩
    refine ⟨[], rfl, ?_⟩
    rintro _ ⟨⟩
    have hbegins := exists_char_of_three h0 h1 h2 (by simpa using hb) h3 (by simpa using hc)
    exact ⟨by simp, .inr hbegins, fun x hx => by cases hx⟩
  | case11 a h0 h1 b hb h2 c hc h3 d u hd =>
    rintro ⟨⟩
    refine ⟨d :: u, rfl, ?_⟩
    rintro _ ⟨⟩
    have hbegins := exists_char_of_three h0 h1 h2 (by simpa using hb) h3 (by simpa using hc)
    refine ⟨by simp, .inr hbegins, fun x hx more => ?_⟩
    cases hx
    rw [List.cons_append, List.cons_append, List.singleton_append, pieces.eq_def]
    simp [h0, h1, hb, h2, hc, h3, hd]
  | case12 a h0 h1 b hb h2 c hc h3 d u =>
    rintro ⟨⟩
    exact ⟨u, rfl, fun bad hbad => by cases hbad⟩

/-- The other pieces are read from the bytes behind the first one. -/
theorem exists_append_of_pieces {bytes : List UInt8} {p : Piece} {ps : List Piece}
    (h : pieces bytes = p :: ps) : ∃ rest, bytes = p.bytes ++ rest ∧ ps = pieces rest := by
  obtain ⟨rest, rfl, _⟩ := exists_rest_of_pieces h
  refine ⟨rest, ?_, rfl⟩
  rw [← flatMap_bytes_pieces bytes, h, List.flatMap_cons, flatMap_bytes_pieces]

/-- The bad pieces that reading finds are the stretches that are replaced. -/
theorem isMaximalSubpart_of_pieces {bytes bad : List UInt8} {ps : List Piece}
    (h : pieces bytes = .bad bad :: ps) :
    ∃ rest, bytes = bad ++ rest ∧ ps = pieces rest ∧ IsMaximalSubpart bad rest := by
  obtain ⟨rest, rfl, hbad⟩ := exists_rest_of_pieces h
  obtain ⟨hne, hbegins, hstop⟩ := hbad bad rfl
  have hbytes : bytes = bad ++ rest := by
    rw [← flatMap_bytes_pieces bytes, h, List.flatMap_cons, flatMap_bytes_pieces]
    rfl
  -- what begins with the bytes of a character is read as that character
  have hchar : ∀ c r, bad ++ rest ≠ String.utf8EncodeChar c ++ r := by
    intro c r heq
    rw [hbytes, heq, pieces_encodeChar_append] at h
    cases h
  refine ⟨rest, hbytes, rfl, hne, fun c ⟨r, hr⟩ => hchar c r hr.symm, hbegins, ?_⟩
  intro longer c hlonger hc
  by_contra hlen
  -- the byte behind the bad piece would belong to the character
  have hprefix : bad <+: longer :=
    List.prefix_of_prefix_length_le (List.prefix_append bad rest) hlonger (by omega)
  obtain ⟨more, rfl⟩ := hprefix
  obtain ⟨tail, htail⟩ := hc
  rw [List.prefix_append_right_inj] at hlonger
  cases more with
  | nil => simp at hlen
  | cons x more =>
    obtain ⟨rest', rfl⟩ := hlonger
    have hstopped := hstop x rfl (more ++ tail)
    rw [← List.cons_append, ← List.append_assoc, htail] at hstopped
    have hread := pieces_encodeChar_append c []
    rw [List.append_nil, hstopped] at hread
    cases hread

/-- There is one way to cut off a stretch that is replaced. -/
theorem IsMaximalSubpart.pieces_append {bad rest : List UInt8} (h : IsMaximalSubpart bad rest) :
    pieces (bad ++ rest) = .bad bad :: pieces rest := by
  obtain ⟨p, ps, hpieces⟩ : ∃ p ps, pieces (bad ++ rest) = p :: ps := by
    rcases hnil : pieces (bad ++ rest) with _ | ⟨p, ps⟩
    · have hbytes := flatMap_bytes_pieces (bad ++ rest)
      rw [hnil, List.flatMap_nil, eq_comm, List.append_eq_nil_iff] at hbytes
      exact absurd hbytes.1 h.ne_nil
    · exact ⟨p, ps, rfl⟩
  cases p with
  | char c =>
    obtain ⟨r, hbytes, _⟩ := exists_append_of_pieces hpieces
    exact absurd ⟨r, hbytes.symm⟩ (h.not_char c)
  | bad bad' =>
    obtain ⟨r, hbytes, hrest, h'⟩ := isMaximalSubpart_of_pieces hpieces
    -- each of the two is as long as the other
    have hle : ∀ {b b' r r' : List UInt8}, IsMaximalSubpart b r → IsMaximalSubpart b' r' →
        b' ++ r' = b ++ r → b'.length ≤ b.length := by
      intro b b' r r' hb hb' heq
      obtain hone | ⟨c, hc⟩ := hb'.begins
      · rw [hone]
        exact List.length_pos_iff.mpr hb.ne_nil
      · exact hb.longest b' c (heq ▸ List.prefix_append b' r') hc
    have hlen := Nat.le_antisymm (hle h h' hbytes.symm) (hle h' h hbytes)
    obtain ⟨rfl, rfl⟩ := List.append_inj hbytes hlen.symm
    exact hpieces.trans (by rw [hrest])

/-- There is one text that shows some bytes, and lossy decoding gives it. -/
theorem lossy_iff {bytes : List UInt8} {t : Text} : Lossy bytes t ↔ decodeLossy bytes = t := by
  constructor
  · intro h
    induction h with
    | nil => rfl
    | char c _ ih => rw [← ih, decodeLossy, pieces_encodeChar_append]; rfl
    | bad hbad _ ih => rw [← ih, decodeLossy, hbad.pieces_append]; rfl
  · rintro rfl
    rw [decodeLossy]
    generalize hps : pieces bytes = ps
    induction ps generalizing bytes with
    | nil =>
      have hbytes := flatMap_bytes_pieces bytes
      rw [hps] at hbytes
      rw [← hbytes]
      exact .nil
    | cons p ps ih =>
      cases p with
      | char c =>
        obtain ⟨rest, rfl, hrest⟩ := exists_append_of_pieces hps
        exact .char c (ih hrest.symm)
      | bad bad =>
        obtain ⟨rest, rfl, hrest, hbad⟩ := isMaximalSubpart_of_pieces hps
        exact .bad hbad (ih hrest.symm)

end Utf8

namespace Percent

/-! ### Lenient reading after strict reading -/

/-- Where the bytes are the only thing wrong with a text, lenient decoding shows those bytes. -/
theorem lossy_of_notUtf8 {t : Text} {e : DecodeError} (h : decode t = .error e)
    (hfault : e.fault = .notUtf8) :
    ∃ bytes, decodeBytes t = .ok bytes ∧ Utf8.Lossy bytes (decodeLenient t) := by
  rw [decode, bind_eq_error_iff] at h
  obtain h | ⟨bytes, hbytes, _⟩ := h
  · -- reading the bytes never fails for the bytes
    rw [decodeBytes, mapError_eq_error_iff] at h
    obtain ⟨f, hf, rfl⟩ := h
    obtain rfl : f = .notUtf8 := hfault
    exact absurd hf (readBytes_ne_notUtf8 t)
  · have hread : readBytes t = .ok bytes := by rwa [decodeBytes, mapError_eq_ok_iff] at hbytes
    refine ⟨bytes, hbytes, Utf8.lossy_iff.mpr ?_⟩
    rw [decodeLenient, readBytesLenient_of_readBytes hread]

/-- Lenient reading gives the same bytes, and lenient decoding the same text, wherever the strict
one succeeds. Where strict decoding fails because the bytes are no text, lenient decoding shows the
same bytes as far as they are characters, with a replacement character for each bad stretch. -/
theorem decodeLenient_extends (t : Text) :
    (∀ bytes, decodeBytes t = .ok bytes → readBytesLenient t = bytes) ∧
      (∀ s, decode t = .ok s → decodeLenient t = s) ∧
      ∀ e, decode t = .error e → e.fault = .notUtf8 →
        ∃ bytes, decodeBytes t = .ok bytes ∧ Utf8.Lossy bytes (decodeLenient t) := by
  refine ⟨fun bytes h => ?_, fun s h => decodeLenient_of_decode h, fun e => lossy_of_notUtf8⟩
  rw [decodeBytes, mapError_eq_ok_iff] at h
  exact readBytesLenient_of_readBytes h

/-- Both readers give the accented letter of the first text. In the second one three characters
break off, before a letter, before a byte that begins none, and at the end. -/
theorem decodeLenient_extends_brokenOff :
    let t := "a+%C3%A9".toList
    let u := "%E2%82a%F0%9F%FF%c3".toList
    (readBytesLenient t = [0x61, 0x20, 0xC3, 0xA9] ∧ decodeLenient t = "a é".toList) ∧
      decode u = .error ⟨u, .notUtf8⟩ ∧
      (∃ bytes, decodeBytes u = .ok bytes ∧ Utf8.Lossy bytes (decodeLenient u)) ∧
      decodeLenient u = "\uFFFDa\uFFFD\uFFFD\uFFFD".toList := by
  intro t u
  obtain ⟨hbytes, htext, _⟩ := decodeLenient_extends t
  obtain ⟨_, _, hbroken⟩ := decodeLenient_extends u
  have herror : decode u = .error ⟨u, .notUtf8⟩ := by decide +kernel
  exact ⟨⟨hbytes _ (by decide +kernel), htext _ (by decide +kernel)⟩, herror,
    hbroken _ herror rfl, by decide +kernel⟩

end Percent

end CanonicalUri
