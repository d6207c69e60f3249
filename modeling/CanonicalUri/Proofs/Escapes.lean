import CanonicalUri.Percent
import CanonicalUri.Proofs.Success

/-!
# Escaped texts

What the two directions of percent escapes do to the structure of a text.

* Reading is compositional: `decode_append` and `decode_join` say that texts that are read one by
  one may be put together before they are read, and `decode_eq_ok_nil_iff` that nothing but the
  empty text reads as empty.
* A text that can be read strictly holds literal characters, plus and percent signs only
  (`isLiteral_of_mem`), so any other separator is safe around it.
* A written text holds unreserved and kept characters and percent signs only (`mem_encode`). A dot
  is never escaped, so writing commutes with splitting at dots (`splitOn_encode`), and a text is
  written as itself exactly when none of its characters needs an escape (`encode_eq_self_iff`).
-/

namespace CanonicalUri

namespace Percent

/-! ### Reading texts put together -/

/-- A readable text in front of another one is read first. -/
theorem readBytes_append {s : Text} {bytes : List UInt8} (h : readBytes s = .ok bytes) (t : Text) :
    readBytes (s ++ t) = (readBytes t).map (bytes ++ ·) := by
  have map_map : ∀ (b : UInt8) (bs : List UInt8) (e : Except Fault (List UInt8)),
      (e.map (bs ++ ·)).map (b :: ·) = e.map (b :: bs ++ ·) := fun b bs e => by cases e <;> rfl
  fun_induction readBytes s generalizing bytes with
  | case1 =>
    cases h
    rw [List.nil_append]
    cases readBytes t <;> rfl
  | case2 rest ih =>
    obtain ⟨bs, hbs, rfl⟩ := map_eq_ok_iff.mp h
    rw [List.cons_append, readBytes.eq_def]
    simp [ih hbs, map_map]
  | case3 high low rest b hb _ ih =>
    obtain ⟨bs, hbs, rfl⟩ := map_eq_ok_iff.mp h
    rw [List.cons_append, readBytes.eq_def]
    simp [hb, ih hbs, map_map]
  | case4 => cases h
  | case5 => cases h
  | case6 c rest hplus hpercent hc ih =>
    obtain ⟨bs, hbs, rfl⟩ := map_eq_ok_iff.mp h
    rw [List.cons_append, readBytes.eq_def]
    simp [hplus, hpercent, hc, ih hbs, map_map]
  | case7 => cases h

/-- Strict decoding reads the bytes of the text that it gives. -/
theorem decode_eq_ok_iff {t s : Text} : decode t = .ok s ↔ readBytes t = .ok (Utf8.encode s) := by
  rw [decode, bind_eq_ok_iff]
  simp only [decodeBytes, mapError_eq_ok_iff]
  constructor
  · rintro ⟨bytes, hbytes, h⟩
    rcases hs : Utf8.decode? bytes with _ | s'
    · simp [hs] at h
    · simp only [hs, pure_eq_ok_iff] at h
      rw [hbytes, Utf8.decode?_eq_some_iff.mp hs, h]
  · intro h
    exact ⟨Utf8.encode s, h, by rw [Utf8.decode?_encode]; rfl⟩

theorem decode_append {s t a b : Text} (hs : decode s = .ok a) (ht : decode t = .ok b) :
    decode (s ++ t) = .ok (a ++ b) := by
  rw [decode_eq_ok_iff] at hs ht ⊢
  rw [readBytes_append hs, ht, Utf8.encode, Utf8.encode, Utf8.encode, List.flatMap_append]
  rfl

@[simp] theorem decode_nil : decode [] = .ok [] :=
  decode_eq_ok_iff.mpr rfl

/-- A literal character stands for itself. -/
theorem decode_cons_of_isLiteral {c : Char} (hc : isLiteral c = true) {t a : Text}
    (ht : decode t = .ok a) : decode (c :: t) = .ok (c :: a) := by
  obtain ⟨hplus, hpercent⟩ := ne_of_isLiteral hc
  have hbytes := utf8EncodeChar_of_lt (toNat_lt_of_isLiteral hc)
  rw [decode_eq_ok_iff] at ht ⊢
  rw [readBytes.eq_def]
  simp [hplus, hpercent, hc, ht, Except.map, Utf8.encode, hbytes]

/-- A text that begins with a literal character is read as one that begins with it, too. -/
theorem head?_of_decode_cons {c : Char} (hc : isLiteral c = true) {t s : Text}
    (h : decode (c :: t) = .ok s) : s.head? = some c := by
  obtain ⟨hplus, hpercent⟩ := ne_of_isLiteral hc
  have hbytes := utf8EncodeChar_of_lt (toNat_lt_of_isLiteral hc)
  rw [decode_eq_ok_iff, readBytes.eq_def] at h
  simp only [hplus, hpercent, hc, if_false, if_true, map_eq_ok_iff] at h
  obtain ⟨bytes, _, hs⟩ := h
  -- the first byte is a character of its own
  have hpieces := Utf8.pieces_encode s
  have hfirst : UInt8.ofNat c.toNat :: bytes = String.utf8EncodeChar c ++ bytes := by
    rw [hbytes]
    rfl
  rw [← hs, hfirst, Utf8.pieces_encodeChar_append] at hpieces
  cases s with
  | nil => cases hpieces
  | cons d s => rw [List.head?_cons, Utf8.Piece.char.inj (List.cons.inj hpieces).1]

/-- Texts that are read one by one may be joined by a literal character before they are read. -/
theorem decode_join {sep : Char} (hsep : isLiteral sep = true) {ts as : List Text}
    (h : List.Forall₂ (fun t a => decode t = .ok a) ts as) :
    decode (Text.join sep ts) = .ok (Text.join sep as) := by
  induction h with
  | nil => rfl
  | cons ht hts ih =>
    cases hts with
    | nil => simpa using ht
    | cons hu hus =>
      rw [Text.join_cons_cons, Text.join_cons_cons]
      exact decode_append ht (decode_cons_of_isLiteral hsep ih)

/-- Every character of a readable text adds to what it stands for. -/
theorem decode_eq_ok_nil_iff {t : Text} : decode t = .ok [] ↔ t = [] := by
  refine ⟨fun h => ?_, fun h => h ▸ decode_nil⟩
  rw [decode_eq_ok_iff] at h
  revert h
  fun_cases readBytes t with
  | case1 => exact fun _ => rfl
  | case2 rest =>
    intro h
    obtain ⟨bs, _, h⟩ := map_eq_ok_iff.mp h
    cases h
  | case3 high low rest b hb =>
    intro h
    obtain ⟨bs, _, h⟩ := map_eq_ok_iff.mp h
    cases h
  | case4 => exact fun h => by cases h
  | case5 => exact fun h => by cases h
  | case6 c rest =>
    intro h
    obtain ⟨bs, _, h⟩ := map_eq_ok_iff.mp h
    cases h
  | case7 => exact fun h => by cases h

theorem eq_nil_iff_of_decode {t s : Text} (h : decode t = .ok s) : s = [] ↔ t = [] := by
  constructor
  · rintro rfl
    exact decode_eq_ok_nil_iff.mp h
  · rintro rfl
    rw [decode_nil] at h
    exact (Except.ok.inj h).symm

theorem nil_mem_iff_of_decode {ts ss : List Text}
    (h : List.Forall₂ (fun t s => decode t = .ok s) ts ss) : [] ∈ ss ↔ [] ∈ ts := by
  induction h with
  | nil => rfl
  | cons hd _ ih => rw [List.mem_cons, List.mem_cons, ih, eq_comm, eq_nil_iff_of_decode hd, eq_comm]

/-! ### The characters of readable texts -/

theorem isUnreserved_of_value? {c : Char} {n : Nat} (h : Hex.value? c = some n) :
    isUnreserved c = true := by
  have hc : ((c.isUpper || c.isLower) || c.isDigit) = true := by
    rw [Bool.or_eq_true, Bool.or_eq_true]
    rw [Hex.value?] at h
    split_ifs at h with hdigit hupper hlower
    · exact .inr (Char.isDigit_iff_toNat.mpr hdigit)
    · refine .inl (.inl (decide_eq_true ⟨?_, ?_⟩))
      · exact UInt32.le_iff_toNat_le.mpr hupper.1
      · exact UInt32.le_iff_toNat_le.mpr (Nat.le_trans hupper.2 (by decide))
    · refine .inl (.inr (Bool.and_eq_true_iff.mpr ⟨decide_eq_true ?_, decide_eq_true ?_⟩))
      · exact UInt32.le_iff_toNat_le.mpr hlower.1
      · exact UInt32.le_iff_toNat_le.mpr (Nat.le_trans hlower.2 (by decide))
  have hc : c.isAlphanum = true := hc
  simp [isUnreserved, hc]

/-- A readable text holds no other separators than literal characters, plus and percent signs. -/
theorem isLiteral_of_mem {t a : Text} (h : decode t = .ok a) {c : Char} (hc : c ∈ t) :
    isLiteral c = true ∨ c = '+' ∨ c = '%' := by
  rw [decode_eq_ok_iff] at h
  generalize Utf8.encode a = bytes at h
  fun_induction readBytes t generalizing bytes with
  | case1 => cases hc
  | case2 rest ih =>
    obtain ⟨bs, hbs, _⟩ := map_eq_ok_iff.mp h
    obtain rfl | hc := List.mem_cons.mp hc
    · exact .inr (.inl rfl)
    · exact ih hc bs hbs
  | case3 high low rest b hb _ ih =>
    obtain ⟨bs, hbs, _⟩ := map_eq_ok_iff.mp h
    simp only [byteOf?, Option.bind_eq_bind, Option.bind_eq_some_iff] at hb
    obtain ⟨m, hhigh, n, hlow, _⟩ := hb
    simp only [List.mem_cons] at hc
    obtain rfl | rfl | rfl | hc := hc
    · exact .inr (.inr rfl)
    · exact .inl (isLiteral_of_isUnreserved (isUnreserved_of_value? hhigh))
    · exact .inl (isLiteral_of_isUnreserved (isUnreserved_of_value? hlow))
    · exact ih hc bs hbs
  | case4 => cases h
  | case5 => cases h
  | case6 d rest _ _ hd ih =>
    obtain ⟨bs, hbs, _⟩ := map_eq_ok_iff.mp h
    obtain rfl | hc := List.mem_cons.mp hc
    · exact .inl hd
    · exact ih hc bs hbs
  | case7 => cases h

/-! ### The characters of written texts -/

private theorem isUnreserved_upperDigit {n : Nat} (h : n < 16) :
    isUnreserved (Hex.upperDigit n) = true := by
  have hall : ∀ n, n < 16 → isUnreserved (Hex.upperDigit n) = true := by decide
  exact hall n h

theorem mem_escape {b : UInt8} {c : Char} (h : c ∈ escape b) :
    isUnreserved c = true ∨ c = '%' := by
  have hb := b.toNat_lt
  simp only [escape, List.mem_cons, List.not_mem_nil, or_false] at h
  obtain rfl | rfl | rfl := h
  · exact .inr rfl
  · exact .inl (isUnreserved_upperDigit (by omega))
  · exact .inl (isUnreserved_upperDigit (by omega))

theorem mem_encodeChar {keep : List Char} {d c : Char} (h : c ∈ encodeChar keep d) :
    isUnreserved c = true ∨ c ∈ keep ∨ c = '%' := by
  rw [encodeChar] at h
  split at h
  · rename_i hd
    rw [List.mem_singleton.mp h]
    simp only [Bool.or_eq_true, List.contains_eq_mem, decide_eq_true_eq] at hd
    exact hd.imp id .inl
  · obtain ⟨b, _, hb⟩ := List.mem_flatMap.mp h
    exact (mem_escape hb).imp id .inr

/-- A written text holds no other characters than unreserved and kept ones and percent signs. -/
theorem mem_encode {keep t : Text} {c : Char} (h : c ∈ encode keep t) :
    isUnreserved c = true ∨ c ∈ keep ∨ c = '%' := by
  obtain ⟨d, _, hd⟩ := List.mem_flatMap.mp h
  exact mem_encodeChar hd

/-- Whether a character never occurs in a written text: it is neither unreserved nor kept, nor is
it the percent sign of the escapes. -/
def isEscaped (keep : List Char) (c : Char) : Bool :=
  !isUnreserved c && !keep.contains c && c != '%'

theorem isEscaped_iff {keep : List Char} {c : Char} :
    isEscaped keep c = true ↔ isUnreserved c = false ∧ c ∉ keep ∧ c ≠ '%' := by
  simp [isEscaped, and_assoc]

/-- What is escaped although much is kept is escaped when less is kept. -/
theorem isEscaped_of_subset {keep more : List Char} {c : Char} (h : isEscaped more c = true)
    (hsub : keep ⊆ more) : isEscaped keep c = true := by
  obtain ⟨hunreserved, hmore, hpercent⟩ := isEscaped_iff.mp h
  exact isEscaped_iff.mpr ⟨hunreserved, fun hmem => hmore (hsub hmem), hpercent⟩

theorem not_mem_encode {keep : List Char} {sep : Char} (h : isEscaped keep sep = true) (t : Text) :
    sep ∉ encode keep t := by
  obtain ⟨hsep, hkeep, hpercent⟩ := isEscaped_iff.mp h
  intro hmem
  obtain h | h | h := mem_encode hmem
  · rw [hsep] at h
    cases h
  · exact hkeep h
  · exact hpercent h

theorem encodeChar_ne_nil (keep : List Char) (c : Char) : encodeChar keep c ≠ [] := by
  rw [encodeChar]
  split
  · simp
  · rw [String.utf8EncodeChar]
    split_ifs <;> simp [escape]

@[simp] theorem encode_eq_nil_iff {keep t : Text} : encode keep t = [] ↔ t = [] := by
  cases t with
  | nil => simp
  | cons c t => simp [encodeChar_ne_nil]

/-! ### Dots in written texts -/

private theorem eq_dot_of_mem_encodeChar {keep : List Char} {d : Char}
    (h : '.' ∈ encodeChar keep d) : d = '.' := by
  rw [encodeChar] at h
  split at h
  · exact (List.mem_singleton.mp h).symm
  · obtain ⟨b, _, hb⟩ := List.mem_flatMap.mp h
    have hdot : ∀ n, n < 16 → '.' ≠ Hex.upperDigit n := by decide
    have hb' := b.toNat_lt
    simp only [escape, List.mem_cons, List.not_mem_nil, or_false] at hb
    obtain hb | hb | hb := hb
    · cases hb
    · exact absurd hb (hdot _ (by omega))
    · exact absurd hb (hdot _ (by omega))

/-- Dots are never escaped and nothing else is written with them, so splitting at dots and
writing commute. -/
theorem splitOn_encode (keep t : Text) :
    (encode keep t).splitOn '.' = (t.splitOn '.').map (encode keep) := by
  induction t with
  | nil => simp
  | cons c t ih =>
    rw [List.splitOn_cons_eq_if_modifyHead, encode_cons]
    by_cases hc : c = '.'
    · subst hc
      rw [if_pos (by rfl), List.map_cons, ← ih]
      exact List.splitOn_append_cons_self [] (encode keep t)
    · rw [if_neg (by simpa using hc), Text.splitOn_append_of_not_mem
        fun h => hc (eq_dot_of_mem_encodeChar h), ih]
      cases t.splitOn '.' <;> simp

/-! ### Texts that need no escape -/

/-- Escapes only ever make a text longer. -/
theorem length_le_length_encode (keep t : Text) : t.length ≤ (encode keep t).length := by
  induction t with
  | nil => simp
  | cons c t ih =>
    have hc := List.length_pos_iff.mpr (encodeChar_ne_nil keep c)
    rw [encode_cons, List.length_append, List.length_cons]
    omega

/-- A text is written as itself exactly when each of its characters is unreserved or kept. -/
theorem encode_eq_self_iff {keep t : Text} :
    encode keep t = t ↔ ∀ c ∈ t, isUnreserved c = true ∨ c ∈ keep := by
  induction t with
  | nil => simp
  | cons c t ih =>
    rw [encode_cons, List.forall_mem_cons, ← ih]
    refine ⟨fun h => ?_, ?_⟩
    · by_cases hc : isUnreserved c = true ∨ c ∈ keep
      · have hself : encodeChar keep c = [c] := by
          rw [encodeChar, if_pos (by simpa using hc)]
        rw [hself] at h
        exact ⟨hc, (List.cons.inj h).2⟩
      · -- an escape has three characters, and the rest of the text cannot make up for them
        have hlong : 3 ≤ (encodeChar keep c).length := by
          rw [encodeChar, if_neg (by simpa using hc), String.utf8EncodeChar]
          split_ifs <;> simp [escape]
        have hlen := congrArg List.length h
        have hle := length_le_length_encode keep t
        rw [List.length_append, List.length_cons] at hlen
        omega
    · rintro ⟨hc, ht⟩
      rw [ht, encodeChar, if_pos (by simpa using hc)]
      rfl

/-- Different texts are written differently. -/
theorem encode_inj {keep : List Char} (hkeep : ∀ c ∈ keep, isLiteral c = true) {s t : Text}
    (h : encode keep s = encode keep t) : s = t := by
  have hs := decode_encode hkeep s
  rw [h, decode_encode hkeep] at hs
  exact (Except.ok.inj hs).symm

/-! ### Lenient decoding -/

/-- Lenient decoding gives the same text wherever strict decoding succeeds. -/
theorem decodeLenient_of_decode {t s : Text} (h : decode t = .ok s) : decodeLenient t = s := by
  rw [decodeLenient, readBytesLenient_of_readBytes (decode_eq_ok_iff.mp h),
    Utf8.decodeLossy_encode]

/-- Lenient decoding undoes encoding, too. -/
theorem decodeLenient_encode {keep : List Char} (hkeep : ∀ c ∈ keep, isLiteral c = true)
    (t : Text) : decodeLenient (encode keep t) = t :=
  decodeLenient_of_decode (decode_encode hkeep t)

end Percent

end CanonicalUri
