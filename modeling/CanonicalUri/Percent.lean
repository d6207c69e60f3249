import CanonicalUri.Text.Hex
import CanonicalUri.Utf8

/-!
# Percent escapes

Inside a URI a character that could be taken for a separator is written as the `%XX` escapes of
its UTF-8 bytes. This module holds one way to write and two ways to read.

* `encode keep` leaves ASCII letters, digits, `.`, `-`, `_` and the characters of `keep` as they
  are and escapes all else, with upper-case digits. `encodeBytes` does the same for bytes that need
  not be UTF-8; bytes that begin no character are always escaped.
* `readBytes` is strict: a plus is a space, `%` takes two hex digits, and any other character
  has to be a letter, a digit or one of `. - _ / ~ ! @ , ; : ( )`. The first offence is reported.
* `readBytesLenient` never fails: a `%` without two hex digits, like any other character, stands
  for itself.
* `decode` and `decodeLenient` read those bytes as UTF-8, strictly and lossily.

`readBytes_encodeBytes` and `decode_encode` say that strict reading undoes writing;
`readBytesLenient_of_readBytes` says that both readers agree wherever the strict one succeeds.
-/

namespace CanonicalUri

namespace Percent

/-! ### Escapes -/

/-- The byte that two hexadecimal digits spell. -/
def byteOf? (high low : Char) : Option UInt8 := do
  let h ← Hex.value? high
  let l ← Hex.value? low
  return UInt8.ofNat (h * 16 + l)

/-- The escape of a byte. -/
def escape (b : UInt8) : Text :=
  ['%', Hex.upperDigit (b.toNat / 16), Hex.upperDigit (b.toNat % 16)]

theorem byteOf?_upperDigit (b : UInt8) :
    byteOf? (Hex.upperDigit (b.toNat / 16)) (Hex.upperDigit (b.toNat % 16)) = some b := by
  have hb : b.toNat < 256 := b.toNat_lt
  have hval : b.toNat / 16 * 16 + b.toNat % 16 = b.toNat := by omega
  rw [byteOf?, Hex.value?_upperDigit (by omega), Hex.value?_upperDigit (by omega)]
  change some (UInt8.ofNat (b.toNat / 16 * 16 + b.toNat % 16)) = some b
  rw [hval, UInt8.ofNat_toNat]

/-! ### Writing -/

/-- ASCII letters, digits and `.`, `-`, `_` are never escaped. -/
def isUnreserved (c : Char) : Bool :=
  c.isAlphanum || c == '.' || c == '-' || c == '_'

/-- A character as itself if it is unreserved or to be kept, else as escapes. -/
def encodeChar (keep : List Char) (c : Char) : Text :=
  if isUnreserved c || keep.contains c then [c] else (String.utf8EncodeChar c).flatMap escape

/-- A text with all but the unreserved characters and those of `keep` escaped. -/
def encode (keep : List Char) (t : Text) : Text :=
  t.flatMap (encodeChar keep)

/-- Bytes as text: what is UTF-8 is written as `encode` does, and all other bytes are escaped. -/
def encodeBytes (keep : List Char) (bytes : List UInt8) : Text :=
  (Utf8.pieces bytes).flatMap fun
    | .char c => encodeChar keep c
    | .bad bs => bs.flatMap escape

@[simp] theorem encode_nil (keep : List Char) : encode keep [] = [] := rfl

@[simp] theorem encode_cons (keep : List Char) (c : Char) (t : Text) :
    encode keep (c :: t) = encodeChar keep c ++ encode keep t := rfl

theorem encode_append (keep : List Char) (s t : Text) :
    encode keep (s ++ t) = encode keep s ++ encode keep t := List.flatMap_append

/-- On the bytes of a text, `encodeBytes` is `encode`. -/
theorem encodeBytes_utf8 (keep : List Char) (t : Text) :
    encodeBytes keep (Utf8.encode t) = encode keep t := by
  rw [encodeBytes, Utf8.pieces_encode, List.flatMap_map, encode]

/-! ### Reading -/

/-- What can be wrong with an escaped text. -/
inductive Fault where
  /-- `%` without two hexadecimal digits; the two bytes after it, 0 past the end. -/
  | badEscape (first second : UInt8)
  /-- A character that may not stand for itself, by its first byte. -/
  | badChar (byte : UInt8)
  /-- The bytes are no UTF-8. -/
  | notUtf8
  deriving DecidableEq, Repr

/-- A text that could not be read, and why. -/
structure DecodeError where
  input : Text
  fault : Fault
  deriving DecidableEq, Repr

namespace DecodeError

def message (e : DecodeError) : String :=
  "urldecode(\"" ++ String.ofList e.input ++ "\", false) " ++
    match e.fault with
    | .badEscape first second =>
      "failed because of an invalid %xx character (digits are " ++ toString first.toNat ++ " / "
        ++ toString second.toNat ++ ")"
    | .badChar byte => "failed because of an invalid character (" ++ toString byte.toNat ++ ")"
    | .notUtf8 => "did not decode to valid UTF-8"

end DecodeError

/-- The characters that stand for themselves in strict reading. -/
def isLiteral (c : Char) : Bool :=
  isUnreserved c || ['/', '~', '!', '@', ',', ';', ':', '(', ')'].contains c

/-- The fault of a `%` that is followed by `rest`. -/
def strayPercent (rest : Text) : Fault :=
  let after := Utf8.encode (rest.take 2)
  .badEscape (after.getD 0 0) (after.getD 1 0)

/-- The bytes that a text stands for, or the first offence in it. -/
def readBytes : Text → Except Fault (List UInt8)
  | [] => .ok []
  | c :: rest =>
    if c = '+' then (readBytes rest).map (0x20 :: ·)
    else if c = '%' then
      match rest with
      | high :: low :: rest' =>
        match byteOf? high low with
        | some b => (readBytes rest').map (b :: ·)
        | none => .error (strayPercent (high :: low :: rest'))
      | short => .error (strayPercent short)
    else if isLiteral c then (readBytes rest).map (UInt8.ofNat c.toNat :: ·)
    else .error (.badChar ((String.utf8EncodeChar c).headD 0))

/-- The bytes that a text stands for when whatever is no escape stands for itself. -/
def readBytesLenient : Text → List UInt8
  | [] => []
  | c :: rest =>
    if c = '+' then 0x20 :: readBytesLenient rest
    else if c = '%' then
      match rest with
      | high :: low :: rest' =>
        match byteOf? high low with
        | some b => b :: readBytesLenient rest'
        | none => 0x25 :: readBytesLenient (high :: low :: rest')
      | short => 0x25 :: readBytesLenient short
    else String.utf8EncodeChar c ++ readBytesLenient rest

/-- The bytes that a text stands for, strictly. -/
def decodeBytes (t : Text) : Except DecodeError (List UInt8) :=
  (readBytes t).mapError (⟨t, ·⟩)

/-- The text that an escaped text stands for, strictly. -/
def decode (t : Text) : Except DecodeError Text := do
  match Utf8.decode? (← decodeBytes t) with
  | some s => return s
  | none => throw ⟨t, .notUtf8⟩

/-- The text that any text stands for, read leniently; bytes that are no UTF-8 are replaced. -/
def decodeLenient (t : Text) : Text :=
  Utf8.decodeLossy (readBytesLenient t)

/-! ### Reading what was written -/

theorem readBytes_escape_append (b : UInt8) (r : Text) :
    readBytes (escape b ++ r) = (readBytes r).map (b :: ·) := by
  simp only [escape, List.cons_append, List.nil_append]
  rw [readBytes.eq_def]
  simp [byteOf?_upperDigit]

theorem readBytesLenient_escape_append (b : UInt8) (r : Text) :
    readBytesLenient (escape b ++ r) = b :: readBytesLenient r := by
  simp only [escape, List.cons_append, List.nil_append]
  rw [readBytesLenient.eq_def]
  simp [byteOf?_upperDigit]

private theorem map_cons_append (b : UInt8) (bs : List UInt8) (e : Except Fault (List UInt8)) :
    (e.map (bs ++ ·)).map (b :: ·) = e.map (b :: bs ++ ·) := by
  cases e <;> rfl

theorem readBytes_flatMap_escape_append (bs : List UInt8) (r : Text) :
    readBytes (bs.flatMap escape ++ r) = (readBytes r).map (bs ++ ·) := by
  induction bs with
  | nil => cases h : readBytes r <;> simp [h, Except.map]
  | cons b bs ih =>
    rw [List.flatMap_cons, List.append_assoc, readBytes_escape_append, ih, map_cons_append]

theorem readBytesLenient_flatMap_escape_append (bs : List UInt8) (r : Text) :
    readBytesLenient (bs.flatMap escape ++ r) = bs ++ readBytesLenient r := by
  induction bs with
  | nil => rfl
  | cons b bs ih =>
    rw [List.flatMap_cons, List.append_assoc, readBytesLenient_escape_append, ih, List.cons_append]

private theorem toNat_lt_of_isAlphanum {c : Char} (h : c.isAlphanum = true) : c.toNat < 128 := by
  have hle : ∀ {d : Char}, c.val ≤ d.val → d.toNat < 128 → c.toNat < 128 := fun hcd hd =>
    Nat.lt_of_le_of_lt (UInt32.le_iff_toNat_le.mp hcd) hd
  have hcases : ((c.isUpper || c.isLower) || c.isDigit) = true := h
  rw [Bool.or_eq_true, Bool.or_eq_true] at hcases
  rcases hcases with (hupper | hlower) | hdigit
  · exact hle (of_decide_eq_true hupper).2 (by decide)
  · exact hle (of_decide_eq_true (Bool.and_eq_true_iff.mp hlower).2) (by decide)
  · exact hle (of_decide_eq_true (Bool.and_eq_true_iff.mp hdigit).2) (by decide)

/-- Strict reading takes no character for itself that is not ASCII. -/
theorem toNat_lt_of_isLiteral {c : Char} (h : isLiteral c = true) : c.toNat < 128 := by
  simp only [isLiteral, isUnreserved, Bool.or_eq_true, beq_iff_eq, List.contains_eq_mem,
    List.mem_cons, List.not_mem_nil, or_false, decide_eq_true_eq] at h
  rcases h with (((h | rfl) | rfl) | rfl) | rfl | rfl | rfl | rfl | rfl | rfl | rfl | rfl | rfl
  · exact toNat_lt_of_isAlphanum h
  all_goals decide

/-- A character that may stand for itself is neither a plus nor a percent sign. -/
theorem ne_of_isLiteral {c : Char} (h : isLiteral c = true) : c ≠ '+' ∧ c ≠ '%' := by
  constructor <;> (rintro rfl; revert h; decide)

theorem isLiteral_of_isUnreserved {c : Char} (h : isUnreserved c = true) : isLiteral c = true := by
  simp [isLiteral, h]

/-- An ASCII character is one byte. -/
theorem utf8EncodeChar_of_lt {c : Char} (h : c.toNat < 128) :
    String.utf8EncodeChar c = [UInt8.ofNat c.toNat] := by
  unfold String.utf8EncodeChar
  exact if_pos (Nat.le_of_lt_succ h)

/-- A character is written so that strict reading gives back its bytes. -/
theorem readBytes_encodeChar_append {keep : List Char} (hkeep : ∀ c ∈ keep, isLiteral c = true)
    (c : Char) (r : Text) :
    readBytes (encodeChar keep c ++ r) = (readBytes r).map (String.utf8EncodeChar c ++ ·) := by
  unfold encodeChar
  split
  · rename_i h
    have hc : isLiteral c = true := by
      simp only [Bool.or_eq_true, List.contains_eq_mem, decide_eq_true_eq] at h
      exact h.elim isLiteral_of_isUnreserved (hkeep c)
    obtain ⟨hplus, hpercent⟩ := ne_of_isLiteral hc
    rw [utf8EncodeChar_of_lt (toNat_lt_of_isLiteral hc), List.singleton_append, readBytes.eq_def]
    simp [hplus, hpercent, hc]
  · exact readBytes_flatMap_escape_append _ r

/-- Strict reading undoes the writing of bytes, whatever they are. -/
theorem readBytes_encodeBytes {keep : List Char} (hkeep : ∀ c ∈ keep, isLiteral c = true)
    (bytes : List UInt8) : readBytes (encodeBytes keep bytes) = .ok bytes := by
  rw [encodeBytes]
  suffices h : ∀ ps : List Utf8.Piece, readBytes (ps.flatMap fun
      | .char c => encodeChar keep c
      | .bad bs => bs.flatMap escape) = .ok (ps.flatMap Utf8.Piece.bytes) by
    rw [h, Utf8.flatMap_bytes_pieces]
  intro ps
  induction ps with
  | nil => rfl
  | cons p ps ih =>
    rw [List.flatMap_cons, List.flatMap_cons]
    cases p with
    | char c => rw [readBytes_encodeChar_append hkeep, ih]; rfl
    | bad bs => rw [readBytes_flatMap_escape_append, ih]; rfl

/-- Strict decoding undoes encoding. -/
theorem decode_encode {keep : List Char} (hkeep : ∀ c ∈ keep, isLiteral c = true) (t : Text) :
    decode (encode keep t) = .ok t := by
  have h := readBytes_encodeBytes hkeep (Utf8.encode t)
  rw [encodeBytes_utf8] at h
  have hbytes : decodeBytes (encode keep t) = .ok (Utf8.encode t) := by
    rw [decodeBytes, h]
    rfl
  rw [decode, hbytes]
  change (match Utf8.decode? (Utf8.encode t) with
    | some s => (.ok s : Except DecodeError Text)
    | none => .error ⟨encode keep t, .notUtf8⟩) = .ok t
  rw [Utf8.decode?_encode]

/-! ### The two readers -/

private theorem map_eq_ok {e : Except Fault (List UInt8)} {f : List UInt8 → List UInt8}
    {bytes : List UInt8} (h : e.map f = .ok bytes) : ∃ bs, e = .ok bs ∧ f bs = bytes := by
  cases e with
  | error e => cases h
  | ok bs => exact ⟨bs, rfl, Except.ok.inj h⟩

/-- Wherever strict reading succeeds, lenient reading gives the same bytes. -/
theorem readBytesLenient_of_readBytes {t : Text} {bytes : List UInt8}
    (h : readBytes t = .ok bytes) : readBytesLenient t = bytes := by
  fun_induction readBytes t generalizing bytes with
  | case1 => cases h; rfl
  | case2 rest ih =>
    obtain ⟨bs, hbs, rfl⟩ := map_eq_ok h
    rw [readBytesLenient.eq_def]
    simp [ih hbs]
  | case3 high low rest b hb _ ih =>
    obtain ⟨bs, hbs, rfl⟩ := map_eq_ok h
    rw [readBytesLenient.eq_def]
    simp [hb, ih hbs]
  | case4 => cases h
  | case5 => cases h
  | case6 c rest hplus hpercent hc ih =>
    obtain ⟨bs, hbs, rfl⟩ := map_eq_ok h
    rw [readBytesLenient.eq_def]
    simp [hplus, hpercent, utf8EncodeChar_of_lt (toNat_lt_of_isLiteral hc), ih hbs]
  | case7 => cases h

end Percent

end CanonicalUri
