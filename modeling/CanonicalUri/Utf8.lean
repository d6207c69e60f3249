import CanonicalUri.Text.Basic

/-!
# UTF-8

Bytes are read as UTF-8 into *pieces*: a piece is a character, or bytes that begin no character.
The bytes of a bad piece form a longest beginning of a character, or a single byte that begins
none, so a bad piece is never longer than it has to be.

* `pieces_encode`: the bytes of a text are read back as the characters of that text.
* `flatMap_bytes_pieces`: the pieces of any bytes hold exactly those bytes.
* `decode?_eq_some_iff`: strict decoding accepts the bytes of texts and nothing else.
* `decodeLossy` puts the replacement character in place of every bad piece.
-/

namespace CanonicalUri

namespace Utf8

/-- The bytes of a text. -/
def encode (t : Text) : List UInt8 :=
  t.flatMap String.utf8EncodeChar

/-- What is found at the front of some bytes: a character, or bytes that begin none. -/
inductive Piece where
  | char (c : Char)
  | bad (bytes : List UInt8)
  deriving DecidableEq, Repr

/-- The bytes that a piece was read from. -/
def Piece.bytes : Piece → List UInt8
  | .char c => String.utf8EncodeChar c
  | .bad bs => bs

/-! ### Reading characters -/

/-- How many bytes a character with this first byte has; 0 when there is none. -/
def width (a : UInt8) : Nat :=
  if a.toNat < 0x80 then 1
  else if a.toNat < 0xC2 then 0
  else if a.toNat < 0xE0 then 2
  else if a.toNat < 0xF0 then 3
  else if a.toNat < 0xF5 then 4
  else 0

/-- Whether `b` may stand second after the first byte `a`. Four first bytes narrow the range, so
that no character has two spellings, none is a surrogate and none is above the last code point. -/
def mayFollow (a b : UInt8) : Bool :=
  decide ((if a.toNat = 0xE0 then 0xA0 else if a.toNat = 0xF0 then 0x90 else 0x80) ≤ b.toNat) &&
    decide (b.toNat ≤ if a.toNat = 0xED then 0x9F else if a.toNat = 0xF4 then 0x8F else 0xBF)

/-- Whether `b` may stand third or fourth. -/
def isTail (b : UInt8) : Bool :=
  decide (0x80 ≤ b.toNat) && decide (b.toNat ≤ 0xBF)

/-- The character of two bytes. -/
def two (a b : UInt8) : Char :=
  Char.ofNat ((a.toNat - 0xC0) * 64 + (b.toNat - 0x80))

/-- The character of three bytes. -/
def three (a b c : UInt8) : Char :=
  Char.ofNat ((a.toNat - 0xE0) * 4096 + (b.toNat - 0x80) * 64 + (c.toNat - 0x80))

/-- The character of four bytes. -/
def four (a b c d : UInt8) : Char :=
  Char.ofNat
    ((a.toNat - 0xF0) * 262144 + (b.toNat - 0x80) * 4096 + (c.toNat - 0x80) * 64 + (d.toNat - 0x80))

/-- The pieces of some bytes, read from the front. -/
def pieces : List UInt8 → List Piece
  | [] => []
  | a :: r =>
    if width a = 0 then .bad [a] :: pieces r
    else if width a = 1 then .char (Char.ofNat a.toNat) :: pieces r
    else
      match r with
      | [] => [.bad [a]]
      | b :: s =>
        if !mayFollow a b then .bad [a] :: pieces (b :: s)
        else if width a = 2 then .char (two a b) :: pieces s
        else
          match s with
          | [] => [.bad [a, b]]
          | c :: t =>
            if !isTail c then .bad [a, b] :: pieces (c :: t)
            else if width a = 3 then .char (three a b c) :: pieces t
            else
              match t with
              | [] => [.bad [a, b, c]]
              | d :: u =>
                if !isTail d then .bad [a, b, c] :: pieces (d :: u)
                else .char (four a b c d) :: pieces u

/-- The bytes of a text as text, if they are the bytes of a text. -/
def decode? (bytes : List UInt8) : Option Text :=
  (pieces bytes).mapM fun
    | .char c => some c
    | .bad _ => none

/-- The text shown for bytes that need not be the bytes of a text: each bad piece becomes one
replacement character. -/
def decodeLossy (bytes : List UInt8) : Text :=
  (pieces bytes).map fun
    | .char c => c
    | .bad _ => Char.ofNat 0xFFFD

/-! ### The pieces of a text -/

private theorem toNat_ofNat_of_lt {n : Nat} (h : n < 256) : (UInt8.ofNat n).toNat = n := by
  simpa using Nat.mod_eq_of_lt h

private theorem char_cases (c : Char) :
    c.val.toNat < 0xD800 ∨ (0xE000 ≤ c.val.toNat ∧ c.val.toNat < 0x110000) := by
  have h := c.valid
  simp only [UInt32.isValidChar, Nat.isValidChar] at h
  omega

private theorem ofNat_val (c : Char) {n : Nat} (h : n = c.val.toNat) : Char.ofNat n = c := by
  subst h
  exact Char.ofNat_toNat c

/-- The bytes of a character are read as that character. -/
theorem pieces_encodeChar_append (c : Char) (r : List UInt8) :
    pieces (String.utf8EncodeChar c ++ r) = .char c :: pieces r := by
  have hv := char_cases c
  unfold String.utf8EncodeChar
  simp only
  generalize hn : c.val.toNat = n at hv
  -- one byte
  split
  · have ha : (UInt8.ofNat n).toNat = n := toNat_ofNat_of_lt (by omega)
    have hw : width (UInt8.ofNat n) = 1 := by
      rw [width, ha, if_pos (by omega)]
    rw [List.cons_append, List.nil_append, pieces.eq_def]
    simp [hw, ha, ofNat_val c hn.symm]
  -- two bytes: a first byte below 0xE0 does not narrow the second
  split
  · have ha : (UInt8.ofNat (n / 64 % 32 + 192)).toNat = n / 64 % 32 + 192 :=
      toNat_ofNat_of_lt (by omega)
    have hb : (UInt8.ofNat (n % 64 + 128)).toNat = n % 64 + 128 := toNat_ofNat_of_lt (by omega)
    have hw : width (UInt8.ofNat (n / 64 % 32 + 192)) = 2 := by
      rw [width, ha]; (repeat' split) <;> omega
    have hf : mayFollow (UInt8.ofNat (n / 64 % 32 + 192)) (UInt8.ofNat (n % 64 + 128)) = true := by
      simp only [mayFollow, ha, hb, Bool.and_eq_true, decide_eq_true_eq]
      constructor <;> (repeat' split) <;> omega
    rw [List.cons_append, List.cons_append, List.nil_append, pieces.eq_def]
    simp only [hw, hf, two, ha, hb]
    rw [ofNat_val c (n := (n / 64 % 32 + 192 - 192) * 64 + (n % 64 + 128 - 128)) (by omega)]
    rfl
  -- three bytes: the second is narrowed by the short spellings and by the surrogates
  split
  · have ha : (UInt8.ofNat (n / 4096 % 16 + 224)).toNat = n / 4096 % 16 + 224 :=
      toNat_ofNat_of_lt (by omega)
    have hb : (UInt8.ofNat (n / 64 % 64 + 128)).toNat = n / 64 % 64 + 128 :=
      toNat_ofNat_of_lt (by omega)
    have hc : (UInt8.ofNat (n % 64 + 128)).toNat = n % 64 + 128 := toNat_ofNat_of_lt (by omega)
    have hw : width (UInt8.ofNat (n / 4096 % 16 + 224)) = 3 := by
      rw [width, ha]; (repeat' split) <;> omega
    have hf : mayFollow (UInt8.ofNat (n / 4096 % 16 + 224)) (UInt8.ofNat (n / 64 % 64 + 128))
        = true := by
      simp only [mayFollow, ha, hb, Bool.and_eq_true, decide_eq_true_eq]
      constructor <;> (repeat' split) <;> omega
    have ht : isTail (UInt8.ofNat (n % 64 + 128)) = true := by
      simp only [isTail, hc, Bool.and_eq_true, decide_eq_true_eq]
      omega
    rw [List.cons_append, List.cons_append, List.cons_append, List.nil_append, pieces.eq_def]
    simp only [hw, hf, ht, three, ha, hb, hc]
    rw [ofNat_val c (n := (n / 4096 % 16 + 224 - 224) * 4096
      + (n / 64 % 64 + 128 - 128) * 64 + (n % 64 + 128 - 128)) (by omega)]
    rfl
  -- four bytes: the second is narrowed by the short spellings and by the last code point
  · have ha : (UInt8.ofNat (n / 262144 % 8 + 240)).toNat = n / 262144 % 8 + 240 :=
      toNat_ofNat_of_lt (by omega)
    have hb : (UInt8.ofNat (n / 4096 % 64 + 128)).toNat = n / 4096 % 64 + 128 :=
      toNat_ofNat_of_lt (by omega)
    have hc : (UInt8.ofNat (n / 64 % 64 + 128)).toNat = n / 64 % 64 + 128 :=
      toNat_ofNat_of_lt (by omega)
    have hd : (UInt8.ofNat (n % 64 + 128)).toNat = n % 64 + 128 := toNat_ofNat_of_lt (by omega)
    have hw : width (UInt8.ofNat (n / 262144 % 8 + 240)) = 4 := by
      rw [width, ha]; (repeat' split) <;> omega
    have hf : mayFollow (UInt8.ofNat (n / 262144 % 8 + 240)) (UInt8.ofNat (n / 4096 % 64 + 128))
        = true := by
      simp only [mayFollow, ha, hb, Bool.and_eq_true, decide_eq_true_eq]
      constructor <;> (repeat' split) <;> omega
    have ht : isTail (UInt8.ofNat (n / 64 % 64 + 128)) = true := by
      simp only [isTail, hc, Bool.and_eq_true, decide_eq_true_eq]
      omega
    have hu : isTail (UInt8.ofNat (n % 64 + 128)) = true := by
      simp only [isTail, hd, Bool.and_eq_true, decide_eq_true_eq]
      omega
    rw [List.cons_append, List.cons_append, List.cons_append, List.cons_append, List.nil_append,
      pieces.eq_def]
    simp only [hw, hf, ht, hu, four, ha, hb, hc, hd]
    rw [ofNat_val c (n := (n / 262144 % 8 + 240 - 240) * 262144
      + (n / 4096 % 64 + 128 - 128) * 4096 + (n / 64 % 64 + 128 - 128) * 64
      + (n % 64 + 128 - 128)) (by omega)]
    rfl

/-- The bytes of a text are read back as the characters of that text. -/
theorem pieces_encode (t : Text) : pieces (encode t) = t.map .char := by
  induction t with
  | nil => rfl
  | cons c t ih =>
    rw [encode, List.flatMap_cons, pieces_encodeChar_append, List.map_cons]
    exact congrArg _ ih

/-! ### The bytes of the pieces -/

private theorem val_ofNat {n : Nat} (h : n < 0xD800 ∨ (0xE000 ≤ n ∧ n < 0x110000)) :
    (Char.ofNat n).val.toNat = n := by
  have hv : n.isValidChar := by
    simp only [Nat.isValidChar]
    omega
  unfold Char.ofNat
  rw [dif_pos hv]
  exact UInt32.toNat_ofNatLT ..

private theorem width_eq_one {a : UInt8} (h : width a = 1) : a.toNat < 0x80 := by
  unfold width at h
  (repeat' split at h) <;> omega

private theorem width_eq_two {a : UInt8} (h : width a = 2) : 0xC2 ≤ a.toNat ∧ a.toNat < 0xE0 := by
  unfold width at h
  (repeat' split at h) <;> omega

private theorem width_eq_three {a : UInt8} (h : width a = 3) :
    0xE0 ≤ a.toNat ∧ a.toNat < 0xF0 := by
  unfold width at h
  (repeat' split at h) <;> omega

private theorem width_eq_four {a : UInt8} (h0 : width a ≠ 0) (h1 : width a ≠ 1)
    (h2 : width a ≠ 2) (h3 : width a ≠ 3) : 0xF0 ≤ a.toNat ∧ a.toNat < 0xF5 := by
  unfold width at h0 h1 h2 h3
  (repeat' split at h0) <;> simp_all

private theorem mayFollow_iff {a b : UInt8} : mayFollow a b = true ↔
    (if a.toNat = 0xE0 then 0xA0 else if a.toNat = 0xF0 then 0x90 else 0x80) ≤ b.toNat ∧
      b.toNat ≤ (if a.toNat = 0xED then 0x9F else if a.toNat = 0xF4 then 0x8F else 0xBF) := by
  simp [mayFollow]

private theorem isTail_iff {b : UInt8} : isTail b = true ↔ 0x80 ≤ b.toNat ∧ b.toNat ≤ 0xBF := by
  simp [isTail]

private theorem ofNat_eq {b : UInt8} {n : Nat} (h : n = b.toNat) : UInt8.ofNat n = b := by
  subst h
  exact UInt8.ofNat_toNat

private theorem encodeChar_one {a : UInt8} (hw : width a = 1) :
    String.utf8EncodeChar (Char.ofNat a.toNat) = [a] := by
  have ha := width_eq_one hw
  unfold String.utf8EncodeChar
  rw [val_ofNat (by omega)]
  simp only
  rw [if_pos (by omega), ofNat_eq rfl]

private theorem encodeChar_two {a b : UInt8} (hw : width a = 2) (hb : mayFollow a b = true) :
    String.utf8EncodeChar (two a b) = [a, b] := by
  have ha := width_eq_two hw
  rw [mayFollow_iff] at hb
  have hb' : 0x80 ≤ b.toNat ∧ b.toNat ≤ 0xBF := by
    obtain ⟨h1, h2⟩ := hb
    constructor <;> ((repeat' split at h1) <;> (repeat' split at h2) <;> omega)
  unfold String.utf8EncodeChar two
  rw [val_ofNat (by omega)]
  simp only
  rw [if_neg (by omega), if_pos (by omega), ofNat_eq (b := a) (by omega),
    ofNat_eq (b := b) (by omega)]

private theorem encodeChar_three {a b c : UInt8} (hw : width a = 3) (hb : mayFollow a b = true)
    (hc : isTail c = true) : String.utf8EncodeChar (three a b c) = [a, b, c] := by
  have ha := width_eq_three hw
  rw [mayFollow_iff] at hb
  rw [isTail_iff] at hc
  have hb' : 0x80 ≤ b.toNat ∧ b.toNat ≤ 0xBF ∧ (a.toNat = 0xE0 → 0xA0 ≤ b.toNat) ∧
      (a.toNat = 0xED → b.toNat ≤ 0x9F) := by
    obtain ⟨h1, h2⟩ := hb
    refine ⟨?_, ?_, ?_, ?_⟩ <;> ((repeat' split at h1) <;> (repeat' split at h2) <;> omega)
  clear hb
  unfold String.utf8EncodeChar three
  rw [val_ofNat (by omega)]
  simp only
  rw [if_neg (by omega), if_neg (by omega), if_pos (by omega), ofNat_eq (b := a) (by omega),
    ofNat_eq (b := b) (by omega), ofNat_eq (b := c) (by omega)]

private theorem encodeChar_four {a b c d : UInt8} (ha : 0xF0 ≤ a.toNat ∧ a.toNat < 0xF5)
    (hb : mayFollow a b = true) (hc : isTail c = true) (hd : isTail d = true) :
    String.utf8EncodeChar (four a b c d) = [a, b, c, d] := by
  rw [mayFollow_iff] at hb
  rw [isTail_iff] at hc hd
  have hb' : 0x80 ≤ b.toNat ∧ b.toNat ≤ 0xBF ∧ (a.toNat = 0xF0 → 0x90 ≤ b.toNat) ∧
      (a.toNat = 0xF4 → b.toNat ≤ 0x8F) := by
    obtain ⟨h1, h2⟩ := hb
    refine ⟨?_, ?_, ?_, ?_⟩ <;> ((repeat' split at h1) <;> (repeat' split at h2) <;> omega)
  clear hb
  unfold String.utf8EncodeChar four
  rw [val_ofNat (by omega)]
  simp only
  rw [if_neg (by omega), if_neg (by omega), if_neg (by omega), ofNat_eq (b := a) (by omega),
    ofNat_eq (b := b) (by omega), ofNat_eq (b := c) (by omega), ofNat_eq (b := d) (by omega)]

/-- The pieces of any bytes hold exactly those bytes. -/
theorem flatMap_bytes_pieces (bytes : List UInt8) :
    (pieces bytes).flatMap Piece.bytes = bytes := by
  fun_induction pieces bytes with
  | case1 => rfl
  | case2 a r h ih => simp [Piece.bytes, ih]
  | case3 a r h0 h1 ih => simp [Piece.bytes, encodeChar_one h1, ih]
  | case4 a => simp [Piece.bytes]
  | case5 a h0 h1 b s hb ih => simp only [List.flatMap_cons, ih]; rfl
  | case6 a h0 h1 b s hb h2 ih =>
    simp [Piece.bytes, encodeChar_two h2 (by simpa using hb), ih]
  | case7 a => simp [Piece.bytes]
  | case8 a h0 h1 b hb h2 c t hc ih => simp only [List.flatMap_cons, ih]; rfl
  | case9 a h0 h1 b hb h2 c t hc h3 ih =>
    simp [Piece.bytes, encodeChar_three h3 (by simpa using hb) (by simpa using hc), ih]
  | case10 a => simp [Piece.bytes]
  | case11 a h0 h1 b hb h2 c hc h3 d u hd ih => simp only [List.flatMap_cons, ih]; rfl
  | case12 a h0 h1 b hb h2 c hc h3 d u hd ih =>
    simp [Piece.bytes, encodeChar_four (width_eq_four h0 h1 h2 h3) (by simpa using hb)
      (by simpa using hc) (by simpa using hd), ih]

/-! ### Strict and lossy decoding -/

theorem decode?_encode (t : Text) : decode? (encode t) = some t := by
  rw [decode?, pieces_encode]
  induction t with
  | nil => rfl
  | cons c t ih => simp [ih]

/-- Strict decoding accepts the bytes of a text and nothing else. -/
theorem decode?_eq_some_iff {bytes : List UInt8} {t : Text} :
    decode? bytes = some t ↔ bytes = encode t := by
  refine ⟨fun h => ?_, fun h => h ▸ decode?_encode t⟩
  rw [← flatMap_bytes_pieces bytes]
  rw [decode?] at h
  generalize pieces bytes = ps at h
  induction ps generalizing t with
  | nil => simp_all [encode]
  | cons p ps ih =>
    cases p with
    | bad bs => simp at h
    | char c =>
      simp only [List.mapM_cons, Option.pure_def, Option.bind_eq_bind, Option.bind_some,
        Option.bind_eq_some_iff, Option.some.injEq] at h
      obtain ⟨u, hu, rfl⟩ := h
      rw [List.flatMap_cons, ih hu]
      rfl

/-- Lossy decoding does nothing else to bytes that strict decoding accepts. -/
theorem decodeLossy_encode (t : Text) : decodeLossy (encode t) = t := by
  rw [decodeLossy, pieces_encode, List.map_map]
  exact List.map_id t

end Utf8

end CanonicalUri
