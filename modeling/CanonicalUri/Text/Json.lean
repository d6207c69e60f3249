import CanonicalUri.Text.Hex

/-!
# JSON strings

A text as a JSON string and back. What is kept in JSON needs no more of the way in which strings
are written than that they can be read again; this is a `JsonCodec`.

`JsonString.codec` is the one in use. Writing escapes only quotes, backslashes and control
characters; reading accepts every escape of JSON, pairs of surrogates included.
`JsonString.unquote?_quote` says that reading undoes writing.
-/

namespace CanonicalUri

/-- A way to write texts as JSON strings, from which they are read again. -/
structure JsonCodec where
  quote : Text → Text
  unquote? : Text → Option Text
  unquote?_quote : ∀ t, unquote? (quote t) = some t

namespace JsonString

/-! ### Writing -/

/-- The letter that stands for a character after a backslash, if it has one. -/
def letter? (c : Char) : Option Char :=
  if c = '"' then some '"'
  else if c = '\\' then some '\\'
  else if c = '\n' then some 'n'
  else if c = '\r' then some 'r'
  else if c = '\t' then some 't'
  else if c.toNat = 0x08 then some 'b'
  else if c.toNat = 0x0C then some 'f'
  else none

/-- A character inside a string. -/
def escape (c : Char) : Text :=
  match letter? c with
  | some l => ['\\', l]
  | none =>
    if c.toNat < 0x20 then
      ['\\', 'u', '0', '0', (c.toNat / 16).digitChar, (c.toNat % 16).digitChar]
    else [c]

/-- A text as a JSON string. -/
def quote (t : Text) : Text :=
  '"' :: t.flatMap escape ++ ['"']

/-! ### Reading -/

/-- The character that a letter stands for after a backslash. -/
def unletter? (l : Char) : Option Char :=
  if l = '"' then some '"'
  else if l = '\\' then some '\\'
  else if l = '/' then some '/'
  else if l = 'n' then some '\n'
  else if l = 'r' then some '\r'
  else if l = 't' then some '\t'
  else if l = 'b' then some (Char.ofNat 0x08)
  else if l = 'f' then some (Char.ofNat 0x0C)
  else none

/-- The number that four hexadecimal digits denote. -/
def unit? (a b c d : Char) : Option Nat :=
  Hex.read? [a, b, c, d]

/-- The character of a pair of surrogates. -/
def ofSurrogates? (high low : Nat) : Option Char :=
  if 0xD800 ≤ high ∧ high < 0xDC00 ∧ 0xDC00 ≤ low ∧ low < 0xE000 then
    some (Char.ofNat (0x10000 + (high - 0xD800) * 0x400 + (low - 0xDC00)))
  else none

/-- The white space of JSON. -/
def isSpace (c : Char) : Bool :=
  c == ' ' || c == '\n' || c == '\r' || c == '\t'

/-- Reads the characters of a string up to its closing quote, after which only white space may
follow. -/
def readRest : Text → Option Text
  | [] => none
  | c :: t =>
    if c = '"' then if t.all isSpace then some [] else none
    else if c = '\\' then
      match t with
      | [] => none
      | l :: t =>
        if l = 'u' then
          match t with
          | a :: b :: c :: d :: t =>
            match unit? a b c d with
            | none => none
            | some m =>
              if m < 0xD800 ∨ 0xE000 ≤ m then (readRest t).map (Char.ofNat m :: ·)
              else
                match t with
                | '\\' :: 'u' :: e :: f :: g :: h :: t =>
                  ((unit? e f g h).bind (ofSurrogates? m)).bind fun x => (readRest t).map (x :: ·)
                | _ => none
          | _ => none
        else (unletter? l).bind fun x => (readRest t).map (x :: ·)
    else if c.toNat < 0x20 then none
    else (readRest t).map (c :: ·)

/-- The text that a JSON string denotes, with white space allowed around it. -/
def unquote? (t : Text) : Option Text :=
  match t.dropWhile isSpace with
  | '"' :: t => readRest t
  | _ => none

/-! ### Reading what was written -/

private theorem unletter?_letter? {c l : Char} (h : letter? c = some l) :
    unletter? l = some c ∧ l ≠ 'u' := by
  unfold letter? at h
  have hchar : ∀ {n : Nat}, c.toNat = n → Char.ofNat n = c := fun hn => hn ▸ Char.ofNat_toNat c
  (repeat' split at h) <;> cases h
  any_goals subst_vars; decide
  all_goals rename_i hn; rw [← hchar hn]; decide

private theorem unit?_control {n : Nat} (h : n < 0x20) :
    unit? '0' '0' (n / 16).digitChar (n % 16).digitChar = some n := by
  have hall : ∀ n, n < 0x20 → unit? '0' '0' (n / 16).digitChar (n % 16).digitChar = some n := by
    decide
  exact hall n h

/-- A written character is read as that character. -/
theorem readRest_escape_append (c : Char) (t : Text) :
    readRest (escape c ++ t) = (readRest t).map (c :: ·) := by
  unfold escape
  split
  · rename_i l hl
    obtain ⟨hl, hu⟩ := unletter?_letter? hl
    rw [List.cons_append, List.singleton_append, readRest.eq_def]
    simp [hu, hl]
  · rename_i hl
    split
    · rename_i hc
      simp only [List.cons_append, List.nil_append]
      rw [readRest.eq_def]
      have hm : c.toNat < 0xD800 ∨ 0xE000 ≤ c.toNat := .inl (by omega)
      simp [unit?_control hc, hm, Char.ofNat_toNat]
    · rename_i hc
      have hne : c ≠ '"' ∧ c ≠ '\\' := by
        constructor <;> (rintro rfl; simp [letter?] at hl)
      rw [List.singleton_append, readRest.eq_def]
      simp [hne.1, hne.2, hc]

/-- The JSON string of a text denotes that text. -/
theorem unquote?_quote (t : Text) : unquote? (quote t) = some t := by
  suffices h : readRest (t.flatMap escape ++ ['"']) = some t by
    simpa [unquote?, quote, isSpace] using h
  induction t with
  | nil => simp [readRest]
  | cons c t ih =>
    rw [List.flatMap_cons, List.append_assoc, readRest_escape_append, ih]
    rfl

/-- The strings of JSON. -/
def codec : JsonCodec :=
  ⟨quote, unquote?, unquote?_quote⟩

end JsonString

end CanonicalUri
