import CanonicalUri.Proofs.LetterCase
import Mathlib.Data.List.TakeWhile

/-!
# Byte offsets

A text can be taken apart by numbers: a place in it is given by how many bytes stand in front of it.
Not every number is a place; those beyond the end are not, and neither are those inside of a
character.

* `Text.exists_splitAt?_iff` tells from the bytes which numbers are places.
* `Text.slice?` takes what stands between two places, and `Text.slice?_eq_some_iff` says what that
  is. There is no answer when one of the two is no place, or when they are in the wrong order.
* `Text.offsets` are the places of the characters with some property, in their order.
* `Text.breakAt?` breaks a text at the first such place; `Text.breakAt?_eq_some` says that this goes
  well for every text.
* `Text.exists_append_of_getElem?`: a byte with the value of an ASCII character is at the place of
  that character, whatever characters are around it.
-/

namespace CanonicalUri

/-! ### Bytes -/

namespace Utf8

theorem encode_append (s t : Text) : encode (s ++ t) = encode s ++ encode t :=
  List.flatMap_append

theorem encode_inj {s t : Text} (h : encode s = encode t) : s = t := by
  have hdecode := congrArg decode? h
  rw [decode?_encode, decode?_encode] at hdecode
  exact Option.some.inj hdecode

/-- The bytes that stand inside of a character, behind its first one. -/
def IsInner (b : UInt8) : Prop :=
  0x80 ≤ b.toNat ∧ b.toNat < 0xC0

theorem isInner_of_mem_tail {c : Char} {b : UInt8} (h : b ∈ (String.utf8EncodeChar c).tail) :
    IsInner b := by
  have hval : c.val.toNat = c.toNat := rfl
  rw [String.utf8EncodeChar] at h
  simp only [hval] at h
  split_ifs at h
  · cases h
  all_goals
    simp only [List.tail_cons, List.mem_cons, List.not_mem_nil, or_false] at h
    rcases h with rfl | rfl | rfl
    all_goals
      simp only [IsInner, UInt8.toNat_ofNat']
      omega

theorem not_isInner_of_head? {c : Char} {b : UInt8}
    (h : (String.utf8EncodeChar c).head? = some b) : ¬IsInner b := by
  have hval : c.val.toNat = c.toNat := rfl
  have hvalid := c.valid
  simp only [UInt32.isValidChar, Nat.isValidChar, hval] at hvalid
  rw [String.utf8EncodeChar] at h
  simp only [hval] at h
  split_ifs at h
  all_goals
    obtain rfl := Option.some.inj h
    simp only [IsInner, UInt8.toNat_ofNat']
    omega

end Utf8

namespace Text

/-! ### Places -/

/-- The number of bytes of a text. -/
def size (t : Text) : Nat :=
  (Utf8.encode t).length

@[simp] theorem size_nil : size [] = 0 := rfl

@[simp] theorem size_cons (c : Char) (t : Text) : size (c :: t) = c.utf8Size + size t := by
  simp [size, Utf8.encode]

@[simp] theorem size_append (s t : Text) : size (s ++ t) = size s + size t := by
  simp [size, Utf8.encode]

theorem size_eq_zero_iff {t : Text} : size t = 0 ↔ t = [] := by
  cases t with
  | nil => simp
  | cons c t => simp [(Char.utf8Size_pos c).ne']

/-- Lower case changes no byte offsets. -/
@[simp] theorem size_map_toLower (t : Text) : size (t.map Char.toLower) = size t := by
  rw [size, Utf8.encode_map_toLower, List.length_map, size]

/-- The texts in front of a place and behind it. -/
def splitAt? : Text → Nat → Option (Text × Text)
  | t, 0 => some ([], t)
  | [], _ + 1 => none
  | c :: t, n + 1 =>
    if c.utf8Size ≤ n + 1 then (splitAt? t (n + 1 - c.utf8Size)).map fun p => (c :: p.1, p.2)
    else none

theorem splitAt?_size_append (s t : Text) : splitAt? (s ++ t) (size s) = some (s, t) := by
  induction s with
  | nil => cases t <;> rfl
  | cons c s ih =>
    obtain ⟨n, hn⟩ := Nat.exists_eq_add_one_of_ne_zero (Char.utf8Size_pos c).ne'
    have hsize : size (c :: s) = n + size s + 1 := by
      rw [size_cons, hn]
      omega
    rw [List.cons_append, hsize, splitAt?, hn, if_pos (by omega),
      show n + size s + 1 - (n + 1) = size s by omega, ih]
    rfl

theorem splitAt?_eq_some_iff {t a b : Text} {n : Nat} :
    splitAt? t n = some (a, b) ↔ t = a ++ b ∧ size a = n := by
  constructor
  · intro h
    fun_induction splitAt? t n generalizing a with
    | case1 t =>
      cases h
      exact ⟨rfl, rfl⟩
    | case2 => cases h
    | case3 c t n hle ih =>
      obtain ⟨⟨a, b⟩, hsplit, h⟩ := Option.map_eq_some_iff.mp h
      cases h
      obtain ⟨rfl, hsize⟩ := ih hsplit
      refine ⟨rfl, ?_⟩
      simp only [size_cons]
      omega
    | case4 => cases h
  · rintro ⟨rfl, rfl⟩
    exact splitAt?_size_append a b

/-- The text between two places. -/
def slice? (t : Text) (first last : Nat) : Option Text := do
  let (front, _) ← t.splitAt? last
  let (_, s) ← front.splitAt? first
  return s

theorem slice?_eq_some_iff {t s : Text} {first last : Nat} :
    slice? t first last = some s ↔
      ∃ a b, t = a ++ s ++ b ∧ size a = first ∧ size (a ++ s) = last := by
  simp only [slice?, Option.bind_eq_bind, Option.bind_eq_some_iff, Prod.exists, Option.pure_def,
    Option.some.injEq, splitAt?_eq_some_iff]
  constructor
  · rintro ⟨_, b, ⟨rfl, rfl⟩, a, _, ⟨rfl, rfl⟩, rfl⟩
    exact ⟨a, b, rfl, rfl, rfl⟩
  · rintro ⟨a, b, rfl, rfl, rfl⟩
    exact ⟨a ++ s, b, ⟨rfl, rfl⟩, a, s, ⟨rfl, rfl⟩, rfl⟩

/-- One byte into a character of two bytes there is no place. -/
example : slice? "é".toList 0 1 = none := by
  decide +kernel

theorem slice?_front (s b : Text) : slice? (s ++ b) 0 (size s) = some s :=
  slice?_eq_some_iff.mpr ⟨[], b, rfl, rfl, rfl⟩

theorem slice?_back (a s : Text) : slice? (a ++ s) (size a) (size (a ++ s)) = some s :=
  slice?_eq_some_iff.mpr ⟨a, [], by simp, rfl, rfl⟩

/-- What is behind a character of one byte begins one byte further on. -/
theorem slice?_behind {c : Char} (hc : c.utf8Size = 1) (s t : Text) :
    slice? (s ++ c :: t) (size s + 1) (size (s ++ c :: t)) = some t := by
  have h := slice?_back (s ++ [c]) t
  rwa [List.append_assoc, List.singleton_append, size_append s [c], size_cons, hc] at h

/-! ### Looking for characters -/

/-- The places of the characters with a property, from left to right. -/
def offsets (p : Char → Bool) : Text → List Nat
  | [] => []
  | c :: t =>
    let behind := (offsets p t).map (c.utf8Size + ·)
    if p c then 0 :: behind else behind

theorem offsets_append (p : Char → Bool) (s t : Text) :
    offsets p (s ++ t) = offsets p s ++ (offsets p t).map (size s + ·) := by
  induction s with
  | nil => simp [offsets]
  | cons c s ih =>
    simp only [List.cons_append, offsets, ih, List.map_append, List.map_map, size_cons]
    have hmap : (fun n => c.utf8Size + (size s + n)) = fun n => c.utf8Size + size s + n :=
      funext fun n => (Nat.add_assoc ..).symm
    split_ifs <;> simp [Function.comp_def, hmap]

theorem offsets_eq_nil {p : Char → Bool} {t : Text} (h : ∀ c ∈ t, p c = false) :
    offsets p t = [] := by
  induction t with
  | nil => rfl
  | cons c t ih =>
    rw [List.forall_mem_cons] at h
    simp [offsets, h.1, ih h.2]

/-- The place of a character is where the text in front of it ends. -/
theorem offsets_append_cons {p : Char → Bool} {c : Char} (hc : p c = true) (s t : Text) :
    offsets p (s ++ c :: t) =
      offsets p s ++ size s :: (offsets p t).map (size s + c.utf8Size + ·) := by
  rw [offsets_append]
  simp [offsets, hc, Function.comp_def, Nat.add_assoc]

theorem offsets_eq_nil_of_not_mem {c : Char} {t : Text} (h : c ∉ t) : offsets (· == c) t = [] :=
  offsets_eq_nil fun d hd => by simpa using ne_of_mem_of_not_mem hd h

theorem offsets_append_self {c : Char} {s : Text} (h : c ∉ s) (t : Text) :
    offsets (· == c) (s ++ c :: t) =
      size s :: (offsets (· == c) t).map (size s + c.utf8Size + ·) := by
  rw [offsets_append_cons (by simp), offsets_eq_nil_of_not_mem h, List.nil_append]

/-- Breaks a text in front of the first character with a property, or at its end. -/
def breakAt? (p : Char → Bool) (t : Text) : Option (Text × Text) := do
  let stop := (t.offsets p).head?.getD t.size
  let front ← t.slice? 0 stop
  let back ← t.slice? stop t.size
  return (front, back)

theorem breakAt?_append {p : Char → Bool} {s t : Text} (hs : ∀ c ∈ s, p c = false)
    (ht : ∀ c ∈ t.head?, p c = true) : breakAt? p (s ++ t) = some (s, t) := by
  have hstop : ((s ++ t).offsets p).head?.getD (s ++ t).size = size s := by
    obtain _ | ⟨c, t⟩ := t
    · rw [List.append_nil, offsets_eq_nil hs]
      rfl
    · rw [offsets_append_cons (ht c rfl), offsets_eq_nil hs]
      rfl
  rw [breakAt?, hstop, slice?_front, slice?_back]
  rfl

/-- Every text can be broken. -/
theorem breakAt?_eq_some (p : Char → Bool) (t : Text) :
    breakAt? p t = some (t.takeWhile (!p ·), t.dropWhile (!p ·)) := by
  have h := breakAt?_append (p := p) (s := t.takeWhile (!p ·)) (t := t.dropWhile (!p ·))
    (fun c hc => by simpa using List.mem_takeWhile_imp hc)
    (fun c hc => by simpa [Option.mem_def.mp hc] using List.head?_dropWhile_not (!p ·) t)
  rwa [List.takeWhile_append_dropWhile] at h

/-! ### Looking at bytes -/

/-- Wherever a byte is that does not stand inside of a character, a character begins. -/
theorem exists_append_of_not_isInner {t : Text} {n : Nat} {b : UInt8}
    (h : (Utf8.encode t)[n]? = some b) (hb : ¬Utf8.IsInner b) :
    ∃ s c r, t = s ++ c :: r ∧ size s = n ∧ (String.utf8EncodeChar c).head? = some b := by
  induction t generalizing n with
  | nil => cases h
  | cons d t ih =>
    have hbytes : Utf8.encode (d :: t) = String.utf8EncodeChar d ++ Utf8.encode t := rfl
    rw [hbytes] at h
    obtain hlt | hge := Nat.lt_or_ge n d.utf8Size
    · rw [List.getElem?_append_left (by simpa using hlt)] at h
      obtain _ | n := n
      · exact ⟨[], d, t, rfl, rfl, by rwa [List.head?_eq_getElem?]⟩
      · rw [← List.getElem?_tail] at h
        exact absurd (Utf8.isInner_of_mem_tail (List.mem_of_getElem? h)) hb
    · rw [List.getElem?_append_right (by simpa using hge), String.length_utf8EncodeChar] at h
      obtain ⟨s, c, r, rfl, hsize, hc⟩ := ih h
      refine ⟨d :: s, c, r, rfl, ?_, hc⟩
      rw [size_cons]
      omega

/-- A number is a place exactly when it is that of the end, or of a byte that does not stand inside
of a character. -/
theorem exists_splitAt?_iff {t : Text} {n : Nat} :
    (∃ a b, splitAt? t n = some (a, b)) ↔
      n = size t ∨ ∃ b, (Utf8.encode t)[n]? = some b ∧ ¬Utf8.IsInner b := by
  simp only [splitAt?_eq_some_iff]
  constructor
  · rintro ⟨a, _ | ⟨c, t⟩, rfl, rfl⟩
    · exact .inl (by simp)
    · obtain ⟨b, bytes, hbytes⟩ : ∃ b bytes, String.utf8EncodeChar c = b :: bytes :=
        List.exists_cons_of_ne_nil (by simp)
      refine .inr ⟨b, ?_, Utf8.not_isInner_of_head? (by rw [hbytes]; rfl)⟩
      rw [Utf8.encode_append, size, List.getElem?_append_right (Nat.le_refl _), Nat.sub_self]
      simp [Utf8.encode, hbytes]
  · rintro (rfl | ⟨b, h, hb⟩)
    · exact ⟨t, [], by simp, rfl⟩
    · obtain ⟨s, c, r, rfl, hsize, _⟩ := exists_append_of_not_isInner h hb
      exact ⟨s, c :: r, rfl, hsize⟩

/-- The byte of an ASCII character is at the place of that character. -/
theorem exists_append_of_getElem? {t : Text} {n : Nat} {c : Char} (hc : c.toNat < 128)
    (h : (Utf8.encode t)[n]? = some (UInt8.ofNat c.toNat)) :
    ∃ s r, t = s ++ c :: r ∧ size s = n := by
  have hb : ¬Utf8.IsInner (UInt8.ofNat c.toNat) := by
    rw [Utf8.IsInner, UInt8.toNat_ofNat']
    omega
  obtain ⟨s, d, r, rfl, hsize, hd⟩ := exists_append_of_not_isInner h hb
  obtain rfl := (Utf8.mem_encodeChar_iff hc).mp (List.mem_of_mem_head? hd)
  exact ⟨s, r, rfl, hsize⟩

/-- Texts whose bytes are an ending of the bytes of a text are an ending of that text. -/
theorem isSuffix_of_encode {s t : Text} (h : Utf8.encode s <:+ Utf8.encode t) : s <:+ t := by
  obtain ⟨front, hfront⟩ := h
  obtain _ | ⟨c, s⟩ := s
  · exact List.nil_suffix
  · obtain ⟨b, bytes, hbytes⟩ : ∃ b bytes, String.utf8EncodeChar c = b :: bytes :=
      List.exists_cons_of_ne_nil (by simp)
    have hb : (Utf8.encode t)[front.length]? = some b := by
      rw [← hfront]
      simp [Utf8.encode, hbytes]
    obtain ⟨a, d, r, rfl, hsize, _⟩ :=
      exists_append_of_not_isInner hb (Utf8.not_isInner_of_head? (by rw [hbytes]; rfl))
    -- behind the place where the first character begins there is nothing but the text
    rw [Utf8.encode_append] at hfront
    obtain ⟨-, hrest⟩ := List.append_inj hfront hsize.symm
    rw [Utf8.encode_inj hrest]
    exact List.suffix_append a (d :: r)

end Text

end CanonicalUri
