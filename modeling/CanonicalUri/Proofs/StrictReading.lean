import CanonicalUri.Proofs.EscapedBytes
import CanonicalUri.Proofs.Respelling
import Mathlib.Data.List.GetD
import Mathlib.Order.Bounds.Basic

/-!
# Strict reading

Strict reading accepts the texts that consist of *tokens*, each of which stands for one byte: a
plus, an escape with digits of either case, or a character that stands for itself. No token is a
beginning of another one, so a text consists of tokens in one way at most, and the first offence is
where the longest beginning that consists of tokens ends.

* `Percent.exists_tokens_append`: every text has such a beginning, which is found by reading token
  after token from the left; `Percent.Tokens.isPrefix` says that none is longer.
* `Percent.readBytes_of_isStuck`: what strict reading reports is seen in the bytes at that place.
* `Percent.decode_tokens` says for every text what strict reading gives, as bytes and as text.
-/

namespace CanonicalUri

/-- The digits with a value, of either case. -/
theorem Hex.value?_eq_some_iff {c : Char} {n : Nat} :
    value? c = some n ↔ n < 16 ∧ c.toLower = n.digitChar := by
  constructor
  · intro h
    have hlt : c.toNat < 128 := by
      rw [value?] at h
      split_ifs at h <;> omega
    exact Text.forall_ascii (P := fun c => ∀ n ∈ value? c, n < 16 ∧ c.toLower = n.digitChar)
      (by decide) hlt n h
  · rintro ⟨hn, hc⟩
    rw [← value?_toLower, hc, value?_digitChar hn]

namespace Percent

/-! ### Tokens -/

/-- The texts that stand for one byte in strict reading, with that byte. -/
inductive Token : Text → UInt8 → Prop
  | plus : Token ['+'] 0x20
  | escape {high low : Char} {m n : Nat} (hm : m < 16) (hn : n < 16)
      (hhigh : high.toLower = m.digitChar) (hlow : low.toLower = n.digitChar) :
      Token ['%', high, low] (UInt8.ofNat (16 * m + n))
  | literal {c : Char} (hc : c.isAlphanum = true ∨ c ∈ ".-_/~!@,;:()".toList) :
      Token [c] (UInt8.ofNat c.toNat)

/-- The texts that consist of tokens, with the bytes that these stand for. -/
inductive Tokens : Text → List UInt8 → Prop
  | nil : Tokens [] []
  | cons {s t : Text} {b : UInt8} {bytes : List UInt8} (hs : Token s b) (ht : Tokens t bytes) :
      Tokens (s ++ t) (b :: bytes)

theorem byteOf?_eq_some_iff {high low : Char} {b : UInt8} :
    byteOf? high low = some b ↔ Token ['%', high, low] b := by
  simp only [byteOf?, Option.bind_eq_bind, Option.bind_eq_some_iff, Option.pure_def,
    Option.some.injEq, Hex.value?_eq_some_iff]
  constructor
  · rintro ⟨m, ⟨hm, hhigh⟩, n, ⟨hn, hlow⟩, rfl⟩
    rw [Nat.mul_comm]
    exact .escape hm hn hhigh hlow
  · rintro (_ | ⟨hm, hn, hhigh, hlow⟩)
    exact ⟨_, ⟨hm, hhigh⟩, _, ⟨hn, hlow⟩, by rw [Nat.mul_comm]⟩

theorem Token.ne_nil {s : Text} {b : UInt8} (h : Token s b) : s ≠ [] := by
  cases h <;> exact List.cons_ne_nil _ _

/-- A token is read as its byte. -/
theorem Token.readBytes {s : Text} {b : UInt8} (h : Token s b) :
    Percent.readBytes s = .ok [b] := by
  cases h with
  | plus => rfl
  | escape hm hn hhigh hlow =>
    have hb := byteOf?_eq_some_iff.mpr (.escape hm hn hhigh hlow)
    exact readBytes_escape_eq_ok_iff.mpr ⟨_, hb, [], rfl, rfl⟩
  | @literal c hc =>
    have hc := isLiteral_iff.mpr hc
    obtain ⟨hplus, hpercent⟩ := ne_of_isLiteral hc
    refine (readBytes_cons_eq_ok_iff hpercent).mpr ⟨.inr hc, [], rfl, ?_⟩
    rw [if_neg hplus]

/-- Tokens are read one after the other. -/
theorem Tokens.readBytes {t : Text} {bytes : List UInt8} (h : Tokens t bytes) :
    Percent.readBytes t = .ok bytes := by
  induction h with
  | nil => rfl
  | cons hs _ ih => rw [readBytes_append hs.readBytes, ih]; rfl

/-! ### The longest beginning of tokens -/

/-- Two tokens that begin one text are the same. -/
theorem Token.eq_of_isPrefix {s s' t : Text} {b b' : UInt8} (h : Token s b) (h' : Token s' b')
    (hs : s <+: t) (hs' : s' <+: t) : s = s' := by
  obtain ⟨r, rfl⟩ := hs
  obtain ⟨r', heq⟩ := hs'
  have hliteral : ∀ {c : Char}, c.isAlphanum = true ∨ c ∈ ".-_/~!@,;:()".toList →
      c ≠ '+' ∧ c ≠ '%' := fun hc => ne_of_isLiteral (isLiteral_iff.mpr hc)
  -- the first character tells of which kind a token is
  cases h with
  | plus =>
    cases h' with
    | plus => rfl
    | escape => cases (List.cons.inj heq).1
    | literal hc => exact absurd (List.cons.inj heq).1 (hliteral hc).1
  | escape =>
    cases h' with
    | plus => cases (List.cons.inj heq).1
    | escape =>
      simp only [List.cons_append, List.nil_append, List.cons.injEq, true_and] at heq
      obtain ⟨rfl, rfl, _⟩ := heq
      rfl
    | literal hc => exact absurd (List.cons.inj heq).1 (hliteral hc).2
  | literal hc =>
    cases h' with
    | plus => exact absurd (List.cons.inj heq).1.symm (hliteral hc).1
    | escape => exact absurd (List.cons.inj heq).1.symm (hliteral hc).2
    | literal => rw [(List.cons.inj heq).1]

/-- Whether no token begins a text. -/
def IsStuck (t : Text) : Prop :=
  ∀ s b, Token s b → ¬s <+: t

/-- Reading token after token comes to the end of the text or gets stuck. -/
theorem exists_tokens_append (t : Text) :
    ∃ front bytes rest, t = front ++ rest ∧ Tokens front bytes ∧ IsStuck rest := by
  induction hlen : t.length using Nat.strongRecOn generalizing t with
  | ind n ih =>
    by_cases hstuck : IsStuck t
    · exact ⟨[], [], t, rfl, .nil, hstuck⟩
    · simp only [IsStuck, not_forall, not_not] at hstuck
      obtain ⟨s, b, hs, t', rfl⟩ := hstuck
      have hpos := List.length_pos_iff.mpr hs.ne_nil
      rw [List.length_append] at hlen
      obtain ⟨front, bytes, rest, rfl, htokens, hrest⟩ := ih t'.length (by omega) t' rfl
      exact ⟨s ++ front, b :: bytes, rest, by rw [List.append_assoc], .cons hs htokens, hrest⟩

/-- No longer beginning consists of tokens. -/
theorem Tokens.isPrefix {front front' rest : Text} {bytes bytes' : List UInt8}
    (h : Tokens front bytes) (hrest : IsStuck rest) (h' : Tokens front' bytes')
    (hpre : front' <+: front ++ rest) : front' <+: front := by
  induction h' generalizing front bytes with
  | nil => exact List.nil_prefix
  | @cons s' t' b' bytes' hs' _ ih =>
    have hhead : s' <+: front ++ rest := (List.prefix_append s' t').trans hpre
    cases h with
    | nil => exact absurd hhead (hrest s' b' hs')
    | @cons s t b bytes hs ht =>
      rw [List.append_assoc] at hpre hhead
      obtain rfl := hs.eq_of_isPrefix hs' (List.prefix_append s _) hhead
      rw [List.prefix_append_right_inj] at hpre ⊢
      exact ih ht hpre

/-- The lengths, in bytes, of the beginnings of a text that consist of tokens. -/
def tokenEnds (t : Text) : Set Nat :=
  {n | ∃ front, front <+: t ∧ (∃ bytes, Tokens front bytes) ∧ (Utf8.encode front).length = n}

theorem isGreatest_tokenEnds {front rest : Text} {bytes : List UInt8} (h : Tokens front bytes)
    (hrest : IsStuck rest) : IsGreatest (tokenEnds (front ++ rest)) (Utf8.encode front).length := by
  refine ⟨⟨front, List.prefix_append front rest, ⟨bytes, h⟩, rfl⟩, ?_⟩
  rintro _ ⟨front', hpre, ⟨bytes', h'⟩, rfl⟩
  obtain ⟨more, rfl⟩ := h.isPrefix hrest h' hpre
  rw [Utf8.encode, Utf8.encode, List.flatMap_append, List.length_append]
  exact Nat.le_add_right _ _

/-! ### The first offence -/

/-- The fault that the byte at a place is: a percent sign is one for the two bytes behind it, 0 past
the end, and any other byte for itself. -/
def offenceAt (raw : List UInt8) (k : Nat) : Fault :=
  if raw[k]? = some 0x25 then .badEscape (raw.getD (k + 1) 0) (raw.getD (k + 2) 0)
  else .badChar (raw.getD k 0)

theorem offenceAt_append (front raw : List UInt8) :
    offenceAt (front ++ raw) front.length = offenceAt raw 0 := by
  simp [offenceAt, List.getElem?_append_right]

/-- A percent sign is the only character whose bytes begin with that of a percent sign. -/
private theorem eq_percent_of_encodeChar {c : Char} {bytes : List UInt8}
    (h : String.utf8EncodeChar c = 0x25 :: bytes) : c = '%' := by
  have hc := Utf8.pieces_encodeChar_append c []
  have hpercent := Utf8.pieces_encodeChar_append '%' bytes
  rw [List.append_nil, h] at hc
  exact Utf8.Piece.char.inj (List.cons.inj (hc.symm.trans hpercent)).1

/-- The first two bytes of a text are those of its first two characters. -/
private theorem getD_encode_take {t : Text} {i : Nat} (hi : i < 2) :
    (Utf8.encode (t.take 2)).getD i 0 = (Utf8.encode t).getD i 0 := by
  match t with
  | [] => rfl
  | [_] => rfl
  | a :: b :: t =>
    have ha : 0 < (String.utf8EncodeChar a).length := by
      rw [String.length_utf8EncodeChar]
      exact a.utf8Size_pos
    have hb : 0 < (String.utf8EncodeChar b).length := by
      rw [String.length_utf8EncodeChar]
      exact b.utf8Size_pos
    have happend : Utf8.encode (a :: b :: t) = Utf8.encode [a, b] ++ Utf8.encode t := by
      simp [Utf8.encode]
    have hlong : i < (Utf8.encode [a, b]).length := by
      simp only [Utf8.encode, List.flatMap_cons, List.flatMap_nil, List.append_nil,
        List.length_append]
      omega
    rw [happend, List.getD_append _ _ _ _ hlong]
    rfl

/-- A percent sign that begins no escape is the offence with the two bytes behind it. -/
private theorem strayPercent_eq (t : Text) :
    strayPercent t = offenceAt (Utf8.encode ('%' :: t)) 0 := by
  have hbytes : Utf8.encode ('%' :: t) = 0x25 :: Utf8.encode t := rfl
  rw [hbytes, strayPercent, getD_encode_take (by decide), getD_encode_take (by decide)]
  rfl

/-- Where reading gets stuck, the byte there is the offence. -/
theorem readBytes_of_isStuck {t : Text} (ht : t ≠ []) (h : IsStuck t) :
    readBytes t = .error (offenceAt (Utf8.encode t) 0) := by
  obtain ⟨c, t, rfl⟩ := List.exists_cons_of_ne_nil ht
  have hplus : c ≠ '+' := by
    rintro rfl
    exact h _ _ .plus (List.prefix_append ['+'] t)
  by_cases hpercent : c = '%'
  · subst hpercent
    rw [← strayPercent_eq, readBytes.eq_def]
    simp only [hplus, if_false, if_true]
    split
    · rename_i high low t
      have hnone : byteOf? high low = none := by
        rw [Option.eq_none_iff_forall_ne_some]
        intro b hb
        exact h _ _ (byteOf?_eq_some_iff.mp hb) (List.prefix_append ['%', high, low] t)
      rw [hnone]
    · rfl
  · have hliteral : isLiteral c ≠ true := fun hc =>
      h _ _ (.literal (isLiteral_iff.mp hc)) (List.prefix_append [c] t)
    obtain ⟨b, bytes, hb⟩ : ∃ b bytes, String.utf8EncodeChar c = b :: bytes :=
      List.exists_cons_of_ne_nil (by simp)
    have hne : b ≠ 0x25 := by
      rintro rfl
      exact hpercent (eq_percent_of_encodeChar hb)
    rw [readBytes.eq_def]
    simp [hplus, hpercent, hliteral, Utf8.encode, hb, offenceAt, hne]

/-! ### What strict reading gives -/

/-- A text is read to its end, or up to the end of the longest beginning that consists of tokens. -/
theorem readBytes_cases (t : Text) :
    (∃ bytes, Tokens t bytes ∧ readBytes t = .ok bytes) ∨
      (¬∃ bytes, Tokens t bytes) ∧ ∃ k, IsGreatest (tokenEnds t) k ∧
        readBytes t = .error (offenceAt (Utf8.encode t) k) := by
  obtain ⟨front, bytes, rest, rfl, htokens, hstuck⟩ := exists_tokens_append t
  by_cases hrest : rest = []
  · rw [hrest, List.append_nil]
    exact .inl ⟨bytes, htokens, htokens.readBytes⟩
  · have herror : readBytes (front ++ rest)
        = .error (offenceAt (Utf8.encode (front ++ rest)) (Utf8.encode front).length) := by
      have hbytes : Utf8.encode (front ++ rest) = Utf8.encode front ++ Utf8.encode rest :=
        List.flatMap_append
      rw [readBytes_append htokens.readBytes, readBytes_of_isStuck hrest hstuck, hbytes,
        offenceAt_append]
      rfl
    refine .inr ⟨?_, _, isGreatest_tokenEnds htokens hstuck, herror⟩
    rintro ⟨bytes', h⟩
    rw [h.readBytes] at herror
    cases herror

theorem readBytes_eq_ok_iff {t : Text} {bytes : List UInt8} :
    readBytes t = .ok bytes ↔ Tokens t bytes := by
  refine ⟨fun h => ?_, Tokens.readBytes⟩
  obtain ⟨bytes', htokens, hok⟩ | ⟨_, k, _, herror⟩ := readBytes_cases t
  · cases h.symm.trans hok
    exact htokens
  · cases h.symm.trans herror

theorem readBytes_eq_error_iff {t : Text} {f : Fault} :
    readBytes t = .error f ↔ (¬∃ bytes, Tokens t bytes) ∧
      ∃ k, IsGreatest (tokenEnds t) k ∧ f = offenceAt (Utf8.encode t) k := by
  obtain ⟨bytes, htokens, hok⟩ | ⟨hnone, k, hk, herror⟩ := readBytes_cases t
  · rw [hok]
    exact iff_of_false (by simp) fun h => h.1 ⟨bytes, htokens⟩
  · rw [herror]
    constructor
    · rintro ⟨⟩
      exact ⟨hnone, k, hk, rfl⟩
    · rintro ⟨_, k', hk', rfl⟩
      rw [hk.unique hk']

/-- What is wrong with a text is seen before its bytes are looked at. -/
theorem readBytes_ne_notUtf8 (t : Text) : readBytes t ≠ .error .notUtf8 := by
  intro h
  obtain ⟨_, k, _, hk⟩ := readBytes_eq_error_iff.mp h
  rw [offenceAt] at hk
  split_ifs at hk

/-- Strict reading succeeds exactly on the texts that consist of tokens and gives their bytes. Any
other text is refused for the byte behind the longest beginning that consists of tokens. As a text
the bytes are read if they are the bytes of one, and are refused as such only if all tokens could be
read. -/
theorem decode_tokens (t : Text) :
    (∀ bytes, decodeBytes t = .ok bytes ↔ Tokens t bytes) ∧
      (∀ e, decodeBytes t = .error e ↔ (¬∃ bytes, Tokens t bytes) ∧
        ∃ k, IsGreatest (tokenEnds t) k ∧ e = ⟨t, offenceAt (Utf8.encode t) k⟩) ∧
      (∀ s, decode t = .ok s ↔ Tokens t (Utf8.encode s)) ∧
      ∀ e, decode t = .error e ↔ decodeBytes t = .error e ∨
        e = ⟨t, .notUtf8⟩ ∧ ∃ bytes, Tokens t bytes ∧ ∀ s, Utf8.encode s ≠ bytes := by
  have hok : ∀ bytes, decodeBytes t = .ok bytes ↔ Tokens t bytes := fun bytes => by
    rw [decodeBytes, mapError_eq_ok_iff, readBytes_eq_ok_iff]
  refine ⟨hok, fun e => ?_, fun s => ?_, fun e => ?_⟩
  · simp only [decodeBytes, mapError_eq_error_iff, readBytes_eq_error_iff]
    constructor
    · rintro ⟨_, ⟨hnone, k, hk, rfl⟩, rfl⟩
      exact ⟨hnone, k, hk, rfl⟩
    · rintro ⟨hnone, k, hk, rfl⟩
      exact ⟨_, ⟨hnone, k, hk, rfl⟩, rfl⟩
  · rw [decode_eq_ok_iff, readBytes_eq_ok_iff]
  · rw [decode, bind_eq_error_iff]
    simp only [hok]
    refine or_congr_right ⟨?_, ?_⟩
    · rintro ⟨bytes, htokens, h⟩
      rcases hs : Utf8.decode? bytes with _ | s
      · simp only [hs] at h
        cases h
        refine ⟨rfl, bytes, htokens, ?_⟩
        rintro s rfl
        rw [Utf8.decode?_encode] at hs
        cases hs
      · simp only [hs] at h
        cases h
    · rintro ⟨rfl, bytes, htokens, hbytes⟩
      have hnone : Utf8.decode? bytes = none := by
        rw [Option.eq_none_iff_forall_ne_some]
        intro s hs
        exact hbytes s (Utf8.decode?_eq_some_iff.mp hs).symm
      exact ⟨bytes, htokens, by rw [hnone]; rfl⟩

end Percent

end CanonicalUri
