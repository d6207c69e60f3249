import CanonicalUri.Proofs.Escapes

/-!
# Escaped bytes

Any bytes can be written with escapes, and are read back as the same bytes as long as the characters
that are kept do not get in the way. That depends on the reader.

* Strict reading refuses what is not literal, so exactly literal characters may be kept.
* Lenient reading takes every character but the plus and the percent sign for itself, so exactly
  these two may not be kept.

`Percent.encodeBytes_undone_iff` states both, and the same of texts, whose bytes are UTF-8.
-/

namespace CanonicalUri

namespace Percent

/-- The literal characters one by one. -/
theorem isLiteral_iff {c : Char} :
    isLiteral c = true ↔ c.isAlphanum = true ∨ c ∈ ".-_/~!@,;:()".toList := by
  simp [isLiteral, isUnreserved, or_assoc]

/-! ### Lenient reading of what was written -/

/-- A character is written so that lenient reading gives back its bytes. -/
theorem readBytesLenient_encodeChar_append {keep : List Char} (hpercent : '%' ∉ keep)
    (hplus : '+' ∉ keep) (c : Char) (r : Text) :
    readBytesLenient (encodeChar keep c ++ r) = String.utf8EncodeChar c ++ readBytesLenient r := by
  rw [encodeChar]
  split_ifs with h
  · rw [Bool.or_eq_true, List.contains_eq_mem, decide_eq_true_eq] at h
    have hc : c ≠ '+' ∧ c ≠ '%' := by
      obtain h | h := h
      · exact ne_of_isLiteral (isLiteral_of_isUnreserved h)
      · exact ⟨fun hc => hplus (hc ▸ h), fun hc => hpercent (hc ▸ h)⟩
    rw [List.singleton_append, readBytesLenient.eq_def]
    simp [hc]
  · exact readBytesLenient_flatMap_escape_append _ r

/-- Lenient reading undoes the writing of bytes, whatever they are. -/
theorem readBytesLenient_encodeBytes {keep : List Char} (hpercent : '%' ∉ keep)
    (hplus : '+' ∉ keep) (bytes : List UInt8) :
    readBytesLenient (encodeBytes keep bytes) = bytes := by
  rw [encodeBytes]
  conv_rhs => rw [← Utf8.flatMap_bytes_pieces bytes]
  generalize Utf8.pieces bytes = ps
  induction ps with
  | nil => rfl
  | cons p ps ih =>
    rw [List.flatMap_cons, List.flatMap_cons]
    cases p with
    | char c => rw [readBytesLenient_encodeChar_append hpercent hplus, ih]; rfl
    | bad bs => rw [readBytesLenient_flatMap_escape_append, ih]; rfl

/-! ### Characters that may be kept -/

/-- A text of unreserved and kept characters is written as it is. -/
private theorem encodeBytes_utf8_eq_self {keep t : Text}
    (h : ∀ c ∈ t, isUnreserved c = true ∨ c ∈ keep) : encodeBytes keep (Utf8.encode t) = t := by
  rw [encodeBytes_utf8, encode_eq_self_iff.mpr h]

/-- A kept character that is not literal is refused or read as another one. -/
theorem isLiteral_of_decode_encodeBytes {keep : List Char}
    (h : ∀ t, decode (encodeBytes keep (Utf8.encode t)) = .ok t) {c : Char} (hc : c ∈ keep) :
    isLiteral c = true := by
  have hself : decode [c] = .ok [c] := by
    have ht := h [c]
    rwa [encodeBytes_utf8_eq_self (by simpa using .inr hc)] at ht
  obtain hliteral | rfl | rfl := isLiteral_of_mem hself List.mem_cons_self
  · exact hliteral
  · revert hself
    decide
  · revert hself
    decide

/-- What stands behind a kept percent sign can make an escape of it, and a kept plus is read as a
space. -/
theorem not_mem_of_decodeLenient_encodeBytes {keep : List Char}
    (h : ∀ t, decodeLenient (encodeBytes keep (Utf8.encode t)) = t) : '%' ∉ keep ∧ '+' ∉ keep := by
  constructor
  · intro hmem
    have ht := h "%41".toList
    rw [encodeBytes_utf8_eq_self (by simp [hmem, isUnreserved])] at ht
    revert ht
    decide
  · intro hmem
    have ht := h "+".toList
    rw [encodeBytes_utf8_eq_self (by simp [hmem])] at ht
    revert ht
    decide

/-- Reading undoes the writing of bytes, and of texts, exactly when all the characters that are kept
are literal, in strict mode, or when neither the plus nor the percent sign is kept, in lenient
mode. -/
theorem encodeBytes_undone_iff (keep : List Char) :
    ((∀ c ∈ keep, c.isAlphanum = true ∨ c ∈ ".-_/~!@,;:()".toList) ↔
        (∀ bytes, decodeBytes (encodeBytes keep bytes) = .ok bytes) ∧
          ∀ t, decode (encodeBytes keep (Utf8.encode t)) = .ok t) ∧
      ('%' ∉ keep ∧ '+' ∉ keep ↔
        (∀ bytes, readBytesLenient (encodeBytes keep bytes) = bytes) ∧
          ∀ t, decodeLenient (encodeBytes keep (Utf8.encode t)) = t) := by
  simp only [← isLiteral_iff]
  refine ⟨⟨fun hkeep => ⟨fun bytes => ?_, fun t => ?_⟩,
      fun h _ => isLiteral_of_decode_encodeBytes h.2⟩,
    ⟨fun ⟨hpercent, hplus⟩ => ⟨readBytesLenient_encodeBytes hpercent hplus, fun t => ?_⟩,
      fun h => not_mem_of_decodeLenient_encodeBytes h.2⟩⟩
  · rw [decodeBytes, readBytes_encodeBytes hkeep]
    rfl
  · rw [encodeBytes_utf8, decode_encode hkeep]
  · rw [decodeLenient, readBytesLenient_encodeBytes hpercent hplus, Utf8.decodeLossy_encode]

/-- A kept letter with an accent stands between bytes that begin no character; only the lenient
reader takes it for itself. -/
theorem encodeBytes_undone_accented :
    let keep := "é/".toList
    let bytes : List UInt8 := [0x25, 0xC3, 0x28, 0xC3, 0xA9, 0x2F, 0xFF, 0x2B]
    encodeBytes keep bytes = "%25%C3%28é/%FF%2B".toList ∧
      readBytesLenient (encodeBytes keep bytes) = bytes ∧
      ¬∀ bytes, decodeBytes (encodeBytes keep bytes) = .ok bytes := by
  intro keep bytes
  obtain ⟨_, hlenient⟩ := encodeBytes_undone_iff keep
  have hkeep : '%' ∉ keep ∧ '+' ∉ keep := by decide
  refine ⟨by decide +kernel, (hlenient.mp hkeep).1 bytes, fun h => ?_⟩
  have hletter := h (Utf8.encode "é".toList)
  revert hletter
  decide +kernel

end Percent

end CanonicalUri
