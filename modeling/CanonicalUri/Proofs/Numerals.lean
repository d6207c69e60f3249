import CanonicalUri.Text.Decimal
import Mathlib.Data.List.Induction

/-!
# Decimal numerals

A numeral of a number is its digits, with any number of zeros in front of them.

* `Decimal.exists_numeral_iff`: the numerals are the non-empty texts of ASCII digits, each of them
  of one number only (`Decimal.Numeral.unique`).
* `Decimal.read?_eq_some_iff`: a text of any length is read as the number of which it is a numeral.
* `Decimal.readPort?_eq_some_iff`: it is read as a port exactly when that number is one.
-/

namespace CanonicalUri

namespace Decimal

/-- The digits of a number, and any number of zeros in front of them. -/
def Numeral (t : Text) (n : Nat) : Prop :=
  ∃ zeros, t = List.replicate zeros '0' ++ write n

theorem Numeral.ne_nil {t : Text} {n : Nat} (h : Numeral t n) : t ≠ [] := by
  obtain ⟨zeros, rfl⟩ := h
  exact List.append_ne_nil_of_right_ne_nil _ Nat.toDigits_ne_nil

theorem Numeral.isDigit {t : Text} {n : Nat} (h : Numeral t n) {c : Char} (hc : c ∈ t) :
    c.isDigit = true := by
  obtain ⟨zeros, rfl⟩ := h
  obtain hc | hc := List.mem_append.mp hc
  · rw [List.eq_of_mem_replicate hc]
    rfl
  · exact Nat.isDigit_of_mem_toDigits (by decide) (by decide) hc

/-- Zeros in front do not count. -/
theorem Numeral.value {t : Text} {n : Nat} (h : Numeral t n) : Nat.ofDigitChars 10 t 0 = n := by
  obtain ⟨zeros, rfl⟩ := h
  rw [Nat.ofDigitChars_append, Nat.ofDigitChars_replicate_zero, Nat.mul_zero, write,
    Nat.ofDigitChars_ten_toDigits]

/-- A text is a numeral of one number at most. -/
theorem Numeral.unique {t : Text} {m n : Nat} (hm : Numeral t m) (hn : Numeral t n) : m = n :=
  hm.value.symm.trans hn.value

private theorem exists_digitChar {c : Char} (hc : c.isDigit = true) :
    ∃ d < 10, Nat.digitChar d = c := by
  have hvalue : ∀ d < 10, (Nat.digitChar d).toNat = d + 48 := by decide
  rw [Char.isDigit_iff_toNat] at hc
  change 48 ≤ c.toNat ∧ c.toNat ≤ 57 at hc
  refine ⟨c.toNat - 48, by omega, Char.toNat_inj.mp ?_⟩
  rw [hvalue _ (by omega)]
  omega

/-- Digits are a numeral of the number that they make up. -/
theorem numeral_ofDigitChars {t : Text} (hne : t ≠ []) (hdigits : ∀ c ∈ t, c.isDigit = true) :
    Numeral t (Nat.ofDigitChars 10 t 0) := by
  induction t using List.reverseRecOn with
  | nil => exact absurd rfl hne
  | append_singleton t c ih =>
    obtain ⟨d, hd, rfl⟩ := exists_digitChar (hdigits c (by simp))
    rw [Nat.ofDigitChars_append, Nat.ofDigitChars_cons_digitChar_of_lt_ten hd,
      Nat.ofDigitChars_nil, ← Nat.toDigits_of_lt_base hd]
    obtain rfl | ht := eq_or_ne t []
    · exact ⟨0, by simp [write]⟩
    · obtain ⟨zeros, h⟩ := ih ht fun x hx => hdigits x (List.mem_append_left _ hx)
      generalize Nat.ofDigitChars 10 t 0 = n at h ⊢
      obtain rfl | hn := Nat.eq_zero_or_pos n
      · -- the digits in front are zeros, all of them
        refine ⟨zeros + 1, ?_⟩
        rw [h, write, Nat.toDigits_zero, List.replicate_succ', Nat.mul_zero, Nat.zero_add]
        rfl
      · refine ⟨zeros, ?_⟩
        rw [h, List.append_assoc]
        exact congrArg _ (Nat.toDigits_append_toDigits (by decide) hn hd)

/-- The numerals are the non-empty texts of ASCII digits. -/
theorem exists_numeral_iff {t : Text} :
    (∃ n, Numeral t n) ↔ t ≠ [] ∧ ∀ c ∈ t, c.isDigit = true :=
  ⟨fun ⟨_, h⟩ => ⟨h.ne_nil, fun _ => h.isDigit⟩, fun ⟨hne, hd⟩ => ⟨_, numeral_ofDigitChars hne hd⟩⟩

/-- A text is read as the number of which it is a numeral. -/
theorem read?_eq_some_iff {t : Text} {n : Nat} : read? t = some n ↔ Numeral t n := by
  simp only [read?, isDigits, List.all_eq_true, Option.ite_none_right_eq_some, Option.some.injEq]
  constructor
  · rintro ⟨hdigits, rfl⟩
    exact numeral_ofDigitChars hdigits.1 hdigits.2
  · intro h
    exact ⟨exists_numeral_iff.mp ⟨n, h⟩, h.value⟩

/-- A text is read as a port exactly when it is a numeral of that port. -/
theorem readPort?_eq_some_iff {t : Text} {port : UInt16} :
    readPort? t = some port ↔ Numeral t port.toNat := by
  simp only [readPort?, Option.bind_eq_bind, Option.bind_eq_some_iff, read?_eq_some_iff,
    Option.dite_none_right_eq_some, Option.some.injEq]
  constructor
  · rintro ⟨n, hn, _, rfl⟩
    rwa [UInt16.toNat_ofNatLT]
  · intro h
    exact ⟨_, h, port.toNat_lt, UInt16.ofNatLT_toNat port⟩

/-- The number of a numeral that is read as no port is too large for one. -/
theorem readPort?_eq_none_iff {t : Text} {n : Nat} (h : Numeral t n) :
    readPort? t = none ↔ 65535 < n := by
  rw [readPort?, read?_eq_some_iff.mpr h, Option.bind_eq_bind, Option.bind_some,
    dite_eq_right_iff]
  simp only [reduceCtorEq, imp_false, Nat.not_lt]
  exact Iff.rfl

end Decimal

end CanonicalUri
