import CanonicalUri.Text.Basic

/-!
# The case of letters

Only ASCII letters have a case here. A letter in lower case is a letter, and every other character
stays as it is, so a text in lower case has its separators at the same places
(`splitOn_map_toLower`).

`EqUpToCase` relates the texts that are the same in lower case. Two such texts can be taken apart at
any place into two pairs of such texts (`eqUpToCase_append_iff`).
-/

namespace CanonicalUri

namespace Text

/-! ### Characters -/

/-- What holds of the first 128 characters, one by one, holds of every ASCII character. -/
theorem forall_ascii {P : Char → Prop} (h : ∀ n, n < 128 → P (Char.ofNat n)) {c : Char}
    (hc : c.toNat < 128) : P c :=
  Char.ofNat_toNat c ▸ h c.toNat hc

theorem toLower_of_le {c : Char} (hc : 128 ≤ c.toNat) : c.toLower = c := by
  refine dif_neg fun h => ?_
  have hle : c.toNat ≤ 90 := UInt32.le_iff_toNat_le.mp h.2
  omega

private theorem toLower_cases (c : Char) :
    c.toLower = c ∨ c.isAlpha = true ∧ c.toLower.isAlpha = true := by
  obtain hc | hc := Nat.lt_or_ge c.toNat 128
  · exact forall_ascii (P := fun c => c.toLower = c ∨ c.isAlpha = true ∧ c.toLower.isAlpha = true)
      (by decide) hc
  · exact .inl (toLower_of_le hc)

/-- Only letters become letters. -/
theorem toLower_eq_iff {c d : Char} (hd : d.isAlpha = false) : c.toLower = d ↔ c = d := by
  obtain hc | ⟨hc, hlower⟩ := toLower_cases c
  · rw [hc]
  · refine iff_of_false ?_ ?_
    · rintro rfl
      rw [hd] at hlower
      cases hlower
    · rintro rfl
      rw [hd] at hc
      cases hc

theorem toLower_of_not_isAlpha {c : Char} (hc : c.isAlpha = false) : c.toLower = c :=
  (toLower_eq_iff hc).mpr rfl

@[simp] theorem toLower_toLower (c : Char) : c.toLower.toLower = c.toLower := by
  obtain hc | hc := Nat.lt_or_ge c.toNat 128
  · exact forall_ascii (P := fun c => c.toLower.toLower = c.toLower) (by decide) hc
  · rw [toLower_of_le hc, toLower_of_le hc]

theorem not_isAlpha_of_isDigit {c : Char} (hc : c.isDigit = true) : c.isAlpha = false := by
  have hle : c.val ≤ 57 := of_decide_eq_true (Bool.and_eq_true_iff.mp hc).2
  have hlt : c.toNat < 128 := Nat.lt_of_le_of_lt (UInt32.le_iff_toNat_le.mp hle) (by decide)
  exact forall_ascii (P := fun c => c.isDigit = true → c.isAlpha = false) (by decide) hlt hc

/-! ### Texts -/

theorem map_toLower_of_not_isAlpha {t : Text} (h : ∀ c ∈ t, c.isAlpha = false) :
    t.map Char.toLower = t :=
  (List.map_congr_left fun c hc => toLower_of_not_isAlpha (h c hc)).trans (List.map_id t)

theorem map_toLower_map_toLower (t : Text) :
    (t.map Char.toLower).map Char.toLower = t.map Char.toLower := by
  rw [List.map_map]
  exact List.map_congr_left fun c _ => toLower_toLower c

/-- A text ends in the same character if that is no letter. -/
theorem getLast?_map_toLower {c : Char} (hc : c.isAlpha = false) (t : Text) :
    (t.map Char.toLower).getLast? = some c ↔ t.getLast? = some c := by
  simp [List.getLast?_map, toLower_eq_iff hc]

/-- A separator that is no letter stands at the same places. -/
theorem splitOn_map_toLower {sep : Char} (hsep : sep.isAlpha = false) (t : Text) :
    (t.map Char.toLower).splitOn sep = (t.splitOn sep).map (List.map Char.toLower) := by
  induction t with
  | nil => simp
  | cons c t ih =>
    rw [List.map_cons, List.splitOn_cons_eq_if_modifyHead, List.splitOn_cons_eq_if_modifyHead, ih]
    simp only [beq_iff_eq, toLower_eq_iff hsep]
    split
    · rfl
    · cases t.splitOn sep <;> rfl

/-! ### Equality up to case -/

/-- Two texts that differ in the case of ASCII letters only. -/
def EqUpToCase (s t : Text) : Prop :=
  s.map Char.toLower = t.map Char.toLower

instance : DecidableRel EqUpToCase := fun s t =>
  inferInstanceAs (Decidable (s.map Char.toLower = t.map Char.toLower))

theorem EqUpToCase.symm {s t : Text} (h : EqUpToCase s t) : EqUpToCase t s := Eq.symm h

theorem EqUpToCase.eq_nil_iff {s t : Text} (h : EqUpToCase s t) : s = [] ↔ t = [] := by
  rw [← List.map_eq_nil_iff, h, List.map_eq_nil_iff]

theorem eqUpToCase_nil_iff {t : Text} : EqUpToCase [] t ↔ t = [] := by
  rw [EqUpToCase, List.map_nil, eq_comm, List.map_eq_nil_iff]

theorem eqUpToCase_cons_iff {c : Char} {s t : Text} : EqUpToCase (c :: s) t ↔
    ∃ d u, t = d :: u ∧ c.toLower = d.toLower ∧ EqUpToCase s u := by
  rw [EqUpToCase, List.map_cons, eq_comm, List.map_eq_cons_iff]
  simp only [EqUpToCase, eq_comm]

theorem eqUpToCase_cons_iff_of_not_isAlpha {c : Char} (hc : c.isAlpha = false) {s t : Text} :
    EqUpToCase (c :: s) t ↔ ∃ u, t = c :: u ∧ EqUpToCase s u := by
  rw [eqUpToCase_cons_iff, toLower_of_not_isAlpha hc]
  constructor
  · rintro ⟨d, u, rfl, hd, hu⟩
    rw [(toLower_eq_iff hc).mp hd.symm]
    exact ⟨u, rfl, hu⟩
  · rintro ⟨u, rfl, hu⟩
    exact ⟨c, u, rfl, (toLower_of_not_isAlpha hc).symm, hu⟩

theorem eqUpToCase_append_iff {s s' t : Text} : EqUpToCase (s ++ s') t ↔
    ∃ u u', t = u ++ u' ∧ EqUpToCase s u ∧ EqUpToCase s' u' := by
  rw [EqUpToCase, List.map_append, eq_comm, List.map_eq_append_iff]
  simp only [EqUpToCase, eq_comm]

/-- A text without letters is the only one that it is equal to. -/
theorem EqUpToCase.eq_of_not_isAlpha {s t : Text} (h : EqUpToCase s t)
    (hs : ∀ c ∈ s, c.isAlpha = false) : s = t := by
  induction s generalizing t with
  | nil => exact (eqUpToCase_nil_iff.mp h).symm
  | cons c s ih =>
    obtain ⟨hc, hs⟩ := List.forall_mem_cons.mp hs
    obtain ⟨u, rfl, hu⟩ := (eqUpToCase_cons_iff_of_not_isAlpha hc).mp h
    rw [ih hu hs]

end Text

end CanonicalUri
