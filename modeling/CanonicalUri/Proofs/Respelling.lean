import CanonicalUri.Proofs.Escapes
import CanonicalUri.Text.Case

/-!
# Texts that are escaped differently

One text can be escaped in many ways. `Percent.Respells` is one change that keeps what is said: a
character that stands for itself is escaped, the digits of an escape change their case, or a plus is
written as an escaped space.

* `Percent.Respells.decode`: what could be read before the change is read as the same text after it.
* `Text.OnPart`: a change of one of the parts between separators. If the change brings in no
  separator, the other parts stay as they are (`Text.OnPart.splitOn`).
* `Text.OnPart.pieces`: as long as the part that is changed neither was nor becomes empty, the same
  holds of the pieces, in which empty parts do not count.
-/

namespace CanonicalUri

/-- A digit has the same value in either case. -/
theorem Hex.value?_toLower (c : Char) : value? c.toLower = value? c := by
  obtain hc | hc := Nat.lt_or_ge c.toNat 128
  · exact Text.forall_ascii (P := fun c => value? c.toLower = value? c) (by decide) hc
  · rw [Text.toLower_of_le hc]

namespace Percent

/-! ### Reading one more character or escape -/

/-- A byte is spelled by digits of either case. -/
theorem byteOf?_congr {high low high' low' : Char} (hhigh : high'.toLower = high.toLower)
    (hlow : low'.toLower = low.toLower) : byteOf? high' low' = byteOf? high low := by
  rw [byteOf?, byteOf?, ← Hex.value?_toLower high', ← Hex.value?_toLower low', hhigh, hlow,
    Hex.value?_toLower, Hex.value?_toLower]

theorem isUnreserved_of_byteOf? {high low : Char} {b : UInt8} (h : byteOf? high low = some b) :
    isUnreserved high = true ∧ isUnreserved low = true := by
  simp only [byteOf?, Option.bind_eq_bind, Option.bind_eq_some_iff] at h
  obtain ⟨m, hhigh, n, hlow, _⟩ := h
  exact ⟨isUnreserved_of_value? hhigh, isUnreserved_of_value? hlow⟩

theorem readBytes_escape_eq_ok_iff {high low : Char} {t : Text} {bytes : List UInt8} :
    readBytes ('%' :: high :: low :: t) = .ok bytes ↔
      ∃ b, byteOf? high low = some b ∧ ∃ bs, readBytes t = .ok bs ∧ b :: bs = bytes := by
  rw [readBytes.eq_def]
  rcases h : byteOf? high low with _ | b
  · simp [h]
  · simp [h]

theorem readBytes_cons_eq_ok_iff {c : Char} (hc : c ≠ '%') {t : Text} {bytes : List UInt8} :
    readBytes (c :: t) = .ok bytes ↔ (c = '+' ∨ isLiteral c = true) ∧
      ∃ bs, readBytes t = .ok bs ∧
        (if c = '+' then 0x20 else UInt8.ofNat c.toNat) :: bs = bytes := by
  rw [readBytes.eq_def]
  by_cases hplus : c = '+'
  · simp [hplus]
  · by_cases hliteral : isLiteral c = true
    · simp [hc, hplus, hliteral]
    · simp [hc, hplus, hliteral]

/-! ### Spelling one character differently -/

/-- One change in the spelling of an escaped text that keeps what is said. Escapes are passed over
as a whole, so only a character that stands for itself can be escaped. -/
inductive Respells : Text → Text → Prop
  | escape {c high low : Char} (hc : isLiteral c = true)
      (hb : byteOf? high low = some (UInt8.ofNat c.toNat)) (t : Text) :
      Respells (c :: t) ('%' :: high :: low :: t)
  | recase {high low high' low' : Char} {b : UInt8} (hb : byteOf? high low = some b)
      (hhigh : high'.toLower = high.toLower) (hlow : low'.toLower = low.toLower) (t : Text) :
      Respells ('%' :: high :: low :: t) ('%' :: high' :: low' :: t)
  | plus (t : Text) : Respells ('+' :: t) ('%' :: '2' :: '0' :: t)
  | skip {c : Char} {s t : Text} (hc : c ≠ '%') (h : Respells s t) : Respells (c :: s) (c :: t)
  | skipEscape (high low : Char) {s t : Text} (h : Respells s t) :
      Respells ('%' :: high :: low :: s) ('%' :: high :: low :: t)

theorem Respells.readBytes {s t : Text} (h : Respells s t) {bytes : List UInt8}
    (hs : readBytes s = .ok bytes) : Percent.readBytes t = .ok bytes := by
  induction h generalizing bytes with
  | escape hc hb t =>
    obtain ⟨hplus, hpercent⟩ := ne_of_isLiteral hc
    obtain ⟨_, bs, hbs, rfl⟩ := (readBytes_cons_eq_ok_iff hpercent).mp hs
    rw [if_neg hplus]
    exact readBytes_escape_eq_ok_iff.mpr ⟨_, hb, bs, hbs, rfl⟩
  | recase _ hhigh hlow t =>
    rw [readBytes_escape_eq_ok_iff] at hs ⊢
    rwa [byteOf?_congr hhigh hlow]
  | plus t =>
    obtain ⟨_, bs, hbs, rfl⟩ := (readBytes_cons_eq_ok_iff (by decide)).mp hs
    exact readBytes_escape_eq_ok_iff.mpr ⟨_, by decide, bs, hbs, rfl⟩
  | skip hc _ ih =>
    rw [readBytes_cons_eq_ok_iff hc] at hs ⊢
    obtain ⟨hliteral, bs, hbs, hbytes⟩ := hs
    exact ⟨hliteral, bs, ih hbs, hbytes⟩
  | skipEscape high low _ ih =>
    rw [readBytes_escape_eq_ok_iff] at hs ⊢
    obtain ⟨b, hb, bs, hbs, hbytes⟩ := hs
    exact ⟨b, hb, bs, ih hbs, hbytes⟩

/-- A text says the same in another spelling. -/
theorem Respells.decode {s t a : Text} (h : Respells s t) (hs : decode s = .ok a) :
    Percent.decode t = .ok a := by
  rw [decode_eq_ok_iff] at hs ⊢
  exact h.readBytes hs

theorem Respells.ne_nil {s t : Text} (h : Respells s t) : s ≠ [] ∧ t ≠ [] := by
  obtain _ | _ | _ | _ | _ := h
  all_goals exact ⟨List.cons_ne_nil _ _, List.cons_ne_nil _ _⟩

/-- Another spelling adds escapes only. -/
theorem Respells.mem {s t : Text} (h : Respells s t) {c : Char} (hc : c ∈ t) :
    c ∈ s ∨ isUnreserved c = true ∨ c = '%' := by
  have hescape : ∀ {high low : Char} {b : UInt8} {t : Text}, byteOf? high low = some b →
      c ∈ '%' :: high :: low :: t → c ∈ t ∨ isUnreserved c = true ∨ c = '%' := by
    intro high low b t hb hc
    obtain ⟨hhigh, hlow⟩ := isUnreserved_of_byteOf? hb
    simp only [List.mem_cons] at hc
    obtain rfl | rfl | rfl | hc := hc
    · exact .inr (.inr rfl)
    · exact .inr (.inl hhigh)
    · exact .inr (.inl hlow)
    · exact .inl hc
  induction h with
  | escape _ hb t => exact (hescape hb hc).imp_left (List.mem_cons_of_mem _)
  | recase hb hhigh hlow t =>
    rw [← byteOf?_congr hhigh hlow] at hb
    exact (hescape hb hc).imp_left fun hc =>
      List.mem_cons_of_mem _ (List.mem_cons_of_mem _ (List.mem_cons_of_mem _ hc))
  | plus t =>
    exact (hescape (b := 0x20) (by decide) hc).imp_left (List.mem_cons_of_mem _)
  | skip _ _ ih =>
    obtain rfl | hc := List.mem_cons.mp hc
    · exact .inl List.mem_cons_self
    · exact (ih hc).imp_left (List.mem_cons_of_mem _)
  | skipEscape high low _ ih =>
    simp only [List.mem_cons] at hc ⊢
    obtain rfl | rfl | rfl | hc := hc
    · simp
    · simp
    · simp
    · exact (ih hc).imp_left fun hc => .inr (.inr (.inr hc))

/-- What cannot be read unless it is escaped is escaped. -/
theorem isEscaped_of_not_readable {c : Char} (h : ¬(isLiteral c = true ∨ c = '+' ∨ c = '%')) :
    isEscaped [] c = true := by
  rw [not_or, not_or] at h
  refine isEscaped_iff.mpr ⟨?_, List.not_mem_nil, h.2.2⟩
  rw [← Bool.not_eq_true]
  exact mt isLiteral_of_isUnreserved h.1

/-- Another spelling brings in none of the separators that have to be escaped. -/
theorem Respells.not_mem {sep : Char} (hsep : isEscaped [] sep = true) {s t : Text}
    (h : Respells s t) (hs : sep ∉ s) : sep ∉ t := by
  obtain ⟨hunreserved, _, hpercent⟩ := isEscaped_iff.mp hsep
  intro hmem
  obtain hmem | hmem | hmem := h.mem hmem
  · exact hs hmem
  · rw [hunreserved] at hmem
    cases hmem
  · exact hpercent hmem

end Percent

/-! ### One of several parts -/

namespace Text

/-- A change of one of the parts between separators. -/
inductive OnPart (sep : Char) (R : Text → Text → Prop) : Text → Text → Prop
  | intro {s p q : Text} {before after : List Text} (hs : s.splitOn sep = before ++ p :: after)
      (h : R p q) : OnPart sep R s (join sep (before ++ q :: after))

variable {sep : Char} {R : Text → Text → Prop} {s t : Text}

/-- The other parts stay as they are. -/
theorem OnPart.splitOn (hR : ∀ {p q}, R p q → sep ∉ p → sep ∉ q) (h : OnPart sep R s t) :
    ∃ before p q after, R p q ∧ s.splitOn sep = before ++ p :: after ∧
      t.splitOn sep = before ++ q :: after := by
  obtain @⟨p, q, before, after, hs, h⟩ := h
  obtain ⟨_, _, hsep⟩ := splitOn_eq_iff.mp hs
  refine ⟨before, p, q, after, h, hs, splitOn_eq_iff.mpr ⟨by simp, rfl, ?_⟩⟩
  rw [List.forall_mem_append, List.forall_mem_cons] at hsep ⊢
  exact ⟨hsep.1, hR h hsep.2.1, hsep.2.2⟩

/-- A change that brings in no other separator brings in none as a change of a part, either. -/
theorem OnPart.not_mem {c : Char} (hR : ∀ {p q}, R p q → c ∉ p → c ∉ q) (hc : c ≠ sep)
    (h : OnPart sep R s t) (hs : c ∉ s) : c ∉ t := by
  obtain @⟨p, q, before, after, hparts, h⟩ := h
  have hpart : ∀ r ∈ before ++ p :: after, c ∉ r := by
    obtain ⟨_, rfl, _⟩ := splitOn_eq_iff.mp hparts
    exact fun r hr hmem => hs (subset_join hr hmem)
  rw [List.forall_mem_append, List.forall_mem_cons] at hpart
  intro hmem
  obtain hsep | ⟨r, hr, hcr⟩ := mem_join hmem
  · exact hc hsep
  · obtain hr | hr := List.mem_append.mp hr
    · exact hpart.1 r hr hcr
    · obtain rfl | hr := List.mem_cons.mp hr
      · exact hR h hpart.2.1 hcr
      · exact hpart.2.2 r hr hcr

/-- The other pieces stay as they are. -/
theorem OnPart.pieces (hR : ∀ {p q}, R p q → sep ∉ p → sep ∉ q)
    (hne : ∀ {p q}, R p q → p ≠ [] ∧ q ≠ []) (h : OnPart sep R s t) :
    ∃ before p q after, R p q ∧ Text.pieces sep s = before ++ p :: after ∧
      Text.pieces sep t = before ++ q :: after := by
  obtain ⟨before, p, q, after, hpq, hs, ht⟩ := h.splitOn hR
  obtain ⟨hp, hq⟩ := hne hpq
  refine ⟨before.filter (· != []), p, q, after.filter (· != []), hpq, ?_, ?_⟩
  · rw [Text.pieces, hs, List.filter_append, List.filter_cons_of_pos (by simpa using hp)]
  · rw [Text.pieces, ht, List.filter_append, List.filter_cons_of_pos (by simpa using hq)]

/-- A text without a separator is its only part. -/
theorem OnPart.of_not_mem (hs : sep ∉ s) (h : OnPart sep R s t) : R s t := by
  obtain @⟨p, q, before, after, hparts, h⟩ := h
  rw [List.splitOn_eq_singleton hs, eq_comm, List.append_eq_singleton_iff] at hparts
  obtain ⟨rfl, hparts⟩ | ⟨_, hparts⟩ := hparts
  · obtain ⟨rfl, rfl⟩ := List.cons.inj hparts
    simpa using h
  · cases hparts

/-- A text with one separator has two parts. -/
theorem OnPart.cases_of_append {a b : Text} (ha : sep ∉ a) (hb : sep ∉ b)
    (h : OnPart sep R (a ++ sep :: b) t) :
    (∃ a', R a a' ∧ t = a' ++ sep :: b) ∨ ∃ b', R b b' ∧ t = a ++ sep :: b' := by
  obtain @⟨p, q, before, after, hparts, h⟩ := h
  rw [List.splitOn_append_cons_self_of_not_mem ha, List.splitOn_eq_singleton hb] at hparts
  obtain _ | ⟨_, before⟩ := before
  · obtain ⟨rfl, rfl⟩ := List.cons.inj hparts
    exact .inl ⟨q, h, by simp⟩
  · obtain ⟨rfl, hlast⟩ := List.cons.inj hparts
    obtain ⟨rfl, hlast⟩ | ⟨_, hlast⟩ := List.append_eq_singleton_iff.mp hlast.symm
    · obtain ⟨rfl, rfl⟩ := List.cons.inj hlast
      exact .inr ⟨q, h, by simp⟩
    · cases hlast

theorem OnPart.ne_nil (hne : ∀ {p q}, R p q → p ≠ [] ∧ q ≠ []) (h : OnPart sep R s t) :
    s ≠ [] ∧ t ≠ [] := by
  obtain @⟨p, q, before, after, hparts, h⟩ := h
  obtain ⟨hp, hq⟩ := hne h
  obtain ⟨_, rfl, _⟩ := splitOn_eq_iff.mp hparts
  have hmem : ∀ r : Text, r ∈ before ++ r :: after := by simp
  exact ⟨fun hnil => hp (List.eq_nil_of_subset_nil (hnil ▸ subset_join (hmem p))),
    fun hnil => hq (List.eq_nil_of_subset_nil (hnil ▸ subset_join (hmem q)))⟩

end Text

end CanonicalUri
