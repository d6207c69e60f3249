/-!
# Text

A text is its list of characters. This module holds the two ways in which the readers of the
library take a text apart, and the order in which texts are kept.

* `cut sep t` is the text before the first `sep` and, when there is one, the text after it;
  `uncut_cut` and `cut_uncut` say that it loses nothing and finds the first separator.
* `pieces sep t` are the non-empty texts between the separators.
* `order` compares two texts character by character, by code point, and `orderLists` compares
  two lists of texts in the same manner. Both are total orders whose equality is equality.
-/

namespace CanonicalUri

/-- A text is its list of characters. -/
abbrev Text := List Char

namespace Text

/-! ### Cutting at a separator -/

/-- The text before the first `sep`, and the text after it when there is one. -/
def cut (sep : Char) (t : Text) : Text × Option Text :=
  (t.takeWhile (· != sep), (t.dropWhile (· != sep)).tail?)

/-- Puts a separator back between a text and an optional rest. -/
def uncut (sep : Char) (before : Text) : Option Text → Text
  | none => before
  | some rest => before ++ sep :: rest

/-- Nothing is lost by a cut. -/
theorem uncut_cut (sep : Char) (t : Text) : uncut sep (cut sep t).1 (cut sep t).2 = t := by
  induction t with
  | nil => rfl
  | cons c t ih =>
    by_cases h : c = sep
    · subst h
      simp [cut, uncut]
    · have hc : (c != sep) = true := by simpa using h
      simp only [cut, List.takeWhile_cons, List.dropWhile_cons, hc, if_true] at ih ⊢
      cases hr : (t.dropWhile (· != sep)).tail? with
      | none => simpa [uncut, hr] using ih
      | some r => simpa [uncut, hr] using ih

/-- A cut is made at the first separator. -/
theorem cut_uncut {sep : Char} {before : Text} (h : sep ∉ before) (rest : Option Text) :
    cut sep (uncut sep before rest) = (before, rest) := by
  induction before with
  | nil => cases rest <;> simp [cut, uncut]
  | cons c before ih =>
    rw [List.mem_cons, not_or] at h
    have hc : (c != sep) = true := by simpa using Ne.symm h.1
    have ih := ih h.2
    cases rest <;> simp_all [cut, uncut]

theorem not_mem_fst_cut (sep : Char) (t : Text) : sep ∉ (cut sep t).1 := by
  intro h
  simpa using List.all_eq_true.mp (List.all_takeWhile (l := t) (p := (· != sep))) sep h

theorem uncut_eq_append (sep : Char) (before : Text) (rest : Option Text) :
    uncut sep before rest = before ++ uncut sep [] rest := by
  cases rest <;> simp [uncut]

/-! ### The pieces between separators -/

/-- The non-empty texts between the separators. -/
def pieces (sep : Char) (t : Text) : List Text :=
  (t.splitOn sep).filter (· != [])

@[simp] theorem pieces_nil (sep : Char) : pieces sep [] = [] := by
  simp [pieces]

theorem pieces_append_cons (sep : Char) (s t : Text) :
    pieces sep (s ++ sep :: t) = pieces sep s ++ pieces sep t := by
  rw [pieces, List.splitOn_append_cons_self, List.filter_append, pieces, pieces]

/-- Separators around a text do not count. -/
@[simp] theorem pieces_cons_self (sep : Char) (t : Text) :
    pieces sep (sep :: t) = pieces sep t := by
  have h := pieces_append_cons sep [] t
  rwa [pieces_nil, List.nil_append, List.nil_append] at h

@[simp] theorem pieces_append_self (sep : Char) (t : Text) :
    pieces sep (t ++ [sep]) = pieces sep t := by
  rw [pieces_append_cons, pieces_nil, List.append_nil]

theorem ne_nil_of_mem_pieces {sep : Char} {p t : Text} (h : p ∈ pieces sep t) : p ≠ [] := by
  simpa using (List.mem_filter.mp h).2

/-- Writes texts one after the other with `sep` between neighbours. -/
def join (sep : Char) (ts : List Text) : Text :=
  [sep].intercalate ts

@[simp] theorem join_nil (sep : Char) : join sep [] = [] := rfl

@[simp] theorem join_singleton (sep : Char) (t : Text) : join sep [t] = t := by
  simp [join]

@[simp] theorem join_cons_cons (sep : Char) (s t : Text) (ts : List Text) :
    join sep (s :: t :: ts) = s ++ sep :: join sep (t :: ts) := by
  simp [join, List.intercalate_cons_cons]

/-- Joining only the last texts gives an ending of the joined text. -/
theorem join_drop_isSuffix (sep : Char) (k : Nat) (ts : List Text) :
    join sep (ts.drop k) <:+ join sep ts := by
  induction ts generalizing k with
  | nil => simp
  | cons t ts ih =>
    cases k with
    | zero => exact List.suffix_rfl
    | succ k =>
      cases ts with
      | nil => simp
      | cons u ts =>
        rw [join_cons_cons, List.drop_succ_cons]
        exact (ih k).trans ((List.suffix_cons sep _).trans (List.suffix_append t _))

/-- Non-empty texts without the separator are the pieces of their joined text. -/
theorem pieces_join {sep : Char} {ts : List Text} (hsep : ∀ t ∈ ts, sep ∉ t)
    (hne : ∀ t ∈ ts, t ≠ []) : pieces sep (join sep ts) = ts := by
  cases ts with
  | nil => simp [join]
  | cons t ts =>
    rw [pieces, join, List.splitOn_intercalate sep hsep (by simp), List.filter_eq_self]
    exact fun u hu => by simpa using hne u hu

theorem pieces_eq_singleton {sep : Char} {t : Text} (hsep : sep ∉ t) (hne : t ≠ []) :
    pieces sep t = [t] := by
  rw [pieces, List.splitOn_eq_singleton hsep, List.filter_cons_of_pos (by simpa using hne),
    List.filter_nil]

theorem join_append_singleton {sep : Char} {ts : List Text} (h : ts ≠ []) (t : Text) :
    join sep (ts ++ [t]) = join sep ts ++ sep :: t := by
  induction ts with
  | nil => exact absurd rfl h
  | cons s ts ih =>
    cases ts with
    | nil => simp
    | cons u ts =>
      rw [List.cons_append, List.cons_append, join_cons_cons, ← List.cons_append,
        ih (List.cons_ne_nil u ts), join_cons_cons, List.append_assoc, List.cons_append]

theorem join_eq_nil_iff {sep : Char} {ts : List Text} (h : [] ∉ ts) :
    join sep ts = [] ↔ ts = [] := by
  cases ts with
  | nil => simp
  | cons t ts =>
    have ht : t ≠ [] := fun h' => h (h' ▸ List.mem_cons_self)
    cases ts with
    | nil => simpa using ht
    | cons u ts => simp

/-- The characters of joined texts are those of the texts and the separator. -/
theorem mem_join {sep c : Char} {ts : List Text} (h : c ∈ join sep ts) :
    c = sep ∨ ∃ t ∈ ts, c ∈ t := by
  induction ts with
  | nil => cases h
  | cons t ts ih =>
    cases ts with
    | nil => exact .inr ⟨t, List.mem_cons_self, by simpa using h⟩
    | cons u ts =>
      rw [join_cons_cons, List.mem_append, List.mem_cons] at h
      rcases h with h | rfl | h
      · exact .inr ⟨t, List.mem_cons_self, h⟩
      · exact .inl rfl
      · exact (ih h).imp id fun ⟨x, hx, hc⟩ => ⟨x, List.mem_cons_of_mem _ hx, hc⟩

theorem subset_join {sep : Char} {t : Text} {ts : List Text} (h : t ∈ ts) : t ⊆ join sep ts := by
  induction ts with
  | nil => cases h
  | cons u ts ih =>
    intro c hc
    cases ts with
    | nil =>
      rw [List.mem_singleton.mp h] at hc
      simpa using hc
    | cons v ts =>
      rw [join_cons_cons, List.mem_append, List.mem_cons]
      rcases List.mem_cons.mp h with rfl | h
      · exact .inl hc
      · exact .inr (.inr (ih h hc))

/-- The parts of a split text hold no separator. -/
theorem not_mem_of_mem_splitOn {sep : Char} {t p : Text} (h : p ∈ t.splitOn sep) : sep ∉ p := by
  induction t generalizing p with
  | nil =>
    rw [List.splitOn_nil, List.mem_singleton] at h
    simp [h]
  | cons c t ih =>
    rw [List.splitOn_cons_eq_if_modifyHead] at h
    split at h
    · rcases List.mem_cons.mp h with rfl | h
      · exact List.not_mem_nil
      · exact ih h
    · rename_i hc
      obtain ⟨u, us, hu⟩ := List.exists_cons_of_ne_nil (List.splitOn_ne_nil sep t)
      rw [hu] at ih h
      rcases List.mem_cons.mp h with rfl | h
      · rw [List.mem_cons, not_or]
        exact ⟨fun hsep => hc (by simp [hsep]), ih List.mem_cons_self⟩
      · exact ih (List.mem_cons_of_mem _ h)

/-- The parts of a split text are the texts without separators that join to it. -/
theorem splitOn_eq_iff {sep : Char} {t : Text} {ps : List Text} :
    t.splitOn sep = ps ↔ ps ≠ [] ∧ join sep ps = t ∧ ∀ p ∈ ps, sep ∉ p := by
  constructor
  · rintro rfl
    exact ⟨List.splitOn_ne_nil sep t, List.intercalate_splitOn sep,
      fun p hp => not_mem_of_mem_splitOn hp⟩
  · rintro ⟨hne, rfl, hsep⟩
    exact List.splitOn_intercalate sep hsep hne

/-- A text without the separator belongs to the first part of what follows it. -/
theorem splitOn_append_of_not_mem {sep : Char} {s : Text} (h : sep ∉ s) (t : Text) :
    (s ++ t).splitOn sep = (t.splitOn sep).modifyHead (s ++ ·) := by
  induction s with
  | nil =>
    rw [List.nil_append]
    cases t.splitOn sep <;> rfl
  | cons c s ih =>
    rw [List.mem_cons, not_or] at h
    have hc : (c == sep) = false := by simpa using Ne.symm h.1
    rw [List.cons_append, List.splitOn_cons_eq_if_modifyHead, hc, ih h.2]
    cases t.splitOn sep <;> simp

/-! ### Order -/

/-- Texts are ordered character by character, by code point; a text comes after its beginnings. -/
def order : Text → Text → Ordering :=
  List.compareLex (compareOn Char.toNat)

/-- Lists of texts are ordered text by text. -/
def orderLists : List Text → List Text → Ordering :=
  List.compareLex order

private instance : Std.LawfulEqCmp (compareOn Char.toNat) where
  compare_self := by intro c; exact Std.ReflCmp.compare_self
  eq_of_compare := by
    intro a b h
    exact Char.toNat_inj.mp (Std.LawfulEqCmp.eq_of_compare h)

instance : Std.TransCmp order := inferInstanceAs (Std.TransCmp (List.compareLex _))

instance : Std.LawfulEqCmp order := inferInstanceAs (Std.LawfulEqCmp (List.compareLex _))

instance : Std.TransCmp orderLists := inferInstanceAs (Std.TransCmp (List.compareLex _))

instance : Std.LawfulEqCmp orderLists := inferInstanceAs (Std.LawfulEqCmp (List.compareLex _))

theorem order_self (t : Text) : order t t = .eq := Std.ReflCmp.compare_self

theorem order_eq_iff {s t : Text} : order s t = .eq ↔ s = t := Std.LawfulEqCmp.compare_eq_iff_eq

end Text

end CanonicalUri
