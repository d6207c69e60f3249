import CanonicalUri.Text.Basic

/-!
# Dictionaries of texts

A `Dict` maps names to values, both texts. Its entries are kept in the order of their names, and
the type says so: a dictionary has one representation whatever the history of its edits.

* `get?_insert`, `get?_erase` and `get?_empty` say what each operation does to the values.
* `ext_get?`: dictionaries with the same value for every name are equal, hence list their entries
  alike.
-/

namespace CanonicalUri

/-- Names with their values, in strictly increasing order of the names. -/
structure Dict where
  entries : List (Text × Text)
  ordered : entries.Pairwise fun a b => Text.order a.1 b.1 = .lt
  deriving DecidableEq

namespace Dict

/-! ### Operations -/

/-- The dictionary without entries. -/
def empty : Dict := ⟨[], .nil⟩

instance : EmptyCollection Dict := ⟨empty⟩

/-- The number of entries. -/
def size (d : Dict) : Nat := d.entries.length

def isEmpty (d : Dict) : Bool := d.entries.isEmpty

/-- The value of a name. -/
def get? (d : Dict) (name : Text) : Option Text := d.entries.lookup name

def contains (d : Dict) (name : Text) : Bool := (d.get? name).isSome

/-- The entry at a position in the order of names. -/
def entryAt? (d : Dict) (i : Nat) : Option (Text × Text) := d.entries[i]?

/-- Puts an entry in its place, over the one of the same name if there is one. -/
def insertEntry (name value : Text) : List (Text × Text) → List (Text × Text)
  | [] => [(name, value)]
  | e :: es =>
    match Text.order name e.1 with
    | .lt => (name, value) :: e :: es
    | .eq => (name, value) :: es
    | .gt => e :: insertEntry name value es

theorem mem_insertEntry {name value : Text} {es : List (Text × Text)} {x : Text × Text}
    (h : x ∈ insertEntry name value es) : x = (name, value) ∨ x ∈ es := by
  induction es with
  | nil => simpa [insertEntry] using h
  | cons e es ih =>
    rw [insertEntry] at h
    split at h
    · simpa using h
    · rcases List.mem_cons.mp h with h | h
      · exact .inl h
      · exact .inr (List.mem_cons_of_mem _ h)
    · rcases List.mem_cons.mp h with h | h
      · exact .inr (h ▸ List.mem_cons_self)
      · exact (ih h).imp id (List.mem_cons_of_mem _)

theorem ordered_insertEntry (name value : Text) {es : List (Text × Text)}
    (h : es.Pairwise fun a b => Text.order a.1 b.1 = .lt) :
    (insertEntry name value es).Pairwise fun a b => Text.order a.1 b.1 = .lt := by
  induction es with
  | nil => simp [insertEntry]
  | cons e es ih =>
    obtain ⟨he, hes⟩ := List.pairwise_cons.mp h
    rw [insertEntry]
    split
    · rename_i hlt
      refine List.pairwise_cons.mpr ⟨fun x hx => ?_, h⟩
      rcases List.mem_cons.mp hx with rfl | hx
      · exact hlt
      · exact Std.TransCmp.lt_trans hlt (he x hx)
    · rename_i heq
      rw [Std.LawfulEqCmp.compare_eq_iff_eq] at heq
      exact List.pairwise_cons.mpr ⟨fun x hx => heq ▸ he x hx, hes⟩
    · rename_i hgt
      refine List.pairwise_cons.mpr ⟨fun x hx => ?_, ih hes⟩
      rcases mem_insertEntry hx with rfl | hx
      · exact Std.OrientedCmp.lt_of_gt hgt
      · exact he x hx

/-- Gives a name a value, in place of the one it had. -/
def insert (d : Dict) (name value : Text) : Dict :=
  ⟨insertEntry name value d.entries, ordered_insertEntry name value d.ordered⟩

/-- Gives many names their values, one after the other. -/
def insertAll (d : Dict) (entries : List (Text × Text)) : Dict :=
  entries.foldl (fun d e => d.insert e.1 e.2) d

/-- Takes a name away together with its value. -/
def erase (d : Dict) (name : Text) : Dict :=
  ⟨d.entries.filter (·.1 != name), d.ordered.filter _⟩

/-! ### The values after an edit -/

private theorem lookup_cons (e : Text × Text) (es : List (Text × Text)) (k : Text) :
    (e :: es).lookup k = if k = e.1 then some e.2 else es.lookup k := by
  obtain ⟨name, value⟩ := e
  rw [List.lookup_cons]
  by_cases h : k = name
  · rw [beq_iff_eq.mpr h, if_pos h]
  · rw [beq_eq_false_iff_ne.mpr h, if_neg h]

@[simp] theorem get?_empty (name : Text) : empty.get? name = none := rfl

@[simp] theorem get?_insert (d : Dict) (name value k : Text) :
    (d.insert name value).get? k = if k = name then some value else d.get? k := by
  simp only [get?, insert]
  induction d.entries with
  | nil => rw [insertEntry, lookup_cons]
  | cons e es ih =>
    rw [insertEntry]
    split
    · rw [lookup_cons]
    · rename_i heq
      rw [Std.LawfulEqCmp.compare_eq_iff_eq] at heq
      rw [lookup_cons, lookup_cons, ← heq]
      by_cases h : k = name <;> simp [h]
    · rename_i hgt
      have hne : e.1 ≠ name := by
        rintro rfl
        simp [Text.order_self] at hgt
      rw [lookup_cons, lookup_cons, ih]
      by_cases h : k = e.1 <;> simp [h, hne]

@[simp] theorem get?_erase (d : Dict) (name k : Text) :
    (d.erase name).get? k = if k = name then none else d.get? k := by
  simp only [get?, erase]
  induction d.entries with
  | nil => simp
  | cons e es ih =>
    by_cases he : e.1 = name
    · rw [List.filter_cons_of_neg (by simp [he]), ih, lookup_cons, he]
      by_cases h : k = name <;> simp [h]
    · rw [List.filter_cons_of_pos (by simpa using he), lookup_cons, lookup_cons, ih]
      by_cases h : k = e.1 <;> simp [h, he]

theorem insertAll_cons (d : Dict) (e : Text × Text) (es : List (Text × Text)) :
    d.insertAll (e :: es) = (d.insert e.1 e.2).insertAll es := rfl

theorem insertAll_append (d : Dict) (es fs : List (Text × Text)) :
    d.insertAll (es ++ fs) = (d.insertAll es).insertAll fs :=
  List.foldl_append

/-- Entries of other names do not matter. -/
theorem get?_insertAll_of_not_mem {d : Dict} {es : List (Text × Text)} {k : Text}
    (h : k ∉ es.map Prod.fst) : (d.insertAll es).get? k = d.get? k := by
  induction es generalizing d with
  | nil => rfl
  | cons e es ih =>
    rw [List.map_cons, List.mem_cons, not_or] at h
    rw [insertAll_cons, ih h.2, get?_insert, if_neg h.1]

/-! ### Extensionality -/

private theorem lookup_eq_none {es : List (Text × Text)} {k : Text}
    (h : ∀ x ∈ es, Text.order k x.1 = .lt) : es.lookup k = none := by
  induction es with
  | nil => rfl
  | cons e es ih =>
    have hk : k ≠ e.1 := by
      intro heq
      have := h e List.mem_cons_self
      simp [heq, Text.order_self] at this
    rw [lookup_cons, if_neg hk]
    exact ih fun x hx => h x (List.mem_cons_of_mem _ hx)

private theorem entries_eq_of_lookup {es fs : List (Text × Text)}
    (he : es.Pairwise fun a b => Text.order a.1 b.1 = .lt)
    (hf : fs.Pairwise fun a b => Text.order a.1 b.1 = .lt)
    (h : ∀ k, es.lookup k = fs.lookup k) : es = fs := by
  induction es generalizing fs with
  | nil =>
    cases fs with
    | nil => rfl
    | cons f fs =>
      have := h f.1
      simp [lookup_cons] at this
  | cons e es ih =>
    cases fs with
    | nil =>
      have := h e.1
      simp [lookup_cons] at this
    | cons f fs =>
      obtain ⟨he1, he2⟩ := List.pairwise_cons.mp he
      obtain ⟨hf1, hf2⟩ := List.pairwise_cons.mp hf
      -- a name before all names of a list has no value there
      have below : ∀ {a : Text × Text} {l : List (Text × Text)} {k : Text},
          (∀ x ∈ l, Text.order a.1 x.1 = .lt) → Text.order k a.1 = .lt →
            (a :: l).lookup k = none := fun hl hk =>
        lookup_eq_none fun x hx => (List.mem_cons.mp hx).elim (fun hx => hx ▸ hk)
          fun hx => Std.TransCmp.lt_trans hk (hl x hx)
      -- so the first names agree: the smaller of two would have a value on one side only
      have hname : e.1 = f.1 := by
        rcases hc : Text.order e.1 f.1 with _ | _ | _
        · have := h e.1
          rw [below hf1 hc] at this
          simp [lookup_cons] at this
        · exact Std.LawfulEqCmp.compare_eq_iff_eq.mp hc
        · have := h f.1
          rw [below he1 (Std.OrientedCmp.lt_of_gt hc)] at this
          simp [lookup_cons] at this
      have hvalue : e.2 = f.2 := by
        have := h e.1
        simpa [lookup_cons, hname] using this
      -- the rest agrees on every name, the first one included
      have hrest : es = fs := by
        refine ih he2 hf2 fun k => ?_
        by_cases hk : k = e.1
        · subst hk
          rw [lookup_eq_none he1, hname, lookup_eq_none hf1]
        · have := h k
          rwa [lookup_cons, lookup_cons, if_neg hk, if_neg (hname ▸ hk)] at this
      rw [hrest, Prod.ext hname hvalue]

/-- A dictionary is determined by the values of its names. -/
theorem ext_get? {d e : Dict} (h : ∀ k, d.get? k = e.get? k) : d = e := by
  have := entries_eq_of_lookup d.ordered e.ordered h
  cases d
  cases e
  cases this
  rfl

/-! ### Entries -/

/-- A name has the value that it is listed with. -/
theorem get?_eq_some_iff {d : Dict} {name value : Text} :
    d.get? name = some value ↔ (name, value) ∈ d.entries := by
  rw [get?, List.lookup_eq_some_iff]
  constructor
  · rintro ⟨front, back, heq, _⟩
    simp [heq]
  · intro h
    obtain ⟨front, back, heq⟩ := List.append_of_mem h
    refine ⟨front, back, heq, fun e he => ?_⟩
    -- the entries in front have smaller names
    have hordered := d.ordered
    rw [heq, List.pairwise_append] at hordered
    have hlt := hordered.2.2 e he (name, value) List.mem_cons_self
    rw [bne_iff_ne, ne_eq]
    rintro rfl
    simp [Text.order_self] at hlt

theorem contains_eq_true_iff {d : Dict} {name : Text} :
    d.contains name = true ↔ name ∈ d.entries.map Prod.fst := by
  rw [contains, get?, List.lookup_isSome_iff, List.mem_map]
  simp only [beq_iff_eq, @eq_comm _ name]

/-- No name occurs twice. -/
theorem nodup_names (d : Dict) : (d.entries.map Prod.fst).Nodup := by
  refine List.pairwise_map.mpr (d.ordered.imp fun {a b} hlt heq => ?_)
  rw [heq, Text.order_self] at hlt
  cases hlt

/-- A new name adds an entry. -/
theorem perm_entries_insert {d : Dict} {name : Text} (h : name ∉ d.entries.map Prod.fst)
    (value : Text) : (d.insert name value).entries.Perm ((name, value) :: d.entries) := by
  change (insertEntry name value d.entries).Perm _
  generalize d.entries = es at h ⊢
  induction es with
  | nil => exact .refl _
  | cons e es ih =>
    rw [List.map_cons, List.mem_cons, not_or] at h
    rw [insertEntry]
    split
    · exact .refl _
    · rename_i heq
      exact absurd (Text.order_eq_iff.mp heq) h.1
    · exact ((ih h.2).cons e).trans (.swap _ _ es)

/-- The order of the entries is no information. -/
theorem ext_perm {d e : Dict} (h : d.entries.Perm e.entries) : d = e := by
  have heq := h.eq_of_pairwise (fun a b _ _ hab hba => ?_) d.ordered e.ordered
  · cases d
    cases e
    cases heq
    rfl
  · rw [Std.OrientedCmp.gt_of_lt hab] at hba
    cases hba

end Dict

end CanonicalUri
