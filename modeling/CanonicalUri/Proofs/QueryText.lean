import CanonicalUri.Proofs.Merging
import CanonicalUri.Proofs.Written
import Mathlib.Logic.Function.Basic

/-!
# Parameters and their text

Parameters that came about by edits are the same as their text, as long as no edit inserts an empty
name, and the text depends on nothing but the value that each name has in the end.

* `Query.Edit.mapping` is that value, read off the edits without any query. `Query.Edit.get?_run`
  says that it is what the query holds.
* `Query.Edit.get?_nil_apply` and `Query.Edit.get?_nil_run`: no parameter gets an empty name; a text
  cannot bring one in, because nothing but the empty text is decoded to it.
* `Query.merge_toText`: so the text has all that there is to know about the parameters, and merging
  it into them, or into none, gives them.
* `Query.merge_toText_run` puts this together and adds that queries with the same values are listed
  and written alike, in the order of the names by code points (`Text.order_eq_lt_iff`).
-/

namespace CanonicalUri

/-- The order of texts is the order of the lists of their characters. -/
theorem Text.order_eq_lt_iff {s t : Text} : order s t = .lt ↔ s < t := by
  induction s generalizing t with
  | nil => cases t <;> simp [order, List.compareLex_nil_nil, List.compareLex_nil_cons]
  | cons c s ih =>
    cases t with
    | nil => simp [order, List.compareLex_cons_nil]
    | cons d t =>
      have hlt : compareOn Char.toNat c d = .lt ↔ c < d := by
        rw [compareOn, Nat.compare_eq_lt]
        exact UInt32.lt_iff_toNat_lt.symm
      have heq : compareOn Char.toNat c d = .eq ↔ c = d := by
        rw [compareOn, Nat.compare_eq_eq, Char.toNat_inj]
      rw [order] at ih ⊢
      rw [List.compareLex_cons_cons, Ordering.then_eq_lt, hlt, heq, ih, List.cons_lt_cons_iff]

namespace Query

namespace Edit

/-! ### What edits do to values -/

/-- Gives a name a value. -/
def putPair (values : Text → Option Text) (p : Text × Text) : Text → Option Text :=
  Function.update values p.1 (some p.2)

/-- What an edit does to the values of names. -/
def effect (values : Text → Option Text) : Edit → Text → Option Text
  | .insert name value => putPair values (name, value)
  | .erase name => Function.update values name none
  | .clear => fun _ => none
  | .merge t =>
    match (Text.pieces '&' t).mapM readPair with
    | .ok pairs => pairs.foldl putPair values
    | .error _ => values

/-- The value that each name has after a list of edits. -/
def mapping (edits : List Edit) : Text → Option Text :=
  edits.foldl effect fun _ => none

private theorem get?_insert (q : Query) (name value : Text) :
    (q.insert name value).get? = putPair q.get? (name, value) := by
  funext k
  rw [Dict.get?_insert, putPair, Function.update_apply]

private theorem get?_insertAll (q : Query) (pairs : List (Text × Text)) :
    (q.insertAll pairs).get? = pairs.foldl putPair q.get? := by
  induction pairs generalizing q with
  | nil => rfl
  | cons p pairs ih => rw [Dict.insertAll_cons, ih, get?_insert, List.foldl_cons]

/-- An edit has its effect. -/
theorem get?_apply (q : Query) (e : Edit) : (e.apply q).2.get? = e.effect q.get? := by
  cases e with
  | insert name value => exact get?_insert q name value
  | erase name =>
    funext k
    rw [apply, effect, Dict.get?_erase, Function.update_apply]
  | clear => rfl
  | merge t =>
    rw [apply, effect, run_mergeText]
    rcases (Text.pieces '&' t).mapM readPair with e | pairs
    · rfl
    · exact get?_insertAll q pairs

/-- What is held after a list of edits is what the edits say. -/
theorem get?_run (edits : List Edit) : (run .empty edits).get? = mapping edits := by
  suffices h : ∀ q : Query, (run q edits).get? = edits.foldl effect q.get? from h .empty
  induction edits with
  | nil => exact fun q => rfl
  | cons e edits ih =>
    intro q
    rw [List.foldl_cons, ← get?_apply]
    exact ih _

/-! ### Names -/

/-- The edit does not insert an empty name. -/
def IsNamed : Edit → Prop
  | .insert name _ => name ≠ []
  | _ => True

theorem get?_nil_apply {q : Query} {e : Edit} (hq : q.get? [] = none) (he : e.IsNamed) :
    (e.apply q).2.get? [] = none := by
  cases e with
  | insert name value => rwa [apply, Dict.get?_insert, if_neg (Ne.symm he)]
  | erase name =>
    rw [apply, Dict.get?_erase]
    split_ifs
    · rfl
    · exact hq
  | clear => rfl
  | merge t =>
    rw [apply, run_mergeText]
    rcases hpairs : (Text.pieces '&' t).mapM readPair with e | pairs
    · exact hq
    · rw [mapM_eq_ok_iff] at hpairs
      refine ((isMerged_insertAll q pairs).kept [] fun hmem => ?_).trans hq
      obtain ⟨p, hp, hnil⟩ := List.mem_map.mp hmem
      obtain ⟨_, _, hform⟩ := exists_mem_of_forall₂ hpairs hp
      exact (readPair_eq_ok_iff.mp hform).name_ne_nil hnil

theorem get?_nil_run {q : Query} {edits : List Edit} (hq : q.get? [] = none)
    (hedits : ∀ e ∈ edits, e.IsNamed) : (run q edits).get? [] = none := by
  induction edits generalizing q with
  | nil => exact hq
  | cons e edits ih =>
    obtain ⟨he, hedits⟩ := List.forall_mem_cons.mp hedits
    exact ih (get?_nil_apply hq he) hedits

end Edit

/-! ### The text -/

theorem name_ne_nil_of_get?_nil {q : Query} (h : q.get? [] = none) {p : Text × Text}
    (hp : p ∈ q.entries) : p.1 ≠ [] := by
  obtain ⟨name, value⟩ := p
  rintro rfl
  rw [Dict.get?_eq_some_iff.mpr hp] at h
  cases h

/-- Parameters put into others that have no further ones take their place. -/
theorem isMerged_entries {q r : Query} (h : ∀ name, q.get? name = none → r.get? name = none) :
    IsMerged r q.entries q where
  last front name value back hq _ := by
    rw [Dict.get?_eq_some_iff, hq]
    simp
  kept name hname := by
    have hnone : q.get? name = none := by
      rwa [← Dict.contains_eq_true_iff, Dict.contains, Bool.not_eq_true, Option.isSome_eq_false_iff,
        Option.isNone_iff_eq_none] at hname
    rw [hnone, h name hnone]

/-- The text of parameters without an empty name is merged into all parameters that have no other
names, and gives those that it was written for. -/
theorem merge_toText {q r : Query} (hq : q.get? [] = none)
    (h : ∀ name, q.get? name = none → r.get? name = none) : r.merge q.toText = .ok q :=
  merge_eq_ok_iff.mpr ⟨q.entries, forall₂_pieces_toText fun _ => name_ne_nil_of_get?_nil hq,
    isMerged_entries h⟩

/-- The parameters after a list of edits without an empty name are merged from their text into
themselves, and into none, without loss. They are what the edits say, and they are listed in the
order of the names; any edits that say the same lead to the same text, the same list and the same
entry at every index. -/
theorem merge_toText_run {edits : List Edit} (hnamed : ∀ e ∈ edits, e.IsNamed) :
    let q := Edit.run .empty edits
    merge .empty q.toText = .ok q ∧ q.merge q.toText = .ok q ∧
      q.get? = Edit.mapping edits ∧ (q.entries.map Prod.fst).Pairwise (· < ·) ∧
      ∀ edits', Edit.mapping edits' = Edit.mapping edits →
        (Edit.run .empty edits').toText = q.toText ∧
        (Edit.run .empty edits').entries = q.entries ∧
        ∀ i, (Edit.run .empty edits').entryAt? i = q.entryAt? i := by
  intro q
  have hnil : q.get? [] = none := Edit.get?_nil_run rfl hnamed
  refine ⟨merge_toText hnil fun _ _ => rfl, merge_toText hnil fun _ => id, Edit.get?_run edits, ?_,
    fun edits' hsame => ?_⟩
  · exact List.pairwise_map.mpr (q.ordered.imp Text.order_eq_lt_iff.mp)
  · have heq : Edit.run .empty edits' = q := Dict.ext_get? fun name => by
      rw [Edit.get?_run, hsame, ← Edit.get?_run]
    rw [heq]
    exact ⟨rfl, rfl, fun _ => rfl⟩

/-- Two histories of the same parameters: a name of separators, one behind the Basic Multilingual
Plane and the one for pairs without a name; a text that cannot be merged, and a parameter that is
taken away again. -/
theorem merge_toText_run_reordered :
    let edits : List Edit := [.insert "😀".toList [], .merge "=a%26b&x=1".toList,
      .insert "k=&%+".toList "p,q é".toList, .erase "x".toList]
    let edits' : List Edit := [.insert "y".toList "z".toList, .clear,
      .merge "%2A=0&k%3D%26%25%2B=p,q+%C3%A9&%2A=a%26b&%F0%9F%98%80".toList,
      .merge "k=%zz".toList]
    (∀ e ∈ edits, e.IsNamed) ∧ Edit.mapping edits' = Edit.mapping edits ∧
      let q := Edit.run .empty edits
      merge .empty q.toText = .ok q ∧ q.merge q.toText = .ok q ∧
        (Edit.run .empty edits').toText = q.toText := by
  intro edits edits'
  have hnamed : ∀ e ∈ edits, e.IsNamed := by simp [edits, Edit.IsNamed]
  have hsame : Edit.mapping edits' = Edit.mapping edits := by
    rw [← Edit.get?_run, ← Edit.get?_run,
      show Edit.run .empty edits' = Edit.run .empty edits by decide +kernel]
  obtain ⟨hempty, hself, _, _, hagree⟩ := merge_toText_run hnamed
  exact ⟨hnamed, hsame, hempty, hself, (hagree edits' hsame).1⟩

end Query

end CanonicalUri
