import CanonicalUri.Proofs.Grammar.Tail

/-!
# Merging texts into parameters

What becomes of the parameters when the pairs of a text are added to them.

* `Query.IsMerged`: each name of the pairs has the value of its last occurrence, and every other
  name has what it had. `Query.merge_eq_ok_iff` says that this is what a successful merge does, and
  that it succeeds exactly when all pieces of the text can be read.
* `Query.merge_eq_error_iff`: a merge fails exactly at the first piece that cannot be read, whatever
  the parameters are.
* `Query.merge_append`: so an ampersand may be taken for a second merge.
-/

namespace CanonicalUri

namespace Query

/-! ### Pairs put into a query -/

/-- The parameters `r` after pairs were put into `q`, one after the other. -/
structure IsMerged (q : Query) (pairs : List (Text × Text)) (r : Query) : Prop where
  last : ∀ front name value back, pairs = front ++ (name, value) :: back →
    name ∉ back.map Prod.fst → r.get? name = some value
  kept : ∀ name, name ∉ pairs.map Prod.fst → r.get? name = q.get? name

/-- A name of some pairs has a last occurrence in them. -/
theorem exists_last_of_mem {pairs : List (Text × Text)} {name : Text}
    (h : name ∈ pairs.map Prod.fst) :
    ∃ front value back, pairs = front ++ (name, value) :: back ∧ name ∉ back.map Prod.fst := by
  induction pairs with
  | nil => cases h
  | cons p pairs ih =>
    by_cases hlater : name ∈ pairs.map Prod.fst
    · obtain ⟨front, value, back, rfl, hback⟩ := ih hlater
      exact ⟨p :: front, value, back, rfl, hback⟩
    · obtain rfl : name = p.1 := (List.mem_cons.mp h).resolve_right hlater
      exact ⟨[], p.2, pairs, rfl, hlater⟩

theorem isMerged_insertAll (q : Query) (pairs : List (Text × Text)) :
    IsMerged q pairs (q.insertAll pairs) where
  last front name value back hpairs hback := by
    rw [hpairs, Dict.insertAll_append, Dict.insertAll_cons, Dict.get?_insertAll_of_not_mem hback,
      Dict.get?_insert, if_pos rfl]
  kept _ hname := Dict.get?_insertAll_of_not_mem hname

/-- The pairs and the parameters in front of them determine the parameters behind them. -/
theorem isMerged_iff {q r : Query} {pairs : List (Text × Text)} :
    IsMerged q pairs r ↔ q.insertAll pairs = r := by
  refine ⟨fun h => Dict.ext_get? fun name => ?_, fun h => h ▸ isMerged_insertAll q pairs⟩
  by_cases hname : name ∈ pairs.map Prod.fst
  · obtain ⟨front, value, back, hpairs, hback⟩ := exists_last_of_mem hname
    rw [h.last front name value back hpairs hback,
      (isMerged_insertAll q pairs).last front name value back hpairs hback]
  · rw [h.kept name hname, (isMerged_insertAll q pairs).kept name hname]

/-! ### Reading the pairs -/

/-- Decodes the name of a pair. -/
def readName (n : Text) : Except Percent.DecodeError Text :=
  if n = [] then .ok nameless else Percent.decode n

theorem readName_eq_ok_iff {n name : Text} : readName n = .ok name ↔ NameForm n name := by
  rw [readName]
  constructor
  · intro h
    split_ifs at h with hn
    · cases h
      exact hn ▸ .nameless
    · exact .named h (mt (Percent.eq_nil_iff_of_decode h).mp hn)
  · rintro (_ | ⟨h, hne⟩)
    · rfl
    · rwa [if_neg (mt (Percent.eq_nil_iff_of_decode h).mpr hne)]

/-- Nothing is always decoded, so only a name that is given can be at fault. -/
theorem readName_eq_error_iff {n : Text} {e : Percent.DecodeError} :
    readName n = .error e ↔ Percent.decode n = .error e := by
  rw [readName]
  split_ifs with hn
  · rw [hn, Percent.decode_nil]
    exact iff_of_false nofun nofun
  · rfl

theorem readPair_eq_bind (t : Text) :
    readPair t = readName (cutPair t).1 >>= fun name =>
      Percent.decode (cutPair t).2 >>= fun value => pure (name, value) := by
  rw [readPair, readName]
  obtain ⟨n, v⟩ := cutPair t
  dsimp only
  split_ifs <;> rfl

theorem readPair_eq_ok_iff {t : Text} {p : Text × Text} : readPair t = .ok p ↔ PairForm t p := by
  rw [readPair_eq_bind, pairForm_iff]
  simp only [bind_eq_ok_iff, pure_eq_ok_iff, readName_eq_ok_iff]
  constructor
  · rintro ⟨name, hname, value, hvalue, rfl⟩
    exact ⟨hname, hvalue⟩
  · rintro ⟨hname, hvalue⟩
    exact ⟨p.1, hname, p.2, hvalue, rfl⟩

/-- A merge puts in the pairs of the text. -/
theorem merge_eq_ok_iff {q r : Query} {t : Text} :
    q.merge t = .ok r ↔ ∃ pairs, List.Forall₂ PairForm (Text.pieces '&' t) pairs ∧
      IsMerged q pairs r := by
  rw [merge_eq]
  simp only [bind_eq_ok_iff, pure_eq_ok_iff, mapM_eq_ok_iff, readPair_eq_ok_iff, isMerged_iff]

/-- Whether a merge fails is a matter of the text alone. -/
theorem merge_eq_error_iff {q : Query} {t : Text} {e : Percent.DecodeError} :
    q.merge t = .error e ↔ (Text.pieces '&' t).mapM readPair = .error e := by
  rw [merge_eq, bind_eq_error_iff]
  refine or_iff_left ?_
  rintro ⟨_, _, h⟩
  cases h

/-- Merging succeeds on all parameters or on none. -/
theorem exists_merge_iff {q : Query} {t : Text} :
    (∃ r, q.merge t = .ok r) ↔ ∀ p ∈ Text.pieces '&' t, ∃ pair, PairForm p pair := by
  simp only [merge_eq_ok_iff, isMerged_iff]
  rw [← exists_forall₂_iff]
  constructor
  · rintro ⟨_, pairs, hpairs, _⟩
    exact ⟨pairs, hpairs⟩
  · rintro ⟨pairs, hpairs⟩
    exact ⟨_, pairs, hpairs, rfl⟩

/-- A merge that fails leaves the parameters as they were. -/
theorem apply_merge_eq_failed_iff {q q' : Query} {t : Text} {e : Percent.DecodeError} :
    Edit.apply q (.merge t) = (.failed e, q') ↔ q' = q ∧ q.merge t = .error e := by
  rw [Edit.apply, (isAtomic_mergeText t).run_eq, merge]
  cases (mergeText t).result q <;> simp [and_comm, eq_comm]

/-! ### Two merges for one -/

theorem merge_append_eq_bind (q : Query) (x y : Text) :
    q.merge (x ++ '&' :: y) = q.merge x >>= fun r => r.merge y := by
  simp only [merge_eq, Text.pieces_append_cons, List.mapM_append, bind_assoc, pure_bind,
    Dict.insertAll_append]

/-- A merge of two texts with an ampersand between them is a merge of the one and then of the
other. It succeeds exactly when both can be merged, into whatever parameters; if it fails, nothing
has changed, and the error is that of the first text, or else that of the second one. A merge that
succeeds puts the pairs of the text into the parameters. -/
theorem merge_append (q : Query) (x y : Text) :
    (∀ q' : Query, (∃ r, q.merge (x ++ '&' :: y) = .ok r) ↔
      (∃ r, q.merge x = .ok r) ∧ ∃ r, q'.merge y = .ok r) ∧
    (∀ r, q.merge (x ++ '&' :: y) = .ok r ↔ ∃ m, q.merge x = .ok m ∧ m.merge y = .ok r) ∧
    (∀ e q', Edit.apply q (.merge (x ++ '&' :: y)) = (.failed e, q') ↔
      q' = q ∧ (q.merge x = .error e ∨ (∃ m, q.merge x = .ok m) ∧ q.merge y = .error e)) ∧
    ∀ t r, q.merge t = .ok r ↔ ∃ pairs, List.Forall₂ PairForm (Text.pieces '&' t) pairs ∧
      IsMerged q pairs r := by
  refine ⟨fun q' => ?_, fun r => ?_, fun e q' => ?_, fun t r => merge_eq_ok_iff⟩
  · simp only [exists_merge_iff, Text.pieces_append_cons, List.forall_mem_append]
  · rw [merge_append_eq_bind, bind_eq_ok_iff]
  · rw [apply_merge_eq_failed_iff, merge_append_eq_bind, bind_eq_error_iff]
    simp only [merge_eq_error_iff, exists_and_right]

end Query

end CanonicalUri
