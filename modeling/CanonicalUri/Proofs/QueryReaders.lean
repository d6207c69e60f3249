import CanonicalUri.Proofs.Merging
import Mathlib.Data.List.Nodup
import Mathlib.Data.List.Perm.Subperm

/-!
# The two readers of a query

A query that is part of a URI is read by `Query.read`, and one that is given on its own by
`Query.merge`. They take the same pieces, but the first one refuses a name that it has seen, and
looks for it between decoding the name and decoding the value; the second one lets the last value
win.

* `Query.Decoded`: what is decoded of some pieces from left to right, up to the first fault in a
  name or a value.
* `Query.mapM_readPair_of_decoded`: a merge reports that fault.
* `Query.foldlM_addPair_of_decoded`: the reader reports it, too, unless a name that was decoded in
  front of it is a repetition; then it reports the first name that is.
* `Query.read_agrees_merge`: so the readers agree on every text in which no name is repeated.
-/

namespace CanonicalUri

namespace Query

/-! ### What is decoded -/

/-- The name and the value of a piece as they are written. -/
inductive Halves : Text → Text → Text → Prop
  | flag {n : Text} (hn : '=' ∉ n) : Halves n n []
  | pair {n v : Text} (hn : '=' ∉ n) : Halves (n ++ '=' :: v) n v

theorem Halves.cutPair_eq {t n v : Text} (h : Halves t n v) : cutPair t = (n, v) := by
  obtain hn | hn := h
  · rw [cutPair, show Text.cut '=' t = (t, none) from Text.cut_uncut hn none]
    rfl
  · rw [cutPair, show Text.cut '=' (n ++ '=' :: v) = (n, some v) from Text.cut_uncut hn (some v)]
    rfl

theorem exists_halves (t : Text) : ∃ n v, Halves t n v := by
  have hn := Text.not_mem_fst_cut '=' t
  have ht := Text.uncut_cut '=' t
  revert hn ht
  obtain ⟨n, _ | v⟩ := Text.cut '=' t
  · rintro hn rfl
    exact ⟨n, [], .flag hn⟩
  · rintro hn rfl
    exact ⟨n, v, .pair hn⟩

theorem Halves.pairForm_iff {t n v : Text} (h : Halves t n v) {p : Text × Text} :
    PairForm t p ↔ NameForm n p.1 ∧ Percent.decode v = .ok p.2 := by
  rw [Query.pairForm_iff, h.cutPair_eq]

/-- What is decoded of some pieces from left to right, each name in front of its value: the names,
and the part that cannot be decoded with its error, if there is one. -/
inductive Decoded : List Text → List Text → Option (Component × Percent.DecodeError) → Prop
  | nil : Decoded [] [] none
  | pair {t : Text} {ts names : List Text} {p : Text × Text}
      {fault : Option (Component × Percent.DecodeError)} (ht : PairForm t p)
      (hts : Decoded ts names fault) : Decoded (t :: ts) (p.1 :: names) fault
  | badName {t n v : Text} {ts : List Text} {e : Percent.DecodeError} (ht : Halves t n v)
      (hn : Percent.decode n = .error e) : Decoded (t :: ts) [] (some (.queryName, e))
  | badValue {t n v name : Text} {ts : List Text} {e : Percent.DecodeError} (ht : Halves t n v)
      (hn : NameForm n name) (hv : Percent.decode v = .error e) :
      Decoded (t :: ts) [name] (some (.queryValue, e))

/-- Something is decoded of any pieces. -/
theorem exists_decoded (ts : List Text) : ∃ names fault, Decoded ts names fault := by
  induction ts with
  | nil => exact ⟨[], none, .nil⟩
  | cons t ts ih =>
    obtain ⟨n, v, ht⟩ := exists_halves t
    rcases hn : readName n with e | name
    · exact ⟨_, _, .badName ht (readName_eq_error_iff.mp hn)⟩
    · rw [readName_eq_ok_iff] at hn
      rcases hv : Percent.decode v with e | value
      · exact ⟨_, _, .badValue ht hn hv⟩
      · obtain ⟨names, fault, hts⟩ := ih
        exact ⟨_, _, .pair (p := (name, value)) (ht.pairForm_iff.mpr ⟨hn, hv⟩) hts⟩

/-! ### Merging -/

/-- Without a fault there is a pair for every piece. -/
theorem Decoded.exists_pairs {ts names : List Text} (h : Decoded ts names none) :
    ∃ pairs, List.Forall₂ PairForm ts pairs := by
  generalize hfault : none = fault at h
  induction h with
  | nil => exact ⟨[], .nil⟩
  | @pair _ _ _ p _ ht _ ih =>
    obtain ⟨pairs, hpairs⟩ := ih hfault
    exact ⟨p :: pairs, .cons ht hpairs⟩
  | badName => cases hfault
  | badValue => cases hfault

theorem mapM_readPair_of_forall₂ {ts : List Text} {pairs : List (Text × Text)}
    (h : List.Forall₂ PairForm ts pairs) : ts.mapM readPair = .ok pairs := by
  rw [mapM_eq_ok_iff]
  simpa only [readPair_eq_ok_iff] using h

/-- A merge fails with the error of the fault. -/
theorem mapM_readPair_of_decoded {ts names : List Text} {part : Component}
    {e : Percent.DecodeError} (h : Decoded ts names (some (part, e))) :
    ts.mapM readPair = .error e := by
  generalize hfault : some (part, e) = fault at h
  induction h with
  | nil => cases hfault
  | pair ht _ ih => rw [List.mapM_cons, readPair_eq_ok_iff.mpr ht, ih hfault]; rfl
  | badName ht hn =>
    cases hfault
    rw [List.mapM_cons, readPair_eq_bind, ht.cutPair_eq, readName_eq_error_iff.mpr hn]
    rfl
  | badValue ht hn hv =>
    cases hfault
    rw [List.mapM_cons, readPair_eq_bind, ht.cutPair_eq, readName_eq_ok_iff.mpr hn]
    simp only [hv]
    rfl

/-! ### Reading -/

/-- A name is looked for before the value is decoded. -/
theorem addPair_of_halves {t n v name : Text} (ht : Halves t n v) (hn : NameForm n name)
    (q : Query) :
    q.addPair t = if q.contains name then .error (.duplicateQueryName name)
      else (Component.queryValue.decode v).map (q.insert name) := by
  obtain ⟨d, hd, rfl⟩ := nameForm_iff.mp hn
  rw [addPair, ht.cutPair_eq]
  simp only [Component.decode, hd]
  change (if q.contains (if d = [] then nameless else d) = true then _ else _) = _
  generalize (if d = [] then nameless else d) = name
  split_ifs
  · rfl
  · cases Percent.decode v <;> rfl

theorem addPair_of_badName {t n v : Text} {e : Percent.DecodeError} (ht : Halves t n v)
    (hn : Percent.decode n = .error e) (q : Query) :
    q.addPair t = .error (.invalidEncoding .queryName e) := by
  rw [addPair, ht.cutPair_eq]
  simp only [Component.decode, hn]
  rfl

/-- The first of some names that occurs in front of itself. -/
def FirstRepeat (names : List Text) (name : Text) : Prop :=
  ∃ front back, names = front ++ name :: back ∧ front.Nodup ∧ name ∈ front

/-- Pieces that are read after others, whose names are `seen`, have the first fault in them reported
unless a name in front of it is repeated. -/
theorem foldlM_addPair_of_decoded {ts names : List Text}
    {fault : Option (Component × Percent.DecodeError)} (h : Decoded ts names fault) {q : Query}
    {seen : List Text} (hseen : ∀ name, q.contains name = true ↔ name ∈ seen)
    (hnodup : seen.Nodup) :
    ((seen ++ names).Nodup ∧ (fault = none → ∃ r, ts.foldlM addPair q = .ok r) ∧
      ∀ part e, fault = some (part, e) →
        ts.foldlM addPair q = .error (.invalidEncoding part e)) ∨
    ∃ name, FirstRepeat (seen ++ names) name ∧
      ts.foldlM addPair q = .error (.duplicateQueryName name) := by
  -- a piece whose name was seen is the first repetition
  have hrepeat : ∀ {t n v name : Text} {ts names : List Text} {q : Query} {seen : List Text},
      Halves t n v → NameForm n name → q.contains name = true → name ∈ seen → seen.Nodup →
      ∃ name', FirstRepeat (seen ++ name :: names) name' ∧
        (t :: ts).foldlM addPair q = .error (.duplicateQueryName name') := by
    intro t n v name ts names q seen ht hn hcontains hmem hnodup
    refine ⟨name, ⟨seen, names, rfl, hnodup, hmem⟩, ?_⟩
    rw [List.foldlM_cons, addPair_of_halves ht hn, if_pos hcontains]
    rfl
  induction h generalizing q seen with
  | nil =>
    rw [List.append_nil]
    exact .inl ⟨hnodup, fun _ => ⟨q, rfl⟩, fun _ _ heq => by cases heq⟩
  | @pair t ts names p fault ht _ ih =>
    obtain ⟨n, v, hhalves⟩ := exists_halves t
    obtain ⟨hn, hv⟩ := hhalves.pairForm_iff.mp ht
    by_cases hmem : p.1 ∈ seen
    · exact .inr (hrepeat hhalves hn ((hseen p.1).mpr hmem) hmem hnodup)
    · have hstep : q.addPair t = .ok (q.insert p.1 p.2) := by
        rw [addPair_of_halves hhalves hn, if_neg (mt (hseen p.1).mp hmem), Component.decode, hv]
        rfl
      have hseen' : ∀ name, (q.insert p.1 p.2).contains name = true ↔ name ∈ seen ++ [p.1] := by
        intro name
        rw [List.mem_append, List.mem_singleton, ← hseen, Dict.contains, Dict.get?_insert,
          Dict.contains]
        split_ifs with h <;> simp [h]
      have hnodup' : (seen ++ [p.1]).Nodup := by
        simpa [List.nodup_append] using ⟨hnodup, fun a ha heq => hmem (heq ▸ ha)⟩
      have h := ih hseen' hnodup'
      rw [List.append_assoc, List.singleton_append] at h
      rw [List.foldlM_cons, hstep]
      exact h
  | @badName t _ _ ts e ht hn =>
    refine .inl ⟨by rwa [List.append_nil], (by cases ·), fun part e' heq => ?_⟩
    cases heq
    rw [List.foldlM_cons, addPair_of_badName ht hn]
    rfl
  | @badValue t n v name ts e ht hn hv =>
    by_cases hmem : name ∈ seen
    · exact .inr (hrepeat ht hn ((hseen name).mpr hmem) hmem hnodup)
    · refine .inl ⟨?_, (by cases ·), fun part e' heq => ?_⟩
      · simpa [List.nodup_append] using ⟨hnodup, fun a ha heq => hmem (heq ▸ ha)⟩
      · cases heq
        rw [List.foldlM_cons, addPair_of_halves ht hn, if_neg (mt (hseen name).mp hmem),
          Component.decode, hv]
        rfl

/-! ### Both readers -/

/-- As many parameters as pairs were put into a query are those pairs. -/
theorem perm_of_isMerged {q : Query} {pairs : List (Text × Text)} (h : IsMerged .empty pairs q)
    (hsize : pairs.length ≤ q.size) : q.entries.Perm pairs := by
  have hsub : q.entries ⊆ pairs := by
    rintro ⟨name, value⟩ hp
    have hvalue := Dict.get?_eq_some_iff.mpr hp
    by_cases hname : name ∈ pairs.map Prod.fst
    · obtain ⟨front, last, back, rfl, hback⟩ := exists_last_of_mem hname
      rw [h.last front name last back rfl hback] at hvalue
      cases hvalue
      simp
    · rw [h.kept name hname] at hvalue
      cases hvalue
  exact ((List.Nodup.of_map _ q.nodup_names).subperm hsub).perm_of_length_le hsize

/-- Pairs without a repeated name are the parameters that they were put into. -/
theorem isMerged_of_perm {q : Query} {pairs : List (Text × Text)} (h : q.entries.Perm pairs) :
    IsMerged .empty pairs q where
  last front name value back hpairs _ := by
    rw [Dict.get?_eq_some_iff, h.mem_iff, hpairs]
    simp
  kept name hname := by
    rw [Dict.get?_empty, Option.eq_none_iff_forall_ne_some]
    intro value hvalue
    rw [Dict.get?_eq_some_iff, h.mem_iff] at hvalue
    exact hname (List.mem_map_of_mem hvalue)

/-- Reading succeeds exactly when merging into no parameters does and gives one for each piece. -/
theorem read_eq_ok_iff_merge {t : Text} {q : Query} :
    read t = .ok q ↔ merge .empty t = .ok q ∧ q.size = (Text.pieces '&' t).length := by
  rw [read_eq_ok_iff, merge_eq_ok_iff]
  constructor
  · rintro ⟨hpairs, _, hq⟩
    exact ⟨⟨_, hpairs, isMerged_of_perm hq⟩, hq.length_eq.trans hpairs.length_eq.symm⟩
  · rintro ⟨⟨pairs, hpairs, hmerged⟩, hsize⟩
    have hq := perm_of_isMerged hmerged (Nat.le_of_eq (hsize.trans hpairs.length_eq).symm)
    exact .intro hpairs ((hq.map Prod.fst).nodup_iff.mp q.nodup_names) hq

/-- A question mark and a text without a hash sign are a query and nothing behind it. It is read
exactly when the text can be merged into no parameters and gives one for each of its pieces; then
the two results are the same. If the text cannot be merged, the reader fails at the same part with
the same error, unless a name that was decoded before is a repetition; then it reports the first
name that is. If the text can be merged and is not read, the reader reports the first name that is
repeated. -/
theorem read_agrees_merge {t : Text} (hhash : '#' ∉ t) :
    RawTail.cut ('?' :: t) = ⟨[], some t, none⟩ ∧
    (∀ q, read t = .ok q ↔ merge .empty t = .ok q ∧ q.size = (Text.pieces '&' t).length) ∧
    (∀ e, merge .empty t = .error e →
      ∃ names part, Decoded (Text.pieces '&' t) names (some (part, e)) ∧
        (names.Nodup ∧ read t = .error (.invalidEncoding part e) ∨
          ∃ name, FirstRepeat names name ∧ read t = .error (.duplicateQueryName name))) ∧
    ∀ q e, merge .empty t = .ok q → read t = .error e →
      ∃ names name, Decoded (Text.pieces '&' t) names none ∧ FirstRepeat names name ∧
        e = .duplicateQueryName name := by
  obtain ⟨names, fault, hdecoded⟩ := exists_decoded (Text.pieces '&' t)
  have hseen : ∀ name, Dict.empty.contains name = true ↔ name ∈ [] := by simp [Dict.contains]
  have hread := foldlM_addPair_of_decoded hdecoded hseen .nil
  rw [List.nil_append] at hread
  refine ⟨?_, fun q => read_eq_ok_iff_merge, fun e he => ?_, fun q e hq he => ?_⟩
  · exact RawTail.cut_toText (t := ⟨[], some t, none⟩) (by simp) (by simpa using hhash)
  · rw [merge_eq_error_iff] at he
    rcases fault with _ | ⟨part, e'⟩
    · obtain ⟨pairs, hpairs⟩ := hdecoded.exists_pairs
      rw [mapM_readPair_of_forall₂ hpairs] at he
      cases he
    · rw [mapM_readPair_of_decoded hdecoded] at he
      cases he
      exact ⟨names, part, hdecoded, hread.imp_left fun h => ⟨h.1, h.2.2 part e rfl⟩⟩
  · rcases fault with _ | ⟨part, e'⟩
    · obtain ⟨_, hok, _⟩ | ⟨name, hname, herror⟩ := hread
      · obtain ⟨r, hr⟩ := hok rfl
        cases he.symm.trans hr
      · exact ⟨names, name, hdecoded, hname, Except.error.inj (he.symm.trans herror)⟩
    · have herror := (merge_eq_error_iff (q := .empty)).mpr (mapM_readPair_of_decoded hdecoded)
      cases hq.symm.trans herror

/-- A text in which a name is missing and given, so that it is repeated in front of a value that
cannot be decoded; the same without the missing name; and a text that both readers take. -/
theorem read_agrees_merge_nameless :
    let repeated := "=1&&%2A=%zz".toList
    let faulty := "b=1&&%2A=%zz".toList
    let distinct := "=1&&b%3D&%2a%2a=%26".toList
    let e : Percent.DecodeError := ⟨"%zz".toList, .badEscape 122 122⟩
    ('#' ∉ repeated ∧ merge .empty repeated = .error e ∧
      ∃ names part, Decoded (Text.pieces '&' repeated) names (some (part, e)) ∧
        FirstRepeat names nameless ∧ read repeated = .error (.duplicateQueryName nameless)) ∧
    ('#' ∉ faulty ∧ merge .empty faulty = .error e ∧
      ∃ names, Decoded (Text.pieces '&' faulty) names (some (.queryValue, e)) ∧ names.Nodup ∧
        read faulty = .error (.invalidEncoding .queryValue e)) ∧
    '#' ∉ distinct ∧ ∃ q, merge .empty distinct = .ok q ∧ q.size = 3 ∧ read distinct = .ok q := by
  intro repeated faulty distinct e
  refine ⟨⟨by decide, by decide +kernel, ?_⟩, ⟨by decide, by decide +kernel, ?_⟩, by decide, ?_⟩
  · have hread : read repeated = .error (.duplicateQueryName nameless) := by decide +kernel
    obtain ⟨names, part, hdecoded, ⟨_, h⟩ | ⟨name, hname, h⟩⟩ :=
      (read_agrees_merge (t := repeated) (by decide)).2.2.1 e (by decide +kernel)
    · cases hread.symm.trans h
    · cases hread.symm.trans h
      exact ⟨names, part, hdecoded, hname, hread⟩
  · have hread : read faulty = .error (.invalidEncoding .queryValue e) := by decide +kernel
    obtain ⟨names, part, hdecoded, ⟨hnames, h⟩ | ⟨name, _, h⟩⟩ :=
      (read_agrees_merge (t := faulty) (by decide)).2.2.1 e (by decide +kernel)
    · cases hread.symm.trans h
      exact ⟨names, hdecoded, hnames, hread⟩
    · cases hread.symm.trans h
  · let q : Query := ((Dict.empty.insert nameless "1".toList).insert "b=".toList []).insert
      "**".toList "&".toList
    have hmerge : merge .empty distinct = .ok q := by decide +kernel
    have hsize : q.size = (Text.pieces '&' distinct).length := by decide +kernel
    exact ⟨q, hmerge, by decide +kernel,
      ((read_agrees_merge (t := distinct) (by decide)).2.1 q).mpr ⟨hmerge, hsize⟩⟩

end Query

end CanonicalUri
