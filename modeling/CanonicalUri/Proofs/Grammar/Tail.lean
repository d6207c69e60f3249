import CanonicalUri.Parsed
import CanonicalUri.Proofs.Escapes
import Mathlib.Data.List.Induction

/-!
# The form of path, query and fragment

What may follow an authority, and what it says.

* `TailForm`: nothing at all, or a slash and a path, then perhaps `?` and a query, then perhaps `#`
  and a fragment.
* `Path.Resolves`: a path read from left to right. A `.` stays where it is, any other segment but
  `..` is entered, and `..` leaves the segment that was entered last and not yet left, so there has
  to be one.
* `Query.Form`: the pairs between ampersands, no two of them with the same decoded name.
* `Fragment.Form`: an anchor, or a second path behind `!` that is dropped if it does not resolve.

The readers are folds, so each of them has a lemma for one step (`resolve_append_singleton`,
`addPair_eq_ok_iff`) from which the whole run follows by induction.
-/

namespace CanonicalUri

/-! ### Separators -/

/-- A text behind its mark, or nothing. -/
inductive Marked (mark : Char) : Text → Text → Prop
  | absent : Marked mark [] []
  | present (t : Text) : Marked mark (mark :: t) t

/-- What follows an authority: path, query and fragment, each empty if it is missing. -/
inductive TailForm : Text → Text × Text × Text → Prop
  | nothing : TailForm [] ([], [], [])
  | slash {path query fragment q f : Text} (hpath : '?' ∉ path ∧ '#' ∉ path)
      (hq : Marked '?' query q) (hquery : '#' ∉ query) (hf : Marked '#' fragment f) :
      TailForm ('/' :: (path ++ query ++ fragment)) (path, q, f)

theorem marked_uncut (mark : Char) (o : Option Text) :
    Marked mark (Text.uncut mark [] o) (o.getD []) := by
  obtain _ | t := o
  · exact .absent
  · exact .present t

private theorem Marked.exists_uncut {mark : Char} {r m : Text} (h : Marked mark r m) :
    ∃ o, r = Text.uncut mark [] o ∧ m = o.getD [] := by
  obtain _ | _ := h
  · exact ⟨none, rfl, rfl⟩
  · exact ⟨some m, rfl, rfl⟩

/-- Path, query and fragment of a tail; what is missing is empty. -/
def RawTail.parts (tail : Option RawTail) : Text × Text × Text :=
  let tail := tail.getD ⟨[], none, none⟩
  (tail.path, tail.query.getD [], tail.fragment.getD [])

/-- A tail is cut into the parts of its form. -/
theorem tailForm_iff {t : Text} {parts : Text × Text × Text} :
    TailForm t parts ↔ ∃ tail : Option Text, t = Text.uncut '/' [] tail ∧
      parts = RawTail.parts (tail.map RawTail.cut) := by
  constructor
  · rintro (_ | @⟨path, _, _, _, _, hpath, hq, hquery, hf⟩)
    · exact ⟨none, rfl, rfl⟩
    · obtain ⟨q, rfl, rfl⟩ := hq.exists_uncut
      obtain ⟨f, rfl, rfl⟩ := hf.exists_uncut
      have hfront : '#' ∉ Text.uncut '?' path q := by
        rw [Text.uncut_eq_append, List.mem_append, not_or]
        exact ⟨hpath.2, hquery⟩
      refine ⟨some (Text.uncut '#' (Text.uncut '?' path q) f), ?_, ?_⟩
      · rw [Text.uncut, Text.uncut_eq_append '#' (Text.uncut '?' path q) f,
          Text.uncut_eq_append '?' path q]
        rfl
      · rw [Option.map_some, RawTail.cut, Text.cut_uncut hfront]
        simp only [Text.cut_uncut hpath.1]
        rfl
  · rintro ⟨_ | t, rfl, rfl⟩
    · exact .nothing
    · have hfront := Text.uncut_cut '#' t
      have hpath := Text.uncut_cut '?' (Text.cut '#' t).1
      have hhash := Text.not_mem_fst_cut '#' t
      rw [← hpath, Text.uncut_eq_append, List.mem_append, not_or] at hhash
      have h := TailForm.slash ⟨Text.not_mem_fst_cut '?' _, hhash.1⟩ (marked_uncut '?' _) hhash.2
        (marked_uncut '#' (Text.cut '#' t).2)
      rw [← Text.uncut_eq_append '?', hpath, ← Text.uncut_eq_append '#', hfront] at h
      exact h

/-! ### Paths -/

namespace Path

/-- Where a path leads, read from left to right. -/
inductive Resolves : Path → Path → Prop
  | root : Resolves [] []
  | stay {p q : Path} (h : Resolves p q) : Resolves (p ++ [here]) q
  | enter {p q : Path} {s : Text} (h : Resolves p q) (hhere : s ≠ here) (hparent : s ≠ parent) :
      Resolves (p ++ [s]) (q ++ [s])
  | leave {p q : Path} {s : Text} (h : Resolves p (q ++ [s])) : Resolves (p ++ [parent]) q

private theorem resolve_append_singleton (p : Path) (s : Text) :
    resolve (p ++ [s]) = resolve p >>= (follow · s) := by
  simp only [resolve_eq_foldlM, List.foldlM_append, List.foldlM_cons, List.foldlM_nil, bind_pure]

/-- A path is resolved exactly when it leads somewhere. -/
theorem resolve_eq_ok_iff {p q : Path} : resolve p = .ok q ↔ Resolves p q := by
  refine ⟨fun h => ?_, ?_⟩
  · induction p using List.reverseRecOn generalizing q with
    | nil =>
      rw [resolve_nil] at h
      cases h
      exact .root
    | append_singleton p s ih =>
      rw [resolve_append_singleton, bind_eq_ok_iff] at h
      obtain ⟨r, hr, h⟩ := h
      have hr := ih hr
      rw [follow] at h
      split_ifs at h with hhere hparent hnil
      · cases h
        exact hhere ▸ .stay hr
      · cases h
        rw [← List.dropLast_append_getLast hnil] at hr
        exact hparent ▸ .leave hr
      · cases h
        exact .enter hr hhere hparent
  · intro h
    induction h with
    | root => exact resolve_nil
    | stay _ ih =>
      rw [resolve_append_singleton, ih]
      exact follow_here _
    | enter _ hhere hparent ih =>
      rw [resolve_append_singleton, ih]
      exact follow_of_ordinary hhere hparent _
    | leave _ ih =>
      rw [resolve_append_singleton, ih]
      exact follow_parent _ _

/-- Dots may be left out before a path is resolved. -/
theorem resolve_filter_here (p : Path) : resolve (p.filter (· != here)) = resolve p := by
  rw [resolve_eq_foldlM, resolve_eq_foldlM, foldlM_follow_filter_here]

/-- The encoded form of a path with the path that it leads to: all pieces between slashes can be
decoded. -/
inductive Form : Text → Path → Prop
  | intro {t : Text} {p q : Path}
      (hpieces : List.Forall₂ (fun s d => Percent.decode s = .ok d) (Text.pieces '/' t) p)
      (h : Resolves p q) : Form t q

theorem read_eq_ok_iff {t : Text} {q : Path} : read t = .ok q ↔ Form t q := by
  rw [read]
  simp only [bind_eq_ok_iff, mapError_eq_ok_iff, readSegments, pure_eq_ok_iff, mapM_eq_ok_iff]
  constructor
  · rintro ⟨_, ⟨p, hp, rfl⟩, h⟩
    rw [resolve_filter_here, resolve_eq_ok_iff] at h
    exact .intro hp h
  · rintro ⟨hp, h⟩
    refine ⟨_, ⟨_, hp, rfl⟩, ?_⟩
    rwa [resolve_filter_here, resolve_eq_ok_iff]

theorem read_nil : read [] = .ok [] :=
  read_eq_ok_iff.mpr (.intro (p := []) (by simp) .root)

end Path

/-! ### Queries -/

namespace Query

/-- The name of a pair; a pair without a name is given one. -/
inductive NameForm : Text → Text → Prop
  | nameless : NameForm [] nameless
  | named {n name : Text} (h : Percent.decode n = .ok name) (hne : name ≠ []) : NameForm n name

/-- A pair ends its name at the first equals sign; without one it has an empty value. -/
inductive PairForm : Text → Text × Text → Prop
  | flag {n name : Text} (hn : '=' ∉ n) (hname : NameForm n name) : PairForm n (name, [])
  | pair {n v name value : Text} (hn : '=' ∉ n) (hname : NameForm n name)
      (hvalue : Percent.decode v = .ok value) : PairForm (n ++ '=' :: v) (name, value)

/-- No pair has an empty name: one that is not given is replaced. -/
theorem PairForm.name_ne_nil {t : Text} {p : Text × Text} (h : PairForm t p) : p.1 ≠ [] := by
  have hname : ∀ {n name : Text}, NameForm n name → name ≠ [] := by
    rintro _ _ (_ | ⟨_, hne⟩)
    · decide
    · exact hne
  obtain ⟨_, h⟩ | ⟨_, h, _⟩ := h
  · exact hname h
  · exact hname h

/-- The encoded form of a query with its parameters: no two pairs have the same name. -/
inductive Form : Text → Query → Prop
  | intro {t : Text} {q : Query} {pairs : List (Text × Text)}
      (hpairs : List.Forall₂ PairForm (Text.pieces '&' t) pairs)
      (hnodup : (pairs.map Prod.fst).Nodup) (hq : q.entries.Perm pairs) : Form t q

theorem nameForm_iff {n name : Text} :
    NameForm n name ↔
      ∃ d, Percent.decode n = .ok d ∧ (if d = [] then nameless else d) = name := by
  constructor
  · rintro (_ | ⟨h, hne⟩)
    · exact ⟨[], Percent.decode_nil, if_pos rfl⟩
    · exact ⟨name, h, if_neg hne⟩
  · rintro ⟨d, hd, rfl⟩
    split_ifs with hnil
    · rw [hnil, Percent.decode_eq_ok_nil_iff] at hd
      exact hd ▸ .nameless
    · exact .named hd hnil

theorem pairForm_iff {t : Text} {p : Text × Text} :
    PairForm t p ↔ NameForm (cutPair t).1 p.1 ∧ Percent.decode (cutPair t).2 = .ok p.2 := by
  constructor
  · rintro (⟨hn, hname⟩ | @⟨n, v, _, _, hn, hname, hvalue⟩)
    · have hcut : Text.cut '=' t = (t, none) := Text.cut_uncut hn none
      rw [cutPair, hcut]
      exact ⟨hname, Percent.decode_nil⟩
    · have hcut : Text.cut '=' (n ++ '=' :: v) = (n, some v) := Text.cut_uncut hn (some v)
      rw [cutPair, hcut]
      exact ⟨hname, hvalue⟩
  · intro h
    obtain ⟨name, value⟩ := p
    have hn := Text.not_mem_fst_cut '=' t
    have ht := Text.uncut_cut '=' t
    rw [cutPair] at h
    revert h hn ht
    obtain ⟨n, _ | v⟩ := Text.cut '=' t
    · rintro ⟨hname, hvalue⟩ hn rfl
      cases hvalue
      exact .flag hn hname
    · rintro ⟨hname, hvalue⟩ hn rfl
      exact .pair hn hname hvalue

/-- A piece of a query adds a pair under a new name. -/
theorem addPair_eq_ok_iff {q r : Query} {t : Text} :
    q.addPair t = .ok r ↔
      ∃ p, PairForm t p ∧ p.1 ∉ q.entries.map Prod.fst ∧ q.insert p.1 p.2 = r := by
  rw [addPair]
  simp only [bind_eq_ok_iff, Component.decode, mapError_eq_ok_iff, pairForm_iff, nameForm_iff]
  constructor
  · rintro ⟨d, hd, h⟩
    generalize hname : (if d = [] then nameless else d) = name at h
    split at h
    · simp at h
    · rename_i hnew
      simp only [bind_eq_ok_iff, mapError_eq_ok_iff, pure_eq_ok_iff] at h
      obtain ⟨value, hvalue, rfl⟩ := h
      rw [Dict.contains_eq_true_iff] at hnew
      exact ⟨(name, value), ⟨⟨d, hd, hname⟩, hvalue⟩, hnew, rfl⟩
  · rintro ⟨⟨name, value⟩, ⟨⟨d, hd, hname⟩, hvalue⟩, hnew, rfl⟩
    refine ⟨d, hd, ?_⟩
    rw [← Dict.contains_eq_true_iff, ← hname] at hnew
    rw [if_neg hnew, hname]
    simp only [bind_eq_ok_iff, mapError_eq_ok_iff, pure_eq_ok_iff]
    exact ⟨value, hvalue, rfl⟩

/-- Pieces that are read after others add their pairs under names that are new. -/
private theorem foldlM_addPair_eq_ok_iff {ts : List Text} {q r : Query} :
    ts.foldlM addPair q = .ok r ↔ ∃ pairs, List.Forall₂ PairForm ts pairs ∧
      ((q.entries ++ pairs).map Prod.fst).Nodup ∧ r.entries.Perm (q.entries ++ pairs) := by
  induction ts generalizing q with
  | nil =>
    rw [List.foldlM_nil, pure_eq_ok_iff]
    constructor
    · rintro rfl
      refine ⟨[], .nil, ?_, ?_⟩
      · simpa using q.nodup_names
      · simp
    · rintro ⟨_, ⟨⟩, _, hr⟩
      rw [List.append_nil] at hr
      exact (Dict.ext_perm hr).symm
  | cons t ts ih =>
    -- the new pair stands in front of the entries, where the reader puts it in its place
    have hmove : ∀ (p : Text × Text) (pairs : List (Text × Text)),
        p.1 ∉ q.entries.map Prod.fst →
        ((q.insert p.1 p.2).entries ++ pairs).Perm (q.entries ++ p :: pairs) := fun p pairs hp =>
      ((Dict.perm_entries_insert hp p.2).append_right pairs).trans List.perm_middle.symm
    simp only [List.foldlM_cons, bind_eq_ok_iff, addPair_eq_ok_iff, ih,
      List.forall₂_cons_left_iff]
    constructor
    · rintro ⟨_, ⟨p, ht, hp, rfl⟩, pairs, hts, hnodup, hr⟩
      have hmove := hmove p pairs hp
      exact ⟨_, ⟨p, pairs, ht, hts, rfl⟩, ((hmove.map _).nodup_iff).mp hnodup, hr.trans hmove⟩
    · rintro ⟨_, ⟨p, pairs, ht, hts, rfl⟩, hnodup, hr⟩
      have hp : p.1 ∉ q.entries.map Prod.fst := by
        rw [List.map_append, List.map_cons] at hnodup
        intro hmem
        exact (List.nodup_append.mp hnodup).2.2 _ hmem _ List.mem_cons_self rfl
      have hmove := hmove p pairs hp
      exact ⟨_, ⟨p, ht, hp, rfl⟩, pairs, hts, ((hmove.map _).nodup_iff).mpr hnodup,
        hr.trans hmove.symm⟩

theorem read_eq_ok_iff {t : Text} {q : Query} : read t = .ok q ↔ Form t q := by
  rw [read, foldlM_addPair_eq_ok_iff]
  constructor
  · rintro ⟨pairs, hpairs, hnodup, hq⟩
    exact .intro hpairs hnodup hq
  · rintro ⟨hpairs, hnodup, hq⟩
    exact ⟨_, hpairs, hnodup, hq⟩

end Query

/-! ### Fragments -/

namespace Fragment

/-- A fragment with its anchor and its hash-bang path, read leniently. -/
inductive Form : Text → Text → Path → Prop
  | anchor {t a : Text} (h : Percent.decodeLenient t = a) (hbang : a.head? ≠ some '!') :
      Form t a []
  | hashBang {t s : Text} {p : Path} (h : Percent.decodeLenient t = '!' :: s)
      (hp : Path.Resolves (Text.pieces '/' s) p) : Form t [] p
  | dropped {t s : Text} (h : Percent.decodeLenient t = '!' :: s)
      (hp : ∀ p, ¬Path.Resolves (Text.pieces '/' s) p) : Form t [] []

/-- Every fragment is read, and it has the form of what it is read as. -/
theorem form_iff {t a : Text} {p : Path} :
    Form t a p ↔ (read t).anchorText = a ∧ (read t).path = p := by
  have hresolve : ∀ s, Path.resolve (Path.segments s) = Path.resolve (Text.pieces '/' s) :=
    fun s => Path.resolve_filter_here _
  rw [read]
  constructor
  · rintro (⟨rfl, hbang⟩ | ⟨h, hp⟩ | ⟨h, hp⟩)
    · split
      · rename_i s h
        rw [h] at hbang
        exact absurd rfl hbang
      · exact ⟨rfl, rfl⟩
    · rw [h]
      refine ⟨rfl, ?_⟩
      simp only [path, hresolve, Path.resolve_eq_ok_iff.mpr hp]
      rfl
    · rw [h]
      refine ⟨rfl, ?_⟩
      simp only [path, hresolve]
      rcases hres : Path.resolve _ with e | q
      · rfl
      · exact absurd (Path.resolve_eq_ok_iff.mp hres) (hp q)
  · rintro ⟨rfl, rfl⟩
    split
    · rename_i s h
      simp only [path, hresolve]
      rcases hres : Path.resolve _ with e | q
      · refine .dropped h fun p hp => ?_
        rw [Path.resolve_eq_ok_iff.mpr hp] at hres
        cases hres
      · exact .hashBang h (Path.resolve_eq_ok_iff.mp hres)
    · rename_i hbang
      refine .anchor rfl fun h => ?_
      obtain ⟨s, hs⟩ := List.head?_eq_some_iff.mp h
      exact hbang s hs

end Fragment

end CanonicalUri
