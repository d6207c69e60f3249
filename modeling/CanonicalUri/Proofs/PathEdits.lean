import CanonicalUri.Proofs.MovedPath
import CanonicalUri.Proofs.Reachable

/-!
# Changes of the path

A text that does not begin with a slash goes on from the current path. The path is put together
with slashes for that, the text goes behind it, and the whole is split again. So what the text is
added to is not the path itself but the path with its segments split at the slashes in them.

* `Uri.setPath_eq_append_iff`: the text is added to the path itself, whatever the text is, exactly
  when no segment of the path holds a slash.
* `Uri.setPath_slash`: two changes one after the other come to the same as one change, and
  `Uri.foldlM_setPath` says so for any number of them. That does not depend on the slashes, since
  the first change leaves none in the segments.
-/

namespace CanonicalUri

/-! ### Texts put together with slashes -/

namespace Path

theorem segments_append_slash (s t : Text) :
    segments (s ++ '/' :: t) = segments s ++ segments t := by
  rw [segments, Text.pieces_append_cons, List.filter_append, segments, segments]

/-- The text of a path is split into what its segments are split into. -/
theorem segments_toText (p : Path) : segments p.toText = p.flatMap segments := by
  induction p with
  | nil => rfl
  | cons s p ih =>
    cases p with
    | nil => rw [toText, Text.join_singleton, List.flatMap_singleton]
    | cons t p =>
      rw [toText, Text.join_cons_cons, segments_append_slash, List.flatMap_cons, ← ih]
      rfl

end Path

namespace Uri

theorem segments_pathFrom {u : Uri} {t : Text} (h : t.head? ≠ some '/') :
    Path.segments (u.pathFrom t) = u.path.flatMap Path.segments ++ Path.segments t := by
  rw [pathFrom]
  split_ifs with hfrom
  · rw [hfrom.resolve_left h, List.flatMap_nil, List.nil_append]
  · rw [Path.segments_append_slash, Path.segments_toText]

/-- A text that goes on behind a slash goes on from where the text in front of it leads. -/
theorem pathFrom_append {t : Text} (ht : t ≠ []) (u : Uri) (s : Text) :
    u.pathFrom (t ++ s) = u.pathFrom t ++ s := by
  have hhead : (t ++ s).head? = t.head? := List.head?_append_of_ne_nil t ht
  rw [pathFrom, pathFrom, hhead]
  split_ifs
  · rfl
  · rw [List.append_assoc, List.cons_append]

/-! ### One change -/

/-- What comes of a URI when its path is to be the one that `p` leads to; `t` is the text that is
refused when `p` leads nowhere. -/
def goTo (u : Uri) (t : Text) (p : Path) : Except UriError Uri :=
  ((Path.resolve p).map fun q => { u with path := q }).mapError (.invalidPath (u.pathFrom t))

theorem setPath_eq_goTo (u : Uri) (t : Text) :
    u.setPath t = u.goTo t (Path.segments (u.pathFrom t)) := by
  rw [setPath_eq, goTo]
  cases Path.resolve (Path.segments (u.pathFrom t)) <;> rfl

theorem goTo_eq_ok_iff {u v : Uri} {t : Text} {p : Path} :
    u.goTo t p = .ok v ↔ ∃ q, Path.resolve p = .ok q ∧ { u with path := q } = v := by
  rw [goTo, mapError_eq_ok_iff, map_eq_ok_iff]

theorem toOption_goTo (u : Uri) (t : Text) (p : Path) :
    (u.goTo t p).toOption = (Path.resolve p).toOption.map fun q => { u with path := q } := by
  rw [goTo]
  cases Path.resolve p <;> rfl

/-- A text without a slash in front goes on from the segments of the path, each split at the slashes
in it. -/
theorem setPath_of_head? {t : Text} (h : t.head? ≠ some '/') (u : Uri) :
    u.setPath t = u.goTo t (u.path.flatMap Path.segments ++ Path.segments t) := by
  rw [setPath_eq_goTo, segments_pathFrom h]

/-- The empty text leads nowhere else exactly when there are no such slashes. -/
theorem setPath_nil_eq_ok_iff {u : Uri}
    (h : ∀ s ∈ u.path, s ≠ [] ∧ s ≠ Path.here ∧ s ≠ Path.parent) :
    u.setPath [] = .ok u ↔ ∀ s ∈ u.path, '/' ∉ s := by
  rw [setPath_of_head? (t := []) nofun, show Path.segments [] = [] from rfl, List.append_nil,
    ← Path.segments_toText, goTo_eq_ok_iff]
  constructor
  · rintro ⟨p, hp, hu⟩
    rw [← Path.resplit_eq_self_iff h, Path.resplit, hp]
    exact congrArg Uri.path hu
  · intro hslash
    rw [Path.segments_toText_eq_self h hslash]
    exact ⟨u.path, Path.resolve_eq_self fun s hs => (h s hs).2, rfl⟩

/-- Without slashes in the segments a text goes on from the segments themselves. -/
theorem setPath_of_no_slash {u : Uri}
    (h : ∀ s ∈ u.path, s ≠ [] ∧ s ≠ Path.here ∧ s ≠ Path.parent) (hslash : ∀ s ∈ u.path, '/' ∉ s)
    {t : Text} (ht : t.head? ≠ some '/') :
    u.setPath t = u.goTo t (u.path ++ Path.segments t) := by
  rw [setPath_of_head? ht, ← Path.segments_toText, Path.segments_toText_eq_self h hslash]

/-- What a text without a slash in front goes on from are the segments of the path, each split at
the slashes in it. These are the segments themselves, whatever the text is, exactly when there are
no such slashes. Then the segments that the text does not take away stay as they are. -/
theorem setPath_eq_append_iff {reg : Registry} {u : Uri} (h : Reachable reg u) :
    (∀ t, t.head? ≠ some '/' →
        u.setPath t = u.goTo t (u.path.flatMap Path.segments ++ Path.segments t)) ∧
      ((∀ t, t.head? ≠ some '/' → u.setPath t = u.goTo t (u.path ++ Path.segments t)) ↔
        ∀ s ∈ u.path, '/' ∉ s) ∧
      ((∀ s ∈ u.path, '/' ∉ s) → ∀ t v, t.head? ≠ some '/' → u.setPath t = .ok v →
        v.path = u.path.take (u.path.length - (Path.segments t).ascent)
          ++ (Path.segments t).descent) := by
  have hpath := h.isConsistent.path
  have hordinary : ∀ s ∈ u.path, s ≠ Path.here ∧ s ≠ Path.parent := fun s hs => (hpath s hs).2
  refine ⟨fun t ht => setPath_of_head? ht u,
    ⟨fun hall => ?_, fun hslash t ht => setPath_of_no_slash hpath hslash ht⟩,
    fun hslash t v ht hset => ?_⟩
  · rw [← setPath_nil_eq_ok_iff hpath, hall [] nofun, goTo_eq_ok_iff]
    refine ⟨u.path, ?_, rfl⟩
    rw [show Path.segments [] = [] from rfl, List.append_nil, Path.resolve_eq_self hordinary]
  · rw [setPath_of_no_slash hpath hslash ht, goTo_eq_ok_iff] at hset
    obtain ⟨p, hp, rfl⟩ := hset
    rw [Path.resolve_append_of_ordinary hordinary, Path.foldlM_follow] at hp
    split_ifs at hp
    exact (Except.ok.inj hp).symm

/-- Escaped separators other than the slash stay in their segments. -/
theorem setPath_eq_append_iff_escaped :
    let s := "http://a.com/x%3Fy/50%25/c".toList
    let u : Uri :=
      { input := s
        host := .name [] "a".toList ".com".toList
        path := ["x?y".toList, "50%".toList, "c".toList] }
    parse Registry.standard {} s = .ok u ∧
      (∀ t, t.head? ≠ some '/' → u.setPath t = u.goTo t (u.path ++ Path.segments t)) ∧
      u.setPath "../d//e".toList
        = .ok { u with path := ["x?y".toList, "50%".toList, "d".toList, "e".toList] } := by
  intro s u
  have h : parse Registry.standard {} s = .ok u := by decide +kernel
  obtain ⟨_, happend, _⟩ := setPath_eq_append_iff (.parse h)
  have hall := happend.mpr (by decide)
  refine ⟨h, hall, ?_⟩
  rw [hall _ (by decide)]
  decide +kernel

/-- An escaped slash does not: the text goes on from two segments where there was one. -/
theorem not_append_escapedSlash :
    ∃ u v, parse Registry.standard {} "http://a.com/a%2Fb".toList = .ok u ∧
      u.path = ["a/b".toList] ∧
      Path.resolve (u.path ++ Path.segments "c".toList) = .ok ["a/b".toList, "c".toList] ∧
      u.setPath "c".toList = .ok v ∧ v.path = ["a".toList, "b".toList, "c".toList] := by
  refine ⟨{ input := "http://a.com/a%2Fb".toList
            host := .name [] "a".toList ".com".toList
            path := ["a/b".toList] },
    { input := "http://a.com/a%2Fb".toList
      host := .name [] "a".toList ".com".toList
      path := ["a".toList, "b".toList, "c".toList] }, ?_, rfl, ?_, ?_, rfl⟩
  · decide +kernel
  · decide +kernel
  · decide +kernel

/-! ### One change after the other -/

/-- A text that goes on behind a slash leads where its two parts lead one after the other. -/
theorem setPath_slash {t : Text} (ht : t ≠ []) {s : Text} (hs : s.head? ≠ some '/') (u : Uri) :
    (u.setPath (t ++ '/' :: s)).toOption =
      (u.setPath t).toOption.bind fun v => (v.setPath s).toOption := by
  rw [setPath_eq_goTo, pathFrom_append ht, Path.segments_append_slash, toOption_goTo,
    Path.resolve_append_eq_bind, setPath_eq_goTo, toOption_goTo]
  rcases hp : Path.resolve (Path.segments (u.pathFrom t)) with e | p
  · rfl
  · -- the first part leaves no slash in the segments
    have hself : p.flatMap Path.segments = p := by
      rw [← Path.segments_toText]
      exact Path.segments_toText_eq_self (fun _ hs => (Path.mem_of_resolve_segments hp hs).1)
        fun _ hs => (Path.mem_of_resolve_segments hp hs).2
    change (Path.resolve (p ++ Path.segments s)).toOption.map _
      = (setPath s { u with path := p }).toOption
    rw [setPath_eq_goTo, segments_pathFrom hs, toOption_goTo, hself]

/-- Any number of changes in a row come to the same as one change by their texts, put together with
slashes. -/
theorem foldlM_setPath {t : Text} (ht : t ≠ []) {ts : List Text}
    (hts : ∀ s ∈ ts, s.head? ≠ some '/') (u : Uri) :
    ((t :: ts).foldlM (fun (v : Uri) s => v.setPath s) u).toOption =
      (u.setPath (Text.join '/' (t :: ts))).toOption := by
  induction ts using List.reverseRecOn with
  | nil => simp only [List.foldlM_cons, List.foldlM_nil, bind_pure, Text.join_singleton]
  | append_singleton ts s ih =>
    have hjoin : Text.join '/' (t :: ts) ≠ [] := by
      cases ts <;> simp [ht]
    have hs : s.head? ≠ some '/' := hts s (by simp)
    have ih := ih fun x hx => hts x (List.mem_append_left _ hx)
    rw [← List.cons_append, List.foldlM_append, Text.join_append_singleton (List.cons_ne_nil t ts),
      setPath_slash hjoin hs, ← ih]
    rcases (t :: ts).foldlM (fun (v : Uri) s => v.setPath s) u with e | v
    · rfl
    · change ([s].foldlM (fun (v : Uri) s => v.setPath s) v).toOption = (v.setPath s).toOption
      simp only [List.foldlM_cons, List.foldlM_nil, bind_pure]

/-- What is in front can be resolved first, of segments as of texts: one change of the path comes to
the same as two of them, whatever the path was. -/
theorem setPath_batched :
    (∀ p q : Path,
        Path.resolve (p ++ q) = Path.resolve p >>= fun kept => Path.resolve (kept ++ q)) ∧
      ∀ {t s : Text}, t ≠ [] → s.head? ≠ some '/' → ∀ u : Uri,
        (u.setPath (t ++ '/' :: s)).toOption =
          (u.setPath t).toOption.bind fun v => (v.setPath s).toOption :=
  ⟨Path.resolve_append_eq_bind, fun ht hs => setPath_slash ht hs⟩

/-- The second change takes away a segment of the first one and one of the path. -/
theorem setPath_batched_parents :
    let u : Uri := { path := ["x".toList, "y".toList] }
    let t := "a/../b".toList
    let s := "../../c".toList
    t ≠ [] ∧ s.head? ≠ some '/' ∧
      ((u.setPath t).toOption.bind fun v => (v.setPath s).toOption)
        = some { u with path := ["x".toList, "c".toList] } ∧
      (u.setPath (t ++ '/' :: s)).toOption = some { u with path := ["x".toList, "c".toList] } := by
  intro u t s
  have ht : t ≠ [] := by decide
  have hs : s.head? ≠ some '/' := by decide
  have h : ((u.setPath t).toOption.bind fun v => (v.setPath s).toOption)
      = some { u with path := ["x".toList, "c".toList] } := by decide +kernel
  obtain ⟨_, hbatch⟩ := setPath_batched
  exact ⟨ht, hs, h, (hbatch ht hs u).trans h⟩

end Uri

end CanonicalUri
