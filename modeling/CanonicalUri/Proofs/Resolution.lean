import CanonicalUri.Path
import CanonicalUri.Proofs.Success
import Mathlib.Tactic.SplitIfs

/-!
# Where a path leads

Whatever its segments are, a path does two things: it goes up some levels, its `Path.ascent`, and
from there it goes down through some of its segments, its `Path.descent`.

* `Path.foldlM_follow`: to follow a path means to go up that far, which must not be above the root,
  and then down.
* `Path.ascent_le_iff` and `Path.length_descent` count the levels: a path goes up as far as the `..`
  outnumber the ordinary segments in one of its beginnings.
* `Path.resolve_append_eq_bind`: what is in front of a path can be resolved first.
* `Path.resolve_in_place`: the sweep that resolves a path in place follows it from the root. It
  always comes to an end, and it fails exactly for a path that goes above the root.
-/

namespace CanonicalUri

namespace Path

/-- Whether a segment stands for something below its place. -/
def isOrdinary (s : Text) : Bool :=
  s != here && s != parent

theorem isOrdinary_iff {s : Text} : isOrdinary s = true ↔ s ≠ here ∧ s ≠ parent := by
  simp [isOrdinary]

@[simp] theorem isOrdinary_here : isOrdinary here = false := rfl

@[simp] theorem isOrdinary_parent : isOrdinary parent = false := rfl

theorem here_ne_parent : here ≠ parent := by decide

theorem eq_here_or_eq_parent_or_isOrdinary (s : Text) :
    s = here ∨ s = parent ∨ isOrdinary s = true := by
  by_cases hhere : s = here
  · exact .inl hhere
  · by_cases hparent : s = parent
    · exact .inr (.inl hparent)
    · exact .inr (.inr (isOrdinary_iff.mpr ⟨hhere, hparent⟩))

/-! ### Up and down -/

/-- How many levels a path goes up from its place. -/
def ascent : Path → Nat
  | [] => 0
  | s :: p => if s = here then ascent p else if s = parent then ascent p + 1 else ascent p - 1

/-- The segments that a path goes down through after it has gone up. -/
def descent : Path → Path
  | [] => []
  | s :: p => if isOrdinary s = true ∧ ascent p = 0 then s :: descent p else descent p

@[simp] theorem ascent_nil : ascent [] = 0 := rfl

@[simp] theorem ascent_cons_here (p : Path) : ascent (here :: p) = ascent p := rfl

@[simp] theorem ascent_cons_parent (p : Path) : ascent (parent :: p) = ascent p + 1 := rfl

theorem ascent_cons_of_isOrdinary {s : Text} (h : isOrdinary s = true) (p : Path) :
    ascent (s :: p) = ascent p - 1 := by
  obtain ⟨hhere, hparent⟩ := isOrdinary_iff.mp h
  rw [ascent, if_neg hhere, if_neg hparent]

@[simp] theorem descent_nil : descent [] = [] := rfl

@[simp] theorem descent_cons_here (p : Path) : descent (here :: p) = descent p := rfl

@[simp] theorem descent_cons_parent (p : Path) : descent (parent :: p) = descent p := rfl

theorem descent_cons_of_isOrdinary {s : Text} (h : isOrdinary s = true) (p : Path) :
    descent (s :: p) = if ascent p = 0 then s :: descent p else descent p := by
  simp [descent, h]

/-- To follow a path means to go up and then down. -/
theorem foldlM_follow (p q : Path) :
    p.foldlM follow q =
      if p.ascent ≤ q.length then .ok (q.take (q.length - p.ascent) ++ p.descent)
      else .error .leadingParent := by
  induction p generalizing q with
  | nil =>
    rw [ascent_nil, if_pos (Nat.zero_le _), Nat.sub_zero, List.take_length, descent_nil,
      List.append_nil]
    rfl
  | cons s p ih =>
    rw [List.foldlM_cons]
    obtain rfl | rfl | hs := eq_here_or_eq_parent_or_isOrdinary s
    · rw [follow_here]
      exact ih q
    · -- the last segment of the place is left, if there is one
      obtain rfl | ⟨r, t, rfl⟩ := List.eq_nil_or_concat q
      · rw [follow_parent_nil, ascent_cons_parent]
        rfl
      · rw [List.concat_eq_append, follow_parent, ascent_cons_parent, descent_cons_parent,
          List.length_append, List.length_singleton, Nat.add_sub_add_right,
          List.take_append_of_le_length (Nat.sub_le _ _)]
        refine (ih r).trans ?_
        simp only [Nat.add_le_add_iff_right]
    · obtain ⟨hhere, hparent⟩ := isOrdinary_iff.mp hs
      rw [follow_of_ordinary hhere hparent, ascent_cons_of_isOrdinary hs,
        descent_cons_of_isOrdinary hs]
      refine (ih (q ++ [s])).trans ?_
      rw [List.length_append, List.length_singleton]
      by_cases hascent : ascent p = 0
      · have htake : (q ++ [s]).take (q.length + 1) = q ++ [s] :=
          List.take_of_length_le (by simp)
        simp [hascent, htake]
      · -- the path goes up again from the segment
        have htake : (q ++ [s]).take (q.length + 1 - ascent p)
            = q.take (q.length - (ascent p - 1)) := by
          rw [List.take_append_of_le_length (by omega)]
          congr 1
          omega
        rw [if_neg hascent, htake]
        simp only [Nat.sub_le_iff_le_add]

/-- A path that does not go above the root leads down through its descent. -/
theorem resolve_eq_ite (p : Path) :
    resolve p = if p.ascent = 0 then .ok p.descent else .error .leadingParent := by
  rw [resolve_eq_foldlM, foldlM_follow]
  simp

theorem eq_descent_of_resolve {p q : Path} (h : resolve p = .ok q) :
    p.ascent = 0 ∧ q = p.descent := by
  rw [resolve_eq_ite] at h
  split_ifs at h with hascent
  exact ⟨hascent, (Except.ok.inj h).symm⟩

/-! ### Counting the levels -/

/-- A path goes up by no more than some levels exactly when in none of its beginnings the `..`
outnumber the ordinary segments by more. -/
theorem ascent_le_iff {p : Path} {k : Nat} :
    p.ascent ≤ k ↔ ∀ a, a <+: p → a.count parent ≤ a.countP isOrdinary + k := by
  induction p generalizing k with
  | nil => simp
  | cons s p ih =>
    -- the beginnings are the empty one and those of the rest behind the segment
    have hbegin : (∀ a, a <+: s :: p → a.count parent ≤ a.countP isOrdinary + k) ↔
        ∀ a, a <+: p → (s :: a).count parent ≤ (s :: a).countP isOrdinary + k := by
      constructor
      · exact fun h a ha => h (s :: a) (List.cons_prefix_cons.mpr ⟨rfl, ha⟩)
      · intro h a ha
        obtain rfl | ⟨b, rfl, hb⟩ := List.prefix_cons_iff.mp ha
        · simp
        · exact h b hb
    rw [hbegin]
    obtain rfl | rfl | hs := eq_here_or_eq_parent_or_isOrdinary s
    · rw [ascent_cons_here, ih]
      simp [here_ne_parent]
    · rw [ascent_cons_parent]
      cases k with
      | zero =>
        refine iff_of_false (Nat.not_succ_le_zero _) fun h => ?_
        exact absurd (h [] List.nil_prefix) (by simp)
      | succ k =>
        rw [Nat.add_le_add_iff_right, ih]
        simp [← Nat.add_assoc]
    · obtain ⟨_, hparent⟩ := isOrdinary_iff.mp hs
      rw [ascent_cons_of_isOrdinary hs, Nat.sub_le_iff_le_add, ih]
      refine forall₂_congr fun a _ => ?_
      rw [List.count_cons_of_ne hparent, List.countP_cons_of_pos hs]
      omega

/-- A path fails to resolve exactly when it has a beginning with more `..` than ordinary
segments. -/
theorem resolve_eq_error_iff {p : Path} {e : PathError} :
    resolve p = .error e ↔ ∃ a, a <+: p ∧ a.countP isOrdinary < a.count parent := by
  have hzero : p.ascent = 0 ↔ ∀ a, a <+: p → a.count parent ≤ a.countP isOrdinary := by
    rw [← Nat.le_zero, ascent_le_iff]
    rfl
  rw [resolve_eq_ite]
  split_ifs with h
  · refine iff_of_false nofun ?_
    rintro ⟨a, ha, hlt⟩
    exact absurd (hzero.mp h a ha) (Nat.not_le.mpr hlt)
  · rw [hzero] at h
    simp only [not_forall, Nat.not_le, exists_prop] at h
    cases e
    exact iff_of_true rfl h

theorem isOrdinary_of_mem_descent {p : Path} {s : Text} (h : s ∈ p.descent) :
    isOrdinary s = true := by
  induction p with
  | nil => cases h
  | cons t p ih =>
    rw [descent] at h
    split_ifs at h with ht
    · obtain rfl | h := List.mem_cons.mp h
      · exact ht.1
      · exact ih h
    · exact ih h

theorem descent_sublist (p : Path) : p.descent.Sublist p := by
  induction p with
  | nil => exact .slnil
  | cons s p ih =>
    rw [descent]
    split_ifs
    · exact ih.cons_cons s
    · exact ih.cons s

/-- Every `..` takes away a segment in front of it or a level above the path. -/
theorem length_descent (p : Path) :
    p.descent.length + p.count parent = p.countP isOrdinary + p.ascent := by
  induction p with
  | nil => rfl
  | cons s p ih =>
    obtain rfl | rfl | hs := eq_here_or_eq_parent_or_isOrdinary s
    · simpa [here_ne_parent] using ih
    · simpa [← Nat.add_assoc] using ih
    · obtain ⟨_, hparent⟩ := isOrdinary_iff.mp hs
      rw [descent_cons_of_isOrdinary hs, ascent_cons_of_isOrdinary hs,
        List.count_cons_of_ne hparent, List.countP_cons_of_pos hs]
      split_ifs with hascent
      · rw [List.length_cons]
        omega
      · omega

/-! ### What is in front of a path -/

theorem sublist_of_resolve {p q : Path} (h : resolve p = .ok q) : q.Sublist p :=
  (eq_descent_of_resolve h).2 ▸ p.descent_sublist

theorem ordinary_of_resolve {p q : Path} (h : resolve p = .ok q) {s : Text} (hs : s ∈ q) :
    s ≠ here ∧ s ≠ parent := by
  rw [(eq_descent_of_resolve h).2] at hs
  exact isOrdinary_iff.mp (isOrdinary_of_mem_descent hs)

/-- A path is followed from the place that was reached in front of it. -/
theorem resolve_append (p q : Path) :
    resolve (p ++ q) = resolve p >>= fun kept => q.foldlM follow kept := by
  rw [resolve_eq_foldlM, List.foldlM_append, resolve_eq_foldlM]

/-- Segments in which there is nothing to carry out are a place to start from. -/
theorem resolve_append_of_ordinary {p : Path} (h : ∀ s ∈ p, s ≠ here ∧ s ≠ parent) (q : Path) :
    resolve (p ++ q) = q.foldlM follow p := by
  rw [resolve_append, resolve_eq_self h]
  rfl

/-- What is in front of a path can be resolved first. -/
theorem resolve_append_eq_bind (p q : Path) :
    resolve (p ++ q) = resolve p >>= fun kept => resolve (kept ++ q) := by
  rw [resolve_append]
  rcases h : resolve p with e | kept
  · rfl
  · exact (resolve_append_of_ordinary (fun _ => ordinary_of_resolve h) q).symm

/-! ### The sweep -/

/-- No sweep goes on forever. -/
theorem wellFounded_round : WellFounded fun s' s : Sweep => s.round = some (.goesOn s') :=
  Subrelation.wf Sweep.rank_lt_of_round (measure Sweep.rank).wf

/-- The sweep over a path comes to its end, reaches for no segment or index that is not there, and
leads where the segments lead one after the other. It fails exactly when some beginning of the path
has more `..` than ordinary segments. Otherwise it leaves some of the ordinary segments in their
order, one less for each `..`, and there is nothing more to carry out in them. -/
theorem resolve_in_place (p : Path) :
    (WellFounded fun s' s : Sweep => s.round = some (.goesOn s')) ∧
      (∀ s : Sweep, s.round ≠ none) ∧
      (Sweep.start p).run = some (p.foldlM follow []) ∧
      resolve p = p.foldlM follow [] ∧
      (resolve p = .error .leadingParent ↔
        ∃ a, a <+: p ∧ a.countP isOrdinary < a.count parent) ∧
      ∀ q, resolve p = .ok q →
        (∀ s ∈ q, s ≠ here ∧ s ≠ parent) ∧ q.Sublist p ∧
          q.length + p.count parent = p.countP isOrdinary ∧ resolve q = .ok q := by
  refine ⟨wellFounded_round, Sweep.round_ne_none, Sweep.run_start p, resolve_eq_foldlM p,
    resolve_eq_error_iff, fun q hq => ?_⟩
  have hordinary : ∀ s ∈ q, s ≠ here ∧ s ≠ parent := fun _ => ordinary_of_resolve hq
  refine ⟨hordinary, sublist_of_resolve hq, ?_, resolve_eq_self hordinary⟩
  obtain ⟨hascent, rfl⟩ := eq_descent_of_resolve hq
  rw [length_descent, hascent, Nat.add_zero]

/-- Segments of all kinds, with a `..` that takes away a segment behind another `..`. -/
theorem resolve_in_place_mixed :
    let p : Path := ["a".toList, "..".toList, ".".toList, "b".toList, "c".toList, "..".toList]
    let q : Path := ["b".toList]
    resolve p = .ok q ∧ (Sweep.start p).run = some (p.foldlM follow []) ∧
      (∀ s ∈ q, s ≠ here ∧ s ≠ parent) ∧ q.Sublist p ∧
      q.length + p.count parent = p.countP isOrdinary ∧ resolve q = .ok q := by
  intro p q
  have h : resolve p = .ok q := by decide +kernel
  obtain ⟨_, _, hrun, _, _, hok⟩ := resolve_in_place p
  exact ⟨h, hrun, hok q h⟩

end Path

end CanonicalUri
