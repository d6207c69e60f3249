import CanonicalUri.Percent

/-!
# Paths

A path is the list of its segments, decoded and without the slashes between them. Empty segments
and `.` say nothing and are left out; `..` takes away the segment before it, and unlike in a file
system nothing is above the root: a `..` without a segment before it is an error.

* `segments` and `readSegments` split a decoded and an encoded text. An encoded slash is part of
  its segment, since `readSegments` decodes after the split.
* `resolve` carries out `.` and `..` in one sweep over the path, which never reaches for a segment
  that is not there (`Sweep.isSome_run`). `resolve_eq_foldlM` says that it leads where the segments
  lead one after the other, and `resolve_eq_self` that a path without `.` and `..` stays as it is.
* `toText` and `encode` write a path; a `~` need not be escaped in a segment.
-/

namespace CanonicalUri

/-- The segments of a path, from the root down. -/
abbrev Path := List Text

/-- Why the `.` and `..` of a path cannot be carried out. -/
inductive PathError where
  /-- A `..` with no segment before it. -/
  | leadingParent
  deriving DecidableEq, Repr

def PathError.message : PathError → String
  | .leadingParent => "found '..' at the beginning of your path."

namespace Path

/-- The segment that stands for its own directory. -/
def here : Text := ['.']

/-- The segment that stands for the directory above. -/
def parent : Text := ['.', '.']

/-! ### Splitting -/

/-- The segments of a decoded text. -/
def segments (t : Text) : Path :=
  (Text.pieces '/' t).filter (· != here)

/-- The segments of an encoded text, each decoded on its own. -/
def readSegments (t : Text) : Except Percent.DecodeError Path := do
  let decoded ← (Text.pieces '/' t).mapM Percent.decode
  return decoded.filter (· != here)

/-! ### Carrying out `.` and `..` -/

/-- A path in which the `..` are carried out in place, from the root down. In front of `index` that
is done. -/
structure Sweep where
  path : Path
  index : Nat

namespace Sweep

/-- The index in front of another one; there is none in front of the first. -/
def before? : Nat → Option Nat
  | 0 => none
  | i + 1 => some i

/-- The path without its segments from `first` to `last`, if it has them. -/
def cutOut? (first last : Nat) (p : Path) : Option Path :=
  if first ≤ last + 1 ∧ last < p.length then some (p.take first ++ p.drop (last + 1)) else none

/-- The sweep over a path. Its `.` are left out before. -/
def start (p : Path) : Sweep :=
  ⟨p.filter (· != here), 0⟩

/-- What a round of a sweep comes to. -/
inductive Round where
  | ended (result : Except PathError Path)
  | goesOn (next : Sweep)

/-- One round: a `..` takes the segment before it out of the path, and any other segment stays.
There is no answer when the round reaches for a segment that is not there. -/
def round (s : Sweep) : Option Round :=
  if s.index < s.path.length then do
    let segment ← s.path[s.index]?
    if segment = parent then
      if s.index = 0 ∨ s.path.length < 2 then
        return .ended (.error .leadingParent)
      else
        let before ← before? s.index
        let path ← cutOut? before s.index s.path
        return .goesOn ⟨path, before⟩
    else
      return .goesOn { s with index := s.index + 1 }
  else
    return .ended (.ok s.path)

/-- A step forward brings the end of the sweep nearer by one, and a step back, since the path gets
shorter by two, by three. -/
def rank (s : Sweep) : Nat :=
  2 * s.path.length - s.index

/-- A round finds every segment that it reaches for, and brings the end nearer. -/
theorem exists_round (s : Sweep) :
    ∃ r, s.round = some r ∧ ∀ s', r = .goesOn s' → s'.rank < s.rank := by
  obtain ⟨p, i⟩ := s
  by_cases hi : i < p.length
  · by_cases hparent : p[i] = parent
    · cases i with
      | zero =>
        exact ⟨.ended (.error .leadingParent), by simp [round, hi, hparent], nofun⟩
      | succ i =>
        refine ⟨.goesOn ⟨p.take i ++ p.drop (i + 2), i⟩, ?_, ?_⟩
        · have hlength : ¬p.length < 2 := by omega
          have hle : i ≤ i + 2 := by omega
          simp [round, hi, hparent, hlength, before?, cutOut?, hle]
        · rintro _ ⟨⟩
          simp only [rank, List.length_append, List.length_take, List.length_drop]
          omega
    · refine ⟨.goesOn ⟨p, i + 1⟩, by simp [round, hi, hparent], ?_⟩
      rintro _ ⟨⟩
      simp only [rank]
      omega
  · exact ⟨.ended (.ok p), by simp [round, hi], nofun⟩

theorem round_ne_none (s : Sweep) : s.round ≠ none := by
  intro h
  obtain ⟨_, hr, _⟩ := s.exists_round
  rw [h] at hr
  cases hr

theorem rank_lt_of_round {s s' : Sweep} (h : s.round = some (.goesOn s')) : s'.rank < s.rank := by
  obtain ⟨r, hr, hrank⟩ := s.exists_round
  rw [h] at hr
  exact hrank s' (Option.some.inj hr).symm

/-- Round after round to the end. -/
def run (s : Sweep) : Option (Except PathError Path) :=
  match _h : s.round with
  | none => none
  | some (.ended result) => some result
  | some (.goesOn next) => run next
termination_by s.rank
decreasing_by exact rank_lt_of_round _h

theorem run_of_ended {s : Sweep} {result : Except PathError Path}
    (h : s.round = some (.ended result)) : s.run = some result := by
  rw [run]
  split <;> simp_all

theorem run_of_goesOn {s next : Sweep} (h : s.round = some (.goesOn next)) :
    s.run = next.run := by
  rw [run]
  split <;> simp_all

/-- A sweep comes to its end without reaching for a segment that is not there. -/
theorem isSome_run (s : Sweep) : s.run.isSome = true := by
  induction s using run.induct with
  | case1 s h => exact absurd h s.round_ne_none
  | case2 s result h => rw [run_of_ended h, Option.isSome_some]
  | case3 s next h ih => rw [run_of_goesOn h, ih]

end Sweep

/-- The path without `.` and with every `..` carried out. -/
def resolve (p : Path) : Except PathError Path :=
  (Sweep.start p).run.get (Sweep.isSome_run _)

/-! ### Where a path leads -/

/-- Where one more segment leads. -/
def follow (p : Path) (s : Text) : Except PathError Path :=
  if s = here then .ok p
  else if s = parent then if p = [] then .error .leadingParent else .ok p.dropLast
  else .ok (p ++ [s])

theorem follow_here (p : Path) : follow p here = .ok p :=
  if_pos rfl

theorem follow_parent_nil : follow [] parent = .error .leadingParent :=
  rfl

theorem follow_parent (p : Path) (s : Text) : follow (p ++ [s]) parent = .ok p := by
  rw [follow, if_neg (by decide), if_pos rfl, if_neg (by simp), List.dropLast_concat]

theorem follow_of_ordinary {s : Text} (hhere : s ≠ here) (hparent : s ≠ parent) (p : Path) :
    follow p s = .ok (p ++ [s]) := by
  rw [follow, if_neg hhere, if_neg hparent]

namespace Sweep

theorem round_of_end (kept : Path) : round ⟨kept, kept.length⟩ = some (.ended (.ok kept)) := by
  simp [round]

theorem round_parent_nil (rest : Path) :
    round ⟨parent :: rest, 0⟩ = some (.ended (.error .leadingParent)) := by
  simp [round]

theorem round_parent (kept : Path) (s : Text) (rest : Path) :
    round ⟨kept ++ [s] ++ parent :: rest, (kept ++ [s]).length⟩
      = some (.goesOn ⟨kept ++ rest, kept.length⟩) := by
  have hlength : ¬kept.length + (rest.length + 1 + 1) < 2 := by omega
  have hle : kept.length ≤ kept.length + 1 + 1 := by omega
  have hdrop : (kept ++ s :: parent :: rest).drop (kept.length + 1 + 1) = rest := by
    rw [Nat.add_assoc, List.drop_length_add_append]
    rfl
  simp [round, before?, cutOut?, hlength, hle, hdrop]

theorem round_of_ne_parent {s : Text} (h : s ≠ parent) (kept rest : Path) :
    round ⟨kept ++ s :: rest, kept.length⟩
      = some (.goesOn ⟨kept ++ [s] ++ rest, (kept ++ [s]).length⟩) := by
  simp [round, h]

/-- The segments in front of the index are the path that was followed so far. -/
theorem run_append (kept : Path) {rest : Path} (h : here ∉ rest) :
    run ⟨kept ++ rest, kept.length⟩ = some (rest.foldlM follow kept) := by
  induction rest generalizing kept with
  | nil =>
    rw [List.append_nil, run_of_ended (round_of_end kept)]
    rfl
  | cons s rest ih =>
    rw [List.mem_cons, not_or] at h
    rw [List.foldlM_cons]
    by_cases hparent : s = parent
    · subst hparent
      obtain rfl | ⟨kept, t, rfl⟩ := List.eq_nil_or_concat kept
      · exact run_of_ended (round_parent_nil rest)
      · rw [List.concat_eq_append, run_of_goesOn (round_parent kept t rest), ih kept h.2,
          follow_parent]
        rfl
    · rw [run_of_goesOn (round_of_ne_parent hparent kept rest), ih _ h.2,
        follow_of_ordinary (Ne.symm h.1) hparent]
      rfl

end Sweep

/-- Dots lead nowhere else. -/
theorem foldlM_follow_filter_here (kept p : Path) :
    (p.filter (· != here)).foldlM follow kept = p.foldlM follow kept := by
  rw [List.foldlM_filter]
  refine congrArg (fun f => p.foldlM f kept) (funext fun q => funext fun s => ?_)
  by_cases hs : s = here
  · rw [hs, follow_here]
    rfl
  · rw [if_pos (by simpa using hs)]

/-- The sweep over a path leads where the segments lead one after the other. -/
theorem Sweep.run_start (p : Path) : (start p).run = some (p.foldlM follow []) := by
  have hhere : here ∉ p.filter (· != here) := by simp
  rw [← foldlM_follow_filter_here]
  exact run_append [] hhere

theorem resolve_eq_foldlM (p : Path) : resolve p = p.foldlM follow [] := by
  simp only [resolve, Sweep.run_start, Option.get_some]

@[simp] theorem resolve_nil : resolve [] = .ok [] :=
  resolve_eq_foldlM []

private theorem foldlM_follow_of_ordinary (kept : Path) {p : Path}
    (h : ∀ s ∈ p, s ≠ here ∧ s ≠ parent) : p.foldlM follow kept = .ok (kept ++ p) := by
  induction p generalizing kept with
  | nil =>
    rw [List.append_nil]
    rfl
  | cons s p ih =>
    obtain ⟨hhere, hparent⟩ := h s List.mem_cons_self
    rw [List.foldlM_cons, follow_of_ordinary hhere hparent]
    have hp := ih (kept ++ [s]) fun x hx => h x (List.mem_cons_of_mem s hx)
    rwa [List.append_assoc, List.singleton_append] at hp

/-- There is nothing to carry out in a path without `.` and `..`. -/
theorem resolve_eq_self {p : Path} (h : ∀ s ∈ p, s ≠ here ∧ s ≠ parent) : resolve p = .ok p := by
  rw [resolve_eq_foldlM]
  exact foldlM_follow_of_ordinary [] h

/-! ### Writing -/

/-- The segments with slashes between them. -/
def toText (p : Path) : Text :=
  Text.join '/' p

/-- The encoded segments with slashes between them. -/
def encode (p : Path) : Text :=
  Text.join '/' (p.map (Percent.encode ['~']))

end Path

end CanonicalUri
