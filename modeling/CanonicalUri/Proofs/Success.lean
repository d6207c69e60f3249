import Mathlib.Data.List.Forall2

/-!
# When a reader succeeds

The readers of this library are composed in the `Except` monad. These lemmas turn "the composed
reader succeeds with this result" into the same statement about its parts, for sequencing, for a
change of the error, and for a reader that is run on every element of a list. They are tagged for
`simp`, so that a reader written in `do` notation is taken apart at the steps it is made of. So are
their counterparts for a reader that fails, which does so in the first of its parts that fails.

`Agree` compares two runs, of which either both succeed or both fail. If the parts of two readers
agree one by one, then so do the readers.
-/

namespace CanonicalUri

universe u

variable {ε ε' : Type} {α β : Type u}

/-- A sequence succeeds exactly when its first part does and then the second one. -/
@[simp] theorem bind_eq_ok_iff {x : Except ε α} {f : α → Except ε β} {b : β} :
    (x >>= f) = .ok b ↔ ∃ a, x = .ok a ∧ f a = .ok b := by
  constructor
  · intro h
    rcases x with e | a
    · cases h
    · exact ⟨a, rfl, h⟩
  · rintro ⟨a, rfl, h⟩
    exact h

@[simp] theorem map_eq_ok_iff {x : Except ε α} {f : α → β} {b : β} :
    x.map f = .ok b ↔ ∃ a, x = .ok a ∧ f a = b := by
  cases x <;> simp [Except.map]

@[simp] theorem functorMap_eq_ok_iff {x : Except ε α} {f : α → β} {b : β} :
    f <$> x = .ok b ↔ ∃ a, x = .ok a ∧ f a = b :=
  map_eq_ok_iff

@[simp] theorem mapError_eq_ok_iff {x : Except ε α} {f : ε → ε'} {a : α} :
    x.mapError f = .ok a ↔ x = .ok a := by
  cases x <;> simp [Except.mapError]

@[simp] theorem pure_eq_ok_iff {a b : α} : (pure a : Except ε α) = .ok b ↔ a = b := by
  simp [pure, Except.pure]

@[simp] theorem throw_ne_ok {e : ε} {a : α} : (throw e : Except ε α) ≠ .ok a := by
  simp [throw, throwThe, MonadExceptOf.throw]

/-- A sequence fails exactly when its first part does, or else the second one. -/
@[simp] theorem bind_eq_error_iff {x : Except ε α} {f : α → Except ε β} {e : ε} :
    (x >>= f) = .error e ↔ x = .error e ∨ ∃ a, x = .ok a ∧ f a = .error e := by
  constructor
  · intro h
    rcases x with e' | a
    · cases h
      exact .inl rfl
    · exact .inr ⟨a, rfl, h⟩
  · rintro (rfl | ⟨a, rfl, h⟩)
    · rfl
    · exact h

@[simp] theorem functorMap_eq_error_iff {x : Except ε α} {f : α → β} {e : ε} :
    f <$> x = .error e ↔ x = .error e := by
  cases x <;> simp [Functor.map, Except.map]

@[simp] theorem mapError_eq_error_iff {x : Except ε α} {f : ε → ε'} {e : ε'} :
    x.mapError f = .error e ↔ ∃ e', x = .error e' ∧ f e' = e := by
  cases x <;> simp [Except.mapError]

theorem forall₂_append_singleton_iff {R : α → β → Prop} {xs : List α} {x : α} {ys : List β}
    {y : β} : List.Forall₂ R (xs ++ [x]) (ys ++ [y]) ↔ List.Forall₂ R xs ys ∧ R x y := by
  rw [← List.forall₂_reverse_iff, List.reverse_append, List.reverse_append]
  simp [and_comm]

theorem exists_mem_of_forall₂ {R : α → β → Prop} {xs : List α} {ys : List β}
    (h : List.Forall₂ R xs ys) {y : β} (hy : y ∈ ys) : ∃ x ∈ xs, R x y := by
  induction h with
  | nil => cases hy
  | cons hxy _ ih =>
    rcases List.mem_cons.mp hy with rfl | hy
    · exact ⟨_, List.mem_cons_self, hxy⟩
    · obtain ⟨x, hx, hr⟩ := ih hy
      exact ⟨x, List.mem_cons_of_mem _ hx, hr⟩

theorem forall₂_append_left_iff {R : α → β → Prop} {xs xs' : List α} {zs : List β} :
    List.Forall₂ R (xs ++ xs') zs ↔
      ∃ ys ys', List.Forall₂ R xs ys ∧ List.Forall₂ R xs' ys' ∧ ys ++ ys' = zs := by
  constructor
  · intro h
    induction xs generalizing zs with
    | nil => exact ⟨[], zs, .nil, h, rfl⟩
    | cons x xs ih =>
      obtain ⟨y, zs, hxy, hzs, rfl⟩ := List.forall₂_cons_left_iff.mp h
      obtain ⟨ys, ys', hys, hys', rfl⟩ := ih hzs
      exact ⟨y :: ys, ys', .cons hxy hys, hys', rfl⟩
  · rintro ⟨ys, ys', hys, hys', rfl⟩
    exact List.rel_append hys hys'

/-- There are results for all elements of a list exactly when there is one for each of them. -/
theorem exists_forall₂_iff {R : α → β → Prop} {xs : List α} :
    (∃ ys, List.Forall₂ R xs ys) ↔ ∀ x ∈ xs, ∃ y, R x y := by
  induction xs with
  | nil => simp
  | cons x xs ih =>
    simp only [List.forall₂_cons_left_iff, List.forall_mem_cons, ← ih]
    constructor
    · rintro ⟨_, y, ys, hy, hys, rfl⟩
      exact ⟨⟨y, hy⟩, ys, hys⟩
    · rintro ⟨⟨y, hy⟩, ys, hys⟩
      exact ⟨_, y, ys, hy, hys, rfl⟩

/-- One of the elements may be replaced by one that is related to the same results. -/
theorem forall₂_replace {R : α → β → Prop} {before after : List α} {x x' : α} {ys : List β}
    (h : List.Forall₂ R (before ++ x :: after) ys) (hx : ∀ {y}, R x y → R x' y) :
    List.Forall₂ R (before ++ x' :: after) ys := by
  obtain ⟨_, _, hbefore, htail, rfl⟩ := forall₂_append_left_iff.mp h
  obtain ⟨y, _, hy, hafter, rfl⟩ := List.forall₂_cons_left_iff.mp htail
  exact List.rel_append hbefore (.cons (hx hy) hafter)

/-- A reader succeeds on all elements of a list exactly when the results belong to the elements
one by one. -/
theorem mapM_eq_ok_iff {f : α → Except ε β} {xs : List α} {ys : List β} :
    xs.mapM f = .ok ys ↔ List.Forall₂ (fun x y => f x = .ok y) xs ys := by
  induction xs generalizing ys with
  | nil => rw [List.mapM_nil, pure_eq_ok_iff, List.forall₂_nil_left_iff, eq_comm]
  | cons x xs ih =>
    rw [List.mapM_cons, bind_eq_ok_iff, List.forall₂_cons_left_iff]
    simp only [bind_eq_ok_iff, pure_eq_ok_iff, ih]
    constructor
    · rintro ⟨y, hy, ys', hys, rfl⟩
      exact ⟨y, ys', hy, hys, rfl⟩
    · rintro ⟨y, ys', hy, hys, rfl⟩
      exact ⟨y, hy, ys', hys, rfl⟩

/-- A reader fails on a list of elements exactly at the first element on which it fails. -/
theorem mapM_eq_error_iff {f : α → Except ε β} {xs : List α} {e : ε} :
    xs.mapM f = .error e ↔ ∃ front x back, xs = front ++ x :: back ∧
      (∀ y ∈ front, ∃ b, f y = .ok b) ∧ f x = .error e := by
  induction xs with
  | nil => simp [pure, Except.pure]
  | cons x xs ih =>
    simp only [List.mapM_cons, bind_eq_error_iff, ih]
    constructor
    · rintro (h | ⟨b, hb, ⟨front, y, back, rfl, hfront, h⟩ | ⟨_, _, h⟩⟩)
      · exact ⟨[], x, xs, rfl, by simp, h⟩
      · exact ⟨x :: front, y, back, rfl, List.forall_mem_cons.mpr ⟨⟨b, hb⟩, hfront⟩, h⟩
      · cases h
    · rintro ⟨front, y, back, hxs, hfront, h⟩
      cases front with
      | nil =>
        obtain ⟨rfl, rfl⟩ := List.cons.inj hxs
        exact .inl h
      | cons z front =>
        obtain ⟨rfl, rfl⟩ := List.cons.inj hxs
        obtain ⟨⟨b, hb⟩, hfront⟩ := List.forall_mem_cons.mp hfront
        exact .inr ⟨b, hb, .inl ⟨front, y, back, rfl, hfront, h⟩⟩

/-! ### Two runs -/

variable {R : α → α → Prop} {R' : β → β → Prop} {S : ε → ε → Prop}

/-- Two results are alike: both are values, related by `R`, or both are errors, related by `S`. -/
inductive Agree (R : α → α → Prop) (S : ε → ε → Prop) : Except ε α → Except ε α → Prop
  | ok {a b : α} (h : R a b) : Agree R S (.ok a) (.ok b)
  | error {d e : ε} (h : S d e) : Agree R S (.error d) (.error e)

theorem Agree.bind {x y : Except ε α} {f g : α → Except ε β} (h : Agree R S x y)
    (hstep : ∀ a b, R a b → Agree R' S (f a) (g b)) : Agree R' S (x >>= f) (y >>= g) := by
  cases h with
  | ok h => exact hstep _ _ h
  | error h => exact .error h

theorem Agree.map {x y : Except ε α} {f g : α → β} (h : Agree R S x y)
    (hstep : ∀ a b, R a b → R' (f a) (g b)) : Agree R' S (x.map f) (y.map g) := by
  cases h with
  | ok h => exact .ok (hstep _ _ h)
  | error h => exact .error h

theorem Agree.mapError {S' : ε' → ε' → Prop} {x y : Except ε α} {f g : ε → ε'}
    (h : Agree R S x y) (hstep : ∀ d e, S d e → S' (f d) (g e)) :
    Agree R S' (x.mapError f) (y.mapError g) := by
  cases h with
  | ok h => exact .ok h
  | error h => exact .error (hstep _ _ h)

theorem Agree.mapM {Q : α → α → Prop} {xs ys : List α} {f g : α → Except ε β}
    (h : List.Forall₂ Q xs ys) (hstep : ∀ a b, Q a b → Agree R' S (f a) (g b)) :
    Agree (List.Forall₂ R') S (xs.mapM f) (ys.mapM g) := by
  induction h with
  | nil => exact .ok .nil
  | cons hxy _ ih =>
    rw [List.mapM_cons, List.mapM_cons]
    refine (hstep _ _ hxy).bind fun b b' hb => ih.bind fun bs bs' hbs => ?_
    exact .ok (.cons hb hbs)

end CanonicalUri
