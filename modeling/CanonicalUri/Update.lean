/-!
# Updates

An update changes a state, step by step, and it may fail at any step. What was changed by then stays
changed, so that a failed update leaves the state as it was (`Update.IsAtomic`) is no matter of
course: it is proved of each update from its own steps. It holds of those that look at all there is
to check (`Update.IsReading`) before they change anything, by `Update.IsReading.bind`.
-/

namespace CanonicalUri

/-- A change of a state that may answer something. When it fails there is a state nevertheless, as
far as the change got. -/
abbrev Update (ε σ : Type) := EStateM ε σ

namespace Update

variable {ε σ α β : Type}

/-- The state behind an update, or its error. -/
def result (x : Update ε σ Unit) (s : σ) : Except ε σ :=
  match x.run s with
  | .ok _ t => .ok t
  | .error e _ => .error e

/-! ### Updates that fail -/

/-- The update leaves the state as it was when it fails. -/
def IsAtomic (x : Update ε σ α) : Prop :=
  ∀ s e t, x.run s = .error e t → t = s

/-- The update leaves the state as it was in any case. -/
structure IsReading (x : Update ε σ α) : Prop where
  isAtomic : x.IsAtomic
  ok : ∀ s a t, x.run s = .ok a t → t = s

theorem isReading_get : IsReading (get : Update ε σ σ) where
  isAtomic := by
    rintro s e t ⟨⟩
  ok := by
    rintro s a t ⟨⟩
    rfl

theorem isReading_ofExcept (r : Except ε α) : IsReading (ofExcept r : Update ε σ α) where
  isAtomic := by
    cases r <;> rintro s e t ⟨⟩
    rfl
  ok := by
    cases r <;> rintro s a t ⟨⟩
    rfl

theorem isAtomic_throw (e : ε) : IsAtomic (throw e : Update ε σ α) := by
  rintro s e' t ⟨⟩
  rfl

theorem isAtomic_modify (f : σ → σ) : IsAtomic (modify f : Update ε σ PUnit) := by
  rintro s e t ⟨⟩

/-- Nothing is changed before the first step that changes something. -/
theorem IsReading.bind {x : Update ε σ α} {f : α → Update ε σ β} (hx : x.IsReading)
    (hf : ∀ a, (f a).IsAtomic) : IsAtomic (x >>= f) := by
  intro s e t h
  change EStateM.bind x f s = _ at h
  rw [EStateM.bind] at h
  cases hrun : x s with
  | ok a s' =>
    rw [hrun] at h
    obtain rfl := hx.ok s a s' hrun
    exact hf a s' e t h
  | error e' s' =>
    rw [hrun] at h
    cases h
    exact hx.isAtomic s e t hrun

/-- The result of an atomic update tells what it leaves, also when it fails. -/
theorem IsAtomic.run_eq {x : Update ε σ Unit} (h : x.IsAtomic) (s : σ) :
    x.run s =
      match x.result s with
      | .ok t => .ok () t
      | .error e => .error e s := by
  rw [result]
  cases hrun : x.run s with
  | ok _ t => rfl
  | error e t => rw [h s e t hrun]

end Update

end CanonicalUri
