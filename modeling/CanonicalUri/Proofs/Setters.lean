import CanonicalUri.Uri.Edit
import Mathlib.Tactic.SplitIfs

/-!
# Edits of one field

Most edits set one field of a URI (`Edit.field?`); the others read a whole text or look up the
addresses. What setting a field does to a URI as a whole is `Uri.adopt`: the field gets its new
value, and what is derived from it follows.

* `Edit.sets_apply`: of the URI that it is applied to, a setter looks at its own field alone. That
  decides its outcome and the new value; when it fails, nothing is set, since each of them is atomic
  (`Update.IsAtomic`).
* `Uri.adopt_comm`: different fields can be replaced in any order.
* `Edit.apply_setter`: so a setter that fails changes nothing, one that succeeds changes its own
  field and what is derived from it, and two setters of different fields come to the same outcomes
  and to the same URI in either order.
* `Edit.run_perm`: as does any number of setters, as long as no two of them set the same field.
-/

namespace CanonicalUri

/-! ### Fields -/

namespace Uri

/-- What can be set on its own. -/
inductive Field where
  | scheme
  | userName
  | password
  | host
  | port
  | path
  | query
  | anchor
  | options
  | lastError
  deriving DecidableEq, Repr

/-- Whether two URIs have the same value in a field. -/
def Agrees (u v : Uri) : Field → Prop
  | .scheme => u.scheme = v.scheme
  | .userName => u.userName = v.userName
  | .password => u.password = v.password
  | .host => u.host = v.host
  | .port => u.port = v.port
  | .path => u.path = v.path
  | .query => u.query = v.query
  | .anchor => u.anchor = v.anchor
  | .options => u.options = v.options
  | .lastError => u.lastError = v.lastError

/-- Replaces a field by that of another URI: a scheme brings its implied port with it, and a new
host or port makes the known addresses void. -/
def adopt (reg : Registry) (u v : Uri) : Field → Uri
  | .scheme => { u with scheme := v.scheme, schemePort := reg.defaultPort v.scheme }
  | .userName => { u with userName := v.userName }
  | .password => { u with password := v.password }
  | .host => { u with host := v.host, addresses := none }
  | .port => { u with port := v.port, addresses := none }
  | .path => { u with path := v.path }
  | .query => { u with query := v.query }
  | .anchor => { u with anchor := v.anchor }
  | .options => { u with options := v.options }
  | .lastError => { u with lastError := v.lastError }

theorem Agrees.refl (u : Uri) (f : Field) : u.Agrees u f := by
  cases f <;> rfl

/-- Replacing one field leaves the others as they were. -/
theorem agrees_adopt {f g : Field} (h : f ≠ g) (reg : Registry) (u v : Uri) :
    (u.adopt reg v g).Agrees u f := by
  cases f <;> cases g <;> first | rfl | exact absurd rfl h

/-- What is adopted is what the field then holds. -/
theorem adopt_adopt (reg : Registry) (u v : Uri) (f : Field) :
    u.adopt reg (u.adopt reg v f) f = u.adopt reg v f := by
  cases f <;> rfl

/-- Different fields are replaced in any order. -/
theorem adopt_comm {f g : Field} (h : f ≠ g) (reg : Registry) (u v w : Uri) :
    (u.adopt reg v f).adopt reg w g = (u.adopt reg w g).adopt reg v f := by
  cases f <;> cases g <;> first | rfl | exact absurd rfl h

end Uri

namespace Edit

open Uri

/-- The field that an edit sets, if it is a setter. -/
def field? : Edit → Option Field
  | .assign _ _ | .resolve => none
  | .clearError => some .lastError
  | .setScheme _ => some .scheme
  | .setUserName _ => some .userName
  | .setPassword _ => some .password
  | .setDomain _ => some .host
  | .setPort _ | .setPortText _ => some .port
  | .setPath _ => some .path
  | .setAnchor _ => some .anchor
  | .mergeQuery _ | .setParameter _ _ | .insertParameter _ _ | .unsetParameter _
  | .clearParameters => some .query
  | .setOption _ _ | .unsetOption _ => some .options

/-! ### What a setter does -/

/-- What an edit does to every URI that agrees with `u` in a field: it fails with the same error
and changes nothing, or it has the same outcome and sets the field to the same value. -/
inductive Sets (reg : Registry) (u : Uri) (f : Field) (edit : Uri → Outcome × Uri) : Prop
  | failed (error : UriError) (h : ∀ v, v.Agrees u f → edit v = (.failed error, v))
  | set (outcome : Outcome) (hok : ∀ error, outcome ≠ .failed error) (new : Uri)
      (h : ∀ v, v.Agrees u f → edit v = (outcome, v.adopt reg new f))

/-- An edit that has no answer but that it is done. -/
private theorem Sets.done {reg : Registry} {u : Uri} {f : Field} {edit : Uri → Outcome × Uri}
    (new : Uri) (h : ∀ v, v.Agrees u f → edit v = (.done, v.adopt reg new f)) :
    Sets reg u f edit :=
  .set .done (by simp) new h

/-- An atomic update that does to every URI what it does to one with the same value in its field. -/
private theorem Sets.answer {reg : Registry} {u : Uri} {f : Field} {x : Update UriError Uri Unit}
    (hx : x.IsAtomic)
    (h : ∀ v, v.Agrees u f → x.result v = (x.result u).map fun new => v.adopt reg new f) :
    Sets reg u f fun v => answer (x.run v) := by
  rcases hresult : x.result u with error | new
  · refine .failed error fun v hv => ?_
    rw [hx.run_eq, h v hv, hresult]
    rfl
  · refine .done new fun v hv => ?_
    rw [hx.run_eq, h v hv, hresult]
    rfl

variable (reg : Registry) (resolver : Resolver)

/-- A setter looks at its own field alone. -/
theorem sets_apply (u : Uri) {e : Edit} {f : Field} (he : e.field? = some f) :
    Sets reg u f fun v => apply reg resolver v e := by
  cases e <;> cases he
  case clearError => exact .done u.clearError fun _ _ => rfl
  case setScheme t =>
    refine .answer (isAtomic_setScheme reg t) fun v _ => ?_
    rw [Update.result, Update.result, run_setScheme, run_setScheme]
    split_ifs <;> rfl
  case setUserName t => exact .done (u.setUserName t) fun _ _ => rfl
  case setPassword t => exact .done (u.setPassword t) fun _ _ => rfl
  case setDomain t =>
    refine .answer (isAtomic_setDomain reg t) fun v _ => ?_
    rw [Update.result, Update.result, run_setDomain, run_setDomain]
    cases Host.read reg false t <;> rfl
  case setPort port => exact .done (u.setPort port) fun _ _ => rfl
  case setPortText t =>
    refine .answer (isAtomic_setPortText t) fun v _ => ?_
    rw [Update.result, Update.result, run_setPortText, run_setPortText]
    cases Decimal.readPort? t <;> rfl
  case setPath t =>
    refine .answer (isAtomic_moveTo t) fun v (hv : v.path = u.path) => ?_
    have hfrom : v.pathFrom t = u.pathFrom t := by rw [pathFrom, pathFrom, hv]
    rw [Update.result, Update.result, run_moveTo, run_moveTo, hfrom]
    cases Path.resolve (Path.segments (u.pathFrom t)) <;> rfl
  case setAnchor t =>
    refine .answer (isAtomic_setAnchor t) fun v _ => ?_
    rw [Update.result, Update.result, run_setAnchor, run_setAnchor]
    split_ifs <;> rfl
  case mergeQuery t =>
    refine .answer (isAtomic_mergeQuery t) fun v (hv : v.query = u.query) => ?_
    rw [Update.result, Update.result, run_mergeQuery, run_mergeQuery, hv]
    cases u.query.merge t <;> rfl
  case setParameter name value =>
    refine .done (u.setParameter name value) fun v (hv : v.query = u.query) => ?_
    simp only [apply, Uri.setParameter, adopt]
    split_ifs <;> simp only [← hv]
  case insertParameter name value =>
    refine .set (.replaced (u.query.get? name)) (by simp) (u.insertParameter name value)
      fun v (hv : v.query = u.query) => ?_
    simp only [apply, Uri.insertParameter, adopt, hv]
  case unsetParameter name =>
    refine .done (u.unsetParameter name) fun v (hv : v.query = u.query) => ?_
    simp only [apply, Uri.unsetParameter, adopt, hv]
  case clearParameters => exact .done u.clearParameters fun _ _ => rfl
  case setOption name value =>
    refine .done (u.setOption name value) fun v (hv : v.options = u.options) => ?_
    simp only [apply, Uri.setOption, adopt, hv]
    split_ifs <;> rfl
  case unsetOption name =>
    refine .done (u.unsetOption name) fun v (hv : v.options = u.options) => ?_
    simp only [apply, Uri.unsetOption, adopt, hv]

/-- Two setters of different fields come to the same outcomes and to the same URI in either
order. -/
theorem apply_comm (u : Uri) {e e' : Edit} {f g : Field} (he : e.field? = some f)
    (he' : e'.field? = some g) (hne : f ≠ g) :
    ∃ v, apply reg resolver (apply reg resolver u e').2 e = ((apply reg resolver u e).1, v) ∧
      apply reg resolver (apply reg resolver u e).2 e' = ((apply reg resolver u e').1, v) := by
  have hself := Agrees.refl u
  -- the other setter leaves a URI with the same value in the field of this one
  have hother (new : Uri) := agrees_adopt hne reg u new
  have hother' (new : Uri) := agrees_adopt hne.symm reg u new
  obtain ⟨_, h⟩ | ⟨_, _, new, h⟩ := sets_apply reg resolver u he <;>
  obtain ⟨_, h'⟩ | ⟨_, _, new', h'⟩ := sets_apply reg resolver u he' <;>
  simp only [h u (hself f), h' u (hself g)]
  · exact ⟨u, rfl, rfl⟩
  · exact ⟨_, h _ (hother new'), rfl⟩
  · exact ⟨_, rfl, h' _ (hother' new)⟩
  · refine ⟨_, h _ (hother new'), ?_⟩
    rw [h' _ (hother' new), adopt_comm hne]

/-- Setters are atomic and local: one that fails changes nothing, one that succeeds changes its own
field and what is derived from it, and two of them that set different fields come to the same
outcomes and to the same URI in either order. -/
theorem apply_setter (u : Uri) {e : Edit} {f : Field} (he : e.field? = some f) :
    (∀ error, (apply reg resolver u e).1 = .failed error → (apply reg resolver u e).2 = u) ∧
      ((∀ error, (apply reg resolver u e).1 ≠ .failed error) →
        (apply reg resolver u e).2 = u.adopt reg (apply reg resolver u e).2 f) ∧
      ∀ {e' : Edit} {g : Field}, e'.field? = some g → f ≠ g →
        ∃ v, apply reg resolver (apply reg resolver u e').2 e = ((apply reg resolver u e).1, v) ∧
          apply reg resolver (apply reg resolver u e).2 e' = ((apply reg resolver u e').1, v) := by
  refine ⟨fun error herror => ?_, fun hok => ?_, apply_comm reg resolver u he⟩
  · obtain ⟨_, h⟩ | ⟨_, hok, _, h⟩ := sets_apply reg resolver u he
    · rw [h u (.refl u f)]
    · rw [h u (.refl u f)] at herror
      exact absurd herror (hok error)
  · obtain ⟨error, h⟩ | ⟨_, _, _, h⟩ := sets_apply reg resolver u he
    · exact absurd (congrArg Prod.fst (h u (.refl u f))) (hok error)
    · rw [h u (.refl u f), adopt_adopt]

/-- A merge that fails in the middle of its text, and a new host that makes the addresses void. -/
theorem apply_setter_merge_host :
    let reg := Registry.standard
    let resolver : Resolver := fun _ _ => .ok []
    let u : Uri :=
      { host := .ip (.v4 ⟨127, 0, 0, 1⟩), query := Dict.empty.insert "a".toList "0".toList
        addresses := some [⟨.v4 ⟨127, 0, 0, 1⟩, 80⟩] }
    let merge : Edit := .mergeQuery "a=1&b=%zz".toList
    let host : Edit := .setDomain "www.example.com".toList
    let failed : Outcome := .failed (.invalidEncoding ⟨"%zz".toList, .badEscape 122 122⟩)
    apply reg resolver u merge = (failed, u) ∧
      (apply reg resolver u host).1 = .done ∧
      (apply reg resolver u host).2 = u.adopt reg (apply reg resolver u host).2 .host ∧
      ∃ v, apply reg resolver (apply reg resolver u merge).2 host = (.done, v) ∧
        apply reg resolver (apply reg resolver u host).2 merge = (failed, v) := by
  intro reg resolver u merge host failed
  have hmerge : (apply reg resolver u merge).1 = failed := by decide +kernel
  have hhost : (apply reg resolver u host).1 = .done := by decide +kernel
  have hmergeField : merge.field? = some .query := rfl
  have hhostField : host.field? = some .host := rfl
  obtain ⟨hatomic, _, _⟩ := apply_setter reg resolver u hmergeField
  obtain ⟨_, hlocal, hcomm⟩ := apply_setter reg resolver u hhostField
  obtain ⟨v, hlast, hfirst⟩ := hcomm hmergeField (by decide)
  rw [hhost] at hlast hlocal
  rw [hmerge] at hfirst
  exact ⟨Prod.ext hmerge (hatomic _ hmerge), hhost, hlocal nofun, v, hlast, hfirst⟩

/-- Setters of different fields may be applied in any order. -/
theorem run_perm {edits edits' : List Edit} (hperm : edits.Perm edits')
    (hfields : ∀ e ∈ edits, ∃ f, e.field? = some f)
    (hdistinct : ∀ e ∈ edits, ∀ e' ∈ edits, e.field? = e'.field? → e = e') (u : Uri) :
    run reg resolver u edits = run reg resolver u edits' := by
  refine hperm.foldl_eq' (fun e he e' he' u => ?_) u
  by_cases hne : e = e'
  · rw [hne]
  · obtain ⟨f, hf⟩ := hfields e he
    obtain ⟨g, hg⟩ := hfields e' he'
    have hfg : f ≠ g := by
      rintro rfl
      exact hne (hdistinct e he e' he' (hf.trans hg.symm))
    obtain ⟨v, h, h'⟩ := apply_comm reg resolver u hf hg hfg
    rw [h, h']

end Edit

end CanonicalUri
