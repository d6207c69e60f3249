import CanonicalUri.Uri.Address

/-!
# Edits

The operations that change a URI. Each of them touches one part and what is derived from it: a
scheme brings its implied port with it, and a change of host or port makes the known addresses
void. A refused text leaves nothing but its message.

A setter that may fail is an `Update`. Whatever it refuses, it refuses before it changes anything,
so it is atomic (`Update.IsAtomic`).

`Edit` names these operations as data and `Edit.apply` carries one out, so that what a URI can
become is what a list of edits makes of it: `Edit.run`.
-/

namespace CanonicalUri

namespace Uri

open Update

/-! ### Replacing all parts -/

/-- Reads a text into a URI and tells whether it was accepted. Only the message tells of a refusal;
no trace is kept of it. -/
def assign (reg : Registry) (mode : ParseMode) (t : Text) (u : Uri) : Bool × Uri :=
  match Parsed.ofText reg mode t with
  | .ok p => (true, u.update t p)
  | .error e => (false, { u with lastError := e.message })

def clearError (u : Uri) : Uri :=
  { u with lastError := "" }

/-! ### Scheme, credentials, host and port -/

def setScheme (reg : Registry) (t : Text) : Update UriError Uri Unit := do
  if t = [] then throw .emptyScheme
  modify fun u => { u with scheme := t, schemePort := reg.defaultPort t }

theorem run_setScheme (reg : Registry) (t : Text) (u : Uri) :
    (setScheme reg t).run u =
      if t = [] then .error .emptyScheme u
      else .ok () { u with scheme := t, schemePort := reg.defaultPort t } := by
  rw [setScheme]
  split <;> rfl

theorem isAtomic_setScheme (reg : Registry) (t : Text) : (setScheme reg t).IsAtomic := by
  rw [setScheme]
  split
  · exact isAtomic_throw _
  · exact isAtomic_modify _

def setUserName (t : Text) (u : Uri) : Uri :=
  { u with userName := t }

def setPassword (t : Text) (u : Uri) : Uri :=
  { u with password := t }

/-- Sets the host to a domain name, given encoded. -/
def setDomain (reg : Registry) (t : Text) : Update UriError Uri Unit := do
  let host ← ofExcept ((Host.read reg false t).mapError .invalidDomain)
  modify fun u => { u with host := host, addresses := none }

theorem run_setDomain (reg : Registry) (t : Text) (u : Uri) :
    (setDomain reg t).run u =
      match Host.read reg false t with
      | .ok host => .ok () { u with host := host, addresses := none }
      | .error e => .error (.invalidDomain e) u := by
  rw [setDomain]
  cases Host.read reg false t <;> rfl

theorem isAtomic_setDomain (reg : Registry) (t : Text) : (setDomain reg t).IsAtomic :=
  (isReading_ofExcept _).bind fun _ => isAtomic_modify _

def setPort (port : UInt16) (u : Uri) : Uri :=
  { u with port := port, addresses := none }

/-- Sets the port from its digits. -/
def setPortText (t : Text) : Update UriError Uri Unit :=
  match Decimal.readPort? t with
  | some port => modify (setPort port)
  | none => throw (.invalidPort t)

theorem run_setPortText (t : Text) (u : Uri) :
    (setPortText t).run u =
      match Decimal.readPort? t with
      | some port => .ok () (u.setPort port)
      | none => .error (.invalidPort t) u := by
  rw [setPortText]
  cases Decimal.readPort? t <;> rfl

theorem isAtomic_setPortText (t : Text) : (setPortText t).IsAtomic := by
  rw [setPortText]
  split
  · exact isAtomic_modify _
  · exact isAtomic_throw _

/-! ### Path and anchor -/

/-- The path that a text leads to, as text: a text that does not begin with a slash goes on from
the current path. -/
def pathFrom (u : Uri) (t : Text) : Text :=
  if t.head? = some '/' ∨ u.path = [] then t else u.path.toText ++ '/' :: t

/-- Goes to a path, given decoded. -/
def moveTo (t : Text) : Update UriError Uri Unit := do
  let full := (← get).pathFrom t
  let p ← ofExcept ((Path.resolve (Path.segments full)).mapError (.invalidPath full))
  modify ({ · with path := p })

theorem run_moveTo (t : Text) (u : Uri) :
    (moveTo t).run u =
      match Path.resolve (Path.segments (u.pathFrom t)) with
      | .ok p => .ok () { u with path := p }
      | .error e => .error (.invalidPath (u.pathFrom t) e) u := by
  -- the path that the text goes on from is that of `u`
  change EStateM.bind (ofExcept _) _ u = _
  cases Path.resolve (Path.segments (u.pathFrom t)) <;> rfl

theorem isAtomic_moveTo (t : Text) : (moveTo t).IsAtomic :=
  isReading_get.bind fun _ => (isReading_ofExcept _).bind fun _ => isAtomic_modify _

/-- The URI with the path that a text leads to. -/
def setPath (t : Text) (u : Uri) : Except UriError Uri :=
  (moveTo t).result u

theorem setPath_eq (t : Text) (u : Uri) :
    u.setPath t =
      match Path.resolve (Path.segments (u.pathFrom t)) with
      | .ok p => .ok { u with path := p }
      | .error e => .error (.invalidPath (u.pathFrom t) e) := by
  rw [setPath, Update.result, run_moveTo]
  cases Path.resolve (Path.segments (u.pathFrom t)) <;> rfl

def setAnchor (t : Text) : Update UriError Uri Unit := do
  if t.contains '#' then throw (.hashInAnchor t)
  modify ({ · with anchor := t })

theorem run_setAnchor (t : Text) (u : Uri) :
    (setAnchor t).run u =
      if t.contains '#' then .error (.hashInAnchor t) u else .ok () { u with anchor := t } := by
  rw [setAnchor]
  split <;> rfl

theorem isAtomic_setAnchor (t : Text) : (setAnchor t).IsAtomic := by
  rw [setAnchor]
  split
  · exact isAtomic_throw _
  · exact isAtomic_modify _

/-! ### Parameters and options -/

/-- Adds the parameters of an encoded text. The URI has whatever query that leaves. -/
def mergeQuery (t : Text) : Update UriError Uri Unit := fun u =>
  match (Query.mergeText t).run u.query with
  | .ok _ q => .ok () { u with query := q }
  | .error e q => .error (.invalidEncoding e) { u with query := q }

theorem run_mergeQuery (t : Text) (u : Uri) :
    (mergeQuery t).run u =
      match u.query.merge t with
      | .ok q => .ok () { u with query := q }
      | .error e => .error (.invalidEncoding e) u := by
  change mergeQuery t u = _
  rw [mergeQuery, (Query.isAtomic_mergeText t).run_eq, Query.merge]
  cases (Query.mergeText t).result u.query <;> rfl

theorem isAtomic_mergeQuery (t : Text) : (mergeQuery t).IsAtomic := by
  intro u e v h
  change mergeQuery t u = _ at h
  rw [mergeQuery] at h
  split at h <;> cases h
  rename_i hrun
  rw [Query.isAtomic_mergeText t _ _ _ hrun]

/-- Sets a parameter; an empty value takes it away and an empty name does nothing. -/
def setParameter (name value : Text) (u : Uri) : Uri :=
  if name = [] then u
  else if value = [] then { u with query := u.query.erase name }
  else { u with query := u.query.insert name value }

/-- Puts an entry into the query, whatever its name and value. -/
def insertParameter (name value : Text) (u : Uri) : Uri :=
  { u with query := u.query.insert name value }

def unsetParameter (name : Text) (u : Uri) : Uri :=
  { u with query := u.query.erase name }

def clearParameters (u : Uri) : Uri :=
  { u with query := .empty }

/-- Sets an option; an empty value takes it away. -/
def setOption (name value : Text) (u : Uri) : Uri :=
  if value = [] then { u with options := u.options.erase name }
  else { u with options := u.options.insert name value }

def unsetOption (name : Text) (u : Uri) : Uri :=
  { u with options := u.options.erase name }

end Uri

/-! ### Edits as data -/

/-- An operation that may change a URI. -/
inductive Edit where
  | assign (mode : ParseMode) (text : Text)
  | clearError
  | setScheme (text : Text)
  | setUserName (text : Text)
  | setPassword (text : Text)
  | setDomain (text : Text)
  | setPort (port : UInt16)
  | setPortText (text : Text)
  | setPath (text : Text)
  | setAnchor (text : Text)
  | mergeQuery (text : Text)
  | setParameter (name value : Text)
  | insertParameter (name value : Text)
  | unsetParameter (name : Text)
  | clearParameters
  | setOption (name value : Text)
  | unsetOption (name : Text)
  | resolve
  deriving DecidableEq, Repr

/-- What an edit answers. -/
inductive Outcome where
  | done
  /-- Whether a text was accepted. -/
  | accepted (yes : Bool)
  /-- The value that an inserted entry replaces. -/
  | replaced (value : Option Text)
  | addresses (found : List Ip.Endpoint)
  | failed (error : UriError)
  deriving DecidableEq

namespace Edit

/-- What an update comes to, and the URI that it leaves. -/
def answer : EStateM.Result UriError Uri Unit → Outcome × Uri
  | .ok _ v => (.done, v)
  | .error e v => (.failed e, v)

/-- Carries out an edit. -/
def apply (reg : Registry) (resolver : Resolver) (u : Uri) : Edit → Outcome × Uri
  | .assign mode t => ((u.assign reg mode t).map Outcome.accepted id)
  | .clearError => (.done, u.clearError)
  | .setScheme t => answer ((Uri.setScheme reg t).run u)
  | .setUserName t => (.done, u.setUserName t)
  | .setPassword t => (.done, u.setPassword t)
  | .setDomain t => answer ((Uri.setDomain reg t).run u)
  | .setPort port => (.done, u.setPort port)
  | .setPortText t => answer ((Uri.setPortText t).run u)
  | .setPath t => answer ((Uri.moveTo t).run u)
  | .setAnchor t => answer ((Uri.setAnchor t).run u)
  | .mergeQuery t => answer ((Uri.mergeQuery t).run u)
  | .setParameter name value => (.done, u.setParameter name value)
  | .insertParameter name value => (.replaced (u.query.get? name), u.insertParameter name value)
  | .unsetParameter name => (.done, u.unsetParameter name)
  | .clearParameters => (.done, u.clearParameters)
  | .setOption name value => (.done, u.setOption name value)
  | .unsetOption name => (.done, u.unsetOption name)
  | .resolve =>
    match u.resolve resolver with
    | (.ok found, v) => (.addresses found, v)
    | (.error e, v) => (.failed e, v)

/-- The URI after a list of edits, failed ones included. -/
def run (reg : Registry) (resolver : Resolver) (u : Uri) (edits : List Edit) : Uri :=
  edits.foldl (fun u e => (apply reg resolver u e).2) u

end Edit

end CanonicalUri
