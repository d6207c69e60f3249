import CanonicalUri.Dict
import CanonicalUri.Percent
import CanonicalUri.Update

/-!
# Query strings

A query is a dictionary of parameters. As text it is `name=value` pairs with `&` between them; a
parameter with an empty value is written as its name alone. Reading allows empty pieces, and a
pair without a name gets the name `*`.

`mergeText` adds the pairs of a text to a query, the last one of a name winning. It reads all of
them before it adds the first one, so a faulty pair leaves the query as it was
(`isAtomic_mergeText`); `merge` is the query that comes of it. `Edit` names the operations that
change a query, and `Edit.run` carries out a list of them.
-/

namespace CanonicalUri

/-- The parameters of a query, by name. -/
abbrev Query := Dict

namespace Query

/-- The name of a parameter that was given none. -/
def nameless : Text := ['*']

/-- The name and the value of a pair, still encoded. -/
def cutPair (t : Text) : Text × Text :=
  ((Text.cut '=' t).1, (Text.cut '=' t).2.getD [])

/-- Decodes a pair. -/
def readPair (t : Text) : Except Percent.DecodeError (Text × Text) := do
  let (name, value) := cutPair t
  let name ← if name = [] then pure nameless else Percent.decode name
  return (name, ← Percent.decode value)

/-- Adds the pairs of a text. -/
def mergeText (t : Text) : Update Percent.DecodeError Query Unit := do
  let pairs ← ofExcept ((Text.pieces '&' t).mapM readPair)
  modify (·.insertAll pairs)

theorem run_mergeText (t : Text) (q : Query) :
    (mergeText t).run q =
      match (Text.pieces '&' t).mapM readPair with
      | .ok pairs => .ok () (q.insertAll pairs)
      | .error e => .error e q := by
  rw [mergeText]
  cases (Text.pieces '&' t).mapM readPair <;> rfl

/-- The pairs of a text are added all together or not at all. -/
theorem isAtomic_mergeText (t : Text) : (mergeText t).IsAtomic :=
  (Update.isReading_ofExcept _).bind fun _ => Update.isAtomic_modify _

/-- The query with the pairs of a text. -/
def merge (q : Query) (t : Text) : Except Percent.DecodeError Query :=
  (mergeText t).result q

theorem merge_eq (q : Query) (t : Text) :
    q.merge t = do return q.insertAll (← (Text.pieces '&' t).mapM readPair) := by
  rw [merge, Update.result, run_mergeText]
  cases (Text.pieces '&' t).mapM readPair <;> rfl

/-- A parameter as text. -/
def writePair (p : Text × Text) : Text :=
  Percent.encode [] p.1 ++ if p.2 = [] then [] else '=' :: Percent.encode [','] p.2

/-- The parameters as text, in the order of their names. -/
def toText (q : Query) : Text :=
  Text.join '&' (q.entries.map writePair)

/-! ### Edits -/

/-- An operation that changes the parameters. -/
inductive Edit where
  | insert (name value : Text)
  | erase (name : Text)
  | clear
  | merge (text : Text)
  deriving DecidableEq, Repr

/-- What an edit answers. -/
inductive Outcome where
  | done
  /-- The value that the name had before. -/
  | previous (value : Option Text)
  | failed (error : Percent.DecodeError)
  deriving DecidableEq, Repr

namespace Edit

/-- Carries out an edit. -/
def apply (q : Query) : Edit → Outcome × Query
  | .insert name value => (.previous (q.get? name), q.insert name value)
  | .erase name => (.previous (q.get? name), q.erase name)
  | .clear => (.done, .empty)
  | .merge t =>
    match (mergeText t).run q with
    | .ok _ r => (.done, r)
    | .error e r => (.failed e, r)

/-- The parameters after a list of edits, failed ones included. -/
def run (q : Query) (edits : List Edit) : Query :=
  edits.foldl (fun q e => (apply q e).2) q

end Edit

end Query

end CanonicalUri
