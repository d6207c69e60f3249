import CanonicalUri.Text.Basic

/-!
# Public suffixes

A public suffix is an ending of host names under which anyone may register a name, such as `com`
or `co.uk`. A list of rules says which endings are public. A rule is a sequence of labels; the
label `*` stands for any one label, an empty one too, and a `!` in front makes the rule an
exception. Of the rules that a host name ends in, an exception wins and takes its first label
away; otherwise the longest rule wins. A name that ends in no rule has no public suffix.

`suffix?_isSuffix` says that what is found is an ending of the name.
-/

namespace CanonicalUri

namespace PublicSuffix

/-- A rule, with its last label first; `none` stands for any label. -/
structure Rule where
  labels : List (Option Text)
  isException : Bool
  deriving DecidableEq, Repr

namespace Rule

def ofLabels (isException : Bool) (labels : List Text) : Rule :=
  ⟨labels.reverse.map fun l => if l = ['*'] then none else some l, isException⟩

/-- Reads a rule from its text. -/
def ofText : Text → Rule
  | '!' :: t => ofLabels true (t.splitOn '.')
  | t => ofLabels false (t.splitOn '.')

/-- Whether a pattern of labels stands at the front of some labels. -/
def heads : List (Option Text) → List Text → Bool
  | [], _ => true
  | _ :: _, [] => false
  | none :: ps, _ :: ls => heads ps ls
  | some p :: ps, l :: ls => p == l && heads ps ls

/-- Whether a name, given by its labels with the last one first, ends in the rule. -/
def covers (r : Rule) (labels : List Text) : Bool :=
  heads r.labels labels

end Rule

/-- The number of labels of the longest rule that covers a name, exceptions left aside. -/
def longest (rules : List Rule) (labels : List Text) : Nat :=
  rules.foldl
    (fun best r =>
      if !r.isException && r.covers labels && decide (best < r.labels.length) then r.labels.length
      else best)
    0

/-- The number of labels in the public suffix of a name, 0 when it has none. -/
def suffixLength (rules : List Rule) (labels : List Text) : Nat :=
  match rules.find? fun r => r.isException && r.covers labels with
  | some r => r.labels.length - 1
  | none => longest rules labels

/-- The public suffix of a host name in lower case. -/
def suffix? (rules : List Rule) (name : Text) : Option Text :=
  let labels := name.splitOn '.'
  match suffixLength rules labels.reverse with
  | 0 => none
  | n + 1 => some (Text.join '.' (labels.drop (labels.length - (n + 1))))

/-- A public suffix of a name is an ending of the name. -/
theorem suffix?_isSuffix {rules : List Rule} {name s : Text} (h : suffix? rules name = some s) :
    s <:+ name := by
  simp only [suffix?] at h
  split at h
  · cases h
  · rename_i n _
    cases h
    have hdrop := Text.join_drop_isSuffix '.' ((name.splitOn '.').length - (n + 1))
      (name.splitOn '.')
    rwa [show Text.join '.' (name.splitOn '.') = name from List.intercalate_splitOn '.'] at hdrop

/-! ### The rules in use -/

/-- The rules by which host names are told apart. -/
def rules : List Rule :=
  ["com", "net", "org", "website", "io", "github.io", "me", "uk", "co.uk", "us", "ma.us",
    "k12.ma.us", "pvt.k12.ma.us", "jp", "ac.jp", "co.jp", "*.kawasaki.jp", "!city.kawasaki.jp",
    "*.ck", "!www.ck", "*.compute.amazonaws.com", "s3.amazonaws.com", "cn", "公司.cn",
    "xn--55qx5d.cn", "рф", "xn--p1ai"].map fun s => Rule.ofText s.toList

end PublicSuffix

end CanonicalUri
