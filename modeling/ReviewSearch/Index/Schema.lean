/-
ReviewSearch.Index.Schema — the fields that an index answers.
-/
import ReviewSearch.Order.Table
import ReviewSearch.Predicate.Leaf

namespace ReviewSearch

/-- A generation of the index and the fields it answers, in order. -/
structure Schema where
  version : Nat
  fields : List String
  deriving DecidableEq, Repr

namespace Schema

/-- A schema of fields given in any order, with repetitions. -/
def ofFields (version : Nat) (names : List String) : Schema :=
  ⟨version, Table.keys (Table.ofList (names.map fun n => (n, ())))⟩

def hasField (s : Schema) (name : String) : Bool :=
  s.fields.contains name

/-- Whether an index of this schema answers a leaf: never a limit, and
only fields that it has. -/
def answers (s : Schema) (l : Leaf) : Bool :=
  !l.isLimit && s.hasField l.field

def firstFields : List String :=
  ["status", "project", "branch", "ref", "owner", "topic"]

/-- The first generation. -/
def v1 : Schema :=
  ofFields 1 firstFields

/-- The second generation adds files, hashtags, messages and times. -/
def v2 : Schema :=
  ofFields 2 (firstFields ++ ["file", "hashtag", "message", "updated"])

def latest : Schema := v2

/-- The greatest version. -/
def maxVersion : Nat := UInt32.size - 1

/-- What is wrong with a schema, in words. -/
def defect? (s : Schema) : Option String :=
  if s.version = 0 then some "schema version must be > 0"
  else if s.fields.isEmpty then some "schema must declare at least one field"
  else if s.fields.any String.isEmpty then some "schema field names must be non-empty"
  else none

end Schema

end ReviewSearch
