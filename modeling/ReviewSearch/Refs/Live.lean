/-
ReviewSearch.Refs.Live — the refs as they are now.

`LiveRefs` is what a check of staleness asks: the object of one ref, and
all refs of a project whose names begin with a text. A project may be
unreadable, for a reason in words. A snapshot answers from a table: the
names are in order, so the wanted ones are neighbours, and the first of
them is found behind the last name that is smaller than the text.
-/
import ReviewSearch.Order.Table
import ReviewSearch.Refs.ObjectId

namespace ReviewSearch

structure LiveRefs where
  /-- The object of a ref, if there is such a ref. -/
  object : (project name : String) → Except String (Option ObjectId)
  /-- The refs whose names begin with a text. -/
  under : (project stem : String) → Except String (List (String × ObjectId))

/-- The refs of each project by name. -/
structure RefSnapshot where
  projects : Table String (Table String ObjectId)

namespace RefSnapshot

def refs (s : RefSnapshot) (project : String) : Table String ObjectId :=
  (Table.get? project s.projects).getD []

def object? (s : RefSnapshot) (project name : String) : Option ObjectId :=
  Table.get? name (s.refs project)

/-- Whether a name begins with a text. -/
def beginsWith (stem name : String) : Bool :=
  stem.toList.isPrefixOf name.toList

/-- The refs of a project whose names begin with a text, in order. -/
def under (s : RefSnapshot) (project stem : String) : List (String × ObjectId) :=
  ((s.refs project).dropWhile fun e => decide (e.1 < stem)).takeWhile fun e =>
    beginsWith stem e.1

def toLive (s : RefSnapshot) : LiveRefs where
  object project name := .ok (s.object? project name)
  under project stem := .ok (s.under project stem)

end RefSnapshot

end ReviewSearch
