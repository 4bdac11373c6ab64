/-
ReviewSearch.Change.Status — the life of a change.
-/
namespace ReviewSearch

/-- A change is new until it is merged or abandoned. -/
inductive Status where
  | new
  | merged
  | abandoned
  deriving DecidableEq, Repr

namespace Status

/-- The stored word of a status. -/
def text : Status → String
  | .new => "new"
  | .merged => "merged"
  | .abandoned => "abandoned"

/-- The status of a stored word; case matters. -/
def ofText? (s : String) : Option Status :=
  if s = "new" then some .new
  else if s = "merged" then some .merged
  else if s = "abandoned" then some .abandoned
  else none

theorem ofText?_text (s : Status) : ofText? s.text = some s := by
  cases s <;> decide

end Status

end ReviewSearch
