/-
ReviewSearch.Index.Window — which part of a result is asked for.
-/
import ReviewSearch.Count

namespace ReviewSearch

/-- Results to skip, results to take, and the fields to keep of each; no
field means all of them. -/
structure Window where
  start : Nat
  limit : Nat
  fields : List String := []
  deriving DecidableEq, Repr

namespace Window

/-- How many results a reader needs that cannot skip by itself. -/
def wanted (w : Window) : Nat :=
  Count.add w.start w.limit

/-- The window to ask of an index, which does not skip: it starts at the
first result and takes those to be skipped as well, `maxLimit` at
most. -/
def forBackend (w : Window) (maxLimit : Nat) : Window :=
  ⟨0, min w.wanted maxLimit, w.fields⟩

end Window

end ReviewSearch
