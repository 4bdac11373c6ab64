/-
ReviewSearch.Index.Basic — what the engine knows of an index.

An index has a schema, answers searches for predicates over its fields,
and estimates how many records a predicate has. A search gives all that
its reader will deliver, a fault in the place of every record that is
lost on the way. Searches are numbered over a run, and an index may make
its answer depend on the number; one that fails at times is one that
does.
-/
import ReviewSearch.Index.Schema
import ReviewSearch.Index.Window
import ReviewSearch.Predicate.Printer

namespace ReviewSearch

/-- What a search gives: a refusal, or what its reader will deliver. -/
abbrev Answer : Type := Except Fault (List (Except Fault Document))

structure Index where
  schema : Schema
  /-- The answer to the search of that number. -/
  search : Nat → Predicate → Window → Answer
  cardinality : Predicate → Nat

end ReviewSearch
