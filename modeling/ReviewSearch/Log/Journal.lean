/-
ReviewSearch.Log.Journal — what a run leaves for its operators.

Queries and checks of one run write to one journal: a log and the
counters. Nothing they compute depends on what the journal holds.
-/
import ReviewSearch.Log.Basic
import ReviewSearch.Log.Counters

namespace ReviewSearch

structure Journal where
  log : Log
  counters : Counters := {}

namespace Journal

/-- Writes an event. -/
def event (j : Journal) (e : Event) (fields : List (String × String)) : Journal :=
  { j with log := j.log.event e fields }

/-- Adds `n` to a counter. -/
def count (j : Journal) (c : Counter) (n : Nat) : Journal :=
  { j with counters := j.counters.add c n }

end Journal

end ReviewSearch
