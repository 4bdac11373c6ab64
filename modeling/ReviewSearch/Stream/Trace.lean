/-
ReviewSearch.Stream.Trace — what a reader has done to the index.

A trace lists the calls in their order: searches, questions for a
cardinality, releases of a reader, and notes of whatever else the reader
of the stream wants to see. It changes no result; it numbers the searches
and lets statements speak of what is read when.
-/
import ReviewSearch.Index.Basic

namespace ReviewSearch

/-- A call, with notes of type `ν`. -/
inductive Call (ν : Type) where
  | search (p : Predicate) (w : Window)
  | cardinality (p : Predicate)
  | release
  | note (n : ν)

structure Trace (ν : Type) where
  /-- How many searches have been made. -/
  searches : Nat := 0
  /-- All calls, latest first. -/
  latest : List (Call ν) := []

namespace Trace

variable {ν : Type}

/-- All calls, in their order. -/
def calls (t : Trace ν) : List (Call ν) :=
  t.latest.reverse

def record (t : Trace ν) (c : Call ν) : Trace ν :=
  { t with latest := c :: t.latest }

def recordAll (t : Trace ν) (cs : List (Call ν)) : Trace ν :=
  cs.foldl record t

/-- Records a search and counts it. -/
def recordSearch (t : Trace ν) (p : Predicate) (w : Window) : Trace ν :=
  { searches := t.searches + 1, latest := .search p w :: t.latest }

end Trace

end ReviewSearch
