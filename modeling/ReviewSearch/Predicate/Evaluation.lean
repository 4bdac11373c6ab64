/-
ReviewSearch.Predicate.Evaluation — which records satisfy a predicate.

There are two readings of a tree, and they agree:

* `holds` — the plain one: an AND asks all its children and an OR any of
  them, in the order in which they are written;
* `satisfiedBy` — the one that is used: the children of a node are asked
  in ascending order of their cost, those of equal cost as written, and
  the first one that decides ends the asking.
-/
import ReviewSearch.Order.Stable
import ReviewSearch.Predicate.Basic

namespace ReviewSearch.Predicate

mutual

/-- The plain reading. -/
def holds (d : Document) : Predicate → Bool
  | .leaf l => l.satisfiedBy d
  | .conj ps => holdsAll d ps
  | .disj ps => holdsAny d ps
  | .neg p => !holds d p

def holdsAll (d : Document) : List Predicate → Bool
  | [] => true
  | p :: ps => holds d p && holdsAll d ps

def holdsAny (d : Document) : List Predicate → Bool
  | [] => false
  | p :: ps => holds d p || holdsAny d ps

end

/-- What is known of a child before it is asked: its cost, and what it
will answer. -/
structure Trial where
  cost : Nat
  answer : Bool

/-- Trials in the order in which they are made. -/
def Trial.inOrder (ts : List Trial) : List Trial :=
  Order.sortByKey Trial.cost ts

mutual

/-- Whether a record satisfies the tree, asking cheap children first. -/
def satisfiedBy (d : Document) : Predicate → Bool
  | .leaf l => l.satisfiedBy d
  | .conj ps => (Trial.inOrder (trials d ps)).all Trial.answer
  | .disj ps => (Trial.inOrder (trials d ps)).any Trial.answer
  | .neg p => !satisfiedBy d p

def trials (d : Document) : List Predicate → List Trial
  | [] => []
  | p :: ps => ⟨p.cost, satisfiedBy d p⟩ :: trials d ps

end

end ReviewSearch.Predicate
