/-
ReviewSearch.Plan.Explain — a plan for people to read.
-/
import ReviewSearch.Json.Writer
import ReviewSearch.Plan.Source

namespace ReviewSearch

/-- One node of an explained plan. -/
inductive Explanation where
  | node (kind : String) (predicate : Option String) (cardinality limit backendLimit : Option Nat)
      (children : List Explanation)

namespace Source

mutual

/-- Explains a plan, given the cardinalities of predicates. -/
def explain (size : Predicate → Nat) : Source → Explanation
  | .indexed q =>
    .node "index" (some q.predicate.display) (some (size q.predicate)) (some q.window.limit)
      (some q.backend.limit) []
  | .conj ss => .node "and" none (estimate? size (.conj ss)) none none (explainAll size ss)
  | .disj ss => .node "or" none (estimate? size (.disj ss)) none none (explainAll size ss)
  | .filter p => .node "filter" (some p.display) none none none []
  | .matcher m => .node "matcher" (some m.name) none none none []

def explainAll (size : Predicate → Nat) : List Source → List Explanation
  | [] => []
  | s :: ss => explain size s :: explainAll size ss

end

mutual

/-- The predicates whose cardinalities are asked for to explain a plan:
those of the children first, then those of the node's own estimate. -/
def explainAsks : Source → List Predicate
  | .conj ss => explainAsksOf ss ++ asksOf ss
  | .disj ss => explainAsksOf ss ++ asksOf ss
  | s => asks s

def explainAsksOf : List Source → List Predicate
  | [] => []
  | s :: ss => explainAsks s ++ explainAsksOf ss

end

end Source

namespace Explanation

mutual

/-- An explanation as a JSON object; what a node has none of is left
out. -/
def toJson : Explanation → Json
  | .node kind predicate cardinality limit backendLimit children =>
    let part (name : String) (v : Option Json) := v.toList.map fun v => (name, v)
    .ofMembers ([("kind", .string kind)]
      ++ part "predicate" (predicate.map .string)
      ++ part "cardinality" (cardinality.map .ofNat)
      ++ part "limit" (limit.map .ofNat)
      ++ part "backend_limit" (backendLimit.map .ofNat)
      ++ match childrenToJson children with
        | [] => []
        | cs => [("children", .array cs)])

def childrenToJson : List Explanation → List Json
  | [] => []
  | e :: es => toJson e :: childrenToJson es

end

/-- A refused query as a JSON object. -/
def rejection (f : Fault) : Json :=
  .ofMembers [("accepted", .bool false), ("code", .string f.code.text),
    ("reason", .string f.message)]

end Explanation

end ReviewSearch
