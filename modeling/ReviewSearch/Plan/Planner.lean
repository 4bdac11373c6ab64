/-
ReviewSearch.Plan.Planner — from a predicate to a plan.

A planner gives the index the largest subtrees that it can answer:

* a leaf of the schema is INDEXED, and so is an AND or OR of indexed
  parts; a NOT, a limit or a leaf outside the schema is RESIDUAL, and so
  is an AND or OR of residual parts, of which there is one at least;
* any other AND is a source: one index query for its indexed parts, in
  front of the others, which filter its results;
* any other OR is a source: one index query for its indexed parts, at the
  place of the first of them, beside the others.

Each child of an OR and the root have to be readable. A residual part in
such a place is SCOPED: the default scope is queried and the part filters
its results. A limit inside an AND with other parts is dropped, since the
window of the query limits already; any other limit is raised to what the
index is asked for. More leaves than the index accepts, limits not
counted, refuse the query.

No step of planning calls the index: it needs the schema alone.
-/
import ReviewSearch.Index.Limits
import ReviewSearch.Log.Basic
import ReviewSearch.Plan.Source

namespace ReviewSearch

/-- What planning goes by. -/
structure Planner where
  schema : Schema
  limits : Limits
  /-- The condition put on branches that the index cannot answer. -/
  scope? : Option Predicate

namespace Planner

/-- What becomes of a subtree. -/
inductive Part where
  /-- The index answers all of it. -/
  | indexed (p : Predicate)
  /-- It is evaluated in memory. -/
  | residual (p : Predicate)
  /-- It is readable as it stands. -/
  | source (s : Source)

namespace Part

def predicate? : Part → Option Predicate
  | .indexed p => some p
  | _ => none

def residual? : Part → Option Predicate
  | .residual p => some p
  | _ => none

/-- Whether a part is a limit and nothing else. -/
def isLimit : Part → Bool
  | .residual p => p.isLimit
  | _ => false

/-- The index queries' predicates among parts. -/
def indexedOnes (parts : List Part) : List Predicate :=
  parts.filterMap predicate?

def residualOnes (parts : List Part) : List Predicate :=
  parts.filterMap residual?

/-- The parts of an AND without its limits, if it has any other part. -/
def withoutLimits (parts : List Part) : List Part :=
  if parts.all isLimit then parts else parts.filter fun part => !part.isLimit

end Part

/-- The state of planning: the leaves counted so far, and the log. -/
structure Progress where
  terms : Nat := 0
  log : Log

/-- A step of planning. What it counts and logs outlives its failure. -/
abbrev Step : Type → Type :=
  ExceptT Fault (StateM Progress)

namespace Step

/-- Writes an event to the log. Its fields are rendered only if it passes
the threshold. -/
def event (e : Event) (fields : Unit → List (String × String)) : Step Unit := do
  if (← get).log.enabled e.severity then
    modify fun s => { s with log := s.log.event e (fields ()) }

end Step

variable (pl : Planner) (w : Window)

/-- The index query of a predicate in the window of the whole query. -/
def query (p : Predicate) : Source :=
  .indexed (.ofWindow p w pl.limits.maxLimit)

/-- The limit that the index is asked for, as a condition. -/
def backendLimit : Predicate :=
  .leaf (.limit (w.forBackend pl.limits.maxLimit).limit)

/-- Counts a leaf and refuses one too many. -/
def countTerm : Step Unit := do
  modify fun s => { s with terms := s.terms + 1 }
  if pl.limits.maxTerms < (← get).terms then
    throw (.tooManyTerms pl.limits.maxTerms)

mutual

/-- Whether the index answers all of a predicate. -/
def answerable : Predicate → Bool
  | .leaf l => pl.schema.answers l
  | .conj ps | .disj ps => allAnswerable ps
  | .neg _ => false

def allAnswerable : List Predicate → Bool
  | [] => true
  | p :: ps => answerable p && allAnswerable ps

end

/-- Makes a residual part readable by querying the default scope. -/
def underScope (residual : Predicate) : Step Source :=
  match pl.scope? with
  | none => throw (.refusedAt "query cannot be answered by the index" residual.display)
  | some scope => do
    if !pl.answerable scope then
      throw (.config ("default scope is not answerable by the index: " ++ scope.display))
    Step.event .defaultScopeApplied fun _ =>
      [("scope", scope.display), ("branch", residual.display)]
    return .conj [pl.query w scope, .filter residual]

mutual

/-- A subtree that is evaluated in memory: its leaves are counted and its
limits raised. -/
def residual : Predicate → Step Predicate
  | .leaf l =>
    if l.isLimit then return pl.backendLimit w
    else do
      pl.countTerm
      return .leaf l
  | .conj ps => do Predicate.withChildren (.conj ps) (← residualAll ps)
  | .disj ps => do Predicate.withChildren (.disj ps) (← residualAll ps)
  | .neg p => do Predicate.withChildren (.neg p) [← residual p]

def residualAll : List Predicate → Step (List Predicate)
  | [] => return []
  | p :: ps => do
    let q ← residual p
    return q :: (← residualAll ps)

end

/-- One index query for the indexed parts, in front of the others. -/
def conjSource (parts : List Part) : Source :=
  let others := parts.filterMap fun
    | .indexed _ => none
    | .residual p => some (.filter p)
    | .source s => some s
  match Part.indexedOnes parts with
  | [] => .conj others
  | ps => .conj (pl.query w (.and ps) :: others)

/-- The readable children that the parts of an OR make. `merged?` is the
query for the indexed parts, until it has found its place. -/
def disjChildren (merged? : Option Source) : List Part → Step (List Source)
  | [] => return []
  | .indexed _ :: parts => return merged?.toList ++ (← disjChildren none parts)
  | .residual p :: parts => do
    let s ← pl.underScope w p
    return s :: (← disjChildren merged? parts)
  | .source s :: parts => return s :: (← disjChildren merged? parts)

/-- One index query for the indexed parts, beside the others. -/
def disjSource (parts : List Part) : Step Source := do
  let merged? := match Part.indexedOnes parts with
    | [] => none
    | ps => some (pl.query w (.or ps))
  Source.or (← pl.disjChildren w merged? parts)

/-- Puts the parts of an AND or OR `p` together. `normal` makes a node of
its kind in normal form; `mixed` is for parts of several kinds. -/
def combine (p : Predicate) (normal : List Predicate → Predicate)
    (mixed : List Part → Step Source) (parts : List Part) : Step Part :=
  let indexed := Part.indexedOnes parts
  let residual := Part.residualOnes parts
  if indexed.length = parts.length then
    return .indexed (if indexed = p.children then p else normal indexed)
  else if residual.length = parts.length then
    match residual with
    | [q] => return .residual q
    | qs => return .residual (← p.withChildren qs)
  else return .source (← mixed parts)

mutual

/-- The part that a subtree becomes. -/
def part : Predicate → Step Part
  | .leaf l =>
    if l.isLimit then return .residual (pl.backendLimit w)
    else do
      pl.countTerm
      if pl.schema.answers l then return .indexed (.leaf l)
      Step.event .schemaFallback fun _ =>
        [("operator", l.display), ("schema_version", toString pl.schema.version)]
      return .residual (.leaf l)
  | .neg p => return .residual (← pl.residual w (.neg p))
  | .conj ps => do
    let parts ← partAll ps
    combine (.conj ps) .and (fun parts => return pl.conjSource w parts) (Part.withoutLimits parts)
  | .disj ps => do
    let parts ← partAll ps
    combine (.disj ps) .or (pl.disjSource w) parts

def partAll : List Predicate → Step (List Part)
  | [] => return []
  | p :: ps => do
    let q ← part p
    return q :: (← partAll ps)

end

/-- The readable source of a whole query. -/
def root (p : Predicate) : Step Source := do
  let source ← match ← pl.part w p with
    | .indexed q => pure (pl.query w q)
    | .residual q => pl.underScope w q
    | .source s => pure s
  Step.event .queryPlanned fun _ => [("query", p.display), ("plan", source.display)]
  return source

/-- The plan of a query for one window of its results. -/
def plan (p : Predicate) (log : Log) : Except Fault Source × Log :=
  let (result, s) := (pl.root w p).run ⟨0, log⟩
  (result, s.log)

end Planner

end ReviewSearch
