/-
ReviewSearch.Search.Operation — what is asked of an engine, call by call.

A client changes the settings, runs queries, one or several, looks at
plans and has records checked, in any order. What one call leaves behind
is all that the next ones see of it: the settings, the calls to the index,
and the journal, which checks and queries share.

A performance tells which queries were started on the way and what each of
them came to. Of several queries that are run at once, these are the ones
up to the first that fails, whose pages its caller does not get to see.
-/
import ReviewSearch.Refs.Staleness
import ReviewSearch.Search.Engine

namespace ReviewSearch

inductive Operation where
  /-- Changes a setting. -/
  | set (c : Settings.Change)
  | query (text : String)
  | queryPredicate (p : Predicate)
  | queryMany (texts : List String)
  /-- Plans a query without reading it. -/
  | plan (p : Predicate)
  /-- Checks what is recorded under a number. -/
  | check (live : LiveRefs) (id : Nat) (r : Staleness.Recorded)
  /-- Checks a record. -/
  | checkDocument (live : LiveRefs) (d : Document)

namespace Operation

/-- Whether a record is checked. -/
def isCheck : Operation → Bool
  | .check .. | .checkDocument .. => true
  | _ => false

/-- What operations leave behind. -/
structure State where
  settings : Settings := {}
  session : Session

/-- What an operation answers. -/
inductive Result where
  | done
  | page (r : Except Fault Page)
  | pages (r : Except Fault (List Page))
  | plan (r : Except Fault Source)
  | verdict (stale : Bool) (lookups : List Staleness.Lookup)

/-- Whether a record was found to be stale. -/
def Result.isStale : Result → Bool
  | .verdict stale _ => stale
  | _ => false

/-- A query that was started, and what it came to. -/
structure Run where
  text : String
  outcome : Except Fault Page

/-- What operations came to. -/
structure Performance where
  results : List Result
  /-- The queries that were started. -/
  started : List Run
  state : State

end Operation

namespace Engine

open Operation (Result Run State Performance)

/-- The queries that are started when texts are run in turn. -/
def runsInTurn (e : Engine) (st : Settings) : List String → Session → List Run
  | [], _ => []
  | text :: texts, s =>
    let (outcome, s) := e.query st text s
    ⟨text, outcome⟩ ::
      match outcome with
      | .ok _ => runsInTurn e st texts s
      | .error _ => []

/-- The end of an operation that runs in a session. -/
def performed {α : Type} (st : Settings) (answer : α → Result) (runs : α → List Run)
    (ran : α × Session) : Performance :=
  ⟨[answer ran.1], runs ran.1, ⟨st, ran.2⟩⟩

/-- The end of a check. -/
def checked (s : State) (c : Staleness.Checked) : Performance :=
  ⟨[.verdict c.stale c.lookups], [], { s with session := { s.session with journal := c.journal } }⟩

/-- Performs an operation. -/
def perform (e : Engine) : Operation → State → Performance
  | .set c, s => ⟨[.done], [], { s with settings := s.settings.change c }⟩
  | .query text, s =>
    performed s.settings .page (fun o => [⟨text, o⟩]) (e.query s.settings text s.session)
  | .queryPredicate p, s =>
    performed s.settings .page (fun o => [⟨p.display, o⟩]) (e.queryPredicate s.settings p s.session)
  | .queryMany texts, s =>
    performed s.settings .pages (fun _ => e.runsInTurn s.settings texts s.session)
      (e.queryMany s.settings texts s.session)
  | .plan p, s =>
    let (plan, log) := e.plan s.settings p s.session.journal.log
    performed s.settings .plan (fun _ => [])
      (plan, { s.session with journal := { s.session.journal with log := log } })
  | .check live id r, s => checked s (Staleness.check live id r s.session.journal)
  | .checkDocument live d, s => checked s (Staleness.checkDocument live d s.session.journal)

/-- Performs operations in turn. -/
def performAll (e : Engine) : List Operation → State → Performance
  | [], s => ⟨[], [], s⟩
  | op :: ops, s =>
    let first := e.perform op s
    let rest := performAll e ops first.state
    ⟨first.results ++ rest.results, first.started ++ rest.started, rest.state⟩

end Engine

end ReviewSearch
