/-
ReviewSearch.Search.Engine — running queries.

A query is read, planned for the window of its page, and its plan is
read up to one result behind the page. Every query started is logged and
counted once as received and once as executed or rejected, and what it
delivers is counted.

A `Session` is what successive queries have left behind: the calls to the
index, and the journal. Nothing that a query answers depends on it, but
for an index that fails by the number of a search.
-/
import ReviewSearch.Log.Journal
import ReviewSearch.Plan.Explain
import ReviewSearch.Plan.Reading
import ReviewSearch.Plan.Planner
import ReviewSearch.Query.Parser
import ReviewSearch.Search.Page
import ReviewSearch.Search.Settings

namespace ReviewSearch

structure Engine where
  index : Index
  dialect : Dialect
  limits : Limits
  scope? : Option Predicate

/-- What a run has left behind. -/
structure Session where
  trace : Trace Consult := {}
  journal : Journal

namespace Engine

/-- What the engine's plans go by. -/
def planner (e : Engine) : Planner :=
  ⟨e.index.schema, e.limits, e.scope?⟩

/-- The plan of a query, which is not read. -/
def plan (e : Engine) (st : Settings) (p : Predicate) (log : Log) : Except Fault Source × Log :=
  match st.extent e.limits p with
  | .error f => (.error f, log)
  | .ok x => e.planner.plan (st.window x) p log

/-- Reads up to `want` results of a plan, as they are or cut down to the
requested fields. -/
def readPlan (e : Engine) (raw : Bool) (want : Nat) (plan : Source) (t : Trace Consult) :
    Except Fault (List Document) × Trace Consult :=
  match plan.read raw with
  | .error f => (.error f, t)
  | .ok stream => stream.read e.index (some want) t

/-- The results from the start of a page on, up to one behind it. -/
def results (e : Engine) (st : Settings) (x : Extent) (p : Predicate) (s : Session) :
    Except Fault (List Document) × Session :=
  let w := st.window x
  let (plan, log) := e.planner.plan w p s.journal.log
  let s := { s with journal := { s.journal with log := log } }
  match plan with
  | .error f => (.error f, s)
  | .ok plan =>
    let (found, t) := e.readPlan (!st.fields.isEmpty) (x.start + w.limit) plan s.trace
    (found.map (·.drop x.start), { s with trace := t })

/-- Runs a query. -/
def execute (e : Engine) (st : Settings) (text : String) (p : Predicate) (s : Session) :
    Except Fault Page × Session :=
  match st.extent e.limits p with
  | .error f => (.error f, s)
  | .ok x =>
    if x.limit = 0 then (.ok (.empty text p), s)
    else
      let (found, s) := e.results st x p s
      (found.map (.ofResults text p x.limit), s)

/-- Enters the outcome of a query in the journal. -/
def enter (text : String) (outcome : Except Fault Page) (j : Journal) : Journal :=
  match outcome with
  | .ok page =>
    ((j.count .queriesExecuted 1).count .documentsReturned page.documents.length).event
      .queryExecuted
      [("query", text), ("returned", toString page.documents.length),
        ("more", if page.more then "true" else "false")]
  | .error f =>
    (j.count .queriesRejected 1).event .queryRejected
      [("query", text), ("code", f.code.text), ("reason", f.message)]

/-- Runs a query between the two entries that each query has in the
journal. -/
def recorded (text : String) (run : Session → Except Fault Page × Session) (s : Session) :
    Except Fault Page × Session :=
  let (outcome, s) := run { s with journal := s.journal.event .queryReceived [("query", text)] }
  (outcome, { s with journal := enter text outcome s.journal })

/-- Reads and runs a query. -/
def query (e : Engine) (st : Settings) (text : String) : Session → Except Fault Page × Session :=
  recorded text fun s =>
    match e.dialect.parse text with
    | .error f => (.error f, s)
    | .ok p => e.execute st text p s

/-- Runs a query that is a predicate already; its text is the printed
one. -/
def queryPredicate (e : Engine) (st : Settings) (p : Predicate) :
    Session → Except Fault Page × Session :=
  recorded p.display (e.execute st p.display p)

/-- Runs queries in turn and stops at the first that fails. -/
def queryMany (e : Engine) (st : Settings) :
    List String → Session → Except Fault (List Page) × Session
  | [], s => (.ok [], s)
  | text :: texts, s =>
    match e.query st text s with
    | (.error f, s) => (.error f, s)
    | (.ok page, s) =>
      let (pages, s) := queryMany e st texts s
      (pages.map (page :: ·), s)

end Engine

end ReviewSearch
