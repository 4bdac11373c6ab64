/-
ReviewSearch.Command.Run — what a command does.

A command reads the files it names and, if it serves requests, the
input. It prints log lines and answers in the order in which they arise,
each a JSON object on a line of its own; the first failure that is its
own ends it. A request that fails is answered with the failure, and the
next one is served. What a line leaves behind is the settings of its
request and the counters.
-/
import ReviewSearch.Command.Arguments
import ReviewSearch.Command.Request
import ReviewSearch.Load.Configuration
import ReviewSearch.Load.Documents
import ReviewSearch.Load.Refs
import ReviewSearch.Refs.Staleness
import ReviewSearch.Search.Engine

namespace ReviewSearch.Command

/-- What a command can read. -/
structure Surroundings where
  files : String → Contents
  input : List UInt8

/-- A line that a command prints. -/
inductive Line where
  | log (e : Entry)
  | answer (v : Json)

namespace Line

def text : Line → String
  | .log e => e.line
  | .answer v => v.render

/-- The line as it is written, with its end. -/
def written : Line → String
  | .log e => e.written
  | .answer v => v.render ++ "\n"

/-- Whether the line goes to the error output. -/
def isError : Line → Bool
  | .log e => e.isError
  | .answer _ => false

end Line

/-- What a command prints, and the failure that has ended it. -/
structure Outcome where
  lines : List Line
  failure? : Option Failure

namespace Outcome

/-- The lines of the output. -/
def output (o : Outcome) : List String :=
  (o.lines.filter fun l => !l.isError).map Line.text

/-- The lines of the error output, the failure at the end. -/
def errors (o : Outcome) : List String :=
  (o.lines.filter Line.isError).map Line.text ++ (o.failure?.map Failure.display).toList

/-- Lines in front of an outcome. -/
def after (lines : List Line) (o : Outcome) : Outcome :=
  { o with lines := lines ++ o.lines }

end Outcome

/-! ## Answers -/

/-- The answer of a success. -/
def success (data : Json) : Json :=
  .ofMembers [("status", .string "ok"), ("data", data)]

/-- The answer to a request that failed. -/
def refusal (f : Failure) : Json :=
  .ofMembers
    [("status", .string "error"), ("code", .string f.code), ("message", .string f.message)]

/-- The lines of a log. -/
def logged (log : Log) : List Line :=
  log.entries.map .log

/-- Ends with an answer behind the log. -/
def answered (log : Log) (data : Json) : Outcome :=
  ⟨logged log ++ [.answer (success data)], none⟩

/-- Ends with a failure behind the log. -/
def failed (log : Log) (f : Failure) : Outcome :=
  ⟨logged log, some f⟩

/-! ## Engines -/

variable (w : Surroundings)

/-- Loads limits, if a file of them is named. -/
def loadLimits (path? : Option String) (log : Log) : Except Fault Limits × Log :=
  match path? with
  | some path => Limits.load path (w.files path) log
  | none => (.ok {}, log)

/-- Loads a schema, if a file of one is named. -/
def loadSchema (path? : Option String) (log : Log) : Except Fault Schema × Log :=
  match path? with
  | some path => Schema.load (w.files path) log
  | none => (.ok .latest, log)

/-- Loads a store, if a file of records is named. -/
def loadStore (schema : Schema) (path? : Option String) : Except Fault Store :=
  match path? with
  | some path => Store.load schema (w.files path)
  | none => .ok (.empty schema)

/-- The engine over the index that files describe. Branches that the
index cannot answer are searched among open changes. -/
def loadEngine (files : IndexFiles) (log : Log) : Except Fault Engine × Log :=
  match loadLimits w files.config? log with
  | (.error f, log) => (.error f, log)
  | (.ok limits, log) =>
    match loadSchema w files.schema? log with
    | (.error f, log) => (.error f, log)
    | (.ok schema, log) =>
      (do
        let store ← loadStore w schema files.docs?
        return ⟨store.toIndex, .changes, limits, some (.leaf .statusOpen)⟩, log)

/-- Goes on with the engine, if it can be loaded. -/
def withEngine (threshold : Severity) (files : IndexFiles) (go : Engine → Log → Outcome) :
    Outcome :=
  match loadEngine w files ⟨threshold, []⟩ with
  | (.error f, log) => failed log (.ofFault f)
  | (.ok e, log) => go e log

/-! ## The commands -/

/-- Prints a query in its normal form. -/
def parse (query : String) : Outcome :=
  match Dialect.changes.parse query with
  | .error f => ⟨[], some (.ofFault f)⟩
  | .ok p =>
    let data := Json.ofMembers
      [("predicate", .string p.display), ("terms", .ofNat p.leaves.length)]
    ⟨[.answer (success data)], none⟩

/-- Shows the plan of a query, or why there is none. -/
def explain (e : Engine) (st : Settings) (query : String) (log : Log) : Outcome :=
  match e.dialect.parse query with
  | .error f => answered log (Explanation.rejection f)
  | .ok p =>
    match e.plan st p log with
    | (.error f, log) => answered log (Explanation.rejection f)
    | (.ok plan, log) =>
      answered log (.ofMembers
        [("accepted", .bool true), ("plan", (plan.explain e.index.cardinality).toJson)])

/-- Runs one query. -/
def query (e : Engine) (st : Settings) (query : String) (log : Log) : Outcome :=
  match e.query st query ⟨{}, ⟨log, {}⟩⟩ with
  | (.error f, s) => failed s.journal.log (.ofFault f)
  | (.ok page, s) => answered s.journal.log page.toJson

/-- What the lines served so far leave behind. -/
structure Service where
  settings : Settings := {}
  counters : Counters := {}
  deriving DecidableEq, Repr

/-- The answer to a request, by what its query came to. -/
def answerTo : Except Fault Page → Json
  | .ok page => success page.toJson
  | .error f => refusal (.ofFault f)

/-- The answer to a request, and the service behind it. -/
def serveRequest (e : Engine) (threshold : Severity) (r : Request) (s : Service) :
    List Line × Service :=
  let settings := r.changes.foldl Settings.change s.settings
  let (outcome, session) := e.query settings r.query ⟨{}, ⟨⟨threshold, []⟩, s.counters⟩⟩
  (logged session.journal.log ++ [.answer (answerTo outcome)],
    ⟨settings, session.journal.counters⟩)

/-- What a line that is not blank is answered with. -/
def serveText (e : Engine) (threshold : Severity) (text : List Char) (s : Service) :
    List Line × Service :=
  match Request.ofText text with
  | .error f => ([.answer (refusal f)], s)
  | .ok r => serveRequest e threshold r s

/-- The reason for which a line that is not UTF-8 ends the service. -/
def notUtf8 : Failure :=
  .transfer "stream did not contain valid UTF-8"

/-- Serves a line: what is printed, and the service behind it. A blank
line asks for nothing. -/
def serveLine (e : Engine) (threshold : Severity) (line : List UInt8) (s : Service) :
    Except Failure (List Line × Service) :=
  match Text.Utf8.decode? line with
  | none => .error notUtf8
  | some text =>
    if Text.allBlank text.toList then .ok ([], s)
    else .ok (serveText e threshold text.toList s)

/-- The answer at the end of the input. -/
def serviceEnd (s : Service) : Line :=
  .answer (success (.ofMembers [("metrics", s.counters.toJson)]))

/-- Serves lines in turn, and then prints the counters. -/
def serve (e : Engine) (threshold : Severity) : List (List UInt8) → Service → Outcome
  | [], s => ⟨[serviceEnd s], none⟩
  | line :: lines, s =>
    match serveLine e threshold line s with
    | .error f => ⟨[], some f⟩
    | .ok (printed, s) => (serve e threshold lines s).after printed

/-- Checks records in turn: the numbers of the stale ones, and the journal
of the checks. -/
def checkAll (live : LiveRefs) : List Document → Journal → List Nat × Journal
  | [], j => ([], j)
  | d :: ds, j =>
    let checked := Staleness.checkDocument live d j
    let (stale, j) := checkAll live ds checked.journal
    (if checked.stale then d.id :: stale else stale, j)

/-- Tells which records are stale. -/
def stale (threshold : Severity) (docs refs : String) : Outcome :=
  let loaded : Except String (List Document × RefSnapshot) := do
    let ds ← Document.load (w.files docs)
    return (ds, ← RefSnapshot.load (w.files refs))
  match loaded with
  | .error reason => ⟨[], some (.configuration reason)⟩
  | .ok (ds, snapshot) =>
    let (ids, j) := checkAll snapshot.toLive ds ⟨⟨threshold, []⟩, {}⟩
    answered j.log (.ofMembers
      [("checked", .ofNat ds.length), ("stale", .array (ids.map .ofNat)),
        ("metrics", j.counters.toJson)])

/-- Runs a command. Log lines below the threshold are left out. -/
def run (threshold : Severity) : Action → Outcome
  | .parse q => parse q
  | .explain files st q => withEngine w threshold files fun e log => explain e st q log
  | .query files st q => withEngine w threshold files fun e log => query e st q log
  | .start files => withEngine w threshold files fun e log =>
    (serve e threshold (inputLines w.input) {}).after (logged log)
  | .stale docs refs => stale w threshold docs refs

/-- What the program reports as its version. -/
def version : String := "aeroquery 0.1.0"

/-- The threshold that a count of `-v` asks for. -/
def thresholdOf : Nat → Severity
  | 0 => .warn
  | 1 => .info
  | _ => .trace

end ReviewSearch.Command
