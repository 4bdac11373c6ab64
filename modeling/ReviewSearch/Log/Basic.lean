/-
ReviewSearch.Log.Basic — log lines and the threshold.

A log keeps the entries that pass its threshold and drops the others; it
is written to and never read by the engine. A line is one JSON object:
the event, the severity, then the fields in the order of their keys, with
equal keys as given.
-/
import ReviewSearch.Json.Writer
import ReviewSearch.Log.Event
import ReviewSearch.Order.Stable

namespace ReviewSearch

/-- One log line before it is written. -/
structure Entry where
  severity : Severity
  event : String
  fields : List (String × String)
  deriving DecidableEq, Repr

namespace Entry

/-- The fields in the order of their keys. -/
def sortedFields (e : Entry) : List (String × String) :=
  Order.sortBy (fun a b => decide (a.1 < b.1)) e.fields

/-- The members of the line, in their order. -/
def members (e : Entry) : List (String × String) :=
  ("event", e.event) :: ("severity", e.severity.text) :: e.sortedFields

/-- The characters of the line, without its end. -/
def chars (e : Entry) : List Char :=
  '\x7b' :: Json.commaJoin
    (e.members.map fun m => Json.quote m.1 ++ ':' :: Json.quote m.2) ++ ['\x7d']

/-- The line, without its end. -/
def line (e : Entry) : String :=
  String.ofList e.chars

/-- The line as it is written, with its end. -/
def written (e : Entry) : String :=
  e.line ++ "\n"

/-- Errors and worse go to the error output. -/
def isError (e : Entry) : Bool :=
  e.severity.passes .error

end Entry

/-- The entries that passed the threshold, latest first. -/
structure Log where
  threshold : Severity
  latest : List Entry := []

namespace Log

def enabled (log : Log) (s : Severity) : Bool :=
  s.passes log.threshold

/-- The entries in the order in which they were written. -/
def entries (log : Log) : List Entry :=
  log.latest.reverse

/-- Writes an entry if it passes the threshold. -/
def write (log : Log) (e : Entry) : Log :=
  if log.enabled e.severity then { log with latest := e :: log.latest } else log

/-- Writes an event with its own severity. -/
def event (log : Log) (e : Event) (fields : List (String × String)) : Log :=
  log.write ⟨e.severity, e.text, fields⟩

end Log

end ReviewSearch
