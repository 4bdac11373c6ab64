/-
ReviewSearch.Log.Event — what is worth a log line, and how much.

Each event has a severity of its own, so no caller can disagree about it.
-/
namespace ReviewSearch

/-- How loud a log line is, from the quietest. -/
inductive Severity where
  | trace
  | info
  | warn
  | error
  | fatal
  deriving DecidableEq, Repr

namespace Severity

def rank : Severity → Nat
  | trace => 0
  | info => 1
  | warn => 2
  | error => 3
  | fatal => 4

def text : Severity → String
  | trace => "TRACE"
  | info => "INFO"
  | warn => "WARN"
  | error => "ERROR"
  | fatal => "FATAL"

/-- Whether a line of severity `s` passes a threshold. -/
def passes (s threshold : Severity) : Bool :=
  decide (threshold.rank ≤ s.rank)

end Severity

inductive Event where
  | configLoaded
  | schemaLoaded
  | queryReceived
  | queryPlanned
  /-- An operator is outside the schema. -/
  | schemaFallback
  /-- A branch is scoped to be readable. -/
  | defaultScopeApplied
  | queryExecuted
  | queryRejected
  | documentStale
  | stalenessCheckFailed
  deriving DecidableEq, Repr

namespace Event

def text : Event → String
  | configLoaded => "CONFIG_LOADED"
  | schemaLoaded => "SCHEMA_LOADED"
  | queryReceived => "QUERY_RECEIVED"
  | queryPlanned => "QUERY_REWRITTEN"
  | schemaFallback => "SCHEMA_FALLBACK"
  | defaultScopeApplied => "DEFAULT_SCOPE_APPLIED"
  | queryExecuted => "QUERY_EXECUTED"
  | queryRejected => "QUERY_REJECTED"
  | documentStale => "DOCUMENT_STALE"
  | stalenessCheckFailed => "STALENESS_CHECK_FAILED"

def severity : Event → Severity
  | queryPlanned | schemaFallback | defaultScopeApplied => .trace
  | configLoaded | schemaLoaded | queryReceived | queryExecuted | documentStale => .info
  | queryRejected | stalenessCheckFailed => .warn

end Event

end ReviewSearch
