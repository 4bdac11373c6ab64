/-
ReviewSearch.Log.Counters — what the engine counts.

Six 64-bit counters. They only ever grow, and wrap at 2^64.
-/
import ReviewSearch.Json.Value

namespace ReviewSearch

inductive Counter where
  | queriesExecuted
  | queriesRejected
  | documentsReturned
  | stalenessChecks
  | staleDocuments
  /-- Checks that could not be made. -/
  | stalenessCheckFailures
  deriving DecidableEq, Repr

structure Counters where
  queriesExecuted : UInt64 := 0
  queriesRejected : UInt64 := 0
  documentsReturned : UInt64 := 0
  stalenessChecks : UInt64 := 0
  staleDocuments : UInt64 := 0
  stalenessCheckFailures : UInt64 := 0
  deriving DecidableEq, Repr

namespace Counters

/-- Adds `n` to one counter. -/
def add (c : Counter) (n : Nat) (cs : Counters) : Counters :=
  let n := UInt64.ofNat n
  match c with
  | .queriesExecuted => { cs with queriesExecuted := cs.queriesExecuted + n }
  | .queriesRejected => { cs with queriesRejected := cs.queriesRejected + n }
  | .documentsReturned => { cs with documentsReturned := cs.documentsReturned + n }
  | .stalenessChecks => { cs with stalenessChecks := cs.stalenessChecks + n }
  | .staleDocuments => { cs with staleDocuments := cs.staleDocuments + n }
  | .stalenessCheckFailures => { cs with stalenessCheckFailures := cs.stalenessCheckFailures + n }

/-- All counters as one object. -/
def toJson (cs : Counters) : Json :=
  .ofMembers
    [("queries_executed", .ofNat cs.queriesExecuted.toNat),
      ("queries_rejected", .ofNat cs.queriesRejected.toNat),
      ("documents_returned", .ofNat cs.documentsReturned.toNat),
      ("staleness_checks", .ofNat cs.stalenessChecks.toNat),
      ("stale_documents", .ofNat cs.staleDocuments.toNat),
      ("staleness_check_failures", .ofNat cs.stalenessCheckFailures.toNat)]

end Counters

end ReviewSearch
