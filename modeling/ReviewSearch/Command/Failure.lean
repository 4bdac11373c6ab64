/-
ReviewSearch.Command.Failure — why a command fails.

A fault of a query keeps its code; one of the limits or the schema is a
fault of the configuration.
-/
import ReviewSearch.Refs.Fault

namespace ReviewSearch.Command

inductive Failure where
  | configuration (reason : String)
  /-- Input or output failed. -/
  | transfer (reason : String)
  /-- A malformed line of requests. -/
  | request (reason : String)
  | query (code : Code) (reason : String)
  deriving DecidableEq, Repr

namespace Failure

def ofFault (f : Fault) : Failure :=
  if f.code = .configInvalid then .configuration f.message else .query f.code f.message

def ofRefFault (f : RefFault) : Failure :=
  .configuration f.message

/-- The code of a failure, as programs see it. -/
def code : Failure → String
  | .configuration _ => "AERO_CLI_CONFIG_ERROR"
  | .transfer _ => "AERO_CLI_IO_ERROR"
  | .request _ => "AERO_CLI_BAD_REQUEST"
  | .query c _ => c.text

def message : Failure → String
  | .configuration reason | .transfer reason | .request reason | .query _ reason => reason

def display (f : Failure) : String :=
  f.code ++ ": " ++ f.message

end Failure

end ReviewSearch.Command
