/-
ReviewSearch.Refs.Fault — entries on refs that cannot be read.
-/
import ReviewSearch.Fault

namespace ReviewSearch

/-- A stored entry that does not have its form, with its text. -/
inductive RefFault where
  | state (text : String)
  | glob (text : String)
  deriving DecidableEq, Repr

namespace RefFault

def message : RefFault → String
  | .state text => "invalid ref state: " ++ text
  | .glob text => "invalid ref state pattern: " ++ text

/-- To a query, a malformed entry is a malformed argument. -/
def toFault (f : RefFault) : Fault :=
  .argument f.message

end RefFault

end ReviewSearch
