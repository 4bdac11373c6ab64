/-
ReviewSearch.Index.Limits — bounds on every query against one index.
-/
import ReviewSearch.Count

namespace ReviewSearch

structure Limits where
  /-- The most leaves that a query may have. -/
  maxTerms : Nat := 1024
  /-- The most results that the index gives at once. -/
  maxLimit : Nat := 10000
  /-- Results on a page when nobody says how many. -/
  defaultLimit : Nat := 500
  /-- The last page that may be asked for. -/
  maxPages : Nat := Count.max
  deriving DecidableEq, Repr

namespace Limits

/-- What is wrong with limits, in words. -/
def defect? (l : Limits) : Option String :=
  if l.maxTerms = 0 then some "max_terms must be > 0"
  else if l.maxLimit = 0 then some "max_limit must be > 0"
  else if l.defaultLimit = 0 then some "default_limit must be > 0"
  else if l.maxLimit < l.defaultLimit then
    some ("default_limit (" ++ toString l.defaultLimit ++ ") must not exceed max_limit ("
      ++ toString l.maxLimit ++ ")")
  else if l.maxPages = 0 then some "max_pages must be > 0"
  else none

end Limits

end ReviewSearch
