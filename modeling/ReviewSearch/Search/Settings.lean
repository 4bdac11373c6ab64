/-
ReviewSearch.Search.Settings — what a caller asks for beside the query,
and how many results a page may have.

The page limit is the least of what the caller is permitted, what the
index gives at once, what the caller asks for or the default, and every
limit in the query. A caller without limits is bound by none of these. A
limit that is the most the index gives at once is lowered by one, so that
one search can also tell whether more results follow.
-/
import ReviewSearch.Index.Limits
import ReviewSearch.Index.Window
import ReviewSearch.Predicate.Basic

namespace ReviewSearch

structure Settings where
  /-- The most results that the caller may have on a page. -/
  permitted : Nat := Count.max
  /-- Results that the caller asks for; 0 leaves it to the limits. -/
  requested : Nat := 0
  noLimit : Bool := false
  /-- Results before the page. -/
  start : Int := 0
  /-- Fields to keep of each record; none means all. -/
  fields : List String := []
  deriving DecidableEq, Repr

/-- A change of one setting. -/
inductive Settings.Change where
  | permitted (limit : Nat)
  | requested (limit : Nat)
  | noLimit (without : Bool)
  | start (position : Int)
  | fields (names : List String)
  deriving DecidableEq, Repr

/-- Where a page lies in the whole result. -/
structure Extent where
  start : Nat
  limit : Nat
  deriving DecidableEq, Repr

namespace Settings

/-- The settings behind a change; the others stay as they are. -/
def change (st : Settings) : Change → Settings
  | .permitted n => { st with permitted := n }
  | .requested n => { st with requested := n }
  | .noLimit b => { st with noLimit := b }
  | .start k => { st with start := k }
  | .fields names => { st with fields := names }

/-- The least of all limits on a page. -/
def effectiveLimit (st : Settings) (l : Limits) (p : Predicate) : Nat :=
  if st.noLimit then Count.max
  else
    let requested := if 0 < st.requested then st.requested else l.defaultLimit
    let cap := min (min st.permitted l.maxLimit) requested
    match p.minLimit? with
    | some n => min cap n
    | none => cap

/-- The effective limit, lowered by one where it leaves no room for the
one result that tells of more. -/
def pageLimit (st : Settings) (l : Limits) (p : Predicate) : Nat :=
  let n := st.effectiveLimit l p
  if n = l.maxLimit ∧ 1 < n then n - 1 else n

/-- The page asked for, if there can be one. Pages are counted from 1. -/
def extent (st : Settings) (l : Limits) (p : Predicate) : Except Fault Extent :=
  if st.start < 0 then .error (.refused "'start' parameter cannot be less than zero")
  else
    let start := st.start.toNat
    let limit := st.pageLimit l p
    if 0 < limit ∧ l.maxPages < start / limit + 1 then
      .error (.refused ("Cannot go beyond page " ++ toString l.maxPages ++ " of results"))
    else .ok ⟨start, limit⟩

/-- The window of a page: one result more than the page has tells whether
there are more. -/
def window (st : Settings) (e : Extent) : Window :=
  ⟨e.start, Count.add e.limit 1, st.fields⟩

end Settings

end ReviewSearch
