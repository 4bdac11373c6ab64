/-
ReviewSearch.Plan.Reading — the results of a plan, as a stream.

* An INDEX QUERY is read in windows: searches of the size that the index
  allows, one behind the other, until enough records are delivered or a
  window comes back short. Filters may stand between a window and its
  reader; what they drop is made up for by further windows.
* An AND is read from one of its readable children, the DRIVER: the one
  with the least estimate, the first of several. The other children
  filter its results, in ascending order of cost.
* An OR reads its children one after the other and drops the records that
  it has delivered before.

The cardinalities that choose a driver are asked for on the first pull.
Requested fields are cut out behind every filter, so filters see whole
records.
-/
import ReviewSearch.Plan.Source
import ReviewSearch.Stream.Basic

namespace ReviewSearch.Source

/-- A feed of records. -/
abbrev Records : Type := Feed Consult Document

/-! ## Index queries -/

/-- The records of one window behind filters. `inWindow` counts the
records of the window so far and `delivered` those that the filters let
through; `further` goes on with the next window. -/
def windowFeed (q : IndexQuery) (filters : List Source) (fields : List String)
    (further : Nat → Nat → Records) : List (Except Fault Document) → Nat → Nat → Records
  | [], inWindow, delivered =>
    .release (if inWindow < q.backend.limit then .done else further inWindow delivered)
  | .error e :: items, inWindow, delivered =>
    .reply (some (.error e)) (windowFeed q filters fields further items inWindow delivered)
  | .ok d :: items, inWindow, delivered =>
    let verdict := Verdict.every (filters.map (judge d))
    .notes verdict.consults
      (if verdict.answer then
        .reply (some (.ok (d.project fields)))
          (if q.wanted ≤ delivered + 1 then .release .done
          else windowFeed q filters fields further items (inWindow + 1) (delivered + 1))
      else windowFeed q filters fields further items (inWindow + 1) delivered)

/-- Windows from `offset` on. A window that is not short moves the offset
on, which is a 64-bit count, so their number is bounded by `turns`. -/
def windowsFrom (q : IndexQuery) (filters : List Source) (fields : List String) :
    Nat → Nat → Nat → Records
  | 0, _, _ => .done
  | turns + 1, offset, delivered =>
    if q.backend.limit = 0 ∨ q.wanted ≤ delivered then .done
    else
      .search q.predicate { q.backend with start := offset } fun answer =>
        match answer with
        | .error e => .failed e
        | .ok items =>
          windowFeed q filters fields
            (fun inWindow delivered =>
              windowsFrom q filters fields turns (offset + inWindow) delivered)
            items 0 delivered

/-- All windows of an index query. -/
def windows (q : IndexQuery) (filters : List Source) (fields : List String) : Records :=
  windowsFrom q filters fields (Count.max + 1) q.backend.start 0

/-! ## Drivers -/

/-- The position of the least estimate among the readable sources of a
list, the first of several. -/
def driver? (size : Predicate → Nat) (ss : List Source) : Option Nat :=
  let known := ss.zipIdx.filterMap fun (s, i) => (s.estimate? size).map fun n => (n, i)
  (Order.sortByKey Prod.fst known).head?.map Prod.snd

/-- The children other than the driver, cheapest first. -/
def others (ss : List Source) (driver : Nat) : List Source :=
  ((Order.sortByKey (fun e => e.1.cost) ss.zipIdx).filter fun e => e.2 != driver).map Prod.fst

mutual

/-- The fields that the index queries of a source are asked for: those of
the first query that is asked for any. -/
def requestedFields : Source → List String
  | .indexed q => q.window.fields
  | .conj ss | .disj ss => requestedFieldsOf ss
  | .filter _ | .matcher _ => []

def requestedFieldsOf : List Source → List String
  | [] => []
  | s :: ss =>
    let fields := requestedFields s
    if fields.isEmpty then requestedFieldsOf ss else fields

end

/-- Passes the records of a driver that is no index query through the
other children. -/
def filtered (others : List Source) (fields : List String) (feed : Records) : Records :=
  feed.sift fun d =>
    let verdict := Verdict.every (others.map (judge d))
    (verdict.consults, if verdict.answer then some (d.project fields) else none)

/-- A source that cannot list its results. -/
def notReadable (s : Source) : Fault :=
  .contract ("not a data source: " ++ s.display)

/-- An AND without a readable child. -/
def noDriver (ss : List Source) : Fault :=
  .contract ("no data source among AND children: "
    ++ Text.joinWith ", " (ss.map display))

/-- The feed of an AND, given the feeds of its children in full. -/
def conjFeed (ss : List Source) (feeds : List Records) (raw : Bool) : Records :=
  .estimate (asksOf ss) fun size =>
    match driver? size ss with
    | none => .failed (noDriver ss)
    | some i =>
      match ss[i]?, feeds[i]? with
      | some s, some feed =>
        let fields := if raw then s.requestedFields else []
        match s with
        | .indexed q => windows q (others ss i) fields
        | _ => filtered (others ss i) fields feed
      | _, _ => .failed (noDriver ss)

mutual

/-- The records of a source: whole, or cut down to the requested
fields. -/
def feed (raw : Bool) : Source → Records
  | .indexed q => windows q [] (if raw then q.window.fields else [])
  | .conj ss =>
    if anyReadable ss then conjFeed ss (feeds false ss) raw
    else .failed (notReadable (.conj ss))
  | .disj ss => (Feed.concat (feeds raw ss)).distinct Document.id []
  | .filter p => .failed (notReadable (.filter p))
  | .matcher m => .failed (notReadable (.matcher m))

def feeds (raw : Bool) : List Source → List Records
  | [] => []
  | s :: ss => feed raw s :: feeds raw ss

end

/-! ## Streams -/

/-- The stream of a source's records, whole or cut down to the requested
fields. -/
def read (raw : Bool) (s : Source) : Except Fault (Stream Consult Document) :=
  if s.readable then .ok (.deferred (s.feed raw)) else .error (notReadable s)

/-- The stream of an AND of sources, which may turn out not to be
readable. -/
def readAll (raw : Bool) (ss : List Source) : Except Fault (Stream Consult Document) :=
  if anyReadable ss then .ok (.deferred (conjFeed ss (feeds false ss) raw))
  else .error (noDriver ss)

end ReviewSearch.Source
