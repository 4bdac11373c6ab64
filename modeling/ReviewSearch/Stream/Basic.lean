/-
ReviewSearch.Stream.Basic — result streams.

A stream is pending until its first pull, then open, and closed from the
first end on: a closed stream answers every pull with the end. What a
pending stream will read from is decided by its opener, which runs on the
first pull and at most once; if the opener fails, its fault is the only
answer. Closing a stream releases the reader that is open under it.
-/
import ReviewSearch.Stream.Feed

namespace ReviewSearch

/-- What a stream does on its first pull: it leaves notes, and gives the
feed to read from or fails. -/
structure Opener (ν α : Type) where
  notes : List ν
  outcome : Except Fault (Feed ν α)

inductive Stream.State (ν α : Type) where
  | pending (opener : Opener ν α)
  | opened (feed : Feed ν α)
  | closed

structure Stream (ν α : Type) where
  state : Stream.State ν α
  /-- Index readers that are open under the stream. -/
  readers : Nat := 0

namespace Stream

variable {ν α β : Type}

/-! ## Making streams -/

/-- A stream that opens a feed on the first pull. -/
def deferred (feed : Feed ν α) : Stream ν α :=
  { state := .pending ⟨[], .ok feed⟩ }

def ofOpener (opener : Opener ν α) : Stream ν α :=
  { state := .pending opener }

/-- A stream over items at hand, which is open from the start. -/
def ofList (items : List α) : Stream ν α :=
  { state := .opened (.ofList (items.map .ok)) }

/-- A stream with one fault. -/
def failed (f : Fault) : Stream ν α :=
  { state := .opened (.failed f) }

/-- All that a stream has to do. -/
def toFeed (s : Stream ν α) : Feed ν α :=
  match s.state with
  | .pending ⟨ns, .ok feed⟩ => Feed.notes ns feed
  | .pending ⟨ns, .error f⟩ => Feed.notes ns (Feed.failed f)
  | .opened feed => feed
  | .closed => .done

/-- Changes every item on its way and leaves notes of it. The stream made
is pending. -/
def mapItems (f : α → List ν × β) (s : Stream ν α) : Stream ν β :=
  { state := .pending ⟨[], .ok (s.toFeed.sift fun a => ((f a).1, some (f a).2))⟩
    readers := s.readers }

/-! ## Reading -/

def isPending (s : Stream ν α) : Bool :=
  match s.state with
  | .pending _ => true
  | _ => false

def isClosed (s : Stream ν α) : Bool :=
  match s.state with
  | .closed => true
  | _ => false

/-- Closes a stream and releases the readers under it. -/
def close (s : Stream ν α) (t : Trace ν) : Stream ν α × Trace ν :=
  ({ state := .closed }, t.recordAll (List.replicate s.readers .release))

/-- Pulls an open feed; the end closes the stream. -/
def nextOf (ix : Index) (feed : Feed ν α) (readers : Nat) (t : Trace ν) :
    Reply α × Stream ν α × Trace ν :=
  let p := feed.pull ix readers t
  let after : Stream ν α := { state := .opened p.rest, readers := p.readers }
  match p.reply with
  | some x => (some x, after, p.trace)
  | none => (none, after.close p.trace)

/-- Pulls a stream. -/
def next (ix : Index) (s : Stream ν α) (t : Trace ν) : Reply α × Stream ν α × Trace ν :=
  match s.state with
  | .closed => (none, s, t)
  | .opened feed => nextOf ix feed s.readers t
  | .pending opener =>
    let t := t.recordAll (opener.notes.map .note)
    match opener.outcome with
    | .ok feed => nextOf ix feed s.readers t
    | .error f => (some (.error f), s.close t)

/-- Reads up to `want` items, or all, stops at the first fault, and
closes the stream. -/
def read (ix : Index) (want : Option Nat) (s : Stream ν α) (t : Trace ν) :
    Except Fault (List α) × Trace ν :=
  if want = some 0 then (.ok [], (s.close t).2)
  else
    let g := s.toFeed.gather ix want s.readers t
    let t := g.trace.recordAll (List.replicate g.readers .release)
    match g.fault? with
    | none => (.ok g.items, t)
    | some f => (.error f, t)

/-- All items, or the first fault. -/
def toList (ix : Index) (s : Stream ν α) (t : Trace ν) : Except Fault (List α) × Trace ν :=
  s.read ix none t

end Stream

end ReviewSearch
