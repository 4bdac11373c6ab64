/-
ReviewSearch.Stream.Feed — what a stream still has to do, as a program.

A feed is a finite program that answers pulls. On the way to an answer it
may search the index, ask it for cardinalities, release a reader or leave
a note; how it goes on depends on what the index says. Nothing of it runs
before it is pulled, and a pull runs it up to the next answer and no
further.

An answer is an item, a fault, or the end, and a feed may have answers
left behind an end. That is for the stream to settle
(`ReviewSearch.Stream.Basic`): a feed is what is underneath it.
-/
import ReviewSearch.Stream.Trace

namespace ReviewSearch

/-- The answer to one pull: an item or a fault, or `none` at the end. -/
abbrev Reply (α : Type) : Type := Option (Except Fault α)

inductive Feed (ν α : Type) where
  /-- Nothing more, ever. -/
  | done
  /-- Answers a pull. -/
  | reply (r : Reply α) (rest : Feed ν α)
  /-- Leaves a note. -/
  | note (n : ν) (rest : Feed ν α)
  /-- Searches the index and opens a reader, unless the search fails. -/
  | search (p : Predicate) (w : Window) (next : Answer → Feed ν α)
  /-- Asks for the cardinalities of predicates, in turn. -/
  | estimate (ps : List Predicate) (next : (Predicate → Nat) → Feed ν α)
  /-- Releases the reader. -/
  | release (rest : Feed ν α)

/-- What a pull comes to. -/
structure Pull (ν α : Type) where
  reply : Reply α
  rest : Feed ν α
  /-- Readers that are open after the pull. -/
  readers : Nat
  trace : Trace ν

namespace Feed

variable {ν α β : Type}

/-- Runs a feed up to its next answer. -/
def pull (ix : Index) : Feed ν α → Nat → Trace ν → Pull ν α
  | done, readers, t => ⟨none, done, readers, t⟩
  | reply r rest, readers, t => ⟨r, rest, readers, t⟩
  | note n rest, readers, t => pull ix rest readers (t.record (.note n))
  | search p w next, readers, t =>
    let answer := ix.search (t.searches + 1) p w
    pull ix (next answer) (if answer.isOk then readers + 1 else readers) (t.recordSearch p w)
  | estimate ps next, readers, t =>
    pull ix (next ix.cardinality) readers (t.recordAll (ps.map .cardinality))
  | release rest, readers, t => pull ix rest (readers - 1) (t.record .release)

/-! ## Building feeds -/

/-- Items and faults, then nothing. -/
def ofList : List (Except Fault α) → Feed ν α
  | [] => done
  | x :: xs => reply (some x) (ofList xs)

/-- Answers to successive pulls, ends among them. -/
def ofReplies : List (Reply α) → Feed ν α
  | [] => done
  | r :: rs => reply r (ofReplies rs)

/-- One fault. -/
def failed (f : Fault) : Feed ν α :=
  reply (some (.error f)) done

/-- Leaves notes before going on. -/
def notes (ns : List ν) (rest : Feed ν α) : Feed ν α :=
  ns.foldr note rest

/-- Passes every item through `f`, which leaves notes and gives an item
to go on with or drops it. Faults and ends pass. -/
def sift (f : α → List ν × Option β) : Feed ν α → Feed ν β
  | done => done
  | reply (some (.ok a)) rest =>
    let (ns, b) := f a
    let rest := sift f rest
    notes ns (match b with
      | some b => reply (some (.ok b)) rest
      | none => rest)
  | reply (some (.error e)) rest => reply (some (.error e)) (sift f rest)
  | reply none rest => reply none (sift f rest)
  | note n rest => note n (sift f rest)
  | search p w next => search p w fun a => sift f (next a)
  | estimate ps next => estimate ps fun size => sift f (next size)
  | release rest => release (sift f rest)

/-- A feed up to its end, and then another. -/
def append : Feed ν α → Feed ν α → Feed ν α
  | done, second => second
  | reply none _, second => second
  | reply (some x) rest, second => reply (some x) (append rest second)
  | note n rest, second => note n (append rest second)
  | search p w next, second => search p w fun a => append (next a) second
  | estimate ps next, second => estimate ps fun size => append (next size) second
  | release rest, second => release (append rest second)

def concat (fs : List (Feed ν α)) : Feed ν α :=
  fs.foldr append done

/-- Drops items whose key has been seen. -/
def distinct (key : α → Nat) : List Nat → Feed ν α → Feed ν α
  | _, done => done
  | seen, reply (some (.ok a)) rest =>
    if seen.contains (key a) then distinct key seen rest
    else reply (some (.ok a)) (distinct key (key a :: seen) rest)
  | seen, reply (some (.error e)) rest => reply (some (.error e)) (distinct key seen rest)
  | seen, reply none rest => reply none (distinct key seen rest)
  | seen, note n rest => note n (distinct key seen rest)
  | seen, search p w next => search p w fun a => distinct key seen (next a)
  | seen, estimate ps next => estimate ps fun size => distinct key seen (next size)
  | seen, release rest => release (distinct key seen rest)

/-! ## Reading on -/

/-- What was read: items in their order, the fault that ended the
reading, if one did, and the readers left open. -/
structure Gathered (ν α : Type) where
  items : List α
  fault? : Option Fault
  readers : Nat
  trace : Trace ν

def Gathered.cons (a : α) (g : Gathered ν α) : Gathered ν α :=
  { g with items := a :: g.items }

/-- Pulls until `want` items are there, if there is such a bound, the
feed ends, or a fault comes up. -/
def gather (ix : Index) (want : Option Nat) : Feed ν α → Nat → Trace ν → Gathered ν α
  | done, readers, t => ⟨[], none, readers, t⟩
  | reply none _, readers, t => ⟨[], none, readers, t⟩
  | reply (some (.error e)) _, readers, t => ⟨[], some e, readers, t⟩
  | reply (some (.ok a)) rest, readers, t =>
    if want = some 1 then ⟨[a], none, readers, t⟩
    else (gather ix (want.map (· - 1)) rest readers t).cons a
  | note n rest, readers, t => gather ix want rest readers (t.record (.note n))
  | search p w next, readers, t =>
    let answer := ix.search (t.searches + 1) p w
    gather ix want (next answer) (if answer.isOk then readers + 1 else readers)
      (t.recordSearch p w)
  | estimate ps next, readers, t =>
    gather ix want (next ix.cardinality) readers (t.recordAll (ps.map .cardinality))
  | release rest, readers, t => gather ix want rest (readers - 1) (t.record .release)

end Feed

end ReviewSearch
