/-
ReviewSearch.Refs.Staleness — whether a record still agrees with the
refs.

A record stores the states of refs and the globs that it was made from.
It is STALE unless every recorded state is the live one and every live
ref that a glob covers is among the recorded states of its project. What
cannot be confirmed is stale: a record with a malformed entry, or one
whose refs cannot be read.

A check is a list of probes, one for each state and then one for each
glob, project by project. They are made in turn until one finds a
difference or fails.
-/
import ReviewSearch.Change.Document
import ReviewSearch.Log.Journal
import ReviewSearch.Refs.Glob
import ReviewSearch.Refs.Live

namespace ReviewSearch.Staleness

/-- What a probe asks the live refs. -/
inductive Lookup where
  | exact (project name : String)
  | under (project stem : String)
  deriving DecidableEq, Repr

/-- A question to the live refs, and whether its answer differs from what
is recorded. -/
structure Probe where
  lookup : Lookup
  differs : Except String Bool

/-- What probes find out: whether any differs, and what was asked. -/
structure Finding where
  differs : Except String Bool
  lookups : List Lookup

/-- Makes probes in turn. -/
def Probe.make : List Probe → Finding
  | [] => ⟨.ok false, []⟩
  | p :: ps =>
    match p.differs with
    | .ok false =>
      let found := make ps
      ⟨found.differs, p.lookup :: found.lookups⟩
    | d => ⟨d, [p.lookup]⟩

/-- What a record stores about refs. -/
structure Recorded where
  states : ByProject RefState
  globs : ByProject Glob

variable (live : LiveRefs)

/-- The live object of a ref must be the recorded one; an absent ref has
the object of zeros. -/
def stateProbe (project : String) (s : RefState) : Probe where
  lookup := .exact project s.name
  differs := (live.object project s.name).map fun id? => decide (RefState.ofRef s.name id? ≠ s)

/-- Live refs that a glob covers must be among the recorded states. -/
def globProbe (recorded : List RefState) (project : String) (g : Glob) : Probe :=
  let stem := String.ofList g.stem
  { lookup := .under project stem
    differs := (live.under project stem).map fun refs =>
      refs.any fun (name, id) => g.covers name && !recorded.contains ⟨name, id⟩ }

/-- All probes of a check. -/
def probes (r : Recorded) : List Probe :=
  r.states.flatMap (fun (project, ss) => ss.map (stateProbe live project))
    ++ r.globs.flatMap (fun (project, gs) =>
      gs.map (globProbe live (r.states.of project) project))

/-! ## Verdicts -/

/-- A checked record, what was asked for it, and the journal with the
check in it. -/
structure Checked where
  stale : Bool
  lookups : List Lookup
  journal : Journal

/-- A check that could not be made. -/
def failedEvent (id : Nat) (reason : String) (j : Journal) : Journal :=
  (j.count .stalenessCheckFailures 1).event .stalenessCheckFailed
    [("id", toString id), ("reason", reason)]

/-- Counts and logs a stale record. -/
def staleEvent (id : Nat) (j : Journal) : Journal :=
  (j.count .staleDocuments 1).event .documentStale [("id", toString id)]

/-- Checks what is recorded under a number. -/
def check (id : Nat) (r : Recorded) (j : Journal) : Checked :=
  let found := Probe.make (probes live r)
  let j := j.count .stalenessChecks 1
  match found.differs with
  | .ok false => ⟨false, found.lookups, j⟩
  | .ok true => ⟨true, found.lookups, staleEvent id j⟩
  | .error reason => ⟨true, found.lookups, staleEvent id (failedEvent id reason j)⟩

/-! ## Records -/

/-- The entries in a field: those of an array, or a single text. An item
that is no text is an empty entry, which no reading accepts; any other
value has no entries. -/
def entries (d : Document) (field : String) : List (List UInt8) :=
  match d.field? field with
  | some (.array items) => items.map fun v => Text.Utf8.encode (v.string?.getD "")
  | some (.string s) => [Text.Utf8.encode s]
  | _ => []

/-- What a record stores about refs. -/
def recorded (d : Document) : Except RefFault Recorded := do
  let states ← RefState.ofEntries (entries d "ref_state")
  let globs ← Glob.ofEntries (entries d "ref_state_pattern")
  return ⟨states, globs⟩

/-- Checks a record. -/
def checkDocument (d : Document) (j : Journal) : Checked :=
  match recorded d with
  | .ok r => check live d.id r j
  | .error f =>
    let j := (j.count .stalenessChecks 1).count .staleDocuments 1
    ⟨true, [], failedEvent d.id f.message j⟩

end ReviewSearch.Staleness
