/-
ReviewSearch.Index.Store — an index in memory.

A store is a schema and a table of records by number. A search sorts the
records that satisfy the predicate by the time of their last change,
latest first, and among equal times by number, greatest first; the window
is a slice of that list. The answer is a function of the contents alone.

A predicate with a limit, or with a field outside the schema, is refused,
and its cardinality is 0.
-/
import ReviewSearch.Index.Basic
import ReviewSearch.Predicate.Evaluation

namespace ReviewSearch

structure Store where
  schema : Schema
  documents : Table Nat Document := []
  ordered : documents.Ordered := by exact .nil
  /-- Every record stands under its own number. -/
  keyed : ∀ e ∈ documents, e.1 = e.2.id := by simp

namespace Store

def empty (schema : Schema) : Store := { schema }

/-- Adds a record, or replaces the one of its number. -/
def insert (s : Store) (d : Document) : Store where
  schema := s.schema
  documents := Table.put d.id d s.documents
  ordered := s.ordered.put d.id d
  keyed e he := by
    rcases Table.mem_of_mem_put he with rfl | he
    · rfl
    · exact s.keyed e he

/-- A store without the record of a number. -/
def remove (s : Store) (id : Nat) : Store where
  schema := s.schema
  documents := Table.erase id s.documents
  ordered := s.ordered.erase id
  keyed e he := s.keyed e (List.mem_filter.mp he).1

def find? (s : Store) (id : Nat) : Option Document :=
  Table.get? id s.documents

def insertAll (s : Store) (ds : List Document) : Store :=
  ds.foldl insert s

def size (s : Store) : Nat :=
  s.documents.length

/-- The first leaf that the store cannot answer. -/
def unsupported? (s : Store) (p : Predicate) : Option Leaf :=
  p.leaves.find? fun l => !s.schema.answers l

/-- The order of results: latest change first, then greatest number. -/
def precedes (a b : Document) : Bool :=
  decide (b.updated < a.updated) || (a.updated == b.updated && decide (b.id < a.id))

/-- The records that satisfy a predicate, in the order of results. -/
def results (s : Store) (p : Predicate) : List Document :=
  Order.sortBy precedes ((Table.values s.documents).filter fun d => p.satisfiedBy d)

def search (s : Store) (p : Predicate) (w : Window) : Except Fault (List Document) :=
  match s.unsupported? p with
  | some l => .error (.index ("Unsupported index predicate: " ++ l.display))
  | none => .ok (((s.results p).drop w.start).take w.limit)

/-- A search that keeps the requested fields only. -/
def searchFields (s : Store) (p : Predicate) (w : Window) : Except Fault (List Document) := do
  return (← s.search p w).map (·.project w.fields)

def cardinality (s : Store) (p : Predicate) : Nat :=
  match s.unsupported? p with
  | some _ => 0
  | none => (s.results p).length

/-- The store as an index. It gives the same search the same answer,
whatever its number. -/
def toIndex (s : Store) : Index where
  schema := s.schema
  search _ p w := do return (← s.search p w).map .ok
  cardinality := s.cardinality

end Store

end ReviewSearch
