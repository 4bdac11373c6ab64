/-
ReviewSearch.Load.Documents — change records from a file.

A file of records is an array of objects. Each has its number under `id`,
once; of its other members the last one with a name counts.
-/
import ReviewSearch.Fault
import ReviewSearch.Index.Store
import ReviewSearch.Json.Record
import ReviewSearch.Load.Contents

namespace ReviewSearch

namespace Document

/-- The record that an object says. -/
def ofRaw? (v : Json.Raw) : Option Document := do
  let members ← v.members?
  let id ← (← Json.Fields.ofMembers ["id"] members).required "id" (Json.Raw.natUpTo? Count.max)
  let others := members.filter fun m => m.1 != "id"
  let fields ← others.mapM fun (name, v) => (Json.ofRaw? v).map fun x => (name, x)
  return ⟨id, Table.ofList fields⟩

/-- The records of an array, in their order, if it is not nested too
deeply. -/
def listOfRaw? (v : Json.Raw) : Option (List Document) := do
  let items ← v.items?
  if v.depth ≤ Json.maxDepth then items.mapM ofRaw? else none

/-- Loads records from a file. -/
def load (file : Contents) : Except String (List Document) :=
  file.read "documents" listOfRaw?

end Document

/-- Loads a store of a schema from a file of records. -/
def Store.load (schema : Schema) (file : Contents) : Except Fault Store :=
  match Document.load file with
  | .error reason => .error (.config reason)
  | .ok ds => .ok ((Store.empty schema).insertAll ds)

end ReviewSearch
