/-
ReviewSearch.Load.Refs — a snapshot of refs from a file.

A snapshot is an object of projects, each an object of refs with their
object ids. The last of several members with a name counts.
-/
import ReviewSearch.Json.Record
import ReviewSearch.Load.Contents
import ReviewSearch.Refs.Live

namespace ReviewSearch.RefSnapshot

/-- The texts of a snapshot. -/
def textsOfRaw? (v : Json.Raw) : Option (Table String (Table String String)) := do
  let projects ← (← v.members?).mapM fun (project, refs) => do
    let refs ← (← refs.members?).mapM fun (name, id) => id.text?.map fun id => (name, id)
    return (project, Table.ofList refs)
  return Table.ofList projects

/-- Reads the object ids of a snapshot. -/
def ofTexts (texts : Table String (Table String String)) : Except String RefSnapshot := do
  let projects ← texts.mapM fun (project, refs) => do
    let refs ← refs.mapM fun (name, id) =>
      match ObjectId.ofHex? id.toList with
      | some id => .ok (name, id)
      | none => .error ("Invalid sha1 for " ++ project ++ ":" ++ name ++ ": " ++ id)
    return (project, refs)
  return ⟨projects⟩

/-- Loads a snapshot from a file. -/
def load (file : Contents) : Except String RefSnapshot :=
  (file.read "refs" textsOfRaw?).bind ofTexts

end ReviewSearch.RefSnapshot
