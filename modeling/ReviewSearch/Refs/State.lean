/-
ReviewSearch.Refs.State — recorded states of refs.

A state says which object a ref pointed at when a record was stored. It
is stored as `project:ref:id` in UTF-8. Entries are read all or none, and
the states of a project keep the order of their entries.
-/
import ReviewSearch.Order.Table
import ReviewSearch.Refs.Fault
import ReviewSearch.Refs.ObjectId
import ReviewSearch.Text.Search
import ReviewSearch.Text.Utf8

namespace ReviewSearch

/-- What is recorded for each project, in order. -/
abbrev ByProject (α : Type) : Type := Table String (List α)

namespace ByProject

/-- Groups what is recorded by project and keeps its order. -/
def ofList {α : Type} (es : List (String × α)) : ByProject α :=
  es.foldl (fun t e => Table.update e.1 [] (· ++ [e.2]) t) []

/-- What is recorded for a project. -/
def of {α : Type} (project : String) (t : ByProject α) : List α :=
  (Table.get? project t).getD []

end ByProject

structure RefState where
  name : String
  id : ObjectId
  deriving DecidableEq

namespace RefState

/-- The state of a ref, which may be absent. -/
def ofRef (name : String) (id? : Option ObjectId) : RefState :=
  ⟨name, id?.getD .zero⟩

/-- A state of a project as text. -/
def text (s : RefState) (project : String) : String :=
  project ++ ":" ++ s.name ++ ":" ++ s.id.hex

/-- A state of a project as it is stored. -/
def entry (s : RefState) (project : String) : List UInt8 :=
  Text.Utf8.encode (s.text project)

/-- Reads the text of a state: three parts, the first two not empty. -/
def ofText? (text : String) : Option (String × RefState) :=
  match Text.splitAt ':' text.toList with
  | [project, name, hex] =>
    if project.isEmpty || name.isEmpty then none
    else (ObjectId.ofHex? hex).map fun id => (String.ofList project, ⟨String.ofList name, id⟩)
  | _ => none

/-- Reads a stored entry. -/
def ofEntry (entry : List UInt8) : Except RefFault (String × RefState) :=
  match (Text.Utf8.decode? entry).bind ofText? with
  | some s => .ok s
  | none => .error (.state (Text.Utf8.decodeLossy entry))

/-- Reads stored entries, up to the first bad one. -/
def ofEntries (entries : List (List UInt8)) : Except RefFault (ByProject RefState) :=
  (entries.mapM ofEntry).map ByProject.ofList

end RefState

end ReviewSearch
