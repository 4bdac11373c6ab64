/-
ReviewSearch.Change.Document — change records.

A record is what the index stores of one change and what a query
returns: its number, which is unique in an index, and its fields. A field
holds any JSON value; the fields stand in the order of their names.
-/
import ReviewSearch.Json.Value

namespace ReviewSearch

/-- The stored record of a change. -/
structure Document where
  id : Nat
  fields : Table String Json

namespace Document

/-- A record with the members of an object as its fields. Any other body
carries none. -/
def ofBody (id : Nat) (body : Json) : Document :=
  ⟨id, body.members?.getD []⟩

def field? (d : Document) (name : String) : Option Json :=
  Table.get? name d.fields

/-- Seconds since the epoch at the last change of the record; 0 without a
field `updated` that is a signed 64-bit integer. -/
def updated (d : Document) : Int :=
  ((d.field? "updated").bind Json.signed?).getD 0

/-- The record with the requested fields only. A request for nothing asks
for everything. -/
def project (d : Document) (requested : List String) : Document :=
  if requested.isEmpty then d
  else
    ⟨d.id, Table.ofList (requested.filterMap fun name => (d.field? name).map fun v => (name, v))⟩

/-- One object with the number under `id`; a field of that name hides
it. -/
def toJson (d : Document) : Json :=
  .object (Table.ofList (("id", Json.ofNat d.id) :: d.fields))

instance : BEq Document :=
  ⟨fun a b => a.id == b.id && Json.object a.fields == Json.object b.fields⟩

@[simp] theorem project_nil (d : Document) : d.project [] = d := rfl

@[simp] theorem project_id (d : Document) (requested : List String) :
    (d.project requested).id = d.id := by
  unfold project; split <;> rfl

/-- A record with the requested fields only still has its number, and what
it stored under their names; nothing is left under another name. It is the
whole record if nothing is requested. -/
structure CutTo (requested : List String) (d d' : Document) : Prop where
  id : d'.id = d.id
  field (name : String) : d'.field? name
    = if requested = [] ∨ name ∈ requested then d.field? name else none
  ordered : requested ≠ [] → d'.fields.Ordered
  whole : requested = [] → d' = d

theorem field?_project (d : Document) (requested : List String) (name : String) :
    (d.project requested).field? name
      = if requested = [] ∨ name ∈ requested then d.field? name else none := by
  unfold project
  split
  · next h => rw [if_pos (.inl (List.isEmpty_iff.mp h))]
  · next h =>
    have hne : requested ≠ [] := fun hnil => h (List.isEmpty_iff.mpr hnil)
    simp only [field?, hne, false_or]
    exact Table.get?_ofList_filterMap (fun name => Table.get? name d.fields) requested name

theorem cutTo_project (requested : List String) (d : Document) :
    d.CutTo requested (d.project requested) where
  id := d.project_id requested
  field := d.field?_project requested
  ordered hne := by
    rw [project, if_neg fun h => hne (List.isEmpty_iff.mp h)]
    exact Table.ordered_ofList _
  whole := by
    rintro rfl
    rfl

end Document

end ReviewSearch
