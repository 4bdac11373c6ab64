/-
ReviewSearch.Json.Record — records and lists read from what is written.

A record has named fields. It is written as an object, whose other
members may hold anything, or as an array of its fields in their order,
whose end may be left off. A field that is written twice refuses the
record. Each reader says by `none` that a value is not of its kind.
-/
import ReviewSearch.Json.Value

namespace ReviewSearch.Json

/-! ## Values as written -/

namespace Raw

def text? : Raw → Option String
  | .string us => stringOf? us
  | _ => none

/-- An integer from 0 to `top`, written as an integer. -/
def natUpTo? (top : Nat) : Raw → Option Nat
  | .number l => (l.value?.map Json.number).bind (Json.natUpTo? top)
  | _ => none

def items? : Raw → Option (List Raw)
  | .array items => some items
  | _ => none

/-- The members of an object, in the order in which they are written. -/
def members? : Raw → Option (List (String × Raw))
  | .object ms => ms.mapM fun (us, v) => (stringOf? us).map fun k => (k, v)
  | _ => none

/-- The texts of an array that holds nothing else. -/
def texts? (v : Raw) : Option (List String) := do
  (← v.items?).mapM text?

end Raw

/-! ## Records -/

/-- The fields of a record that are there, by name. -/
abbrev Fields (ν : Type) : Type := String → Option ν

namespace Fields

variable {α ν : Type}

/-- A field that must be there. -/
def required (fields : Fields ν) (name : String) (read : ν → Option α) : Option α :=
  (fields name).bind read

/-- A field that may be left out. -/
def optional (fields : Fields ν) (name : String) (read : ν → Option α) (default : α) :
    Option α :=
  match fields name with
  | none => some default
  | some v => read v

/-- Whether a name stands on at most one member. -/
def single (members : List (String × ν)) (name : String) : Bool :=
  decide ((members.filter fun m => m.1 == name).length ≤ 1)

/-- The fields among the members of an object. -/
def ofMembers (names : List String) (members : List (String × ν)) : Option (Fields ν) :=
  if names.all (single members) then
    some fun name => (members.find? fun m => m.1 == name).map Prod.snd
  else none

/-- The fields in their order. -/
def ofItems (names : List String) (items : List ν) : Option (Fields ν) :=
  if items.length ≤ names.length then some fun name => items[names.idxOf name]? else none

end Fields

/-- The fields of a record as it is written. -/
def Raw.record? (names : List String) : Raw → Option (Fields Raw)
  | .array items => Fields.ofItems names items
  | v => v.members?.bind (Fields.ofMembers names)

/-- The fields of a record that is a value. -/
def record? (names : List String) : Json → Option (Fields Json)
  | .array items => Fields.ofItems names items
  | .object members => Fields.ofMembers names members
  | _ => none

end ReviewSearch.Json
