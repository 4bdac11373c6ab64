/-
ReviewSearch.Query.Dialect — the operators of a query language.

A dialect is a table of operators by name. An operator turns the value
that was typed into a predicate, or refuses it. Names are compared
without regard to ASCII case, and adding an operator replaces the one of
its name.

`Dialect.changes` is the dialect of change records: `status`, `is`,
`project`, `branch`, `ref`, `file`, `owner`, `topic`, `hashtag`,
`message`, `after`, `since`, `before`, `until` and `limit`.
-/
import ReviewSearch.Order.Table
import ReviewSearch.Predicate.Basic
import ReviewSearch.Query.Timestamp

namespace ReviewSearch

/-- What an operator makes of its value. -/
abbrev Operator : Type := String → Except Fault Predicate

structure Dialect where
  operators : Table String Operator

namespace Dialect

/-- The dialect without operators. -/
def empty : Dialect := ⟨[]⟩

/-- Adds an operator, in the place of any other of its name. -/
def add (d : Dialect) (name : String) (op : Operator) : Dialect :=
  ⟨Table.put (Text.lowerAscii name) op d.operators⟩

def find? (d : Dialect) (name : String) : Option Operator :=
  Table.get? (Text.lowerAscii name) d.operators

def knows (d : Dialect) (name : String) : Bool :=
  (d.find? name).isSome

/-- The names of the operators, in order. -/
def names (d : Dialect) : List String :=
  Table.keys d.operators

/-- The predicate of `name:value`. -/
def resolve (d : Dialect) (name value : String) : Except Fault Predicate :=
  match d.find? name with
  | some op => op value
  | none => .error (.unsupportedOperator name value)

/-! ## The operators on change records -/

/-- The statuses that a status word stands for. -/
def statusWord? (word : String) : Option (List Status) :=
  if word = "open" ∨ word = "new" then some [.new]
  else if word = "closed" then some [.merged, .abandoned]
  else if word = "merged" then some [.merged]
  else if word = "abandoned" then some [.abandoned]
  else none

def status : Operator := fun value =>
  let word := Text.lowerAscii value
  match statusWord? word with
  | some allowed => .ok (.leaf ⟨"status", "status", word, .status allowed⟩)
  | none => .error (.refusedAt "Unrecognized value" ("status:" ++ word))

/-- `is:open` is `status:open`; there is no other use of `is`. -/
def isStatus : Operator := fun value =>
  if (statusWord? (Text.lowerAscii value)).isSome then status value
  else .error (.unsupportedOperator "is" value)

def exactField (field : String) : Operator := fun value =>
  .ok (.leaf (.exact field value))

def message : Operator := fun value =>
  .ok (.leaf ⟨"message", "message", value, .substring⟩)

/-- An operator on the time of the last change. -/
def timestamp (name : String) (operand : Int → Operand) : Operator := fun value =>
  match Query.Timestamp.seconds? value with
  | some t => .ok (.leaf ⟨name, "updated", value, operand t⟩)
  | none => .error (.refusedAt "Invalid timestamp" (name ++ ":" ++ value))

/-- A count as typed: digits, with at most one plus sign before them. -/
def count? (text : String) : Option Nat :=
  let digits := match text.toList with
    | '+' :: cs => cs
    | cs => cs
  if digits.isEmpty || !digits.all Char.isDigit then none
  else
    let n := digits.foldl (fun n c => n * 10 + (c.toNat - '0'.toNat)) 0
    if n ≤ Count.max then some n else none

def limit : Operator := fun value =>
  match count? value with
  | some (n + 1) => .ok (.leaf (.limit (n + 1)))
  | _ => .error (.refusedAt "Invalid limit" value)

/-- The dialect of change records. -/
def changes : Dialect :=
  empty
    |>.add "status" status
    |>.add "is" isStatus
    |>.add "project" (exactField "project")
    |>.add "branch" (exactField "branch")
    |>.add "ref" (exactField "ref")
    |>.add "file" (exactField "file")
    |>.add "owner" (exactField "owner")
    |>.add "topic" (exactField "topic")
    |>.add "hashtag" (exactField "hashtag")
    |>.add "message" message
    |>.add "after" (timestamp "after" .after)
    |>.add "since" (timestamp "since" .after)
    |>.add "before" (timestamp "before" .before)
    |>.add "until" (timestamp "until" .before)
    |>.add "limit" limit

end Dialect

end ReviewSearch
