/-
ReviewSearch.Predicate.Leaf — one operator and its value.

A leaf such as `after:2024-01-02` keeps the operator that was typed, the
field it is answered from, the value as typed, and its meaning, the
`Operand`. `Leaf.satisfiedBy` says whether a record satisfies a leaf:

* a missing field, or one that is null, satisfies nothing;
* a text is compared with the text of a scalar, or with that of any
  element of an array, at any depth;
* times are compared with a signed 64-bit integer and with nothing else;
* a limit is satisfied by every record.
-/
import ReviewSearch.Change.Document
import ReviewSearch.Change.Status
import ReviewSearch.Text.Blank
import ReviewSearch.Text.Lower
import ReviewSearch.Text.Search

namespace ReviewSearch

/-- The meaning of an operator's value. -/
inductive Operand where
  /-- The text, exactly. -/
  | exact
  /-- A text that contains the value, whatever the case. -/
  | substring
  /-- One of several statuses. -/
  | status (allowed : List Status)
  /-- At this second or later. -/
  | after (time : Int)
  /-- At this second or earlier. -/
  | before (time : Int)
  /-- A cap on the number of results. -/
  | limit (count : Nat)
  deriving DecidableEq, Repr

/-- An operator, the field it asks about, and its value. -/
structure Leaf where
  operator : String
  field : String
  value : String
  operand : Operand
  deriving DecidableEq, Repr

namespace Leaf

/-- A leaf that compares a field of the operator's name exactly. -/
def exact (field value : String) : Leaf :=
  ⟨field, field, value, .exact⟩

/-- The leaf `limit:count`. -/
def limit (count : Nat) : Leaf :=
  ⟨"limit", "limit", toString count, .limit count⟩

/-- `status:open`, the usual scope of what the index cannot answer. -/
def statusOpen : Leaf :=
  ⟨"status", "status", "open", .status [.new]⟩

/-- The cap of a limit leaf. -/
def limit? (l : Leaf) : Option Nat :=
  match l.operand with
  | .limit n => some n
  | _ => none

def isLimit (l : Leaf) : Bool :=
  l.limit?.isSome

/-! ## Matching -/

mutual

/-- Whether a test accepts the text of a scalar, or of some element of an
array. Null and objects have no text. -/
def anyText (test : String → Bool) : Json → Bool
  | .string s => test s
  | .number n => test n.text
  | .bool true => test "true"
  | .bool false => test "false"
  | .array items => anyTextOf test items
  | .null => false
  | .object _ => false

def anyTextOf (test : String → Bool) : List Json → Bool
  | [] => false
  | v :: vs => anyText test v || anyTextOf test vs

end

/-- Whether one text contains another when both are lower-cased. -/
def containsAnyCase (needle text : String) : Bool :=
  Text.occursIn (Text.lower needle.toList) (Text.lower text.toList)

/-- Whether a stored value, not null, satisfies the leaf. -/
def accepts (l : Leaf) (stored : Json) : Bool :=
  match l.operand with
  | .exact => anyText (· == l.value) stored
  | .substring => anyText (containsAnyCase l.value) stored
  | .status allowed =>
    anyText (fun s => (Status.ofText? s).any allowed.contains) stored
  | .after time => stored.signed?.any fun t => decide (time ≤ t)
  | .before time => stored.signed?.any fun t => decide (t ≤ time)
  | .limit _ => true

/-- Whether a record satisfies the leaf. -/
def satisfiedBy (l : Leaf) (d : Document) : Bool :=
  l.isLimit ||
    match d.field? l.field with
    | none => false
    | some v => !v.isNull && l.accepts v

/-- What it costs to evaluate a leaf, relative to others. -/
def cost (l : Leaf) : Nat :=
  match l.operand with
  | .limit _ => 0
  | .substring => 2
  | _ => 1

/-! ## Text -/

/-- Whether a value has to be quoted to be read back as one value. -/
def needsQuotes (value : List Char) : Bool :=
  value.isEmpty || value.head? == some '"' || value.head? == some '\x7b'
    || value.any fun c => Text.isBlank c || c == '(' || c == ')' || c == '"'

/-- A value between quotes, with a backslash before quotes and
backslashes. -/
def quoted (value : List Char) : List Char :=
  '"' :: value.flatMap (fun c => if c = '"' ∨ c = '\\' then ['\\', c] else [c]) ++ ['"']

/-- The query text of a leaf. -/
def chars (l : Leaf) : List Char :=
  let value := l.value.toList
  l.operator.toList ++ ':' :: if needsQuotes value then quoted value else value

def display (l : Leaf) : String :=
  String.ofList l.chars

end Leaf

end ReviewSearch
