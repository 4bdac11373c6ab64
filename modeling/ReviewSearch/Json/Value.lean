/-
ReviewSearch.Json.Value — JSON values.

A value is what a JSON text means: numbers in range, whole texts, and
objects as tables of members in the order of their keys. `ofRaw?` gives
the meaning of a text as written; of members with the same key the last
one counts. `read?` also bounds the nesting.
-/
import ReviewSearch.Json.Raw
import ReviewSearch.Order.Table

namespace ReviewSearch

open ReviewSearch.Json (Number)

/-- A JSON value. The members of an object stand in the order of their
keys. -/
inductive Json where
  | null
  | bool (b : Bool)
  | number (n : Number)
  | string (s : String)
  | array (items : List Json)
  | object (members : List (String × Json))
  deriving Inhabited

namespace Json

/-! ## Equality -/

mutual

/-- Whether two values are the same. -/
def same : Json → Json → Bool
  | .null, .null => true
  | .bool a, .bool b => a == b
  | .number a, .number b => a == b
  | .string a, .string b => a == b
  | .array a, .array b => sameItems a b
  | .object a, .object b => sameMembers a b
  | _, _ => false

def sameItems : List Json → List Json → Bool
  | [], [] => true
  | a :: as, b :: bs => same a b && sameItems as bs
  | _, _ => false

def sameMembers : List (String × Json) → List (String × Json) → Bool
  | [], [] => true
  | (k, a) :: as, (l, b) :: bs => k == l && same a b && sameMembers as bs
  | _, _ => false

end

instance : BEq Json := ⟨same⟩

/-! ## Text -/

/-- The text of string units. A code below U+D800 or above U+DFFF is a
character; a high code must be followed by a low one, with which it makes
a character beyond U+FFFF. A half by itself is no text. -/
def textOf? : List TextUnit → Option (List Char)
  | [] => some []
  | .char c :: us => (textOf? us).map (c :: ·)
  | .code h :: .code l :: us =>
    if 0xD800 ≤ h ∧ h < 0xDC00 then
      if 0xDC00 ≤ l ∧ l < 0xE000 then
        (textOf? us).map (Char.ofNat (0x10000 + (h - 0xD800) * 0x400 + (l - 0xDC00)) :: ·)
      else none
    else if 0xDC00 ≤ h ∧ h < 0xE000 then none
    else (textOf? (.code l :: us)).map (Char.ofNat h :: ·)
  | .code h :: us =>
    if 0xD800 ≤ h ∧ h < 0xE000 then none
    else (textOf? us).map (Char.ofNat h :: ·)

def stringOf? (us : List TextUnit) : Option String :=
  (textOf? us).map String.ofList

/-! ## Meaning of what is written -/

mutual

/-- How deep arrays and objects are nested. -/
def Raw.depth : Raw → Nat
  | .array items => Raw.depthItems items + 1
  | .object members => Raw.depthMembers members + 1
  | _ => 0

def Raw.depthItems : List Raw → Nat
  | [] => 0
  | v :: vs => max (Raw.depth v) (Raw.depthItems vs)

def Raw.depthMembers : List (List TextUnit × Raw) → Nat
  | [] => 0
  | (_, v) :: ms => max (Raw.depth v) (Raw.depthMembers ms)

end

mutual

/-- The value of what is written, if numbers are finite and texts
whole. -/
def ofRaw? : Raw → Option Json
  | .null => some .null
  | .bool b => some (.bool b)
  | .number l => l.value?.map .number
  | .string us => (stringOf? us).map .string
  | .array items => (ofRawItems? items).map .array
  | .object members => (ofRawMembers? members).map fun ms => .object (Table.ofList ms)

def ofRawItems? : List Raw → Option (List Json)
  | [] => some []
  | v :: vs => do
    let x ← ofRaw? v
    let xs ← ofRawItems? vs
    return x :: xs

def ofRawMembers? : List (List TextUnit × Raw) → Option (List (String × Json))
  | [] => some []
  | (us, v) :: ms => do
    let k ← stringOf? us
    let x ← ofRaw? v
    let xs ← ofRawMembers? ms
    return (k, x) :: xs

end

/-- The deepest nesting that is read. -/
def maxDepth : Nat := 127

/-- What a text says, if it is JSON of bounded depth. -/
def read? (text : List Char) : Option Json := do
  let v ← Raw.read? text
  if v.depth ≤ maxDepth then ofRaw? v else none

/-! ## Access -/

/-- A member of an object. -/
def member? (key : String) : Json → Option Json
  | .object members => Table.get? key members
  | _ => none

def isNull : Json → Bool
  | .null => true
  | _ => false

def string? : Json → Option String
  | .string s => some s
  | _ => none

def bool? : Json → Option Bool
  | .bool b => some b
  | _ => none

/-- The value of a number that is an integer and fits a signed word. -/
def signed? : Json → Option Int
  | .number n => n.signed?
  | _ => none

/-- The value of a number that is an integer from 0 to `top`. -/
def natUpTo? (top : Nat) : Json → Option Nat
  | .number (.integer n) => if 0 ≤ n ∧ n ≤ top then some n.toNat else none
  | _ => none

def items? : Json → Option (List Json)
  | .array items => some items
  | _ => none

def members? : Json → Option (List (String × Json))
  | .object members => some members
  | _ => none

/-- The texts of an array that holds nothing else. -/
def strings? (v : Json) : Option (List String) := do
  (← v.items?).mapM string?

/-- An integer as a value. -/
def ofNat (n : Nat) : Json := .number (.integer n)

def ofInt (n : Int) : Json := .number (.integer n)

/-- An object of members in any order; the last one with a key counts. -/
def ofMembers (members : List (String × Json)) : Json :=
  .object (Table.ofList members)

end Json

end ReviewSearch
