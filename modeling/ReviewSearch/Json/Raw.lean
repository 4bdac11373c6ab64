/-
ReviewSearch.Json.Raw — the grammar of JSON texts.

`Raw.read?` accepts exactly the texts that are JSON by their form, and
gives them as they are written: numbers as literals, members in their
order with repeated keys kept, and escapes of half a character by
themselves. What a value MEANS — whether its numbers are in range, its
text whole and its nesting within bounds — is asked only where the value
is used (`ReviewSearch.Json.Value`, `ReviewSearch.Json.Decode`), so a
member that nobody reads may hold any well-formed value.

A text is cut into tokens first. The tokens drive a machine with a stack
of open arrays and objects; it takes one step for each token, so reading
is a fold.
-/
import ReviewSearch.Json.Number
import ReviewSearch.Text.Hex

namespace ReviewSearch.Json

/-- A unit of a JSON string: a character, or the code of a `\u`
escape. -/
inductive TextUnit where
  | char (c : Char)
  | code (n : Nat)
  deriving DecidableEq, Repr

/-- A value as written. -/
inductive Raw where
  | null
  | bool (b : Bool)
  | number (l : Literal)
  | string (units : List TextUnit)
  | array (items : List Raw)
  | object (members : List (List TextUnit × Raw))

inductive Token where
  | beginArray
  | endArray
  | beginObject
  | endObject
  | colon
  | comma
  | null
  | bool (b : Bool)
  | number (l : Literal)
  | string (units : List TextUnit)
  deriving DecidableEq, Repr

/-! ## Tokens -/

def isSpace (c : Char) : Bool :=
  c == ' ' || c == '\n' || c == '\t' || c == '\r'

/-- The code of four hexadecimal digits. -/
def hexCode? (a b c d : Char) : Option Nat := do
  return (((← Text.Hex.value? a) * 16 + (← Text.Hex.value? b)) * 16 + (← Text.Hex.value? c)) * 16 + (← Text.Hex.value? d)

/-- The character that a one-letter escape stands for. -/
def escaped? (c : Char) : Option Char :=
  if c = '"' ∨ c = '\\' ∨ c = '/' then some c
  else if c = 'b' then some '\x08'
  else if c = 'f' then some '\x0c'
  else if c = 'n' then some '\n'
  else if c = 'r' then some '\r'
  else if c = 't' then some '\t'
  else none

/-- Scans a string behind its opening quote, up to and over the closing
one. -/
def scanString : List Char → Option (List TextUnit × List Char)
  | [] => none
  | '"' :: cs => some ([], cs)
  | '\\' :: 'u' :: a :: b :: c :: d :: cs => do
    let n ← hexCode? a b c d
    let (us, rest) ← scanString cs
    return (.code n :: us, rest)
  | '\\' :: e :: cs => do
    let c ← escaped? e
    let (us, rest) ← scanString cs
    return (.char c :: us, rest)
  | c :: cs =>
    if c.toNat < 0x20 ∨ c = '\\' then none
    else do
      let (us, rest) ← scanString cs
      return (.char c :: us, rest)

/-- A leading run of decimal digits. -/
def scanDigits (cs : List Char) : List Nat × List Char :=
  ((cs.takeWhile Char.isDigit).map fun c => c.toNat - '0'.toNat, cs.dropWhile Char.isDigit)

/-- At least one digit. -/
def scanDigits? (cs : List Char) : Option (List Nat × List Char) :=
  match scanDigits cs with
  | ([], _) => none
  | r => some r

/-- The whole part has no leading zero unless it is zero. -/
def scanWhole? (cs : List Char) : Option (List Nat × List Char) :=
  match scanDigits cs with
  | ([], _) => none
  | (0 :: _ :: _, _) => none
  | r => some r

def scanFraction? : List Char → Option (Option (List Nat) × List Char)
  | '.' :: cs => do
    let (ds, rest) ← scanDigits? cs
    return (some ds, rest)
  | cs => some (none, cs)

def scanExponent? : List Char → Option (Option (Bool × List Nat) × List Char)
  | [] => some (none, [])
  | c :: cs =>
    if c = 'e' ∨ c = 'E' then do
      let (minus, cs) := match cs with
        | '+' :: cs => (false, cs)
        | '-' :: cs => (true, cs)
        | cs => (false, cs)
      let (ds, rest) ← scanDigits? cs
      return (some (minus, ds), rest)
    else some (none, c :: cs)

def scanNumber (cs : List Char) : Option (Literal × List Char) := do
  let (negative, cs) := match cs with
    | '-' :: cs => (true, cs)
    | cs => (false, cs)
  let (whole, cs) ← scanWhole? cs
  let (fraction, cs) ← scanFraction? cs
  let (exponent, cs) ← scanExponent? cs
  return (⟨negative, whole, fraction, exponent⟩, cs)

/-- The token at the start of a text that does not begin with space. -/
def scanToken : List Char → Option (Token × List Char)
  | '[' :: cs => some (.beginArray, cs)
  | ']' :: cs => some (.endArray, cs)
  | '\x7b' :: cs => some (.beginObject, cs)
  | '\x7d' :: cs => some (.endObject, cs)
  | ':' :: cs => some (.colon, cs)
  | ',' :: cs => some (.comma, cs)
  | 'n' :: 'u' :: 'l' :: 'l' :: cs => some (.null, cs)
  | 't' :: 'r' :: 'u' :: 'e' :: cs => some (.bool true, cs)
  | 'f' :: 'a' :: 'l' :: 's' :: 'e' :: cs => some (.bool false, cs)
  | '"' :: cs => (scanString cs).map fun (us, rest) => (.string us, rest)
  | cs => (scanNumber cs).map fun (l, rest) => (.number l, rest)

/-- The tokens of a text, each of which takes at least one character;
`fuel` bounds their number. -/
def scanTokens : Nat → List Char → Option (List Token)
  | 0, _ => none
  | fuel + 1, cs =>
    match cs.dropWhile isSpace with
    | [] => some []
    | c :: cs => do
      let (t, rest) ← scanToken (c :: cs)
      return t :: (← scanTokens fuel rest)

def tokens? (cs : List Char) : Option (List Token) :=
  scanTokens (cs.length + 1) cs

/-! ## Values -/

/-- An open array or object with what it holds so far, latest first. -/
inductive Frame where
  | array (items : List Raw)
  | object (members : List (List TextUnit × Raw))
  /-- An object that waits for the value of a member. -/
  | member (members : List (List TextUnit × Raw)) (key : List TextUnit)

/-- What the machine expects next. -/
inductive State where
  /-- A value. -/
  | value (stack : List Frame)
  /-- The first item of an array, or its end. -/
  | firstItem (stack : List Frame)
  /-- The first key of an object, or its end. -/
  | firstKey (stack : List Frame)
  /-- A key. -/
  | key (members : List (List TextUnit × Raw)) (stack : List Frame)
  /-- The colon behind a key. -/
  | colon (stack : List Frame)
  /-- A comma or an end. -/
  | next (stack : List Frame)
  /-- Nothing: a value is complete. -/
  | done (v : Raw)

/-- Hands a complete value to the innermost open frame. -/
def complete (v : Raw) : List Frame → State
  | .array items :: fs => .next (.array (v :: items) :: fs)
  | .member members key :: fs => .next (.object ((key, v) :: members) :: fs)
  | .object _ :: _ => .done v
  | [] => .done v

/-- Begins a value. -/
def beginValue (stack : List Frame) : Token → Option State
  | .null => some (complete .null stack)
  | .bool b => some (complete (.bool b) stack)
  | .number l => some (complete (.number l) stack)
  | .string us => some (complete (.string us) stack)
  | .beginArray => some (.firstItem stack)
  | .beginObject => some (.firstKey stack)
  | _ => none

/-- One step for one token; `none` refuses it. -/
def step : State → Token → Option State
  | .value stack, t => beginValue stack t
  | .firstItem stack, .endArray => some (complete (.array []) stack)
  | .firstItem stack, t => beginValue (.array [] :: stack) t
  | .firstKey stack, .endObject => some (complete (.object []) stack)
  | .firstKey stack, .string us => some (.colon (.member [] us :: stack))
  | .key members stack, .string us => some (.colon (.member members us :: stack))
  | .colon stack, .colon => some (.value stack)
  | .next (.array items :: fs), .comma => some (.value (.array items :: fs))
  | .next (.array items :: fs), .endArray => some (complete (.array items.reverse) fs)
  | .next (.object members :: fs), .comma => some (.key members fs)
  | .next (.object members :: fs), .endObject => some (complete (.object members.reverse) fs)
  | _, _ => none

/-- The state after all tokens. -/
def run : State → List Token → Option State
  | s, [] => some s
  | s, t :: ts => (step s t).bind fun s => run s ts

/-- The value of a JSON text, as written. -/
def Raw.read? (text : List Char) : Option Raw := do
  match ← run (.value []) (← tokens? text) with
  | .done v => some v
  | _ => none

end ReviewSearch.Json
