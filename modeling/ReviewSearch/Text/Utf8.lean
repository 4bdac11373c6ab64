/-
ReviewSearch.Text.Utf8 — octets as text.

`pieces` cuts a sequence of octets into characters and malformed pieces,
one octet at a time. A malformed piece is as long as possible: the octets
of a sequence that was well-formed up to the octet that breaks it are ONE
piece. `decode?` refuses any malformed piece, and `decodeLossy` puts one
U+FFFD in the place of each.
-/
namespace ReviewSearch.Text.Utf8

/-- What is still owed to a sequence that has begun: `more` octets after
the next one, which must lie between `low` and `high`; `value` holds the
bits read so far. -/
structure Owed where
  value : Nat
  more : Nat
  low : Nat
  high : Nat
  deriving DecidableEq, Repr

/-- What an octet at the start of a sequence gives: a character, the
debt of a longer sequence, or nothing well-formed. -/
inductive Start where
  | char (c : Char)
  | owed (o : Owed)
  | bad

def start (b : Nat) : Start :=
  if b < 0x80 then .char (Char.ofNat b)
  else if b < 0xC2 then .bad
  else if b < 0xE0 then .owed ⟨b - 0xC0, 0, 0x80, 0xBF⟩
  else if b = 0xE0 then .owed ⟨0, 1, 0xA0, 0xBF⟩
  else if b = 0xED then .owed ⟨0xD, 1, 0x80, 0x9F⟩
  else if b < 0xF0 then .owed ⟨b - 0xE0, 1, 0x80, 0xBF⟩
  else if b = 0xF0 then .owed ⟨0, 2, 0x90, 0xBF⟩
  else if b < 0xF4 then .owed ⟨b - 0xF0, 2, 0x80, 0xBF⟩
  else if b = 0xF4 then .owed ⟨4, 2, 0x80, 0x8F⟩
  else .bad

/-- The pieces of a sequence of octets: characters, and `none` for each
malformed piece. -/
def piecesFrom : Option Owed → List Nat → List (Option Char)
  | none, [] => []
  | some _, [] => [none]
  | none, b :: bs =>
    match start b with
    | .char c => some c :: piecesFrom none bs
    | .owed o => piecesFrom (some o) bs
    | .bad => none :: piecesFrom none bs
  | some o, b :: bs =>
    if o.low ≤ b ∧ b ≤ o.high then
      let value := o.value * 64 + (b - 0x80)
      match o.more with
      | 0 => some (Char.ofNat value) :: piecesFrom none bs
      | more + 1 => piecesFrom (some ⟨value, more, 0x80, 0xBF⟩) bs
    else
      match start b with
      | .char c => none :: some c :: piecesFrom none bs
      | .owed o' => none :: piecesFrom (some o') bs
      | .bad => none :: none :: piecesFrom none bs

def pieces (bytes : List UInt8) : List (Option Char) :=
  piecesFrom none (bytes.map UInt8.toNat)

/-- The text of well-formed octets. -/
def decode? (bytes : List UInt8) : Option String :=
  ((pieces bytes).mapM id).map String.ofList

/-- The text of any octets, with U+FFFD for each malformed piece. -/
def decodeLossy (bytes : List UInt8) : String :=
  String.ofList ((pieces bytes).map (·.getD (Char.ofNat 0xFFFD)))

/-- The octets of one character. -/
def encodeChar (c : Char) : List Nat :=
  let n := c.toNat
  if n < 0x80 then [n]
  else if n < 0x800 then [0xC0 + n / 64, 0x80 + n % 64]
  else if n < 0x10000 then [0xE0 + n / 4096, 0x80 + n / 64 % 64, 0x80 + n % 64]
  else [0xF0 + n / 262144, 0x80 + n / 4096 % 64, 0x80 + n / 64 % 64, 0x80 + n % 64]

/-- The octets of a text. -/
def encode (s : String) : List UInt8 :=
  (s.toList.flatMap encodeChar).map UInt8.ofNat

end ReviewSearch.Text.Utf8
