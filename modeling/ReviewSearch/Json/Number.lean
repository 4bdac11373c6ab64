/-
ReviewSearch.Json.Number — numbers in JSON documents.

A literal with neither a point nor an exponent is an integer if it fits a
64-bit word (unsigned, or signed when negative). Every other literal is a
binary64 number, minus zero and integers out of range among them.

* `Literal` — a number as it is written;
* `Literal.value?` — its value, `none` beyond the finite range;
* `Number.text` — the text a number is written as.

How a literal becomes a double is part of the format: its significand
takes leading digits for as long as they fit 64 bits, is rounded to a
double, and is then scaled by ONE product or quotient with a power of
ten. The result is the nearest double for every literal of up to fifteen
digits, and may miss it by one unit beyond that.
-/
import ReviewSearch.Count
import ReviewSearch.Decimal.Shortest

namespace ReviewSearch.Json

open ReviewSearch.Decimal

/-- A number as written. Digits stand first to last. -/
structure Literal where
  negative : Bool
  whole : List Nat
  /-- The digits after the point, if there is one. -/
  fraction : Option (List Nat)
  /-- The sign (`true` for minus) and digits of the exponent, if there is
  one. -/
  exponent : Option (Bool × List Nat)
  deriving DecidableEq, Repr

/-- An integer or a double. -/
inductive Number where
  | integer (n : Int)
  | double (x : Double)
  deriving DecidableEq, Repr

/-! ## From a literal to its value -/

/-- Leading digits gathered into a 64-bit word, and the power of ten that
the digits left out, or taken from behind the point, leave behind. -/
structure Significand where
  word : Nat
  power : Int
  /-- No further digit is taken. -/
  full : Bool

/-- Takes a digit in front of the point. -/
def Significand.takeWhole (s : Significand) (d : Nat) : Significand :=
  if s.full || decide (Count.max < s.word * 10 + d) then
    { s with power := s.power + 1, full := true }
  else { s with word := s.word * 10 + d }

/-- Takes a digit behind the point. -/
def Significand.takeFraction (s : Significand) (d : Nat) : Significand :=
  if s.full || decide (Count.max < s.word * 10 + d) then { s with full := true }
  else { s with word := s.word * 10 + d, power := s.power - 1 }

def Significand.ofWhole (digits : List Nat) : Significand :=
  digits.foldl Significand.takeWhole ⟨0, 0, false⟩

/-- A fraction starts afresh: its digits are taken if they fit, even
behind a whole part that was cut short. -/
def Significand.addFraction (s : Significand) (digits : List Nat) : Significand :=
  digits.foldl Significand.takeFraction { s with full := false }

/-- The natural number of a list of digits. -/
def natOfDigits (digits : List Nat) : Nat :=
  digits.foldl (fun n d => n * 10 + d) 0

/-- The double nearest to a natural. -/
def doubleOfNat (n : Nat) : Option Double :=
  Double.ofRatio false n 1

/-- The greatest power of ten by which a double is scaled at once. -/
def scaleLimit : Nat := 308

/-- Scaling by a power of ten. Powers below the limit are taken in steps;
three steps bring any 64-bit significand to zero. -/
def scale (x : Double) (power : Int) : Nat → Option Double
  | 0 => some { x with significand := 0, exponent := Double.minExponent }
  | steps + 1 =>
    if power.natAbs ≤ scaleLimit then do
      let ten ← doubleOfNat (Nat.pow 10 power.natAbs)
      if 0 ≤ power then x.mul ten else x.div ten
    else if x.isZero then some x
    else if 0 ≤ power then none
    else do
      let ten ← doubleOfNat (Nat.pow 10 scaleLimit)
      scale (← x.div ten) (power + scaleLimit) steps

/-- The double of a gathered significand. -/
def doubleOf (negative : Bool) (s : Significand) (power : Int) : Option Number := do
  let x ← scale (← doubleOfNat s.word) (s.power + power) 4
  return .double (x.withSign negative)

/-- The value of a literal, or `none` if it is not finite. -/
def Literal.value? (l : Literal) : Option Number :=
  let whole := Significand.ofWhole l.whole
  match l.fraction, l.exponent with
  | none, none =>
    if whole.full then doubleOf l.negative whole 0
    else if l.negative then
      if whole.word = 0 || decide (Nat.pow 2 63 < whole.word) then doubleOf true whole 0
      else some (.integer (-(whole.word : Int)))
    else some (.integer whole.word)
  | fraction, exponent =>
    let s := match fraction with
      | none => whole
      | some digits => whole.addFraction digits
    let power : Int := match exponent with
      | none => 0
      | some (true, digits) => -(natOfDigits digits : Int)
      | some (false, digits) => natOfDigits digits
    doubleOf l.negative s power

/-! ## The text of a number -/

/-- How a double is laid out: the decimal point may stand at most
`rightmost` places behind the first digit and at least at `leftmost`
(counted from in front of it); outside that range an exponent is
written behind `mark`, or behind `markMinus` if it is negative. -/
structure Layout where
  leftmost : Int
  rightmost : Int
  mark : String
  markMinus : String

/-- Positional up to sixteen places and down to four zeros behind the
point. An exponent always carries a sign, and no leading zero. -/
def doubleLayout : Layout := ⟨-4, 16, "e+", "e-"⟩

/-- A text of `n` zeros. -/
def zeros (n : Nat) : String :=
  String.ofList (List.replicate n '0')

/-- Digits and point of a magnitude. -/
def Layout.render (f : Layout) (d : Digits) : String :=
  let digits := toString d.digits
  let size : Int := digits.length
  let point := size + d.power
  if 0 ≤ d.power ∧ point ≤ f.rightmost then
    digits ++ zeros d.power.toNat ++ ".0"
  else if 0 < point ∧ point ≤ f.rightmost then
    let cs := digits.toList
    String.ofList (cs.take point.toNat) ++ "." ++ String.ofList (cs.drop point.toNat)
  else if f.leftmost ≤ point ∧ point ≤ 0 then
    "0." ++ zeros (-point).toNat ++ digits
  else
    let cs := digits.toList
    let tail := cs.drop 1
    String.ofList (cs.take 1) ++ (if tail.isEmpty then "" else "." ++ String.ofList tail)
      ++ (if point ≤ 0 then f.markMinus else f.mark) ++ toString (point - 1).natAbs

/-- The text of a double: the fewest digits that read back. -/
def doubleText (x : Double) : String :=
  (if x.negative then "-" else "") ++ doubleLayout.render x.shortest

/-- The text of a number. -/
def Number.text : Number → String
  | .integer n => toString n
  | .double x => doubleText x

/-- The integer value, for a number that is one and fits a signed word. -/
def Number.signed? : Number → Option Int
  | .integer n => if inSignedRange n then some n else none
  | .double _ => none

end ReviewSearch.Json
