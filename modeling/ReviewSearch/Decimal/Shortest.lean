/-
ReviewSearch.Decimal.Shortest — the fewest decimal digits that read back.

A binary64 number is the nearest one to an interval of reals, with the
ends of the interval included iff the significand is even. For 1, 2, …,
17 digits, `shortest` looks at the two points of the decimal grid next to
the number; the first grid with a point in the interval wins, and of two
points in it the nearer one, a tie going to the even one.
-/
import ReviewSearch.Decimal.Double

namespace ReviewSearch.Decimal

/-- Decimal digits with a power of ten: `digits * 10 ^ power`. -/
structure Digits where
  digits : Nat
  power : Int
  deriving DecidableEq, Repr

namespace Double

/-- The interval of reals that round to a number: quarter units of the
last place below and above it, and whether the ends belong to it. -/
structure Neighbourhood where
  /-- The number itself, in quarter units. -/
  centre : Nat
  low : Nat
  high : Nat
  closed : Bool
  /-- A quarter unit is `2 ^ unit`. -/
  unit : Int

/-- Below a power of two the numbers lie twice as close, so the interval
reaches half as far down. -/
def neighbourhood (x : Double) : Neighbourhood :=
  let m := x.significand
  let atPower := decide (m = Nat.pow 2 52) && decide (minExponent < x.exponent)
  { centre := 4 * m
    low := 4 * m - (if atPower then 1 else 2)
    high := 4 * m + 2
    closed := m % 2 == 0
    unit := x.exponent - 2 }

/-- `n * 2 ^ unit / 10 ^ power` as a quotient of naturals. -/
def onGrid (n : Nat) (unit power : Int) : Nat × Nat :=
  let num := n * Nat.pow 2 unit.toNat * Nat.pow 10 (-power).toNat
  let den := Nat.pow 2 (-unit).toNat * Nat.pow 10 power.toNat
  (num, den)

/-- Whether the grid point `d * 10 ^ power` lies in the interval. -/
def Neighbourhood.holds (b : Neighbourhood) (power : Int) (d : Nat) : Bool :=
  let (low, den) := onGrid b.low b.unit power
  let (high, _) := onGrid b.high b.unit power
  if b.closed then decide (low ≤ d * den) && decide (d * den ≤ high)
  else decide (low < d * den) && decide (d * den < high)

/-- The better of the grid's two points next to the number, if one of
them is in the interval. -/
def Neighbourhood.pick (b : Neighbourhood) (power : Int) : Option Nat :=
  let (num, den) := onGrid b.centre b.unit power
  let below := num / den
  let above := below + 1
  match b.holds power below && decide (0 < below), b.holds power above with
  | false, false => none
  | true, false => some below
  | false, true => some above
  | true, true => some (roundHalfEven num den)

/-- The power of ten of a positive number's first digit. -/
def leadingPower (b : Neighbourhood) : Int :=
  let bits : Int := (b.centre.log2 : Int) + b.unit
  let guess : Int := bits * 30103 / 100000 - 1
  let atLeast (p : Int) : Bool :=
    let (num, den) := onGrid b.centre b.unit p
    decide (den ≤ num)
  if atLeast (guess + 2) then guess + 2
  else if atLeast (guess + 1) then guess + 1
  else guess

/-- Digits without trailing zeros; `fuel` bounds their number. -/
def dropZeros : Nat → Digits → Digits
  | 0, d => d
  | fuel + 1, d =>
    if d.digits % 10 = 0 then dropZeros fuel ⟨d.digits / 10, d.power + 1⟩ else d

/-- The first grid, from the coarsest, that has a point in the interval.
Seventeen digits always suffice. -/
def searchGrid (b : Neighbourhood) (power : Int) : Nat → Digits
  | 0 =>
    let (num, den) := onGrid b.centre b.unit power
    ⟨roundHalfEven num den, power⟩
  | finer + 1 =>
    match b.pick power with
    | some d => dropZeros 20 ⟨d, power⟩
    | none => searchGrid b (power - 1) finer

/-- The fewest digits that read back as the number's magnitude. -/
def shortest (x : Double) : Digits :=
  if x.isZero then ⟨0, 0⟩
  else
    let b := x.neighbourhood
    searchGrid b (leadingPower b) 17

end Double

end ReviewSearch.Decimal
