/-
ReviewSearch.Decimal.Double — finite numbers of the format binary64.

A number is kept by its meaning, sign · significand · 2^exponent, and not
by its bits. `ofRatio` rounds a quotient of naturals to the nearest
number of the format, with ties to an even significand; products and
quotients are exact in the naturals and rounded ONCE by it. No operation
here is a machine operation, so all of them compute in proofs.
-/
namespace ReviewSearch.Decimal

/-- A finite binary64 number, `significand * 2 ^ exponent` with a sign.
The significand is below 2^53 and the exponent is at least -1074; the
significand is at least 2^52 unless the exponent is -1074. -/
structure Double where
  negative : Bool
  significand : Nat
  exponent : Int
  deriving DecidableEq, Repr

namespace Double

/-- The least exponent, that of the numbers closest to zero. -/
def minExponent : Int := -1074

/-- The greatest exponent; a number that needs a greater one is not
finite. -/
def maxExponent : Int := 971

/-- `num / den` in units of `2 ^ e`, as a quotient of naturals. -/
def inUnits (num den : Nat) (e : Int) : Nat × Nat :=
  if 0 ≤ e then (num, den * Nat.pow 2 e.toNat) else (num * Nat.pow 2 (-e).toNat, den)

/-- A quotient rounded to the nearest natural, a tie to the even one. -/
def roundHalfEven (num den : Nat) : Nat :=
  let q := num / den
  let r := num % den
  if 2 * r < den then q
  else if den < 2 * r then q + 1
  else q + q % 2

/-- The exponent at which the quotient has 53 binary digits before the
point, or the least exponent if that is greater. -/
def exponentFor (num den : Nat) : Int :=
  let e : Int := (num.log2 : Int) - den.log2 - 52
  let (n, d) := inUnits num den e
  let e := if n / d < Nat.pow 2 52 then e - 1 else e
  max e minExponent

/-- The number nearest to `num / den`, or `none` beyond the finite
range. -/
def ofRatio (negative : Bool) (num den : Nat) : Option Double :=
  if num = 0 then some ⟨negative, 0, minExponent⟩
  else
    let e := exponentFor num den
    let (n, d) := inUnits num den e
    let m := roundHalfEven n d
    let (m, e) := if m = Nat.pow 2 53 then (Nat.pow 2 52, e + 1) else (m, e)
    if maxExponent < e then none else some ⟨negative, m, e⟩

/-- The magnitude as a quotient of naturals. -/
def ratio (x : Double) : Nat × Nat :=
  if 0 ≤ x.exponent then (x.significand * Nat.pow 2 x.exponent.toNat, 1)
  else (x.significand, Nat.pow 2 (-x.exponent).toNat)

/-- The rounded product. -/
def mul (x y : Double) : Option Double :=
  let (a, b) := x.ratio
  let (c, d) := y.ratio
  ofRatio (x.negative != y.negative) (a * c) (b * d)

/-- The rounded quotient; the divisor is not zero. -/
def div (x y : Double) : Option Double :=
  let (a, b) := x.ratio
  let (c, d) := y.ratio
  ofRatio (x.negative != y.negative) (a * d) (b * c)

def isZero (x : Double) : Bool :=
  x.significand == 0

/-- The same magnitude with the given sign. -/
def withSign (x : Double) (negative : Bool) : Double :=
  { x with negative }

end Double

end ReviewSearch.Decimal
