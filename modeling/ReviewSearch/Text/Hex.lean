/-
ReviewSearch.Text.Hex — hexadecimal digits.

Both cases are read; the lower case is written.
-/
namespace ReviewSearch.Text.Hex

/-- The value of a digit. -/
def value? (c : Char) : Option Nat :=
  if '0' ≤ c ∧ c ≤ '9' then some (c.toNat - '0'.toNat)
  else if 'a' ≤ c ∧ c ≤ 'f' then some (c.toNat - 'a'.toNat + 10)
  else if 'A' ≤ c ∧ c ≤ 'F' then some (c.toNat - 'A'.toNat + 10)
  else none

/-- The digit of a value below 16. -/
def digit (n : Nat) : Char :=
  if n < 10 then Char.ofNat ('0'.toNat + n) else Char.ofNat ('a'.toNat + (n - 10))

/-- Octets from pairs of digits. -/
def octets? : List Char → Option (List UInt8)
  | [] => some []
  | [_] => none
  | a :: b :: cs => do
    let octet := UInt8.ofNat ((← value? a) * 16 + (← value? b))
    return octet :: (← octets? cs)

/-- Octets as pairs of digits. -/
def ofOctets (bs : List UInt8) : List Char :=
  bs.flatMap fun b => [digit (b.toNat / 16), digit (b.toNat % 16)]

end ReviewSearch.Text.Hex
