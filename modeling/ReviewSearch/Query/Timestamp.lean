/-
ReviewSearch.Query.Timestamp — points in time, as typed.

A timestamp is a date, `year-month-day`, or a date and a time of day,
`year-month-day hour:minute:second`, in UTC. `seconds?` gives the seconds
since the epoch; a date alone is its midnight.

Blanks may stand before a number, and any number of them, even none,
between the date and the time. A year has at most four digits unless it
carries a sign; the other numbers have one or two. The calendar is
Gregorian at all times, from the year -262143 to the year 262142. A
minute may have a second 60, which counts as its second 59.
-/
import ReviewSearch.Text.Blank

namespace ReviewSearch.Query.Timestamp

/-- A number of at most `most` digits and at least one, and the rest. -/
def scanNat? (most : Nat) (cs : List Char) : Option (Nat × List Char) :=
  let digits := (cs.take most).takeWhile Char.isDigit
  if digits.isEmpty then none
  else
    some (digits.foldl (fun n c => n * 10 + (c.toNat - '0'.toNat)) 0, cs.drop digits.length)

/-- A number of one or two digits, with blanks before it. -/
def scanPair? (cs : List Char) : Option (Nat × List Char) :=
  scanNat? 2 (Text.skipBlank cs)

/-- A year, with blanks before it. -/
def scanYear? (cs : List Char) : Option (Int × List Char) :=
  match Text.skipBlank cs with
  | '-' :: cs => (scanNat? cs.length cs).map fun (n, rest) => (-(n : Int), rest)
  | '+' :: cs => (scanNat? cs.length cs).map fun (n, rest) => ((n : Int), rest)
  | cs => (scanNat? 4 cs).map fun (n, rest) => ((n : Int), rest)

/-- Exactly this character. -/
def expect? (c : Char) : List Char → Option (List Char)
  | [] => none
  | x :: cs => if x = c then some cs else none

/-! ## The calendar -/

structure Date where
  year : Int
  month : Nat
  day : Nat
  deriving DecidableEq, Repr

def isLeapYear (y : Int) : Bool :=
  y % 4 == 0 && (y % 100 != 0 || y % 400 == 0)

def daysInMonth (y : Int) (m : Nat) : Nat :=
  if m = 2 then (if isLeapYear y then 29 else 28)
  else if m = 4 ∨ m = 6 ∨ m = 9 ∨ m = 11 then 30
  else 31

def Date.valid (d : Date) : Bool :=
  decide (-262143 ≤ d.year) && decide (d.year ≤ 262142)
    && decide (1 ≤ d.month) && decide (d.month ≤ 12)
    && decide (1 ≤ d.day) && decide (d.day ≤ daysInMonth d.year d.month)

/-- Days from the start of a year to the start of a month. -/
def daysBeforeMonth (y : Int) (m : Nat) : Nat :=
  (List.range (m - 1)).foldl (fun n i => n + daysInMonth y (i + 1)) 0

/-- Days from the start of the year 1 to the start of a year. -/
def daysBeforeYear (y : Int) : Int :=
  let n := y - 1
  365 * n + n / 4 - n / 100 + n / 400

/-- Days from 1970-01-01. -/
def Date.epochDay (d : Date) : Int :=
  daysBeforeYear d.year + daysBeforeMonth d.year d.month + d.day - 1 - daysBeforeYear 1970

/-! ## Reading -/

def scanDate? (cs : List Char) : Option (Date × List Char) := do
  let (year, cs) ← scanYear? cs
  let cs ← expect? '-' cs
  let (month, cs) ← scanPair? cs
  let cs ← expect? '-' cs
  let (day, cs) ← scanPair? cs
  let date : Date := ⟨year, month, day⟩
  if date.valid then return (date, cs) else none

/-- The second of the day. -/
def scanTime? (cs : List Char) : Option (Nat × List Char) := do
  let (hour, cs) ← scanPair? (Text.skipBlank cs)
  let cs ← expect? ':' cs
  let (minute, cs) ← scanPair? cs
  let cs ← expect? ':' cs
  let (second, cs) ← scanPair? cs
  if hour < 24 ∧ minute < 60 ∧ second ≤ 60 then
    return (hour * 3600 + minute * 60 + min second 59, cs)
  else none

def dateTime? (cs : List Char) : Option Int := do
  let (date, cs) ← scanDate? cs
  let (second, cs) ← scanTime? cs
  if cs.isEmpty then return date.epochDay * 86400 + second else none

def date? (cs : List Char) : Option Int := do
  let (date, cs) ← scanDate? cs
  if cs.isEmpty then return date.epochDay * 86400 else none

/-- Seconds since the epoch at the point in time that a text says. -/
def seconds? (text : String) : Option Int :=
  (dateTime? text.toList).or (date? text.toList)

end ReviewSearch.Query.Timestamp
