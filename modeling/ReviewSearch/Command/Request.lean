/-
ReviewSearch.Command.Request — requests, one on a line.

A request is a record with the text of a query and, where they are wanted,
the settings of its page. Requests are run one after the other in the same
settings, so each of them makes all that it may differ in. A line that is
no JSON and one that is no request are refused apart.
-/
import ReviewSearch.Command.Failure
import ReviewSearch.Json.Record
import ReviewSearch.Search.Settings
import ReviewSearch.Text.Blank
import ReviewSearch.Text.Utf8

namespace ReviewSearch.Command

structure Request where
  query : String
  start : Int
  limit : Nat
  noLimit : Bool
  fields : List String
  deriving DecidableEq, Repr

namespace Request

def ofJson? (v : Json) : Option Request := do
  let fields ← Json.record? ["query", "start", "limit", "no_limit", "fields"] v
  let query ← fields.required "query" Json.string?
  let start ← fields.optional "start" Json.signed? 0
  let limit ← fields.optional "limit" (Json.natUpTo? Count.max) 0
  let noLimit ← fields.optional "no_limit" Json.bool? false
  let names ← fields.optional "fields" Json.strings? []
  return ⟨query, start, limit, noLimit, names⟩

/-- The settings that a request makes; one that it leaves out is made the
default again. -/
def changes (r : Request) : List Settings.Change :=
  [.start r.start, .requested r.limit, .noLimit r.noLimit, .fields r.fields]

/-- Reads the text of a line. -/
def ofText (text : List Char) : Except Failure Request :=
  match Json.read? text with
  | none => .error (.request "Invalid request JSON")
  | some v =>
    match ofJson? v with
    | none => .error (.request "Invalid request")
    | some r => .ok r

end Request

/-! ## Lines -/

/-- The lines of an input. Each ends with a line feed, which the last one
may lack. -/
def inputLines : List UInt8 → List (List UInt8)
  | [] => []
  | b :: bs =>
    if b = 10 then [] :: inputLines bs
    else
      match inputLines bs with
      | [] => [[b]]
      | l :: ls => (b :: l) :: ls

end ReviewSearch.Command
