/-
ReviewSearch.Refs.Glob — patterns of ref names.

In a glob a star stands for any run of characters, slashes and the empty
run included, but no line feed; every other character stands for itself.
A glob has a star, though not in front, and would be the name of a ref if
its stars were letters.

A name is compared from its end: for each star or character of the glob,
the last one first, it is computed which tails of the name the rest of
the glob covers. That takes as many steps as there are pairs of a
character in the glob and one in the name.
-/
import ReviewSearch.Refs.Name
import ReviewSearch.Refs.State

namespace ReviewSearch

/-- Whether a text is a glob. -/
def isGlob (text : List Char) : Bool :=
  text.contains '*' && text.head? != some '*'
    && RefName.isValid (text.map fun c => if c = '*' then 'x' else c)

structure Glob where
  text : List Char
  isGlob_text : isGlob text = true
  deriving DecidableEq

namespace Glob

def ofText? (text : List Char) : Option Glob :=
  if h : isGlob text then some ⟨text, h⟩ else none

def display (g : Glob) : String :=
  String.ofList g.text

/-- The text in front of the first star, with which every name begins
that the glob covers. -/
def stem (g : Glob) : List Char :=
  g.text.takeWhile (· != '*')

/-! ## Covering -/

/-- For each tail of a name, whether a star and then the rest of a glob
cover it; `rest` says which tails the rest covers. -/
def coverStar : List Char → List Bool → List Bool
  | c :: cs, b :: rest =>
    let bs := coverStar cs rest
    (b || c != '\n' && bs.headD false) :: bs
  | _, rest => rest

/-- For each tail of a name, whether a character and then the rest of a
glob cover it. -/
def coverChar (p : Char) : List Char → List Bool → List Bool
  | c :: cs, _ :: rest => (c == p && rest.headD false) :: coverChar p cs rest
  | _, _ => [false]

/-- Which tails of a name a glob covers, the longest first. -/
def cover : List Char → List Char → List Bool
  | [], name => name.map (fun _ => false) ++ [true]
  | p :: ps, name =>
    if p = '*' then coverStar name (cover ps name) else coverChar p name (cover ps name)

/-- Whether a glob covers a name. -/
def covers (g : Glob) (name : String) : Bool :=
  (cover g.text name.toList).headD false

/-! ## Stored entries -/

/-- A glob of a project as text. -/
def textFor (g : Glob) (project : String) : String :=
  project ++ ":" ++ g.display

/-- A glob of a project as it is stored. -/
def entry (g : Glob) (project : String) : List UInt8 :=
  Text.Utf8.encode (g.textFor project)

/-- Reads the text of an entry: a project that is not empty, and a
glob. -/
def ofEntryText (text : String) : Except RefFault (String × Glob) :=
  match Text.splitAt ':' text.toList with
  | [project, glob] =>
    if project.isEmpty then .error (.glob text)
    else
      match ofText? glob with
      | some g => .ok (String.ofList project, g)
      | none => .error (.glob (String.ofList glob))
  | _ => .error (.glob text)

/-- Reads a stored entry. -/
def ofEntry (entry : List UInt8) : Except RefFault (String × Glob) :=
  match Text.Utf8.decode? entry with
  | some text => ofEntryText text
  | none => .error (.glob (Text.Utf8.decodeLossy entry))

/-- Reads stored entries, up to the first bad one. -/
def ofEntries (entries : List (List UInt8)) : Except RefFault (ByProject Glob) :=
  (entries.mapM ofEntry).map ByProject.ofList

end Glob

end ReviewSearch
