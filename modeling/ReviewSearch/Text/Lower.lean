/-
ReviewSearch.Text.Lower — lower-casing of whole texts.

`lower` maps every character to its lower-case form. Two characters are
special: the capital I with a dot has a form of two characters, and the
capital sigma has two forms, of which the FINAL one is used where the
sigma ends a word. Whether it does depends on the characters around it,
so lower-casing is a function of a text and not of its characters one by
one.
-/
import ReviewSearch.Text.CaseTable

namespace ReviewSearch.Text

/-- The property `Cased`. -/
def isCased (c : Char) : Bool :=
  inRanges casedRanges c.toNat

/-- The property `Case_Ignorable`. -/
def isCaseIgnorable (c : Char) : Bool :=
  inRanges ignorableRanges c.toNat

def capitalSigma : Char := Char.ofNat 0x3A3
def smallSigma : Char := Char.ofNat 0x3C3
def finalSigma : Char := Char.ofNat 0x3C2
def dottedCapitalI : Char := Char.ofNat 0x130

/-- The lower-case form of a character that needs no context. -/
def lowerChar (c : Char) : List Char :=
  if c = dottedCapitalI then ['i', Char.ofNat 0x307]
  else
    match lowerRuns.findSome? (·.image? c.toNat) with
    | some n => [Char.ofNat n]
    | none => [c]

/-- Whether the nearest character that counts is a cased one. Read
forwards from a sigma it looks at what follows, and on the reversed text
at what precedes. -/
def meetsCased (cs : List Char) : Bool :=
  match cs.dropWhile isCaseIgnorable with
  | [] => false
  | c :: _ => isCased c

/-- A sigma ends a word if a cased character precedes it and none
follows. -/
def endsWord (before after : List Char) : Bool :=
  meetsCased before && !meetsCased after

/-- Lower-casing of `cs`, whose preceding text is `before` in reverse. -/
def lowerFrom (before : List Char) : List Char → List Char
  | [] => []
  | c :: cs =>
    let image :=
      if c = capitalSigma then
        [if endsWord before cs then finalSigma else smallSigma]
      else lowerChar c
    image ++ lowerFrom (c :: before) cs

/-- The lower-case form of a text. -/
def lower (cs : List Char) : List Char :=
  lowerFrom [] cs

/-- Lower-casing of the letters A to Z alone; names of operators and
status words are compared under it. -/
def lowerAscii (s : String) : String :=
  String.ofList (s.toList.map Char.toLower)

end ReviewSearch.Text
