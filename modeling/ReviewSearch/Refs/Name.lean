/-
ReviewSearch.Refs.Name — which texts are names of refs.

A name has two components or more, separated by slashes, and none of them
is empty or begins with a dot. Nowhere in it are two dots in a row, an
at-sign with a brace behind it, a blank or control character, or one of
`~ ^ : ? [ * \`; and it does not end with a dot or with `.lock`.
-/
import ReviewSearch.Text.Search

namespace ReviewSearch.RefName

/-- Characters that no name has. -/
def isForbidden (c : Char) : Bool :=
  decide (c ≤ ' ') || c == '\x7f' || ['~', '^', ':', '?', '[', '*', '\\'].contains c

/-- Whether a character may stand behind another. -/
def follows (previous c : Char) : Bool :=
  if c = '.' then previous != '/' && previous != '.'
  else if c = '/' then previous != '/'
  else true

/-- Scans a name from behind `previous` on; `slash` says whether a slash
has been seen. -/
def scan (previous : Char) (slash : Bool) : List Char → Bool
  | [] => slash && previous != '.' && previous != '/'
  | c :: cs => !isForbidden c && follows previous c && scan c (slash || c == '/') cs

/-- Whether a text is the name of a ref. -/
def isValid (name : List Char) : Bool :=
  scan '/' false name && !".lock".toList.isSuffixOf name && !Text.occursIn ['@', '\x7b'] name

end ReviewSearch.RefName
