/-
ReviewSearch.Query.Token — the pieces of a query text.

A query is a sequence of parentheses, minus signs, the words OR, AND and
NOT, and terms `name:value`, with blanks before any of them.

* A word counts as OR, AND or NOT only in capitals, and only if the text
  ends behind it or goes on with a blank, a parenthesis or a minus sign.
* A name is a run of ASCII letters, digits and underscores. Everything
  behind its colon is the value, further colons included.
* A value stands between quotes, where a backslash takes the next
  character as it is, or between braces, where every character stands for
  itself; or it is bare and ends before a blank or a closing parenthesis.

A piece that is none of these is a `broken` token and ends the sequence.
It says what is wrong with it, but it is an error only for a reader that
gets to it: what is wrong with the text before it comes first.
-/
import ReviewSearch.Fault
import ReviewSearch.Text.Blank

namespace ReviewSearch.Query

/-- What makes a text no query, apart from its operators. A fragment is a
piece of the text. -/
inductive Defect where
  | emptyQuery
  | endOfQuery
  | tooDeep
  | unexpected (fragment : List Char)
  | unbalanced (fragment : List Char)
  /-- An operator without an operand. -/
  | dangling (operator : List Char)
  | unexpectedCharacter (fragment : List Char)
  | notATerm (fragment : List Char)
  | missingValue (fragment : List Char)
  | openQuote (fragment : List Char)
  | openBrace (fragment : List Char)
  deriving DecidableEq, Repr

namespace Defect

/-- What is wrong, in words. -/
def reason : Defect → String
  | emptyQuery => "empty query"
  | endOfQuery => "unexpected end of query"
  | tooDeep => "query nesting too deep"
  | unexpected _ => "unexpected"
  | unbalanced _ => "unbalanced parenthesis"
  | dangling _ => "dangling operator"
  | unexpectedCharacter _ => "unexpected character"
  | notATerm _ => "expected field:value"
  | missingValue _ => "missing value"
  | openQuote _ => "unterminated quoted phrase"
  | openBrace _ => "unterminated brace phrase"

/-- Where it is wrong. -/
def fragment? : Defect → Option (List Char)
  | emptyQuery | endOfQuery | tooDeep => none
  | unexpected f | unbalanced f | dangling f | unexpectedCharacter f | notATerm f
  | missingValue f | openQuote f | openBrace f => some f

def toFault (d : Defect) : Fault :=
  match d.fragment? with
  | none => .refused d.reason
  | some f => .refusedAt d.reason (String.ofList f)

end Defect

inductive Keyword where
  | or
  | and
  | not
  deriving DecidableEq, Repr

def Keyword.chars : Keyword → List Char
  | or => ['O', 'R']
  | and => ['A', 'N', 'D']
  | not => ['N', 'O', 'T']

inductive Token where
  | openGroup
  | closeGroup
  | minus
  | word (k : Keyword)
  | term (name value : List Char)
  | broken (d : Defect)
  deriving DecidableEq, Repr

/-- A token with the text from its first character to the end. -/
structure Lexeme where
  token : Token
  source : List Char
  deriving DecidableEq, Repr

/-! ## Scanning -/

def isNameChar (c : Char) : Bool :=
  c.isAlphanum || c == '_'

/-- Whether a bare value goes on with a character. -/
def isBareChar (c : Char) : Bool :=
  !(Text.isBlank c || c == ')')

/-- Whether a word ends before this text. -/
def endsWord : List Char → Bool
  | [] => true
  | c :: _ => Text.isBlank c || c == '(' || c == ')' || c == '-'

/-- What follows a keyword at the start of a text. -/
def afterKeyword? (k : Keyword) (cs : List Char) : Option (List Char) :=
  let rest := cs.drop k.chars.length
  if k.chars.isPrefixOf cs && endsWord rest then some rest else none

/-- The value behind an opening quote, and the text behind the closing
one. -/
def scanQuoted : List Char → Option (List Char × List Char)
  | [] => none
  | '"' :: cs => some ([], cs)
  | '\\' :: c :: cs => (scanQuoted cs).map fun (v, rest) => (c :: v, rest)
  | ['\\'] => none
  | c :: cs => (scanQuoted cs).map fun (v, rest) => (c :: v, rest)

/-- The value behind an opening brace, and the text behind the closing
one. -/
def scanBraced : List Char → Option (List Char × List Char)
  | [] => none
  | c :: cs =>
    if c = '\x7d' then some ([], cs)
    else (scanBraced cs).map fun (v, rest) => (c :: v, rest)

/-- The value behind a colon. -/
def scanValue (name : List Char) : List Char → Except Defect (List Char × List Char)
  | [] => .error (.missingValue (name ++ [':']))
  | c :: cs =>
    if c = '"' then
      match scanQuoted cs with
      | some r => .ok r
      | none => .error (.openQuote (c :: cs))
    else if c = '\x7b' then
      match scanBraced cs with
      | some r => .ok r
      | none => .error (.openBrace (c :: cs))
    else if isBareChar c then
      .ok ((c :: cs).takeWhile isBareChar, (c :: cs).dropWhile isBareChar)
    else .error (.missingValue (name ++ [':']))

/-- A term at the start of a text that does not begin with a blank. -/
def scanTerm (cs : List Char) : Token × List Char :=
  let name := cs.takeWhile isNameChar
  let rest := cs.dropWhile isNameChar
  match rest with
  | ':' :: rest =>
    match scanValue name rest with
    | .ok (value, rest) => (.term name value, rest)
    | .error d => (.broken d, [])
  | rest =>
    let word := name ++ rest.takeWhile isBareChar
    (.broken (if name.isEmpty then .unexpectedCharacter word else .notATerm word), [])

/-- The token at the start of a text that does not begin with a blank. -/
def scanToken (cs : List Char) : Token × List Char :=
  match cs with
  | '(' :: rest => (.openGroup, rest)
  | ')' :: rest => (.closeGroup, rest)
  | '-' :: rest => (.minus, rest)
  | cs =>
    match afterKeyword? .or cs, afterKeyword? .and cs, afterKeyword? .not cs with
    | some rest, _, _ => (.word .or, rest)
    | _, some rest, _ => (.word .and, rest)
    | _, _, some rest => (.word .not, rest)
    | none, none, none => scanTerm cs

/-- The tokens of a text. Each takes at least one character; `fuel`
bounds their number. -/
def scanAll : Nat → List Char → List Lexeme
  | 0, _ => []
  | fuel + 1, cs =>
    match Text.skipBlank cs with
    | [] => []
    | c :: cs =>
      let (t, rest) := scanToken (c :: cs)
      ⟨t, c :: cs⟩ :: scanAll fuel rest

/-- The tokens of a text, up to the first broken one. -/
def lexemes (cs : List Char) : List Lexeme :=
  scanAll cs.length cs

end ReviewSearch.Query
