/-
ReviewSearch.Query.Parser — from query text to a predicate.

    query       := alternatives
    alternatives := all ( OR all )*
    all         := operand ( [AND] operand )*
    operand     := - operand | NOT operand | ( alternatives ) | term

Operands side by side are ANDed. A minus sign, a NOT and a parenthesis
each open a LEVEL, and a query has at most `maxLevels` of them inside one
another: the number of levels that are left is what the reader recurses
on.

A term is resolved by the dialect as soon as it is read, so of two things
wrong with a query the one further left is reported.
-/
import ReviewSearch.Query.Dialect
import ReviewSearch.Query.Token

namespace ReviewSearch.Query

/-- Why a text gives no predicate: its form, or one of its operators. -/
inductive ParseFault where
  | defect (d : Defect)
  | operator (f : Fault)
  deriving DecidableEq, Repr

def ParseFault.toFault : ParseFault → Fault
  | .defect d => d.toFault
  | .operator f => f

/-- Reads a predicate off the front of a token sequence. -/
abbrev Reader : Type := List Lexeme → Except ParseFault (Predicate × List Lexeme)

/-- The deepest nesting of minus signs, NOTs and parentheses. -/
def maxLevels : Nat := 100

/-- An operator must be followed by something other than a closing
parenthesis. -/
def expectOperand (operator : List Char) : List Lexeme → Except ParseFault Unit
  | [] => .error (.defect (.dangling operator))
  | t :: _ =>
    if t.token = .closeGroup then .error (.defect (.dangling operator)) else .ok ()

/-- Further operands of an AND, up to a closing parenthesis, an OR or the
end. Each takes at least one token; `fuel` bounds their number. -/
def moreConjuncts (operand : Reader) :
    Nat → List Lexeme → Except ParseFault (List Predicate × List Lexeme)
  | 0, ts => .ok ([], ts)
  | _, [] => .ok ([], [])
  | fuel + 1, t :: ts =>
    match t.token with
    | .closeGroup | .word .or => .ok ([], t :: ts)
    | .word .and => do
      expectOperand Keyword.and.chars ts
      let (p, ts) ← operand ts
      let (ps, ts) ← moreConjuncts operand fuel ts
      return (p :: ps, ts)
    | _ => do
      let (p, ts) ← operand (t :: ts)
      let (ps, ts) ← moreConjuncts operand fuel ts
      return (p :: ps, ts)

/-- Operands side by side. -/
def conjunction (operand : Reader) : Reader := fun ts => do
  let (p, ts) ← operand ts
  let (ps, ts) ← moreConjuncts operand ts.length ts
  return (.and (p :: ps), ts)

/-- Further alternatives, each behind an OR. -/
def moreDisjuncts (operand : Reader) :
    Nat → List Lexeme → Except ParseFault (List Predicate × List Lexeme)
  | 0, ts => .ok ([], ts)
  | _, [] => .ok ([], [])
  | fuel + 1, t :: ts =>
    match t.token with
    | .word .or => do
      expectOperand Keyword.or.chars ts
      let (p, ts) ← conjunction operand ts
      let (ps, ts) ← moreDisjuncts operand fuel ts
      return (p :: ps, ts)
    | _ => .ok ([], t :: ts)

/-- Alternatives with OR between them. -/
def disjunction (operand : Reader) : Reader := fun ts => do
  let (p, ts) ← conjunction operand ts
  let (ps, ts) ← moreDisjuncts operand ts.length ts
  return (.or (p :: ps), ts)

/-- Reads what stands inside a level, if there is a level left. -/
def nested (inner : Option Reader) (what : Reader → Reader) : Reader := fun ts =>
  match inner with
  | none => .error (.defect .tooDeep)
  | some operand => what operand ts

/-- A negated operand. -/
def negation (inner : Option Reader) (operator : List Char) : Reader := fun ts => do
  expectOperand operator ts
  let (p, ts) ← nested inner id ts
  return (.not p, ts)

/-- One operand; `inner` reads an operand one level further in. -/
def operandWith (dialect : Dialect) (inner : Option Reader) : Reader
  | [] => .error (.defect .endOfQuery)
  | t :: ts =>
    match t.token with
    | .minus => negation inner ['-'] ts
    | .word .not => negation inner Keyword.not.chars ts
    | .openGroup => do
      let (p, rest) ← nested inner disjunction ts
      match rest with
      | [] => .error (.defect (.unbalanced t.source))
      | close :: rest =>
        if close.token = .closeGroup then return (p, rest)
        else .error (.defect (.unbalanced t.source))
    | .closeGroup => .error (.defect (.unexpected [')']))
    | .word k => .error (.defect (.dangling k.chars))
    | .broken d => .error (.defect d)
    | .term name value =>
      match dialect.resolve (String.ofList name) (String.ofList value) with
      | .ok p => .ok (p, ts)
      | .error f => .error (.operator f)

/-- One operand, with so many levels left. -/
def operand (dialect : Dialect) : Nat → Reader
  | 0 => operandWith dialect none
  | levels + 1 => operandWith dialect (some (operand dialect levels))

/-- The predicate of a token sequence. -/
def parseLexemes (dialect : Dialect) (ts : List Lexeme) : Except ParseFault Predicate :=
  if ts.isEmpty then .error (.defect .emptyQuery)
  else
    match disjunction (operand dialect maxLevels) ts with
    | .error e => .error e
    | .ok (p, []) => .ok p
    | .ok (_, t :: _) => .error (.defect (.unexpected t.source))

/-- The predicate of a query text, with what is wrong told apart. -/
def parseText (dialect : Dialect) (text : List Char) : Except ParseFault Predicate :=
  parseLexemes dialect (lexemes text)

end ReviewSearch.Query

namespace ReviewSearch.Dialect

/-- The predicate of a query text. -/
def parse (d : Dialect) (text : String) : Except Fault Predicate :=
  (Query.parseText d text.toList).mapError Query.ParseFault.toFault

end ReviewSearch.Dialect
