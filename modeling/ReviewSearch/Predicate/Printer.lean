/-
ReviewSearch.Predicate.Printer — predicates as query text.

A child that is an AND or an OR stands in parentheses. A NOT is a minus
sign, directly before a leaf or another NOT and before parentheses
otherwise. A node without children has no text.
-/
import ReviewSearch.Predicate.Basic

namespace ReviewSearch.Predicate

/-- Whether the text of a child needs parentheses inside an AND, an OR or
a NOT. -/
def needsGroup : Predicate → Bool
  | .conj _ | .disj _ => true
  | .leaf _ | .neg _ => false

def group (cs : List Char) : List Char :=
  '(' :: cs ++ [')']

/-- Texts with a separator between them. -/
def intersperse (separator : List Char) : List (List Char) → List Char
  | [] => []
  | [t] => t
  | t :: ts => t ++ separator ++ intersperse separator ts

mutual

/-- The query text of a tree. -/
def chars : Predicate → List Char
  | .leaf l => l.chars
  | .conj ps => intersperse [' '] (childChars ps)
  | .disj ps => intersperse [' ', 'O', 'R', ' '] (childChars ps)
  | .neg p => '-' :: if p.needsGroup then group (chars p) else chars p

def childChars : List Predicate → List (List Char)
  | [] => []
  | p :: ps => (if p.needsGroup then group (chars p) else chars p) :: childChars ps

end

def display (p : Predicate) : String :=
  String.ofList p.chars

/-! ## Rebuilding -/

/-- A node of the same kind over other children, shaped as asked for. A
leaf takes no children and gives itself; a NOT takes exactly one. -/
def withChildren (p : Predicate) (cs : List Predicate) : Except Fault Predicate :=
  match p with
  | .leaf _ =>
    if cs.isEmpty then .ok p
    else .error (.argument
      (p.display ++ " does not take children, got " ++ toString cs.length))
  | .neg _ =>
    match cs with
    | [c] => .ok (.neg c)
    | _ => .error (.argument "NOT requires exactly one child")
  | .conj _ => .ok (.conj cs)
  | .disj _ => .ok (.disj cs)

end ReviewSearch.Predicate
