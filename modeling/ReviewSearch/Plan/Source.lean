/-
ReviewSearch.Plan.Source — plans: where results come from.

A plan is a tree of sources. An index query is answered by the index; a
filter is a predicate that is evaluated in memory, a matcher a test that
the caller brings along. A source is READABLE if it can list its own
results: an index query is, an AND is if one of its children is, and an
OR always is, for it is built from readable children only.

Every source can also judge a single record. Children are asked in
ascending order of their cost, and the first that decides ends the
asking; a `Verdict` says which matchers were asked on the way.
-/
import ReviewSearch.Index.Basic
import ReviewSearch.Predicate.Evaluation

namespace ReviewSearch

/-- A predicate that the index answers, what the caller wants of it, and
what the index is asked for at once. -/
structure IndexQuery where
  predicate : Predicate
  window : Window
  backend : Window
  deriving DecidableEq

namespace IndexQuery

def ofWindow (p : Predicate) (w : Window) (maxLimit : Nat) : IndexQuery :=
  ⟨p, w, w.forBackend maxLimit⟩

/-- Results that a full read delivers. -/
def wanted (q : IndexQuery) : Nat :=
  q.window.wanted

end IndexQuery

/-- A test of the caller's own. Two matchers are the same only if they
have the same identity. -/
structure Matcher where
  identity : Nat
  name : String
  cost : Nat
  accepts : Document → Bool

/-- A matcher was asked about a record. -/
structure Consult where
  matcher : String
  document : Nat
  deriving DecidableEq, Repr

inductive Source where
  | indexed (q : IndexQuery)
  | conj (children : List Source)
  | disj (children : List Source)
  | filter (p : Predicate)
  | matcher (m : Matcher)

/-- Induction over a plan, with the hypothesis for every child of a
node. -/
@[elab_as_elim, induction_eliminator]
theorem Source.induction {motive : Source → Prop} (indexed : ∀ q, motive (.indexed q))
    (conj : ∀ ss, (∀ s ∈ ss, motive s) → motive (.conj ss))
    (disj : ∀ ss, (∀ s ∈ ss, motive s) → motive (.disj ss))
    (filter : ∀ p, motive (.filter p)) (matcher : ∀ m, motive (.matcher m)) (s : Source) :
    motive s :=
  Source.rec (motive_2 := fun ss => ∀ s ∈ ss, motive s) indexed conj disj filter matcher
    (by simp) (fun s ss hs hss => by simpa using ⟨hs, hss⟩) s

/-! ## Verdicts -/

/-- A judgement on a record, and the matchers asked for it. -/
structure Verdict where
  answer : Bool
  consults : List Consult
  deriving DecidableEq, Repr

namespace Verdict

/-- Asks in turn until one says no. -/
def every : List Verdict → Verdict
  | [] => ⟨true, []⟩
  | v :: vs =>
    if v.answer then
      let w := every vs
      ⟨w.answer, v.consults ++ w.consults⟩
    else v

/-- Asks in turn until one says yes. -/
def some : List Verdict → Verdict
  | [] => ⟨false, []⟩
  | v :: vs =>
    if v.answer then v
    else
      let w := some vs
      ⟨w.answer, v.consults ++ w.consults⟩

end Verdict

namespace Source

/-! ## Cost and text -/

mutual

def cost : Source → Nat
  | .indexed q => q.predicate.cost
  | .conj ss | .disj ss => costOf ss 0
  | .filter p => p.cost
  | .matcher m => m.cost

def costOf : List Source → Nat → Nat
  | [], total => total
  | s :: ss, total => costOf ss (Cost.add total (cost s))

end

mutual

def chars : Source → List Char
  | .indexed q => "index(".toList ++ q.predicate.chars ++ [')']
  | .conj ss => "and(".toList ++ Predicate.intersperse [',', ' '] (charsOf ss) ++ [')']
  | .disj ss => "or(".toList ++ Predicate.intersperse [',', ' '] (charsOf ss) ++ [')']
  | .filter p => p.chars
  | .matcher m => m.name.toList

def charsOf : List Source → List (List Char)
  | [] => []
  | s :: ss => chars s :: charsOf ss

end

def display (s : Source) : String :=
  String.ofList s.chars

def children : Source → List Source
  | .conj ss | .disj ss => ss
  | _ => []

mutual

/-- Whether two plans are the same. -/
def same : Source → Source → Bool
  | .indexed a, .indexed b => a == b
  | .conj as, .conj bs => sameList as bs
  | .disj as, .disj bs => sameList as bs
  | .filter a, .filter b => a == b
  | .matcher a, .matcher b => a.identity == b.identity
  | _, _ => false

def sameList : List Source → List Source → Bool
  | [], [] => true
  | a :: as, b :: bs => same a b && sameList as bs
  | _, _ => false

end

instance : BEq Source := ⟨same⟩

/-! ## Readable sources -/

mutual

/-- Whether a source can list its results. -/
def readable : Source → Bool
  | .indexed _ | .disj _ => true
  | .conj ss => anyReadable ss
  | .filter _ | .matcher _ => false

def anyReadable : List Source → Bool
  | [] => false
  | s :: ss => readable s || anyReadable ss

end

/-- An OR of readable sources; anything else is a fault of the caller. -/
def or (ss : List Source) : Except Fault Source :=
  match ss.find? fun s => !s.readable with
  | some bad => .error (.contract ("OR child is not a data source: " ++ bad.display))
  | none => .ok (.disj ss)

mutual

/-- The predicates whose cardinalities are asked for to estimate a
source, in order. -/
def asks : Source → List Predicate
  | .indexed q => [q.predicate]
  | .conj ss | .disj ss => asksOf ss
  | .filter _ | .matcher _ => []

def asksOf : List Source → List Predicate
  | [] => []
  | s :: ss => (if s.readable then asks s else []) ++ asksOf ss

end

mutual

/-- How many results a readable source has at most, by the cardinalities
of its index queries: the least of an AND's readable children, and the
capped sum over an OR's. -/
def estimate? (size : Predicate → Nat) : Source → Option Nat
  | .indexed q => some (size q.predicate)
  | .conj ss => (estimates size ss).min?
  | .disj ss => some ((estimates size ss).foldl Count.add 0)
  | .filter _ | .matcher _ => none

/-- The estimates of the readable sources of a list. -/
def estimates (size : Predicate → Nat) : List Source → List Nat
  | [] => []
  | s :: ss => (estimate? size s).toList ++ estimates size ss

end

/-- How many results an AND of sources has at most; 0 if none of them is
readable. -/
def estimateOfAll (size : Predicate → Nat) (ss : List Source) : Nat :=
  (estimates size ss).min?.getD 0

/-! ## Judging a record -/

/-- What is known of a child before it is asked. -/
structure Trial where
  cost : Nat
  verdict : Verdict

/-- The verdicts of trials, cheapest first. -/
def Trial.inOrder (ts : List Trial) : List Verdict :=
  (Order.sortByKey Trial.cost ts).map Trial.verdict

mutual

/-- Whether a record belongs to the results, and which matchers were
asked. -/
def judge (d : Document) : Source → Verdict
  | .indexed q => ⟨q.predicate.satisfiedBy d, []⟩
  | .conj ss => Verdict.every (Trial.inOrder (trials d ss))
  | .disj ss => Verdict.some (Trial.inOrder (trials d ss))
  | .filter p => ⟨p.satisfiedBy d, []⟩
  | .matcher m => ⟨m.accepts d, [⟨m.name, d.id⟩]⟩

def trials (d : Document) : List Source → List Trial
  | [] => []
  | s :: ss => ⟨s.cost, judge d s⟩ :: trials d ss

end

/-- Whether a record belongs to the results. -/
def satisfiedBy (d : Document) (s : Source) : Bool :=
  (s.judge d).answer

end Source

end ReviewSearch
