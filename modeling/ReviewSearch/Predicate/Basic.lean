/-
ReviewSearch.Predicate.Basic — trees of conditions on records.

A predicate is a tree of AND, OR and NOT over leaves. The constructors
`conj`, `disj` and `neg` make a node as it is asked for; `and`, `or` and
`not` keep the tree in NORMAL FORM: they splice a child of the same kind
into its parent, return an only child in the place of its parent, and
take a NOT off a NOT. A node without children is possible: an empty AND
is satisfied by every record, an empty OR by none.
-/
import ReviewSearch.Count
import ReviewSearch.Fault
import ReviewSearch.Predicate.Leaf

namespace ReviewSearch

inductive Predicate where
  | leaf (l : Leaf)
  | conj (children : List Predicate)
  | disj (children : List Predicate)
  | neg (child : Predicate)
  deriving Inhabited

namespace Predicate

/-- Induction over a tree, with the hypothesis for every child of a
node. -/
@[elab_as_elim, induction_eliminator]
theorem induction {motive : Predicate → Prop} (leaf : ∀ l, motive (.leaf l))
    (conj : ∀ ps, (∀ p ∈ ps, motive p) → motive (.conj ps))
    (disj : ∀ ps, (∀ p ∈ ps, motive p) → motive (.disj ps))
    (neg : ∀ p, motive p → motive (.neg p)) (p : Predicate) : motive p :=
  Predicate.rec (motive_2 := fun ps => ∀ p ∈ ps, motive p) leaf conj disj neg
    (by simp) (fun p ps hp hps => by simpa using ⟨hp, hps⟩) p

/-! ## Equality -/

mutual

/-- Whether two trees have the same shape and leaves. -/
def same : Predicate → Predicate → Bool
  | .leaf a, .leaf b => a == b
  | .conj as, .conj bs => sameList as bs
  | .disj as, .disj bs => sameList as bs
  | .neg a, .neg b => same a b
  | _, _ => false

def sameList : List Predicate → List Predicate → Bool
  | [], [] => true
  | a :: as, b :: bs => same a b && sameList as bs
  | _, _ => false

end

instance : BEq Predicate := ⟨same⟩

mutual

theorem eq_of_same : ∀ {p q : Predicate}, same p q = true → p = q
  | .leaf a, .leaf b, h => by simp [same] at h; rw [h]
  | .conj as, .conj bs, h => by simp [same] at h; rw [eq_of_sameList h]
  | .disj as, .disj bs, h => by simp [same] at h; rw [eq_of_sameList h]
  | .neg a, .neg b, h => by simp [same] at h; rw [eq_of_same h]
  | .leaf _, .conj _, h | .leaf _, .disj _, h | .leaf _, .neg _, h
  | .conj _, .leaf _, h | .conj _, .disj _, h | .conj _, .neg _, h
  | .disj _, .leaf _, h | .disj _, .conj _, h | .disj _, .neg _, h
  | .neg _, .leaf _, h | .neg _, .conj _, h | .neg _, .disj _, h => by simp [same] at h

theorem eq_of_sameList : ∀ {ps qs : List Predicate}, sameList ps qs = true → ps = qs
  | [], [], _ => rfl
  | p :: ps, q :: qs, h => by
    simp [sameList] at h
    rw [eq_of_same h.1, eq_of_sameList h.2]
  | [], _ :: _, h | _ :: _, [], h => by simp [sameList] at h

end

mutual

theorem same_refl : ∀ p : Predicate, same p p = true
  | .leaf _ => by simp [same]
  | .conj ps => by simp [same, sameList_refl ps]
  | .disj ps => by simp [same, sameList_refl ps]
  | .neg p => by simp [same, same_refl p]

theorem sameList_refl : ∀ ps : List Predicate, sameList ps ps = true
  | [] => rfl
  | p :: ps => by simp [sameList, same_refl p, sameList_refl ps]

end

instance : LawfulBEq Predicate where
  eq_of_beq := eq_of_same
  rfl := same_refl _

instance : DecidableEq Predicate := fun p q =>
  if h : p == q then isTrue (eq_of_beq h)
  else isFalse fun e => h (by rw [e]; exact same_refl q)

/-! ## Building -/

/-- The parts that a child contributes to an AND. -/
def conjuncts : Predicate → List Predicate
  | .conj ps => ps
  | p => [p]

/-- The parts that a child contributes to an OR. -/
def disjuncts : Predicate → List Predicate
  | .disj ps => ps
  | p => [p]

/-- Conjunction in normal form. -/
def and (ps : List Predicate) : Predicate :=
  match ps.flatMap conjuncts with
  | [p] => p
  | qs => .conj qs

/-- Disjunction in normal form. -/
def or (ps : List Predicate) : Predicate :=
  match ps.flatMap disjuncts with
  | [p] => p
  | qs => .disj qs

/-- Negation in normal form. -/
def not : Predicate → Predicate
  | .neg p => p
  | p => .neg p

def children : Predicate → List Predicate
  | .leaf _ => []
  | .conj ps | .disj ps => ps
  | .neg p => [p]

def isLeaf : Predicate → Bool
  | .leaf _ => true
  | _ => false

/-- Whether the tree is a limit leaf. -/
def isLimit : Predicate → Bool
  | .leaf l => l.isLimit
  | _ => false

/-! ## Leaves, limits, cost -/

mutual

/-- The leaves from left to right. -/
def leaves : Predicate → List Leaf
  | .leaf l => [l]
  | .conj ps | .disj ps => leavesOf ps
  | .neg p => leaves p

def leavesOf : List Predicate → List Leaf
  | [] => []
  | p :: ps => leaves p ++ leavesOf ps

end

/-- The smallest cap anywhere in the tree. -/
def minLimit? (p : Predicate) : Option Nat :=
  (p.leaves.filterMap Leaf.limit?).min?

mutual

/-- What it costs to evaluate the tree: the capped sum over its leaves. -/
def cost : Predicate → Nat
  | .leaf l => l.cost
  | .conj ps | .disj ps => costOf ps 0
  | .neg p => cost p

def costOf : List Predicate → Nat → Nat
  | [], total => total
  | p :: ps, total => costOf ps (Cost.add total (cost p))

end

end Predicate

end ReviewSearch
