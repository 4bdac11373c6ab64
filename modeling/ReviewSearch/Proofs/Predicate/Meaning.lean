/-
ReviewSearch.Proofs.Predicate.Meaning — what the nodes of a predicate
mean, and what leaves their meaning alone.

* `satisfiedBy_conj`, `satisfiedBy_disj` — the order in which the
  children are asked decides nothing;
* `satisfiedBy_and`, `satisfiedBy_or` — normal form keeps the meaning, and
  `leaves_and`, `leaves_or` the leaves;
* `satisfiedBy_withLimit`, `cost_withLimit` — a limit accepts every
  record at no cost, so raising limits changes neither;
* `leaves_withLimit`, `Leaf.terms_map_raise` — nor does it change the
  leaves that are no limits.

`termCount` is the number of leaves that count against an index's bound:
all but the limits.
-/
import Mathlib.Data.List.Basic
import ReviewSearch.Predicate.Evaluation

namespace ReviewSearch

/-! ## Lists -/

/-- Tests that agree on the items of a list agree on all of it, and on any
of it. -/
theorem all_congr_mem {α : Type} {xs : List α} {f g : α → Bool} (h : ∀ x ∈ xs, f x = g x) :
    xs.all f = xs.all g := by
  rw [Bool.eq_iff_iff, List.all_eq_true, List.all_eq_true]
  exact forall₂_congr fun x hx => by rw [h x hx]

theorem any_congr_mem {α : Type} {xs : List α} {f g : α → Bool} (h : ∀ x ∈ xs, f x = g x) :
    xs.any f = xs.any g := by
  rw [Bool.eq_iff_iff, List.any_eq_true, List.any_eq_true]
  exact exists_congr fun x => and_congr_right fun hx => by rw [h x hx]

/-! ## Leaves -/

namespace Leaf

variable {l : Leaf}

/-- The leaf, with its limit raised to `n` if it is one. -/
def raise (n : Nat) (l : Leaf) : Leaf :=
  if l.isLimit then .limit n else l

theorem isLimit_raise (n : Nat) (l : Leaf) : (l.raise n).isLimit = l.isLimit := by
  unfold raise
  split
  next h => exact h.symm
  · rfl

theorem raise_of_not_isLimit {n : Nat} (h : l.isLimit = false) : l.raise n = l := by
  rw [raise, h]
  rfl

theorem eq_limit_of_isLimit_raise {n : Nat} (h : (l.raise n).isLimit = true) :
    l.raise n = .limit n := by
  rw [isLimit_raise] at h
  exact if_pos h

/-- The leaves that count against an index's bound: all but the limits. -/
def terms (ls : List Leaf) : List Leaf :=
  ls.filter fun l => !l.isLimit

theorem terms_append (ls ls' : List Leaf) : terms (ls ++ ls') = terms ls ++ terms ls' :=
  List.filter_append ..

theorem terms_eq_self {ls : List Leaf} (h : ∀ l ∈ ls, l.isLimit = false) : terms ls = ls := by
  rw [terms, List.filter_eq_self]
  intro l hl
  rw [h l hl]
  rfl

/-- Raising limits changes no other leaf. -/
theorem terms_map_raise (n : Nat) (ls : List Leaf) : terms (ls.map (raise n)) = terms ls := by
  induction ls with
  | nil => rfl
  | cons l ls ih =>
    rw [List.map_cons, terms, terms, List.filter_cons, List.filter_cons, isLimit_raise]
    cases h : l.isLimit with
    | true => exact ih
    | false =>
      rw [raise_of_not_isLimit h]
      exact congrArg (l :: ·) ih

end Leaf

namespace Predicate

variable {d : Document}

/-! ## Nodes -/

theorem trials_eq_map (ps : List Predicate) :
    trials d ps = ps.map fun p => ⟨p.cost, p.satisfiedBy d⟩ := by
  induction ps with
  | nil => rfl
  | cons p ps ih => simp [trials, ih]

@[simp] theorem satisfiedBy_leaf (l : Leaf) : (leaf l).satisfiedBy d = l.satisfiedBy d := rfl

@[simp] theorem satisfiedBy_neg (p : Predicate) :
    (neg p).satisfiedBy d = !p.satisfiedBy d := rfl

/-- An AND is satisfied by the records that satisfy all its children. -/
@[simp] theorem satisfiedBy_conj (ps : List Predicate) :
    (conj ps).satisfiedBy d = ps.all (satisfiedBy d) := by
  have h : (Trial.inOrder (trials d ps)).Perm (trials d ps) := Order.sortBy_perm _ _
  rw [satisfiedBy, h.all_eq, trials_eq_map, List.all_map]
  rfl

/-- An OR is satisfied by the records that satisfy one of its children. -/
@[simp] theorem satisfiedBy_disj (ps : List Predicate) :
    (disj ps).satisfiedBy d = ps.any (satisfiedBy d) := by
  have h : (Trial.inOrder (trials d ps)).Perm (trials d ps) := Order.sortBy_perm _ _
  rw [satisfiedBy, h.any_eq, trials_eq_map, List.any_map]
  rfl

/-! ## Normal form -/

section NormalForm

variable {α : Type} {f : Predicate → α} {g : List Predicate → α}

/-- What is the same of a node as of its list of children, and of a single
child as of itself, is the same of their conjunction in normal form. -/
theorem apply_and (hone : ∀ p, f p = g [p]) (hnode : ∀ ps, f (.conj ps) = g ps)
    (ps : List Predicate) : f (.and ps) = g (ps.flatMap conjuncts) := by
  unfold Predicate.and
  split
  · next p hp => rw [hone, hp]
  · rw [hnode]

theorem apply_or (hone : ∀ p, f p = g [p]) (hnode : ∀ ps, f (.disj ps) = g ps)
    (ps : List Predicate) : f (.or ps) = g (ps.flatMap disjuncts) := by
  unfold Predicate.or
  split
  · next p hp => rw [hone, hp]
  · rw [hnode]

end NormalForm

theorem all_conjuncts (p : Predicate) :
    p.conjuncts.all (satisfiedBy d) = p.satisfiedBy d := by
  cases p <;> simp [conjuncts]

theorem any_disjuncts (p : Predicate) :
    p.disjuncts.any (satisfiedBy d) = p.satisfiedBy d := by
  cases p <;> simp [disjuncts]

@[simp] theorem satisfiedBy_and (ps : List Predicate) :
    (Predicate.and ps).satisfiedBy d = ps.all (satisfiedBy d) := by
  rw [apply_and (g := fun ps => ps.all (satisfiedBy d)) (by simp) satisfiedBy_conj]
  simp only [List.all_flatMap, all_conjuncts]

@[simp] theorem satisfiedBy_or (ps : List Predicate) :
    (Predicate.or ps).satisfiedBy d = ps.any (satisfiedBy d) := by
  rw [apply_or (g := fun ps => ps.any (satisfiedBy d)) (by simp) satisfiedBy_disj]
  simp only [List.any_flatMap, any_disjuncts]

/-! ## Leaves and cost -/

theorem leavesOf_eq_flatMap (ps : List Predicate) : leavesOf ps = ps.flatMap leaves := by
  induction ps with
  | nil => rfl
  | cons p ps ih => simp [leavesOf, ih]

@[simp] theorem leaves_leaf (l : Leaf) : (leaf l).leaves = [l] := rfl

@[simp] theorem leaves_conj (ps : List Predicate) : (conj ps).leaves = ps.flatMap leaves :=
  leavesOf_eq_flatMap ps

@[simp] theorem leaves_disj (ps : List Predicate) : (disj ps).leaves = ps.flatMap leaves :=
  leavesOf_eq_flatMap ps

@[simp] theorem leaves_neg (p : Predicate) : (neg p).leaves = p.leaves := rfl

theorem flatMap_leaves_conjuncts (p : Predicate) : p.conjuncts.flatMap leaves = p.leaves := by
  cases p <;> simp [conjuncts]

theorem flatMap_leaves_disjuncts (p : Predicate) : p.disjuncts.flatMap leaves = p.leaves := by
  cases p <;> simp [disjuncts]

/-- Normal form keeps the leaves, in their order. -/
@[simp] theorem leaves_and (ps : List Predicate) :
    (Predicate.and ps).leaves = ps.flatMap leaves := by
  rw [apply_and (g := List.flatMap leaves) (by simp) leaves_conj]
  simp only [List.flatMap_assoc, flatMap_leaves_conjuncts]

@[simp] theorem leaves_or (ps : List Predicate) :
    (Predicate.or ps).leaves = ps.flatMap leaves := by
  rw [apply_or (g := List.flatMap leaves) (by simp) leaves_disj]
  simp only [List.flatMap_assoc, flatMap_leaves_disjuncts]

theorem costOf_eq_foldl (ps : List Predicate) (total : Nat) :
    costOf ps total = (ps.map cost).foldl Cost.add total := by
  induction ps generalizing total with
  | nil => rfl
  | cons p ps ih => simp [costOf, ih]

@[simp] theorem cost_conj (ps : List Predicate) :
    (conj ps).cost = (ps.map cost).foldl Cost.add 0 :=
  costOf_eq_foldl ps 0

@[simp] theorem cost_disj (ps : List Predicate) :
    (disj ps).cost = (ps.map cost).foldl Cost.add 0 :=
  costOf_eq_foldl ps 0

@[simp] theorem cost_neg (p : Predicate) : (neg p).cost = p.cost := rfl

/-- How many leaves count against an index's bound: all but the
limits. -/
def termCount (p : Predicate) : Nat :=
  p.leaves.countP fun l => !l.isLimit

def termCountOf (ps : List Predicate) : Nat :=
  (leavesOf ps).countP fun l => !l.isLimit

theorem termCount_leaf (l : Leaf) : (leaf l).termCount = if l.isLimit then 0 else 1 := by
  unfold termCount
  cases h : l.isLimit <;> simp [h]

@[simp] theorem termCount_conj (ps : List Predicate) :
    (conj ps).termCount = termCountOf ps := rfl

@[simp] theorem termCount_disj (ps : List Predicate) :
    (disj ps).termCount = termCountOf ps := rfl

@[simp] theorem termCountOf_nil : termCountOf [] = 0 := rfl

@[simp] theorem termCountOf_cons (p : Predicate) (ps : List Predicate) :
    termCountOf (p :: ps) = p.termCount + termCountOf ps :=
  List.countP_append

@[simp] theorem termCount_neg (p : Predicate) : (neg p).termCount = p.termCount := rfl

/-! ## Raising limits -/

mutual

/-- The tree with every limit set to `n`. -/
def withLimit (n : Nat) : Predicate → Predicate
  | .leaf l => if l.isLimit then .leaf (.limit n) else .leaf l
  | .conj ps => .conj (withLimitAll n ps)
  | .disj ps => .disj (withLimitAll n ps)
  | .neg p => .neg (withLimit n p)

def withLimitAll (n : Nat) : List Predicate → List Predicate
  | [] => []
  | p :: ps => withLimit n p :: withLimitAll n ps

end

theorem withLimitAll_eq_map (n : Nat) (ps : List Predicate) :
    withLimitAll n ps = ps.map (withLimit n) := by
  induction ps with
  | nil => rfl
  | cons p ps ih => simp [withLimitAll, ih]

theorem withLimit_leaf_of_isLimit (n : Nat) {l : Leaf} (h : l.isLimit) :
    (leaf l).withLimit n = leaf (.limit n) := by
  simp [withLimit, h]

theorem withLimit_leaf_of_not_isLimit (n : Nat) {l : Leaf} (h : ¬l.isLimit) :
    (leaf l).withLimit n = leaf l := by
  simp [withLimit, h]

@[simp] theorem withLimit_conj (n : Nat) (ps : List Predicate) :
    (conj ps).withLimit n = conj (ps.map (withLimit n)) := by
  rw [withLimit, withLimitAll_eq_map]

@[simp] theorem withLimit_disj (n : Nat) (ps : List Predicate) :
    (disj ps).withLimit n = disj (ps.map (withLimit n)) := by
  rw [withLimit, withLimitAll_eq_map]

@[simp] theorem withLimit_neg (n : Nat) (p : Predicate) :
    (neg p).withLimit n = neg (p.withLimit n) := by
  rw [withLimit]

theorem leaves_withLimit (n : Nat) (p : Predicate) :
    (p.withLimit n).leaves = p.leaves.map (Leaf.raise n) := by
  have hall {ps : List Predicate}
      (ih : ∀ p ∈ ps, (p.withLimit n).leaves = p.leaves.map (Leaf.raise n)) :
      (ps.map (withLimit n)).flatMap leaves = (ps.flatMap leaves).map (Leaf.raise n) := by
    rw [List.flatMap_map, List.map_flatMap]
    exact List.flatMap_congr ih
  induction p with
  | leaf l =>
    by_cases h : l.isLimit
    · simp [withLimit_leaf_of_isLimit n h, Leaf.raise, h]
    · simp [withLimit_leaf_of_not_isLimit n h, Leaf.raise, h]
  | conj ps ih => rw [withLimit_conj, leaves_conj, leaves_conj, hall ih]
  | disj ps ih => rw [withLimit_disj, leaves_disj, leaves_disj, hall ih]
  | neg p ih => rw [withLimit_neg, leaves_neg, leaves_neg, ih]

theorem satisfiedBy_of_isLimit {l : Leaf} (h : l.isLimit) : l.satisfiedBy d = true := by
  simp [Leaf.satisfiedBy, h]

theorem cost_of_isLimit {l : Leaf} (h : l.isLimit) : l.cost = 0 := by
  unfold Leaf.isLimit Leaf.limit? at h
  unfold Leaf.cost
  cases ho : l.operand <;> simp [ho] at h ⊢

@[simp] theorem satisfiedBy_withLimit (n : Nat) (p : Predicate) :
    (p.withLimit n).satisfiedBy d = p.satisfiedBy d := by
  induction p with
  | leaf l =>
    by_cases h : l.isLimit
    · rw [withLimit_leaf_of_isLimit n h, satisfiedBy_leaf, satisfiedBy_leaf,
        satisfiedBy_of_isLimit h]
      exact satisfiedBy_of_isLimit rfl
    · rw [withLimit_leaf_of_not_isLimit n h]
  | conj ps ih =>
    rw [withLimit_conj, satisfiedBy_conj, satisfiedBy_conj, List.all_map]
    exact all_congr_mem ih
  | disj ps ih =>
    rw [withLimit_disj, satisfiedBy_disj, satisfiedBy_disj, List.any_map]
    exact any_congr_mem ih
  | neg p ih => rw [withLimit_neg, satisfiedBy_neg, satisfiedBy_neg, ih]

@[simp] theorem cost_withLimit (n : Nat) (p : Predicate) : (p.withLimit n).cost = p.cost := by
  induction p with
  | leaf l =>
    by_cases h : l.isLimit
    · rw [withLimit_leaf_of_isLimit n h, cost, cost, cost_of_isLimit h]
      rfl
    · rw [withLimit_leaf_of_not_isLimit n h]
  | conj ps ih =>
    rw [withLimit_conj, cost_conj, cost_conj, List.map_map]
    exact congrArg _ (List.map_congr_left ih)
  | disj ps ih =>
    rw [withLimit_disj, cost_disj, cost_disj, List.map_map]
    exact congrArg _ (List.map_congr_left ih)
  | neg p ih => rw [withLimit_neg, cost_neg, cost_neg, ih]

/-- The last limit that is set counts. -/
@[simp] theorem withLimit_withLimit (m n : Nat) (p : Predicate) :
    (p.withLimit m).withLimit n = p.withLimit n := by
  induction p with
  | leaf l =>
    by_cases h : l.isLimit
    · rw [withLimit_leaf_of_isLimit m h, withLimit_leaf_of_isLimit n h]
      exact withLimit_leaf_of_isLimit n rfl
    · rw [withLimit_leaf_of_not_isLimit m h]
  | conj ps ih => simpa using ih
  | disj ps ih => simpa using ih
  | neg p ih => rw [withLimit_neg, withLimit_neg, withLimit_neg, ih]

@[simp] theorem isLimit_withLimit (n : Nat) (p : Predicate) :
    (p.withLimit n).isLimit = p.isLimit := by
  cases p with
  | leaf l =>
    by_cases h : l.isLimit
    · rw [withLimit_leaf_of_isLimit n h]
      simp [isLimit, h]
      rfl
    · rw [withLimit_leaf_of_not_isLimit n h]
  | conj ps => rw [withLimit_conj]; rfl
  | disj ps => rw [withLimit_disj]; rfl
  | neg p => rw [withLimit_neg]; rfl

end Predicate

end ReviewSearch
