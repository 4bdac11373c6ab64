/-
ReviewSearch.Proofs.Predicate.NormalForm — the trees that `and`, `or` and
`not` make.

A tree is in normal form if the builders would leave each of its nodes as
it is: an AND and an OR have at least two children, none of which they
would splice, and a NOT is not over a NOT.

* `Normal.and`, `Normal.or`, `Normal.not` — the builders make such trees
  of such trees;
* `and_eq_conj`, `or_eq_disj`, `Normal.and_singleton`,
  `Normal.or_singleton` — and give each of them back from its parts.
-/
import Mathlib.Data.List.Basic
import ReviewSearch.Predicate.Basic

namespace ReviewSearch.Predicate

/-- Trees over leaves of a kind that the builders leave as they are. -/
inductive Normal (kind : Leaf → Prop) : Predicate → Prop
  | leaf {l : Leaf} (h : kind l) : Normal kind (.leaf l)
  | conj {ps : List Predicate} (hmany : 2 ≤ ps.length) (hflat : ∀ p ∈ ps, p.conjuncts = [p])
      (h : ∀ p ∈ ps, Normal kind p) : Normal kind (.conj ps)
  | disj {ps : List Predicate} (hmany : 2 ≤ ps.length) (hflat : ∀ p ∈ ps, p.disjuncts = [p])
      (h : ∀ p ∈ ps, Normal kind p) : Normal kind (.disj ps)
  | neg {p : Predicate} (hplain : p.not = .neg p) (h : Normal kind p) : Normal kind (.neg p)

variable {kind : Leaf → Prop} {p : Predicate} {ps : List Predicate}

/-! ## Only children -/

/-- A node, or its only child in its place. -/
def unlessOnly (node : List Predicate → Predicate) : List Predicate → Predicate
  | [p] => p
  | ps => node ps

theorem and_eq (ps : List Predicate) :
    Predicate.and ps = unlessOnly .conj (ps.flatMap conjuncts) := by
  unfold Predicate.and
  rcases ps.flatMap conjuncts with _ | ⟨p, _ | ⟨q, qs⟩⟩ <;> rfl

theorem or_eq (ps : List Predicate) :
    Predicate.or ps = unlessOnly .disj (ps.flatMap disjuncts) := by
  unfold Predicate.or
  rcases ps.flatMap disjuncts with _ | ⟨p, _ | ⟨q, qs⟩⟩ <;> rfl

theorem unlessOnly_of_many {node : List Predicate → Predicate} (hmany : 2 ≤ ps.length) :
    unlessOnly node ps = node ps := by
  match ps, hmany with
  | _ :: _ :: _, _ => rfl

/-- What holds of an only child, and of a node with several, holds of
what is made of any children. -/
theorem unlessOnly_induction {motive : Predicate → Prop} {node : List Predicate → Predicate}
    (hne : ps ≠ []) (only : ∀ p ∈ ps, motive p) (many : 2 ≤ ps.length → motive (node ps)) :
    motive (unlessOnly node ps) := by
  match ps, hne with
  | [p], _ => exact only p List.mem_cons_self
  | p :: q :: ps, _ => exact many (by simp)

/-! ## What the builders leave alone -/

theorem flatMap_of_forall_eq_singleton {f : Predicate → List Predicate}
    (h : ∀ p ∈ ps, f p = [p]) : ps.flatMap f = ps := by
  rw [List.flatMap_congr h, List.flatMap_singleton']

theorem and_eq_conj (hmany : 2 ≤ ps.length) (hflat : ∀ p ∈ ps, p.conjuncts = [p]) :
    Predicate.and ps = .conj ps := by
  rw [and_eq, flatMap_of_forall_eq_singleton hflat, unlessOnly_of_many hmany]

theorem or_eq_disj (hmany : 2 ≤ ps.length) (hflat : ∀ p ∈ ps, p.disjuncts = [p]) :
    Predicate.or ps = .disj ps := by
  rw [or_eq, flatMap_of_forall_eq_singleton hflat, unlessOnly_of_many hmany]

theorem Normal.and_singleton (h : Normal kind p) : Predicate.and [p] = p := by
  rw [and_eq, List.flatMap_singleton]
  cases h with
  | conj hmany => exact unlessOnly_of_many hmany
  | leaf | disj | neg => rfl

theorem Normal.or_singleton (h : Normal kind p) : Predicate.or [p] = p := by
  rw [or_eq, List.flatMap_singleton]
  cases h with
  | disj hmany => exact unlessOnly_of_many hmany
  | leaf | conj | neg => rfl

/-! ## What the builders make -/

/-- A tree that is its own only part. -/
theorem Normal.alone {f : Predicate → List Predicate} (h : Normal kind p) (heq : f p = [p]) :
    f p ≠ [] ∧ ∀ q ∈ f p, Normal kind q ∧ f q = [q] := by
  rw [heq]
  exact ⟨List.cons_ne_nil _ _, List.forall_mem_singleton.mpr ⟨h, heq⟩⟩

theorem Normal.conjuncts (h : Normal kind p) :
    p.conjuncts ≠ [] ∧ ∀ q ∈ p.conjuncts, Normal kind q ∧ q.conjuncts = [q] := by
  cases h with
  | conj hmany hflat h =>
    exact ⟨List.ne_nil_of_length_pos (Nat.lt_of_succ_lt hmany), fun q hq => ⟨h q hq, hflat q hq⟩⟩
  | leaf h => exact (Normal.leaf h).alone rfl
  | disj hmany hflat h => exact (Normal.disj hmany hflat h).alone rfl
  | neg hplain h => exact (Normal.neg hplain h).alone rfl

theorem Normal.disjuncts (h : Normal kind p) :
    p.disjuncts ≠ [] ∧ ∀ q ∈ p.disjuncts, Normal kind q ∧ q.disjuncts = [q] := by
  cases h with
  | disj hmany hflat h =>
    exact ⟨List.ne_nil_of_length_pos (Nat.lt_of_succ_lt hmany), fun q hq => ⟨h q hq, hflat q hq⟩⟩
  | leaf h => exact (Normal.leaf h).alone rfl
  | conj hmany hflat h => exact (Normal.conj hmany hflat h).alone rfl
  | neg hplain h => exact (Normal.neg hplain h).alone rfl

/-- The parts of some children are some parts, each of its kind. -/
theorem flatMap_parts {f : Predicate → List Predicate} {good : Predicate → Prop} (hne : ps ≠ [])
    (h : ∀ p ∈ ps, f p ≠ [] ∧ ∀ q ∈ f p, good q) :
    ps.flatMap f ≠ [] ∧ ∀ q ∈ ps.flatMap f, good q := by
  constructor
  · obtain ⟨p, ps, rfl⟩ := List.exists_cons_of_ne_nil hne
    rw [List.flatMap_cons]
    exact List.append_ne_nil_of_left_ne_nil (h p List.mem_cons_self).1 _
  · intro q hq
    obtain ⟨p, hp, hq⟩ := List.mem_flatMap.mp hq
    exact (h p hp).2 q hq

theorem Normal.and (hne : ps ≠ []) (h : ∀ p ∈ ps, Normal kind p) :
    Normal kind (Predicate.and ps) := by
  obtain ⟨hne, hparts⟩ := flatMap_parts hne fun p hp => (h p hp).conjuncts
  rw [and_eq]
  refine unlessOnly_induction hne (fun q hq => (hparts q hq).1) fun hmany => ?_
  exact .conj hmany (fun q hq => (hparts q hq).2) fun q hq => (hparts q hq).1

theorem Normal.or (hne : ps ≠ []) (h : ∀ p ∈ ps, Normal kind p) :
    Normal kind (Predicate.or ps) := by
  obtain ⟨hne, hparts⟩ := flatMap_parts hne fun p hp => (h p hp).disjuncts
  rw [or_eq]
  refine unlessOnly_induction hne (fun q hq => (hparts q hq).1) fun hmany => ?_
  exact .disj hmany (fun q hq => (hparts q hq).2) fun q hq => (hparts q hq).1

theorem Normal.not (h : Normal kind p) : Normal kind p.not := by
  cases h with
  | neg _ h => exact h
  | leaf h => exact .neg rfl (.leaf h)
  | conj hmany hflat h => exact .neg rfl (.conj hmany hflat h)
  | disj hmany hflat h => exact .neg rfl (.disj hmany hflat h)

end ReviewSearch.Predicate
