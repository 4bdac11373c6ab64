/-
ReviewSearch.Proofs.Plan.Leaves — where the leaves of a query stand in its
plan.

A leaf is BARE if it is not under a NOT. The index queries of a plan hold
the bare leaves that the schema has, and nothing else but the leaves of the
default scope, once for each branch that is put under it; the filters hold
the other leaves, with their limits raised (`plan_keeps_leaves`). Only bare
limits can be missing.

The PLACES of leaves are two multisets, of what the index answers and of
what is evaluated in memory, and are added up over the children of a node:

* `places_combine` — what a node becomes has the leaves of its parts in
  their places, and copies of the scope;
* `keeps_part` — so a part has the leaves of its subtree where they belong,
  beside copies of the scope and limits;
* `asksOnce_of_root` — a node of a plan has one index query among its
  children at most, in an AND in front of the others.
-/
import Mathlib.Algebra.BigOperators.Group.List.Basic
import Mathlib.Algebra.Group.Prod
import Mathlib.Algebra.Order.Group.Multiset
import Mathlib.Algebra.Ring.Nat
import Mathlib.Tactic.Abel
import ReviewSearch.Proofs.Plan.Shape

namespace ReviewSearch

/-! ## Leaves of a predicate -/

namespace Predicate

mutual

/-- The leaves that are not under a NOT. -/
def bareLeaves : Predicate → List Leaf
  | .leaf l => [l]
  | .conj ps | .disj ps => bareLeavesOf ps
  | .neg _ => []

def bareLeavesOf : List Predicate → List Leaf
  | [] => []
  | p :: ps => bareLeaves p ++ bareLeavesOf ps

end

/-- How many limits are not under a NOT. -/
def bareLimits (p : Predicate) : Nat :=
  p.bareLeaves.countP Leaf.isLimit

theorem countP_bareLeavesOf (ps : List Predicate) :
    (bareLeavesOf ps).countP Leaf.isLimit = (ps.map bareLimits).sum := by
  induction ps with
  | nil => rfl
  | cons p ps ih => rw [bareLeavesOf, List.countP_append, ih, List.map_cons, List.sum_cons]; rfl

theorem bareLimits_conj (ps : List Predicate) :
    (conj ps).bareLimits = (ps.map bareLimits).sum :=
  countP_bareLeavesOf ps

theorem bareLimits_disj (ps : List Predicate) :
    (disj ps).bareLimits = (ps.map bareLimits).sum :=
  countP_bareLeavesOf ps

mutual

/-- The leaves that are under a NOT. -/
def negatedLeaves : Predicate → List Leaf
  | .leaf _ => []
  | .conj ps | .disj ps => negatedLeavesOf ps
  | .neg p => p.leaves

def negatedLeavesOf : List Predicate → List Leaf
  | [] => []
  | p :: ps => negatedLeaves p ++ negatedLeavesOf ps

end

/-- Every leaf is bare or under a NOT. -/
theorem coe_leaves (p : Predicate) :
    (p.leaves : Multiset Leaf) = ↑p.bareLeaves + ↑p.negatedLeaves := by
  have hall {ps : List Predicate}
      (ih : ∀ p ∈ ps, (p.leaves : Multiset Leaf) = ↑p.bareLeaves + ↑p.negatedLeaves) :
      (leavesOf ps : Multiset Leaf) = ↑(bareLeavesOf ps) + ↑(negatedLeavesOf ps) := by
    induction ps with
    | nil => rfl
    | cons p ps ihs =>
      rw [List.forall_mem_cons] at ih
      rw [leavesOf, bareLeavesOf, negatedLeavesOf, ← Multiset.coe_add, ← Multiset.coe_add,
        ← Multiset.coe_add, ih.1, ihs ih.2]
      exact add_add_add_comm ..
  induction p with
  | leaf l => rfl
  | conj ps ih => exact hall ih
  | disj ps ih => exact hall ih
  | neg p _ => exact (zero_add _).symm

end Predicate

/-! ## Places of leaves -/

/-- The leaves that the index answers, and those that are evaluated in
memory. -/
abbrev Places : Type :=
  Multiset Leaf × Multiset Leaf

namespace Source

mutual

/-- The predicates that a plan evaluates in memory. -/
def filters : Source → List Predicate
  | .indexed _ | .matcher _ => []
  | .conj ss | .disj ss => filtersOf ss
  | .filter p => [p]

def filtersOf : List Source → List Predicate
  | [] => []
  | s :: ss => filters s ++ filtersOf ss

end

/-- The leaves in the index queries of a plan. -/
def queryLeaves (s : Source) : List Leaf :=
  s.queries.flatMap fun q => q.predicate.leaves

/-- The leaves in the filters of a plan. -/
def filterLeaves (s : Source) : List Leaf :=
  s.filters.flatMap Predicate.leaves

def places (s : Source) : Places :=
  (↑s.queryLeaves, ↑s.filterLeaves)

@[simp] theorem places_indexed (q : IndexQuery) :
    (indexed q).places = (↑q.predicate.leaves, 0) := by
  simp [places, queryLeaves, filterLeaves, filters]

@[simp] theorem places_filter (p : Predicate) : (filter p).places = (0, ↑p.leaves) := by
  simp [places, queryLeaves, filterLeaves, filters]

/-- The places of leaves are added up over the children of a node. -/
theorem places_children (ss : List Source) :
    ((↑((ss.flatMap queries).flatMap fun q => q.predicate.leaves),
      ↑((filtersOf ss).flatMap Predicate.leaves)) : Places) = (ss.map places).sum := by
  induction ss with
  | nil => rfl
  | cons s ss ih =>
    rw [List.map_cons, List.sum_cons, ← ih, filtersOf, List.flatMap_cons, List.flatMap_append,
      List.flatMap_append, ← Multiset.coe_add, ← Multiset.coe_add]
    rfl

@[simp] theorem places_conj (ss : List Source) : (conj ss).places = (ss.map places).sum := by
  rw [← places_children, ← queries_conj]
  rfl

@[simp] theorem places_disj (ss : List Source) : (disj ss).places = (ss.map places).sum := by
  rw [← places_children, ← queries_disj]
  rfl

end Source

namespace Planner

variable {pl : Planner} {w : Window} {n : Nat}

/-- Where the leaves of a part stand. -/
def Part.places : Part → Places
  | .indexed p => (↑p.leaves, 0)
  | .residual p => (0, ↑p.leaves)
  | .source s => s.places

/-- The leaves of a predicate that the index has to answer. -/
def pushedLeaves (pl : Planner) (p : Predicate) : List Leaf :=
  p.bareLeaves.filter pl.schema.answers

/-- The leaves of a predicate that have to be evaluated in memory, with
limits raised to `n`. -/
def keptLeaves (pl : Planner) (n : Nat) (p : Predicate) : List Leaf :=
  (p.bareLeaves.filter fun l => !l.isLimit && !pl.schema.hasField l.field)
    ++ p.negatedLeaves.map (Leaf.raise n)

/-- Where the leaves of a predicate belong. -/
def due (pl : Planner) (n : Nat) (p : Predicate) : Places :=
  (↑(pl.pushedLeaves p), ↑(pl.keptLeaves n p))

/-- The leaves of the default scope; none if there is no scope. -/
def scopeLeaves (pl : Planner) : List Leaf :=
  (pl.scope?.map Predicate.leaves).getD []

/-- The default scope, in an index query. -/
def scopePlaces (pl : Planner) : Places :=
  (↑pl.scopeLeaves, 0)

/-- A limit, in a filter. -/
def limitPlaces (n : Nat) : Places :=
  (0, {.limit n})

/-- Copies of the default scope in index queries, and limits in filters,
`b` of them at most. -/
def Extra (pl : Planner) (n b : Nat) (x : Places) : Prop :=
  ∃ k m : Nat, m ≤ b ∧ x = k • pl.scopePlaces + m • limitPlaces n

theorem due_children (ps : List Predicate) :
    ((↑((Predicate.bareLeavesOf ps).filter pl.schema.answers),
      ↑(((Predicate.bareLeavesOf ps).filter fun l => !l.isLimit && !pl.schema.hasField l.field)
        ++ (Predicate.negatedLeavesOf ps).map (Leaf.raise n))) : Places)
      = (ps.map (pl.due n)).sum := by
  induction ps with
  | nil => rfl
  | cons p ps ih =>
    rw [List.map_cons, List.sum_cons, ← ih]
    refine Prod.ext ?_ ?_
    · show (_ : Multiset Leaf) = ↑(pl.pushedLeaves p) + _
      rw [Predicate.bareLeavesOf, List.filter_append, ← Multiset.coe_add]
      rfl
    · show (_ : Multiset Leaf) = ↑(pl.keptLeaves n p) + _
      simp only [Predicate.bareLeavesOf, Predicate.negatedLeavesOf, keptLeaves, List.filter_append,
        List.map_append, ← Multiset.coe_add]
      exact add_add_add_comm _ _ _ _

theorem due_conj (ps : List Predicate) : pl.due n (.conj ps) = (ps.map (pl.due n)).sum :=
  due_children ps

theorem due_disj (ps : List Predicate) : pl.due n (.disj ps) = (ps.map (pl.due n)).sum :=
  due_children ps

namespace Extra

variable {b c : Nat} {x y : Places}

theorem zero : pl.Extra n 0 0 :=
  ⟨0, 0, Nat.le_refl _, by rw [zero_nsmul, zero_nsmul, add_zero]⟩

theorem scope : pl.Extra n 0 pl.scopePlaces :=
  ⟨1, 0, Nat.le_refl _, by rw [one_nsmul, zero_nsmul, add_zero]⟩

theorem limit : pl.Extra n 1 (limitPlaces n) :=
  ⟨0, 1, Nat.le_refl _, by rw [zero_nsmul, one_nsmul, zero_add]⟩

theorem mono (h : pl.Extra n b x) (hbc : b ≤ c) : pl.Extra n c x := by
  obtain ⟨k, m, hm, hx⟩ := h
  exact ⟨k, m, hm.trans hbc, hx⟩

theorem add (hx : pl.Extra n b x) (hy : pl.Extra n c y) : pl.Extra n (b + c) (x + y) := by
  obtain ⟨k, m, hm, rfl⟩ := hx
  obtain ⟨k', m', hm', rfl⟩ := hy
  refine ⟨k + k', m + m', Nat.add_le_add hm hm', ?_⟩
  rw [add_nsmul, add_nsmul]
  exact add_add_add_comm ..

end Extra

/-! ## Places of sources -/

namespace Part

/-- Places of one kind are added up over the leaves of predicates. -/
theorem sum_map_leaves (kind : Multiset Leaf →+ Places) (ps : List Predicate) :
    (ps.map fun p => kind ↑p.leaves).sum = kind ↑(ps.flatMap Predicate.leaves) := by
  induction ps with
  | nil => exact (map_zero kind).symm
  | cons p ps ih =>
    rw [List.map_cons, List.sum_cons, ih, ← map_add, List.flatMap_cons, Multiset.coe_add]

theorem sum_places_map_indexed (ps : List Predicate) :
    ((ps.map Part.indexed).map places).sum = ((↑(ps.flatMap Predicate.leaves), 0) : Places) := by
  rw [List.map_map]
  exact sum_map_leaves (.inl _ _) ps

theorem sum_places_map_residual (ps : List Predicate) :
    ((ps.map Part.residual).map places).sum = ((0, ↑(ps.flatMap Predicate.leaves)) : Places) := by
  rw [List.map_map]
  exact sum_map_leaves (.inr _ _) ps

/-- Where the leaves of a part stand that is not indexed. -/
def otherPlaces (part : Part) : Places :=
  (part.other?.map Source.places).getD 0

/-- The leaves of parts are those of the indexed ones and of the others. -/
theorem sum_places (parts : List Part) :
    (parts.map places).sum
      = ((↑((indexedOnes parts).flatMap Predicate.leaves), 0) : Places)
        + (parts.map otherPlaces).sum := by
  induction parts with
  | nil => rfl
  | cons part parts ih =>
    rw [List.map_cons, List.sum_cons, List.map_cons, List.sum_cons, ih]
    cases part with
    | indexed p =>
      have hones : indexedOnes (.indexed p :: parts) = p :: indexedOnes parts := rfl
      have hnone : otherPlaces (.indexed p) = 0 := rfl
      rw [hones, hnone, zero_add, ← add_assoc, List.flatMap_cons, ← Multiset.coe_add]
      rfl
    | residual p =>
      have hsome : otherPlaces (.residual p) = places (.residual p) := Source.places_filter p
      rw [hsome]
      exact add_left_comm _ _ _
    | source s => exact add_left_comm _ _ _

theorem sum_otherPlaces (parts : List Part) :
    (parts.map otherPlaces).sum = ((parts.filterMap other?).map Source.places).sum := by
  induction parts with
  | nil => rfl
  | cons part parts ih =>
    rw [List.map_cons, List.sum_cons, ih]
    cases part with
    | indexed p => exact zero_add _
    | residual p => rfl
    | source s => rfl

end Part

/-- The query for the indexed parts has their leaves. -/
theorem sum_places_merged? {normal : List Predicate → Predicate}
    (hnormal : ∀ ps, (normal ps).leaves = ps.flatMap Predicate.leaves) (parts : List Part) :
    ((Outcome.merged? pl w normal parts).toList.map Source.places).sum
      = ((↑((Part.indexedOnes parts).flatMap Predicate.leaves), 0) : Places) := by
  unfold Outcome.merged?
  split
  · next h => rw [h]; rfl
  · next ps h =>
    rw [Option.toList_some, List.map_singleton, List.sum_singleton, ← hnormal]
    exact Source.places_indexed _

theorem places_conjSource {parts : List Part} {s : Source}
    (h : (.ok (pl.conjSource w parts) : Except Fault Source) = .ok s) :
    ∃ x, pl.Extra n 0 x ∧ s.places = (parts.map Part.places).sum + x := by
  obtain rfl := Except.ok.inj h
  refine ⟨0, .zero, ?_⟩
  rw [conjSource_eq, Source.places_conj, List.map_append, List.sum_append,
    sum_places_merged? Predicate.leaves_and, Part.sum_places, Part.sum_otherPlaces, add_zero]

/-- A branch under the scope has the leaves of the scope beside its own. -/
theorem places_underScope {p : Predicate} {s : Source} (h : Outcome.underScope pl w p = .ok s) :
    s.places = (Part.residual p).places + pl.scopePlaces := by
  obtain ⟨scope, hscope, -, rfl⟩ := underScope_eq_ok_iff.mp h
  rw [Source.places_conj, List.map_cons, List.map_singleton, List.sum_pair, Source.places_filter,
    add_comm, scopePlaces, scopeLeaves, hscope]
  exact congrArg ((Part.residual p).places + ·) (Source.places_indexed _)

/-- The children that the parts of an OR make have the leaves of the query
for the indexed parts, which some part must have a place for, and of the
other parts. -/
theorem places_disjChildren {merged? : Option Source} {parts : List Part} {ss : List Source}
    (hplace : merged? = none ∨ ∃ p, .indexed p ∈ parts)
    (h : Outcome.disjChildren pl w merged? parts = .ok ss) :
    ∃ x, pl.Extra n 0 x ∧ (ss.map Source.places).sum
      = (merged?.toList.map Source.places).sum + (parts.map Part.otherPlaces).sum + x := by
  induction parts generalizing merged? ss with
  | nil =>
    obtain rfl := Except.ok.inj h
    obtain rfl : merged? = none := by simpa using hplace
    exact ⟨0, .zero, rfl⟩
  | cons part parts ih =>
    have htail (hpart : ∀ p, part ≠ .indexed p) : merged? = none ∨ ∃ p, .indexed p ∈ parts := by
      refine hplace.imp_right fun ⟨p, hp⟩ => ⟨p, ?_⟩
      exact (List.mem_cons.mp hp).resolve_left fun heq => hpart p heq.symm
    cases part with
    | indexed p =>
      obtain ⟨ss', hss, h⟩ := bind_eq_ok_iff.mp h
      obtain rfl := Except.ok.inj h
      obtain ⟨x, hx, hsum⟩ := ih (.inl rfl) hss
      refine ⟨x, hx, ?_⟩
      rw [List.map_append, List.sum_append, hsum, List.map_cons, List.sum_cons]
      have hnone : Part.otherPlaces (.indexed p) = 0 := rfl
      rw [hnone]
      simp only [Option.toList_none, List.map_nil, List.sum_nil, zero_add, add_assoc]
    | residual p =>
      obtain ⟨s, hs, h⟩ := bind_eq_ok_iff.mp h
      obtain ⟨ss', hss, h⟩ := bind_eq_ok_iff.mp h
      obtain rfl := Except.ok.inj h
      obtain ⟨x, hx, hsum⟩ := ih (htail fun _ => nofun) hss
      refine ⟨_ + x, Extra.scope.add hx, ?_⟩
      have hsome : Part.otherPlaces (.residual p) = (Part.residual p).places :=
        Source.places_filter p
      rw [List.map_cons, List.sum_cons, hsum, List.map_cons, List.sum_cons, places_underScope hs,
        hsome]
      abel
    | source s =>
      obtain ⟨ss', hss, h⟩ := bind_eq_ok_iff.mp h
      obtain rfl := Except.ok.inj h
      obtain ⟨x, hx, hsum⟩ := ih (htail fun _ => nofun) hss
      refine ⟨x, hx, ?_⟩
      have hsome : Part.otherPlaces (.source s) = s.places := rfl
      rw [List.map_cons, List.sum_cons, hsum, List.map_cons, List.sum_cons, hsome]
      abel

theorem places_disjSource {parts : List Part} {s : Source}
    (h : Outcome.disjSource pl w parts = .ok s) :
    ∃ x, pl.Extra n 0 x ∧ s.places = (parts.map Part.places).sum + x := by
  obtain ⟨ss, hss, -, rfl⟩ := disjSource_eq_ok_iff.mp h
  have hplace : Outcome.merged? pl w .or parts = none ∨ ∃ p, .indexed p ∈ parts := by
    unfold Outcome.merged?
    split
    · exact .inl rfl
    · next ps hne =>
      obtain ⟨p, hp⟩ := List.exists_mem_of_ne_nil _ hne
      exact .inr ⟨p, Part.mem_indexedOnes.mp hp⟩
  obtain ⟨x, hx, hsum⟩ := places_disjChildren hplace hss
  refine ⟨x, hx, ?_⟩
  rw [Source.places_disj, hsum, sum_places_merged? Predicate.leaves_or, Part.sum_places]

/-! ## Places of nodes -/

theorem leaves_residualNode {node : List Predicate → Predicate}
    (hnode : ∀ ps, (node ps).leaves = ps.flatMap Predicate.leaves) (ps : List Predicate) :
    (Outcome.residualNode node ps).leaves = ps.flatMap Predicate.leaves := by
  unfold Outcome.residualNode
  split
  · exact (List.flatMap_singleton ..).symm
  · exact hnode _

/-- What a node becomes has the leaves of its parts in their places, and
copies of the scope. -/
theorem places_combine {node normal : List Predicate → Predicate}
    {mixed : List Part → Except Fault Source} {children : List Predicate} {parts : List Part}
    {q : Part} (hnode : ∀ ps, (node ps).leaves = ps.flatMap Predicate.leaves)
    (hnormal : ∀ ps, (normal ps).leaves = ps.flatMap Predicate.leaves)
    (hmixed : ∀ s, mixed parts = .ok s →
      ∃ x, pl.Extra n 0 x ∧ s.places = (parts.map Part.places).sum + x)
    (h : Outcome.combine node normal mixed children parts = .ok q) :
    ∃ x, pl.Extra n 0 x ∧ q.places = (parts.map Part.places).sum + x := by
  rcases combine_cases h with ⟨ps, rfl, rfl⟩ | ⟨ps, rfl, rfl⟩ | ⟨s, hs, rfl, -⟩
  · refine ⟨0, .zero, ?_⟩
    rw [add_zero, Part.sum_places_map_indexed]
    show ((_, 0) : Places) = _
    split
    · next heq => rw [hnode, heq]
    · rw [hnormal]
  · refine ⟨0, .zero, ?_⟩
    rw [add_zero, Part.sum_places_map_residual, ← leaves_residualNode hnode]
    rfl
  · exact hmixed s hs

/-! ## Places of subtrees -/

/-- The leaves of a part stand where those of its subtree belong, beside
copies of the scope and limits. A part that is a limit comes from nothing
but bare limits. -/
structure Keeps (pl : Planner) (n : Nat) (p : Predicate) (q : Part) : Prop where
  places : ∃ x, pl.Extra n p.bareLimits x ∧ q.places = pl.due n p + x
  limit : q.isLimit = true → pl.due n p = 0

/-- Parts that are limits may be dropped. -/
theorem sum_places_kept (keep : Part → Bool) (hkeep : ∀ q, keep q = false → q.isLimit = true)
    {ps : List Predicate} {parts : List Part} (h : List.Forall₂ (pl.Keeps n) ps parts) :
    ∃ x, pl.Extra n (ps.map Predicate.bareLimits).sum x
      ∧ ((parts.filter keep).map Part.places).sum = (ps.map (pl.due n)).sum + x := by
  induction h with
  | nil => exact ⟨0, .zero, rfl⟩
  | @cons p q ps parts hq _ ih =>
    obtain ⟨x, hx, hsum⟩ := ih
    rw [List.map_cons, List.sum_cons, List.map_cons, List.sum_cons]
    cases hkept : keep q with
    | true =>
      obtain ⟨y, hy, hplaces⟩ := hq.places
      refine ⟨y + x, hy.add hx, ?_⟩
      rw [List.filter_cons_of_pos hkept, List.map_cons, List.sum_cons, hplaces, hsum]
      exact add_add_add_comm _ _ _ _
    | false =>
      refine ⟨x, hx.mono (Nat.le_add_left ..), ?_⟩
      rw [List.filter_cons_of_neg (by simp [hkept]), hsum, hq.limit (hkeep q hkept), zero_add]

theorem sum_places_parts {ps : List Predicate} {parts : List Part}
    (h : List.Forall₂ (pl.Keeps n) ps parts) :
    ∃ x, pl.Extra n (ps.map Predicate.bareLimits).sum x
      ∧ (parts.map Part.places).sum = (ps.map (pl.due n)).sum + x := by
  have hsum := sum_places_kept (fun _ => true) (by simp) h
  rwa [List.filter_true] at hsum

theorem sum_places_withoutLimits {ps : List Predicate} {parts : List Part}
    (h : List.Forall₂ (pl.Keeps n) ps parts) :
    ∃ x, pl.Extra n (ps.map Predicate.bareLimits).sum x
      ∧ ((Part.withoutLimits parts).map Part.places).sum = (ps.map (pl.due n)).sum + x := by
  unfold Part.withoutLimits
  split
  · exact sum_places_parts h
  · exact sum_places_kept _ (fun q hq => by simpa using hq) h

/-- Nothing is due for limits. -/
theorem sum_due_of_limits {ps : List Predicate} {parts : List Part}
    (h : List.Forall₂ (pl.Keeps n) ps parts) (hlimits : ∀ q ∈ parts, q.isLimit = true) :
    (ps.map (pl.due n)).sum = 0 := by
  induction h with
  | nil => rfl
  | cons hq _ ih =>
    rw [List.forall_mem_cons] at hlimits
    rw [List.map_cons, List.sum_cons, hq.limit hlimits.1, ih hlimits.2, zero_add]

/-- A node becomes a limit only if that is its only part. -/
theorem eq_singleton_of_isLimit {node normal : List Predicate → Predicate}
    {mixed : List Part → Except Fault Source} {children : List Predicate} {parts : List Part}
    {q : Part} (hnode : ∀ ps, (node ps).isLimit = false)
    (h : Outcome.combine node normal mixed children parts = .ok q) (hq : q.isLimit = true) :
    parts = [q] := by
  rcases combine_cases h with ⟨ps, rfl, rfl⟩ | ⟨ps, rfl, rfl⟩ | ⟨s, hs, rfl, -⟩
  · cases hq
  · rcases ps with _ | ⟨p, _ | ⟨p', ps⟩⟩
    · exact absurd ((hnode _).symm.trans hq) Bool.false_ne_true
    · rfl
    · exact absurd ((hnode _).symm.trans hq) Bool.false_ne_true
  · cases hq

theorem forall_isLimit_of_withoutLimits {parts : List Part} {q : Part}
    (h : Part.withoutLimits parts = [q]) (hq : q.isLimit = true) :
    ∀ part ∈ parts, part.isLimit = true := by
  unfold Part.withoutLimits at h
  split at h
  next hall => exact List.all_eq_true.mp hall
  · have hmem : q ∈ parts.filter fun part => !part.isLimit := h ▸ List.mem_singleton_self q
    have hnot := (List.mem_filter.mp hmem).2
    rw [hq] at hnot
    cases hnot

theorem keeps_leaf (l : Leaf) (h : pl.schema.answers l = false) :
    pl.Keeps n (.leaf l) (.residual ((Predicate.leaf l).withLimit n)) := by
  by_cases hl : l.isLimit = true
  · have hnone : pl.due n (.leaf l) = 0 := by
      simp [due, pushedLeaves, keptLeaves, Predicate.bareLeaves, Predicate.negatedLeaves, h, hl]
    rw [Predicate.withLimit_leaf_of_isLimit n hl]
    have hone : (Predicate.leaf l).bareLimits = 1 := by
      simp [Predicate.bareLimits, Predicate.bareLeaves, hl]
    refine ⟨⟨limitPlaces n, hone ▸ .limit, ?_⟩, fun _ => hnone⟩
    rw [hnone, zero_add]
    rfl
  · have hfield : pl.schema.hasField l.field = false := by
      simpa [Schema.answers, hl] using h
    rw [Predicate.withLimit_leaf_of_not_isLimit n hl]
    refine ⟨⟨0, Extra.zero.mono (Nat.zero_le _), ?_⟩, fun hlimit => absurd hlimit hl⟩
    simp [due, pushedLeaves, keptLeaves, Predicate.bareLeaves, Predicate.negatedLeaves, h, hl,
      hfield, Part.places]

/-- Every part has the leaves of its subtree where they belong. -/
theorem keeps_part {p : Predicate} {q : Part} (h : Outcome.part pl w p = .ok q) :
    pl.Keeps (Outcome.raised pl w) p q := by
  refine part_induction (motive := pl.Keeps (Outcome.raised pl w)) ?pushed ?kept ?neg ?conj ?disj h
  case pushed =>
    intro l hl
    have hnot : l.isLimit = false ∧ pl.schema.hasField l.field = true := by
      simpa [Schema.answers] using hl
    refine ⟨⟨0, Extra.zero.mono (Nat.zero_le _), ?_⟩, fun h => absurd h Bool.false_ne_true⟩
    simp [due, pushedLeaves, keptLeaves, Predicate.bareLeaves, Predicate.negatedLeaves, hl,
      hnot.1, hnot.2, Part.places]
  case kept => exact fun l hl => keeps_leaf l hl
  case neg =>
    intro p
    refine ⟨⟨0, .zero, ?_⟩, fun h => absurd h Bool.false_ne_true⟩
    show ((0, _) : Places) = _
    rw [Predicate.leaves_neg, Predicate.leaves_withLimit, add_zero]
    rfl
  case conj =>
    intro ps parts q hparts hq
    obtain ⟨x, hx, hsum⟩ := sum_places_withoutLimits hparts
    obtain ⟨y, hy, hplaces⟩ := places_combine Predicate.leaves_conj Predicate.leaves_and
      (fun s hs => places_conjSource hs) hq
    refine ⟨⟨x + y, Predicate.bareLimits_conj ps ▸ hx.add hy,
      by rw [hplaces, hsum, due_conj, add_assoc]⟩, fun hlimit => ?_⟩
    have hone := eq_singleton_of_isLimit (fun _ => rfl) hq hlimit
    rw [due_conj]
    exact sum_due_of_limits hparts (forall_isLimit_of_withoutLimits hone hlimit)
  case disj =>
    intro ps parts q hparts hq
    obtain ⟨x, hx, hsum⟩ := sum_places_parts hparts
    obtain ⟨y, hy, hplaces⟩ := places_combine Predicate.leaves_disj Predicate.leaves_or
      (fun s hs => places_disjSource hs) hq
    refine ⟨⟨x + y, Predicate.bareLimits_disj ps ▸ hx.add hy,
      by rw [hplaces, hsum, due_disj, add_assoc]⟩, fun hlimit => ?_⟩
    have hone := eq_singleton_of_isLimit (fun _ => rfl) hq hlimit
    subst hone
    rw [due_disj]
    exact sum_due_of_limits hparts fun part hpart => List.mem_singleton.mp hpart ▸ hlimit

/-- The leaves of a plan stand where those of its query belong, beside
copies of the scope and limits. -/
theorem places_of_root {p : Predicate} {s : Source} (h : Outcome.root pl w p = .ok s) :
    ∃ x, pl.Extra (Outcome.raised pl w) p.bareLimits x
      ∧ s.places = pl.due (Outcome.raised pl w) p + x := by
  obtain ⟨q, hq, hs⟩ := bind_eq_ok_iff.mp h
  obtain ⟨x, hx, hplaces⟩ := (keeps_part hq).places
  cases q with
  | indexed p =>
    obtain rfl := Except.ok.inj hs
    exact ⟨x, hx, (Source.places_indexed _).trans hplaces⟩
  | residual p =>
    refine ⟨x + pl.scopePlaces, hx.add .scope, ?_⟩
    rw [places_underScope hs, hplaces, add_assoc]
  | source s =>
    obtain rfl := Except.ok.inj hs
    exact ⟨x, hx, hplaces⟩

end Planner

/-! ## Index queries among children -/

/-- Whether a source is an index query. -/
def Source.isIndexed : Source → Bool
  | .indexed _ => true
  | _ => false

/-- No AND or OR of the plan has several index queries among its children,
and an AND has its own in front of the others. -/
inductive Source.AsksOnce : Source → Prop
  | indexed (q : IndexQuery) : AsksOnce (.indexed q)
  | conj {ss : List Source} (hfront : ∀ s ∈ ss.tail, s.isIndexed = false)
      (h : ∀ s ∈ ss, AsksOnce s) : AsksOnce (.conj ss)
  | disj {ss : List Source} (honce : ss.countP isIndexed ≤ 1)
      (h : ∀ s ∈ ss, AsksOnce s) : AsksOnce (.disj ss)
  | filter (p : Predicate) : AsksOnce (.filter p)
  | matcher (m : Matcher) : AsksOnce (.matcher m)

namespace Planner

open Source (AsksOnce)

variable {pl : Planner} {w : Window}

/-- Sources of their own are nodes that ask once. -/
def Part.AsksOnce : Part → Prop
  | .source s => s.AsksOnce ∧ s.isIndexed = false
  | _ => True

theorem asksOnce_underScope {p : Predicate} {s : Source}
    (h : Outcome.underScope pl w p = .ok s) : s.AsksOnce ∧ s.isIndexed = false := by
  obtain ⟨scope, -, -, rfl⟩ := underScope_eq_ok_iff.mp h
  refine ⟨.conj (by simp [Source.isIndexed]) ?_, rfl⟩
  simp only [List.forall_mem_cons, List.not_mem_nil, false_implies, implies_true, and_true]
  exact ⟨.indexed _, .filter p⟩

theorem asksOnce_conjSource {parts : List Part} (h : ∀ part ∈ parts, part.AsksOnce) :
    (pl.conjSource w parts).AsksOnce := by
  have hothers : ∀ s ∈ parts.filterMap Part.other?, s.AsksOnce ∧ s.isIndexed = false := by
    intro s hs
    obtain ⟨part, hpart, hother⟩ := List.mem_filterMap.mp hs
    cases part with
    | indexed p => cases hother
    | residual p => cases hother; exact ⟨.filter p, rfl⟩
    | source s => cases hother; exact h _ hpart
  rw [conjSource_eq]
  unfold Outcome.merged?
  split
  · exact .conj (fun s hs => (hothers s (List.mem_of_mem_tail hs)).2) fun s hs => (hothers s hs).1
  · refine .conj (fun s hs => (hothers s hs).2) (List.forall_mem_cons.mpr ⟨.indexed _, ?_⟩)
    exact fun s hs => (hothers s hs).1

/-- The query for the indexed parts is the only one among the children. -/
theorem countP_isIndexed_disjChildren {merged? : Option Source} {parts : List Part}
    {ss : List Source} (hparts : ∀ part ∈ parts, part.AsksOnce)
    (h : Outcome.disjChildren pl w merged? parts = .ok ss) :
    ss.countP Source.isIndexed ≤ merged?.toList.length := by
  induction parts generalizing merged? ss with
  | nil =>
    obtain rfl := Except.ok.inj h
    exact Nat.zero_le _
  | cons part parts ih =>
    rw [List.forall_mem_cons] at hparts
    cases part with
    | indexed p =>
      obtain ⟨ss', hss, h⟩ := bind_eq_ok_iff.mp h
      obtain rfl := Except.ok.inj h
      have hnone : ss'.countP Source.isIndexed ≤ 0 := ih hparts.2 hss
      rw [List.countP_append, Nat.le_zero.mp hnone]
      exact List.countP_le_length
    | residual p =>
      obtain ⟨s, hs, h⟩ := bind_eq_ok_iff.mp h
      obtain ⟨ss', hss, h⟩ := bind_eq_ok_iff.mp h
      obtain rfl := Except.ok.inj h
      rw [List.countP_cons_of_neg (by simp [(asksOnce_underScope hs).2])]
      exact ih hparts.2 hss
    | source s =>
      obtain ⟨ss', hss, h⟩ := bind_eq_ok_iff.mp h
      obtain rfl := Except.ok.inj h
      rw [List.countP_cons_of_neg (by simp [hparts.1.2])]
      exact ih hparts.2 hss

theorem asksOnce_disjSource {parts : List Part} (h : ∀ part ∈ parts, part.AsksOnce) {s : Source}
    (hs : Outcome.disjSource pl w parts = .ok s) : s.AsksOnce ∧ s.isIndexed = false := by
  obtain ⟨ss, hss, -, rfl⟩ := disjSource_eq_ok_iff.mp hs
  refine ⟨.disj ?_ fun s hs => ?_, rfl⟩
  · refine (countP_isIndexed_disjChildren h hss).trans ?_
    cases Outcome.merged? pl w .or parts <;> simp
  · rcases (mem_disjChildren hss).mp hs with ⟨hmerged, -⟩ | ⟨p, -, hunder⟩ | hsource
    · obtain rfl := eq_query_of_merged? hmerged
      exact .indexed _
    · exact (asksOnce_underScope hunder).1
    · exact (h _ hsource).1

theorem asksOnce_of_combine {node normal : List Predicate → Predicate}
    {mixed : List Part → Except Fault Source} {children : List Predicate} {parts : List Part}
    {q : Part} (hmixed : ∀ s, mixed parts = .ok s → s.AsksOnce ∧ s.isIndexed = false)
    (h : Outcome.combine node normal mixed children parts = .ok q) : q.AsksOnce := by
  rcases combine_cases h with ⟨ps, -, rfl⟩ | ⟨ps, -, rfl⟩ | ⟨s, hs, rfl, -⟩
  · trivial
  · trivial
  · exact hmixed s hs

theorem asksOnce_of_part {p : Predicate} {q : Part} (h : Outcome.part pl w p = .ok q) :
    q.AsksOnce := by
  refine part_induction (motive := fun _ q => q.AsksOnce) ?pushed ?kept ?neg ?conj ?disj h
  case pushed => exact fun _ _ => trivial
  case kept => exact fun _ _ => trivial
  case neg => exact fun _ => trivial
  case conj =>
    intro ps parts q hparts hq
    refine asksOnce_of_combine (fun s hs => ?_) hq
    obtain rfl := Except.ok.inj hs
    refine ⟨asksOnce_conjSource fun part hpart => ?_, by rw [conjSource_eq]; rfl⟩
    exact forall_of_forall₂ hparts part (mem_of_mem_withoutLimits hpart)
  case disj =>
    intro ps parts q hparts hq
    exact asksOnce_of_combine (fun s hs => asksOnce_disjSource (forall_of_forall₂ hparts) hs) hq

theorem asksOnce_of_root {p : Predicate} {s : Source} (h : Outcome.root pl w p = .ok s) :
    s.AsksOnce := by
  obtain ⟨q, hq, hs⟩ := bind_eq_ok_iff.mp h
  have hasks := asksOnce_of_part hq
  cases q with
  | indexed p =>
    obtain rfl := Except.ok.inj hs
    exact .indexed _
  | residual p => exact (asksOnce_underScope hs).1
  | source s =>
    obtain rfl := Except.ok.inj hs
    exact hasks.1

/-! ## Plans -/

/-- What limits in memory are raised to: the results up to the end of the
window, as far as the index gives them. -/
theorem raised_eq (hmax : pl.limits.maxLimit ≤ Count.max) :
    Outcome.raised pl w = min (w.start + w.limit) pl.limits.maxLimit := by
  show min (min (w.start + w.limit) Count.max) pl.limits.maxLimit = _
  rw [Nat.min_assoc, Nat.min_eq_right hmax]

theorem not_isLimit_of_mem_queryLeaves {p : Predicate} {s : Source}
    (h : Outcome.root pl w p = .ok s) : ∀ l ∈ s.queryLeaves, l.isLimit = false := by
  intro l hl
  obtain ⟨q, hq, hl⟩ := List.mem_flatMap.mp hl
  obtain ⟨p, hp, rfl⟩ := (built_of_root h).1.queries q hq
  have hanswers := answers_of_answerable hp l hl
  rw [Schema.answers, Bool.and_eq_true, Bool.not_eq_true'] at hanswers
  exact hanswers.1

theorem eq_limit_of_mem_keptLeaves {n : Nat} {p : Predicate} {l : Leaf}
    (hl : l ∈ pl.keptLeaves n p) (hlimit : l.isLimit = true) : l = .limit n := by
  rcases List.mem_append.mp hl with hl | hl
  · have hnot := (List.mem_filter.mp hl).2
    rw [hlimit] at hnot
    cases hnot
  · obtain ⟨l', -, rfl⟩ := List.mem_map.mp hl
    exact Leaf.eq_limit_of_isLimit_raise hlimit

/-- The schema divides the leaves that are no limits. -/
theorem coe_terms_eq (schema : Schema) (ls : List Leaf) :
    (Leaf.terms ls : Multiset Leaf) = ↑(ls.filter schema.answers)
      + ↑(Leaf.terms (ls.filter fun l => !l.isLimit && !schema.hasField l.field)) := by
  rw [Multiset.coe_add, Multiset.coe_eq_coe]
  refine (List.filter_append_perm schema.answers (Leaf.terms ls)).symm.trans (.of_eq ?_)
  unfold Leaf.terms
  rw [List.filter_filter, List.filter_filter, List.filter_filter]
  congr 1
  · refine List.filter_congr fun l _ => ?_
    cases h : l.isLimit <;> simp [Schema.answers, h]
  · refine List.filter_congr fun l _ => ?_
    cases h : l.isLimit <;> simp [Schema.answers, h]

/-- The leaves that are no limits are those that the index has to answer
and those that have to be evaluated in memory. -/
theorem coe_terms_leaves (pl : Planner) (n : Nat) (p : Predicate) :
    (Leaf.terms p.leaves : Multiset Leaf)
      = ↑(pl.pushedLeaves p) + ↑(Leaf.terms (pl.keptLeaves n p)) := by
  have hperm : p.leaves.Perm (p.bareLeaves ++ p.negatedLeaves) := by
    rw [← Multiset.coe_eq_coe, ← Multiset.coe_add]
    exact Predicate.coe_leaves p
  calc (Leaf.terms p.leaves : Multiset Leaf)
      = ↑(Leaf.terms (p.bareLeaves ++ p.negatedLeaves)) :=
        Multiset.coe_eq_coe.mpr (hperm.filter _)
    _ = ↑(Leaf.terms p.bareLeaves) + ↑(Leaf.terms p.negatedLeaves) := by
        rw [Leaf.terms_append, Multiset.coe_add]
    _ = ↑(pl.pushedLeaves p) + ↑(Leaf.terms (pl.keptLeaves n p)) := by
        rw [coe_terms_eq pl.schema, ← Leaf.terms_map_raise n p.negatedLeaves, add_assoc,
          Multiset.coe_add, ← Leaf.terms_append]
        rfl

/-- Limits beside other leaves are none of those that count. -/
theorem coe_terms_eq_of_limits {n m : Nat} {ls ls' : List Leaf}
    (h : (ls : Multiset Leaf) = ↑ls' + m • {.limit n}) :
    (Leaf.terms ls : Multiset Leaf) = ↑(Leaf.terms ls') := by
  rw [Multiset.nsmul_singleton, ← Multiset.coe_replicate, Multiset.coe_add,
    Multiset.coe_eq_coe] at h
  have hlimits : Leaf.terms (List.replicate m (.limit n)) = [] :=
    List.filter_replicate_of_neg Bool.false_ne_true
  have hterms := h.filter fun l => !l.isLimit
  rw [Multiset.coe_eq_coe]
  refine hterms.trans (.of_eq ?_)
  exact (Leaf.terms_append ls' _).trans (by rw [hlimits, List.append_nil])

/-- Where the leaves of a query stand in its plan. No leaf that counts is
lost, doubled or altered, but for `k` copies of the default scope. The index
answers every leaf of the schema that is not under a NOT; the others are
evaluated in memory, beside `m` of the limits that are not under a NOT.
Limits stand in filters only, raised to the end of the window. -/
theorem plan_keeps_leaves (pl : Planner) (w : Window) (p : Predicate) (log : Log) (s : Source)
    (hmax : pl.limits.maxLimit ≤ Count.max) (h : (pl.plan w p log).1 = .ok s) :
    let n := min (w.start + w.limit) pl.limits.maxLimit
    ∃ k m : Nat,
      (Leaf.terms (s.queryLeaves ++ s.filterLeaves) : Multiset Leaf)
          = ↑(Leaf.terms p.leaves) + k • ↑pl.scopeLeaves
        ∧ (s.queryLeaves : Multiset Leaf) = ↑(pl.pushedLeaves p) + k • ↑pl.scopeLeaves
        ∧ (s.filterLeaves : Multiset Leaf) = ↑(pl.keptLeaves n p) + m • {.limit n}
        ∧ m ≤ p.bareLeaves.countP Leaf.isLimit
        ∧ (∀ l ∈ s.queryLeaves, l.isLimit = false)
        ∧ (∀ l ∈ s.filterLeaves, l.isLimit = true → l = .limit n)
        ∧ s.AsksOnce := by
  intro n
  have hroot := (plan_eq_ok_iff.mp h).1
  obtain ⟨x, ⟨k, m, hm, rfl⟩, hplaces⟩ := places_of_root hroot
  rw [raised_eq hmax] at hplaces
  have hqueries : (s.queryLeaves : Multiset Leaf) = ↑(pl.pushedLeaves p) + k • ↑pl.scopeLeaves := by
    simpa [Source.places, due, scopePlaces, limitPlaces] using congrArg Prod.fst hplaces
  have hfilters : (s.filterLeaves : Multiset Leaf) = ↑(pl.keptLeaves n p) + m • {.limit n} := by
    simpa [Source.places, due, scopePlaces, limitPlaces] using congrArg Prod.snd hplaces
  have hnone := not_isLimit_of_mem_queryLeaves hroot
  refine ⟨k, m, ?_, hqueries, hfilters, hm, hnone, fun l hl hlimit => ?_, asksOnce_of_root hroot⟩
  · rw [Leaf.terms_append, ← Multiset.coe_add, Leaf.terms_eq_self hnone,
      coe_terms_eq_of_limits hfilters, hqueries, coe_terms_leaves pl n]
    exact add_right_comm _ _ _
  · have hmem : l ∈ (pl.keptLeaves n p : Multiset Leaf) + m • {.limit n} := hfilters ▸ hl
    rcases Multiset.mem_add.mp hmem with hkept | hextra
    · exact eq_limit_of_mem_keptLeaves hkept hlimit
    · exact Multiset.mem_singleton.mp (Multiset.mem_of_mem_nsmul hextra)

/-- A query of all kinds of parts: an AND of a topic, a limit, a file that
the schema does not have and a NOT, a project, and a NOT of a limit and an
owner. Its limits are raised to the ten results that the index gives; the
bare one is dropped, and the last branch is put under the scope. -/
theorem plan_keeps_leaves_mixed :
    let p : Predicate := .disj
      [.conj [.leaf (.exact "topic" "x"), .leaf (.limit 3), .leaf (.exact "file" "a"),
        .neg (.leaf (.exact "project" "b"))],
      .leaf (.exact "project" "c"),
      .neg (.conj [.leaf (.limit 5), .leaf (.exact "owner" "o")])]
    let pl : Planner := ⟨.v1, { maxLimit := 10 }, some (.leaf .statusOpen)⟩
    ∃ (s : Source) (k : Nat), (pl.plan ⟨5, 11, []⟩ p ⟨.fatal, []⟩).1 = .ok s
      ∧ (Leaf.terms (s.queryLeaves ++ s.filterLeaves) : Multiset Leaf)
        = ↑(Leaf.terms p.leaves) + k • ↑[Leaf.statusOpen]
      ∧ s.queryLeaves = [.exact "topic" "x", .exact "project" "c", .statusOpen]
      ∧ s.filterLeaves = [.exact "file" "a", .exact "project" "b", .limit 10, .exact "owner" "o"]
      ∧ s.AsksOnce := by
  intro p pl
  have hroot : Outcome.root pl ⟨5, 11, []⟩ p = .ok (.disj
      [.conj [pl.query ⟨5, 11, []⟩ (.leaf (.exact "topic" "x")),
        .filter (.leaf (.exact "file" "a")), .filter (.neg (.leaf (.exact "project" "b")))],
      pl.query ⟨5, 11, []⟩ (.leaf (.exact "project" "c")),
      .conj [pl.query ⟨5, 11, []⟩ (.leaf .statusOpen),
        .filter (.neg (.conj [.leaf (.limit 10), .leaf (.exact "owner" "o")]))]]) := rfl
  have hplan : (pl.plan ⟨5, 11, []⟩ p ⟨.fatal, []⟩).1 = .ok _ :=
    plan_eq_ok_iff.mpr ⟨hroot, by decide⟩
  obtain ⟨k, m, hterms, -, -, -, -, -, hasks⟩ :=
    plan_keeps_leaves pl ⟨5, 11, []⟩ p ⟨.fatal, []⟩ _ (by decide) hplan
  exact ⟨_, k, hplan, hterms, rfl, rfl, hasks⟩

end Planner

end ReviewSearch
