/-
ReviewSearch.Proofs.Plan.CheapestFirst — asking the cheapest child first.

Neither the order in which children are asked nor the normal form of a
predicate changes an answer, and the order bounds what an answer costs:

* `Predicate.satisfiedBy_eq_holds` — the reading of a predicate that is
  used is the plain one;
* `Verdict.consults_every`, `Verdict.consults_some` — asking in turn goes
  as far as the first verdict that decides, and no further;
* `Source.priced_cost` — what the order goes by: the capped sums of what
  leaves and matchers cost;
* `Source.cheapest_first_changes_no_answer` — so an AND or an OR of a plan
  answers as all or any of its children do, and asks its cheapest children
  up to the first that decides.
-/
import ReviewSearch.Proofs.Order.Sorted
import ReviewSearch.Proofs.Plan.Judgement

namespace ReviewSearch

/-! ## Predicates -/

theorem Leaf.cost_le_max (l : Leaf) : l.cost ≤ Cost.max := by
  have htwo : l.cost ≤ 2 := by
    unfold cost
    split <;> decide
  exact Nat.le_trans htwo (by decide)

/-- Capping each summand does not change the capped sum. -/
theorem min_sum_map_min {α : Type} (top : Nat) (f : α → Nat) (xs : List α) :
    min (xs.map fun x => min (f x) top).sum top = min (xs.map f).sum top := by
  induction xs with
  | nil => rfl
  | cons x xs ih =>
    simp only [List.map_cons, List.sum_cons]
    omega

namespace Predicate

variable {d : Document}

theorem holdsAll_eq_all (ps : List Predicate) : holdsAll d ps = ps.all (holds d) := by
  induction ps with
  | nil => rfl
  | cons p ps ih => rw [holdsAll, ih, List.all_cons]

theorem holdsAny_eq_any (ps : List Predicate) : holdsAny d ps = ps.any (holds d) := by
  induction ps with
  | nil => rfl
  | cons p ps ih => rw [holdsAny, ih, List.any_cons]

/-- Asking cheap children first gives the plain reading. -/
theorem satisfiedBy_eq_holds (d : Document) (p : Predicate) : p.satisfiedBy d = p.holds d := by
  induction p with
  | leaf l => rfl
  | conj ps ih => rw [satisfiedBy_conj, holds, holdsAll_eq_all, all_congr_mem ih]
  | disj ps ih => rw [satisfiedBy_disj, holds, holdsAny_eq_any, any_congr_mem ih]
  | neg p ih => rw [satisfiedBy_neg, holds, ih]

/-- A predicate costs what its leaves do together, up to the greatest
cost. -/
theorem cost_eq (p : Predicate) : p.cost = min (p.leaves.map Leaf.cost).sum Cost.max := by
  have hnode (ps : List Predicate)
      (ih : ∀ p ∈ ps, p.cost = min (p.leaves.map Leaf.cost).sum Cost.max) :
      (ps.map cost).foldl Cost.add 0
        = min ((ps.flatMap leaves).map Leaf.cost).sum Cost.max := by
    rw [List.map_flatMap, List.flatMap_def, List.sum_flatten, List.map_map, List.map_congr_left ih]
    refine (foldl_capped_add Cost.max _).trans ?_
    rw [min_sum_map_min]
    rfl
  induction p with
  | leaf l => simp [cost, leaves, Leaf.cost_le_max]
  | conj ps ih => rw [cost_conj, leaves_conj, hnode ps ih]
  | disj ps ih => rw [cost_disj, leaves_disj, hnode ps ih]
  | neg p ih => rw [cost_neg, leaves_neg, ih]

theorem satisfiedBy_not (p : Predicate) : p.not.satisfiedBy d = !p.satisfiedBy d := by
  cases p with
  | neg p => rw [Predicate.not, satisfiedBy_neg, Bool.not_not]
  | _ => rfl

end Predicate

/-! ## Up to the first that decides -/

section UpToFirst

variable {α β : Type} {decides : α → Bool} {x : α} {xs : List α}

/-- The front of a list up to its first deciding element, that element
included; all of the list if none decides. -/
def upToFirst (decides : α → Bool) (xs : List α) : List α :=
  xs.takeWhile (fun x => !decides x) ++ (xs.find? decides).toList

theorem upToFirst_of_decides (h : decides x = true) : upToFirst decides (x :: xs) = [x] := by
  simp [upToFirst, h]

theorem upToFirst_of_not (h : decides x = false) :
    upToFirst decides (x :: xs) = x :: upToFirst decides xs := by
  simp [upToFirst, h]

theorem upToFirst_map (f : β → α) (ys : List β) :
    upToFirst decides (ys.map f) = (upToFirst (fun y => decides (f y)) ys).map f := by
  simp only [upToFirst, List.takeWhile_map, List.find?_map, List.map_append,
    Option.toList_map]
  rfl

/-- In a list that is ordered by a key, nothing is asked with a greater key
than that of an element that decides. -/
theorem key_le_of_mem_upToFirst {key : α → Nat} (h : xs.Pairwise fun a b => key a ≤ key b)
    {y : α} (hx : x ∈ upToFirst decides xs) (hy : y ∈ xs) (hdecides : decides y = true) :
    key x ≤ key y := by
  induction xs with
  | nil => cases hy
  | cons z zs ih =>
    obtain ⟨hfirst, hrest⟩ := List.pairwise_cons.mp h
    rcases hz : decides z with _ | _
    · rw [upToFirst_of_not hz] at hx
      -- what decides stands further back, so whatever is in front of it is at most as great
      have hback : y ∈ zs := (List.mem_cons.mp hy).resolve_left fun hyz => by
        rw [hyz, hz] at hdecides
        cases hdecides
      rcases List.mem_cons.mp hx with rfl | hx
      · exact hfirst y hback
      · exact ih hrest hx hback
    · rw [upToFirst_of_decides hz, List.mem_singleton] at hx
      subst hx
      rcases List.mem_cons.mp hy with rfl | hback
      · exact Nat.le_refl _
      · exact hfirst y hback

end UpToFirst

namespace Verdict

/-- Asking for a no goes as far as the first. -/
theorem consults_every (vs : List Verdict) :
    (every vs).consults = (upToFirst (fun v => !v.answer) vs).flatMap consults := by
  induction vs with
  | nil => rfl
  | cons v vs ih =>
    rw [every]
    split
    · next hyes =>
      rw [upToFirst_of_not (by simp [hyes]), List.flatMap_cons, ← ih]
    · next hno =>
      rw [upToFirst_of_decides (by simpa using hno), List.flatMap_singleton]

/-- Asking for a yes goes as far as the first. -/
theorem consults_some (vs : List Verdict) :
    (some vs).consults = (upToFirst answer vs).flatMap consults := by
  induction vs with
  | nil => rfl
  | cons v vs ih =>
    rw [some]
    split
    · next hyes => rw [upToFirst_of_decides hyes, List.flatMap_singleton]
    · next hno =>
      rw [upToFirst_of_not (Bool.eq_false_of_not_eq_true hno), List.flatMap_cons, ← ih]

end Verdict

/-! ## Sources by their cost -/

namespace Source

/-- What asking costs: a matcher says what it costs, a predicate costs what
its leaves do together, and a node what its children do together, up to the
greatest cost. -/
structure Priced (cost : Source → Nat) : Prop where
  matcher (m : Matcher) : cost (.matcher m) = m.cost
  filter (p : Predicate) : cost (.filter p) = min (p.leaves.map Leaf.cost).sum Cost.max
  indexed (q : IndexQuery) :
    cost (.indexed q) = min (q.predicate.leaves.map Leaf.cost).sum Cost.max
  conj (ss : List Source) : cost (.conj ss) = min (ss.map cost).sum Cost.max
  disj (ss : List Source) : cost (.disj ss) = min (ss.map cost).sum Cost.max

theorem priced_cost : Priced cost := by
  have hnode (ss : List Source) : costOf ss 0 = min (ss.map cost).sum Cost.max := by
    rw [costOf_eq_foldl]
    exact foldl_capped_add Cost.max _
  exact ⟨fun _ => rfl, fun p => p.cost_eq, fun q => q.predicate.cost_eq, hnode, hnode⟩

/-- Sources in ascending order of their cost, those of equal cost as they
are given. -/
structure CheapestFirst (ss sorted : List Source) : Prop where
  perm : sorted.Perm ss
  ordered : sorted.Pairwise fun s t => s.cost ≤ t.cost
  stable (n : Nat) : (sorted.filter fun s => s.cost == n) = ss.filter fun s => s.cost == n

theorem cheapestFirst_sortByKey (ss : List Source) :
    CheapestFirst ss (Order.sortByKey cost ss) where
  perm := Order.sortBy_perm _ _
  ordered := (Order.pairwise_sortBy (Order.weak_of_key cost) ss).imp fun h =>
    Nat.le_of_not_lt (of_decide_eq_false h)
  stable n := by
    refine Order.filter_sortBy (fun s t hs ht => ?_) ss
    rw [beq_iff_eq] at hs ht
    exact decide_eq_false (by omega)

theorem inOrder_trials (d : Document) (ss : List Source) :
    Trial.inOrder (trials d ss) = (Order.sortByKey cost ss).map (judge d) := by
  rw [Trial.inOrder, trials_eq_map, Order.sortByKey,
    Order.sortBy_map (fun s t : Source => decide (s.cost < t.cost)) (fun s t => rfl),
    List.map_map]
  rfl

/-- An AND asks its cheapest children up to the first that rejects. -/
theorem consults_conj (d : Document) (ss : List Source) : ((conj ss).judge d).consults
    = (upToFirst (fun s => !s.satisfiedBy d) (Order.sortByKey cost ss)).flatMap
        fun s => (s.judge d).consults := by
  rw [judge, Verdict.consults_every, inOrder_trials, upToFirst_map, List.flatMap_map]
  rfl

/-- An OR asks its cheapest children up to the first that accepts. -/
theorem consults_disj (d : Document) (ss : List Source) : ((disj ss).judge d).consults
    = (upToFirst (satisfiedBy d) (Order.sortByKey cost ss)).flatMap
        fun s => (s.judge d).consults := by
  rw [judge, Verdict.consults_some, inOrder_trials, upToFirst_map, List.flatMap_map]
  rfl

/-- Asking the cheapest first and normal form change no answer, and what is
asked is what must be.

* The reading of predicates that is used is the plain one, and nodes in
  normal form mean what they say.
* An AND or an OR of a plan, whatever its children, answers as all or any
  of them do. The children that it asks are those in front in the order of
  their cost, up to the first that decides: the matchers that are asked
  are those that these ask, a matcher itself if it is a child.
* A matcher sets its own cost, a predicate costs what its leaves do, and a
  node what its children do, up to the greatest cost.
* So no child is asked that costs more than one that decides. -/
theorem cheapest_first_changes_no_answer (d : Document) :
    (∀ p : Predicate, p.satisfiedBy d = p.holds d)
    ∧ (∀ ps : List Predicate, (Predicate.and ps).satisfiedBy d = ps.all (Predicate.holds d))
    ∧ (∀ ps : List Predicate, (Predicate.or ps).satisfiedBy d = ps.any (Predicate.holds d))
    ∧ (∀ p : Predicate, p.not.satisfiedBy d = !p.holds d)
    ∧ (∀ m : Matcher, (matcher m).judge d = ⟨m.accepts d, [⟨m.name, d.id⟩]⟩)
    ∧ Priced cost
    ∧ ∀ ss : List Source, ∃ sorted, CheapestFirst ss sorted
      ∧ (conj ss).satisfiedBy d = ss.all (satisfiedBy d)
      ∧ ((conj ss).judge d).consults
          = (upToFirst (fun s => !s.satisfiedBy d) sorted).flatMap (fun s => (s.judge d).consults)
      ∧ (disj ss).satisfiedBy d = ss.any (satisfiedBy d)
      ∧ ((disj ss).judge d).consults
          = (upToFirst (satisfiedBy d) sorted).flatMap (fun s => (s.judge d).consults)
      ∧ ∀ decides : Source → Bool, ∀ s ∈ upToFirst decides sorted, ∀ t ∈ ss,
          decides t = true → s.cost ≤ t.cost := by
  have hplain (p : Predicate) : p.satisfiedBy d = p.holds d := p.satisfiedBy_eq_holds d
  refine ⟨hplain, fun ps => ?_, fun ps => ?_, fun p => ?_, fun m => rfl, priced_cost, fun ss => ?_⟩
  · rw [Predicate.satisfiedBy_and]
    exact all_congr_mem fun p _ => hplain p
  · rw [Predicate.satisfiedBy_or]
    exact any_congr_mem fun p _ => hplain p
  · rw [Predicate.satisfiedBy_not, hplain]
  · have hsorted := cheapestFirst_sortByKey ss
    refine ⟨_, hsorted, satisfiedBy_conj ss, consults_conj d ss, satisfiedBy_disj ss,
      consults_disj d ss, fun decides s hs t ht hdecides => ?_⟩
    exact key_le_of_mem_upToFirst hsorted.ordered hs (hsorted.perm.mem_iff.mpr ht) hdecides

end Source

end ReviewSearch
