/-
ReviewSearch.Proofs.Plan.Remake — plans that differ in their windows only.

`Source.remake` changes every index query and every filter of a plan. If
that is HARMLESS (`Harmless`), so that queries keep their predicates and
filters accept the same records at the same cost, then the new plan
accepts the same records (`satisfiedBy_remake`), its ANDs have the same
drivers behind the same filters (`driver?_remake`, `others_remake`), and
it lists the same records as long as its queries are read up to the same
number (`listing_remake`).
-/
import ReviewSearch.Proofs.Plan.Listing

namespace ReviewSearch.Source

variable {f : IndexQuery → IndexQuery} {g : Predicate → Predicate}
variable {store : Store} {size : Predicate → Nat} {d : Document}

mutual

/-- The plan with other index queries and filters. -/
def remake (f : IndexQuery → IndexQuery) (g : Predicate → Predicate) : Source → Source
  | .indexed q => .indexed (f q)
  | .conj ss => .conj (remakeAll f g ss)
  | .disj ss => .disj (remakeAll f g ss)
  | .filter p => .filter (g p)
  | .matcher m => .matcher m

def remakeAll (f : IndexQuery → IndexQuery) (g : Predicate → Predicate) :
    List Source → List Source
  | [] => []
  | s :: ss => remake f g s :: remakeAll f g ss

end

theorem remakeAll_eq_map (ss : List Source) : remakeAll f g ss = ss.map (remake f g) := by
  induction ss with
  | nil => rfl
  | cons s ss ih => simp [remakeAll, ih]

@[simp] theorem remake_indexed (q : IndexQuery) : (indexed q).remake f g = .indexed (f q) := by
  rw [remake]

@[simp] theorem remake_conj (ss : List Source) :
    (conj ss).remake f g = .conj (ss.map (remake f g)) := by
  rw [remake, remakeAll_eq_map]

@[simp] theorem remake_disj (ss : List Source) :
    (disj ss).remake f g = .disj (ss.map (remake f g)) := by
  rw [remake, remakeAll_eq_map]

@[simp] theorem remake_filter (p : Predicate) : (filter p).remake f g = .filter (g p) := by
  rw [remake]

@[simp] theorem remake_matcher (m : Matcher) : (matcher m).remake f g = .matcher m := by
  rw [remake]

/-- A change that leaves alone what queries ask for, and what filters
accept and cost. -/
structure Harmless (f : IndexQuery → IndexQuery) (g : Predicate → Predicate) : Prop where
  predicate (q : IndexQuery) : (f q).predicate = q.predicate
  satisfiedBy (p : Predicate) (d : Document) : (g p).satisfiedBy d = p.satisfiedBy d
  cost (p : Predicate) : (g p).cost = p.cost

/-! ## Single records -/

theorem satisfiedBy_remake (h : Harmless f g) (s : Source) :
    (s.remake f g).satisfiedBy d = s.satisfiedBy d := by
  induction s with
  | indexed q => rw [remake_indexed, satisfiedBy_indexed, h.predicate, satisfiedBy_indexed]
  | conj ss ih =>
    rw [remake_conj, satisfiedBy_conj, satisfiedBy_conj, List.all_map]
    exact all_congr_mem ih
  | disj ss ih =>
    rw [remake_disj, satisfiedBy_disj, satisfiedBy_disj, List.any_map]
    exact any_congr_mem ih
  | filter p => rw [remake_filter, satisfiedBy_filter, h.satisfiedBy, satisfiedBy_filter]
  | matcher m => rw [remake_matcher]

theorem accepted_remake (h : Harmless f g) (filters : List Source) (ds : List Document) :
    accepted (filters.map (remake f g)) ds = accepted filters ds := by
  refine congrArg (List.filter · ds) (funext fun d => ?_)
  rw [List.all_map]
  exact congrArg filters.all (funext fun s => satisfiedBy_remake h s)

/-! ## Drivers -/

theorem cost_remake (h : Harmless f g) (s : Source) : (s.remake f g).cost = s.cost := by
  induction s with
  | indexed q => rw [remake_indexed, cost, cost, h.predicate]
  | conj ss ih =>
    rw [remake_conj, cost, cost, costOf_eq_foldl, costOf_eq_foldl, List.map_map]
    exact congrArg (List.foldl Cost.add 0) (List.map_congr_left ih)
  | disj ss ih =>
    rw [remake_disj, cost, cost, costOf_eq_foldl, costOf_eq_foldl, List.map_map]
    exact congrArg (List.foldl Cost.add 0) (List.map_congr_left ih)
  | filter p => rw [remake_filter, cost, cost, h.cost]
  | matcher m => rw [remake_matcher]

theorem readable_remake (s : Source) : (s.remake f g).readable = s.readable := by
  induction s with
  | conj ss ih =>
    rw [remake_conj, readable_conj, readable_conj, List.any_map]
    exact any_congr_mem ih
  | _ => simp

theorem estimate?_remake (h : Harmless f g) (s : Source) :
    (s.remake f g).estimate? size = s.estimate? size := by
  have hall {ss : List Source}
      (ih : ∀ s ∈ ss, (s.remake f g).estimate? size = s.estimate? size) :
      estimates size (ss.map (remake f g)) = estimates size ss := by
    rw [estimates_eq_filterMap, estimates_eq_filterMap, List.filterMap_map]
    exact List.filterMap_congr ih
  induction s with
  | indexed q => rw [remake_indexed, estimate?, estimate?, h.predicate]
  | conj ss ih => rw [remake_conj, estimate?, estimate?, hall ih]
  | disj ss ih => rw [remake_disj, estimate?, estimate?, hall ih]
  | filter p => rw [remake_filter]; rfl
  | matcher m => rw [remake_matcher]

theorem driver?_remake (h : Harmless f g) (ss : List Source) :
    driver? size (ss.map (remake f g)) = driver? size ss := by
  have hpositions : positions size (ss.map (remake f g)) = positions size ss := by
    unfold positions
    rw [List.zipIdx_map, List.filterMap_map]
    refine List.filterMap_congr fun e _ => ?_
    show ((e.1.remake f g).estimate? size).map _ = _
    rw [estimate?_remake h]
    rfl
  rw [driver?_eq, driver?_eq, hpositions]

theorem others_remake (h : Harmless f g) (ss : List Source) (i : Nat) :
    others (ss.map (remake f g)) i = (others ss i).map (remake f g) := by
  unfold others Order.sortByKey
  rw [List.zipIdx_map, Order.sortBy_map (fun a b => decide (a.1.cost < b.1.cost)),
    List.filter_map, List.map_map, List.map_map]
  · rfl
  · intro a b
    simp [cost_remake h]

/-! ## The list -/

/-- Plans that differ in their windows list the same records, as long as
each query is read up to the same number. -/
theorem listing_remake (h : Harmless f g) {cap cap' : IndexQuery → Nat} (s : Source)
    (hcap : ∀ q ∈ s.queries, cap' (f q) = cap q) :
    (s.remake f g).listing store size cap' = s.listing store size cap := by
  induction s with
  | indexed q =>
    rw [remake_indexed, listing_indexed, listing_indexed, hcap q (by simp), h.predicate]
  | conj ss ih =>
    rw [remake_conj]
    cases hi : driver? size ss with
    | none =>
      rw [listing_conj_of_no_driver hi,
        listing_conj_of_no_driver ((driver?_remake h ss).trans hi)]
    | some i =>
      obtain ⟨s, hs, _⟩ := getElem?_of_driver? hi
      have hmem := List.mem_of_getElem? hs
      have hs' : (ss.map (remake f g))[i]? = some (s.remake f g) := by
        rw [List.getElem?_map, hs]
        rfl
      have hcap' : ∀ q ∈ s.queries, cap' (f q) = cap q :=
        fun q hq => hcap q (queries_conj ss ▸ List.mem_flatMap_of_mem hmem hq)
      rw [listing_conj_of_driver hi hs,
        listing_conj_of_driver ((driver?_remake h ss).trans hi) hs', ih s hmem hcap',
        others_remake h]
      by_cases hq : ∃ q, s = .indexed q
      · obtain ⟨q, rfl⟩ := hq
        rw [remake_indexed, led_indexed, led_indexed, accepted_remake h, hcap' q (by simp),
          h.predicate]
      · have hq' : ∀ q, s.remake f g ≠ .indexed q := by
          cases s with
          | indexed q => exact absurd ⟨q, rfl⟩ hq
          | _ => simp
        rw [led_of_not_indexed (not_exists.mp hq), led_of_not_indexed hq', accepted_remake h]
  | disj ss ih =>
    rw [remake_disj, listing_disj, listing_disj, List.flatMap_map]
    refine congrArg _ (List.flatMap_congr fun s hs => ih s hs fun q hq => hcap q ?_)
    exact queries_disj ss ▸ List.mem_flatMap_of_mem hs hq
  | filter p => rw [remake_filter]; rfl
  | matcher m => rw [remake_matcher]; rfl

end ReviewSearch.Source
