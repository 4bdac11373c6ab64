/-
ReviewSearch.Proofs.Plan.Judgement — what the nodes of a plan accept,
and which child of an AND its results are read from.

* `satisfiedBy_conj`, `satisfiedBy_disj` — an AND accepts what all its
  children accept and an OR what any of them accepts, whatever the order
  in which they are asked;
* `isSome_estimate?` — the readable sources are those with an estimate,
  so an AND with a readable child has a driver (`exists_driver?`), which
  is one of its children (`getElem?_of_driver?`);
* `all_others` — the driver and the others are all the children.
-/
import Mathlib.Algebra.Ring.Nat
import Mathlib.Data.List.Basic
import ReviewSearch.Plan.Reading
import ReviewSearch.Proofs.Predicate.Meaning

namespace ReviewSearch

/-! ## Verdicts -/

namespace Verdict

@[simp] theorem answer_every (vs : List Verdict) : (every vs).answer = vs.all answer := by
  induction vs with
  | nil => rfl
  | cons v vs ih => by_cases h : v.answer <;> simp [every, h, ih]

@[simp] theorem answer_some (vs : List Verdict) : (some vs).answer = vs.any answer := by
  induction vs with
  | nil => rfl
  | cons v vs ih => by_cases h : v.answer <;> simp [some, h, ih]

end Verdict

/-- Additions that are each capped come to the sum, capped. -/
theorem foldl_capped_add (top : Nat) (ns : List Nat) :
    ns.foldl (fun a b => min (a + b) top) 0 = min ns.sum top := by
  have hfrom {total : Nat} (h : total ≤ top) :
      ns.foldl (fun a b => min (a + b) top) total = min (total + ns.sum) top := by
    induction ns generalizing total with
    | nil => exact (Nat.min_eq_left h).symm
    | cons n ns ih =>
      rw [List.foldl_cons, ih (Nat.min_le_right ..), List.sum_cons]
      omega
  rw [hfrom (Nat.zero_le top), Nat.zero_add]

namespace Source

variable {d : Document}

theorem costOf_eq_foldl (ss : List Source) (total : Nat) :
    costOf ss total = (ss.map cost).foldl Cost.add total := by
  induction ss generalizing total with
  | nil => rfl
  | cons s ss ih => simp [costOf, ih]

theorem trials_eq_map (ss : List Source) :
    trials d ss = ss.map fun s => ⟨s.cost, s.judge d⟩ := by
  induction ss with
  | nil => rfl
  | cons s ss ih => simp [trials, ih]

@[simp] theorem satisfiedBy_indexed (q : IndexQuery) :
    (indexed q).satisfiedBy d = q.predicate.satisfiedBy d := rfl

@[simp] theorem satisfiedBy_filter (p : Predicate) :
    (filter p).satisfiedBy d = p.satisfiedBy d := rfl

@[simp] theorem satisfiedBy_matcher (m : Matcher) :
    (matcher m).satisfiedBy d = m.accepts d := rfl

/-- An AND accepts the records that all its children accept. -/
@[simp] theorem satisfiedBy_conj (ss : List Source) :
    (conj ss).satisfiedBy d = ss.all (satisfiedBy d) := by
  have h : (Order.sortByKey Trial.cost (trials d ss)).Perm (trials d ss) :=
    Order.sortBy_perm _ _
  rw [satisfiedBy, judge, Verdict.answer_every, Trial.inOrder, List.all_map, h.all_eq,
    trials_eq_map, List.all_map]
  rfl

/-- An OR accepts the records that one of its children accepts. -/
@[simp] theorem satisfiedBy_disj (ss : List Source) :
    (disj ss).satisfiedBy d = ss.any (satisfiedBy d) := by
  have h : (Order.sortByKey Trial.cost (trials d ss)).Perm (trials d ss) :=
    Order.sortBy_perm _ _
  rw [satisfiedBy, judge, Verdict.answer_some, Trial.inOrder, List.any_map, h.any_eq,
    trials_eq_map, List.any_map]
  rfl

/-- Several sources asked in turn accept what all of them accept. -/
theorem answer_every_judge (filters : List Source) :
    (Verdict.every (filters.map (judge d))).answer = filters.all (satisfiedBy d) := by
  rw [Verdict.answer_every, List.all_map]
  rfl

/-! ## Readable sources and estimates -/

theorem anyReadable_eq_any (ss : List Source) : anyReadable ss = ss.any readable := by
  induction ss with
  | nil => rfl
  | cons s ss ih => simp [anyReadable, ih]

@[simp] theorem readable_indexed (q : IndexQuery) : (indexed q).readable = true := rfl

@[simp] theorem readable_disj (ss : List Source) : (disj ss).readable = true := rfl

@[simp] theorem readable_conj (ss : List Source) : (conj ss).readable = ss.any readable :=
  anyReadable_eq_any ss

@[simp] theorem readable_filter (p : Predicate) : (filter p).readable = false := rfl

@[simp] theorem readable_matcher (m : Matcher) : (matcher m).readable = false := rfl

theorem estimates_eq_filterMap (size : Predicate → Nat) (ss : List Source) :
    estimates size ss = ss.filterMap (estimate? size) := by
  induction ss with
  | nil => rfl
  | cons s ss ih => cases h : estimate? size s <;> simp [estimates, ih, h]

/-- The readable sources are those with an estimate. -/
theorem isSome_estimate? (size : Predicate → Nat) (s : Source) :
    (s.estimate? size).isSome = s.readable := by
  induction s with
  | indexed q => rfl
  | conj ss ih =>
    rw [estimate?, estimates_eq_filterMap, readable_conj, Bool.eq_iff_iff, List.any_eq_true,
      List.isSome_min?_iff]
    constructor
    · intro h
      obtain ⟨n, hn⟩ := List.exists_mem_of_ne_nil _ h
      obtain ⟨s, hs, hsn⟩ := List.mem_filterMap.mp hn
      exact ⟨s, hs, by rw [← ih s hs, hsn]; rfl⟩
    · rintro ⟨s, hs, hr⟩
      obtain ⟨n, hn⟩ := Option.isSome_iff_exists.mp ((ih s hs).trans hr)
      exact List.ne_nil_of_mem (List.mem_filterMap.mpr ⟨s, hs, hn⟩)
  | disj ss _ => rfl
  | filter p => rfl
  | matcher m => rfl

/-! ## Drivers -/

/-- The estimates of the readable sources of a list, with their
positions. -/
def positions (size : Predicate → Nat) (ss : List Source) : List (Nat × Nat) :=
  ss.zipIdx.filterMap fun (s, i) => (s.estimate? size).map fun n => (n, i)

theorem mem_positions {size : Predicate → Nat} {ss : List Source} {n i : Nat} :
    (n, i) ∈ positions size ss ↔ ∃ s, ss[i]? = some s ∧ s.estimate? size = some n := by
  unfold positions
  simp only [List.mem_filterMap, Prod.exists, Option.map_eq_some_iff, Prod.mk.injEq,
    List.mem_zipIdx_iff_getElem?]
  constructor
  · rintro ⟨s, j, hs, m, hm, rfl, rfl⟩
    exact ⟨s, hs, hm⟩
  · rintro ⟨s, hs, hn⟩
    exact ⟨s, i, hs, n, hn, rfl, rfl⟩

theorem driver?_eq (size : Predicate → Nat) (ss : List Source) :
    driver? size ss = (Order.sortByKey Prod.fst (positions size ss)).head?.map Prod.snd := rfl

/-- A driver is a readable child. -/
theorem getElem?_of_driver? {size : Predicate → Nat} {ss : List Source} {i : Nat}
    (h : driver? size ss = some i) : ∃ s, ss[i]? = some s ∧ s.readable = true := by
  rw [driver?_eq, Option.map_eq_some_iff] at h
  obtain ⟨⟨n, j⟩, hhead, rfl⟩ := h
  have hmem : (n, j) ∈ positions size ss :=
    Order.mem_sortBy.mp (List.mem_of_head? hhead)
  obtain ⟨s, hs, hn⟩ := mem_positions.mp hmem
  exact ⟨s, hs, by rw [← isSome_estimate? size s, hn]; rfl⟩

/-- An AND with a readable child has a driver. -/
theorem exists_driver? (size : Predicate → Nat) {ss : List Source}
    (h : anyReadable ss = true) : ∃ i, driver? size ss = some i := by
  rw [anyReadable_eq_any, List.any_eq_true] at h
  obtain ⟨s, hs, hr⟩ := h
  obtain ⟨n, hn⟩ := Option.isSome_iff_exists.mp ((isSome_estimate? size s).trans hr)
  obtain ⟨i, hi⟩ := List.getElem?_of_mem hs
  have hmem : (n, i) ∈ Order.sortByKey Prod.fst (positions size ss) :=
    Order.mem_sortBy.mpr (mem_positions.mpr ⟨s, hi, hn⟩)
  obtain ⟨e, he⟩ := Option.isSome_iff_exists.mp
    (List.isSome_head?.mpr (List.ne_nil_of_mem hmem))
  exact ⟨e.2, by rw [driver?_eq, he]; rfl⟩

theorem mem_others {ss : List Source} {i : Nat} {s : Source} :
    s ∈ others ss i ↔ ∃ j, j ≠ i ∧ ss[j]? = some s := by
  unfold others
  simp only [List.mem_map, List.mem_filter, Order.sortByKey, Order.mem_sortBy,
    List.mem_zipIdx_iff_getElem?, bne_iff_ne, Prod.exists]
  constructor
  · rintro ⟨s, j, ⟨hs, hj⟩, rfl⟩
    exact ⟨j, hj, hs⟩
  · rintro ⟨j, hj, hs⟩
    exact ⟨s, j, ⟨hs, hj⟩, rfl⟩

/-- The driver and the others are all the children of an AND. -/
theorem all_others {ss : List Source} {i : Nat} {s : Source} (hs : ss[i]? = some s) :
    (s.satisfiedBy d && (others ss i).all (satisfiedBy d)) = (conj ss).satisfiedBy d := by
  rw [satisfiedBy_conj, Bool.eq_iff_iff, Bool.and_eq_true, List.all_eq_true, List.all_eq_true]
  constructor
  · rintro ⟨hdriver, hothers⟩ s' hs'
    obtain ⟨j, hj⟩ := List.getElem?_of_mem hs'
    by_cases hij : j = i
    · subst hij
      rw [hs] at hj
      exact Option.some.inj hj ▸ hdriver
    · exact hothers s' (mem_others.mpr ⟨j, hij, hj⟩)
  · intro h
    refine ⟨h s (List.mem_of_getElem? hs), ?_⟩
    intro s' hs'
    obtain ⟨j, _, hj⟩ := mem_others.mp hs'
    exact h s' (List.mem_of_getElem? hj)

end Source

end ReviewSearch
