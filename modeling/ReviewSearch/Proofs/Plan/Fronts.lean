/-
ReviewSearch.Proofs.Plan.Fronts — plans whose queries may be cut short.

Reading the queries of a plan up to `n` results each does not always leave
its first `n` results alone: an AND that is driven by an OR, or by another
AND, filters what is left of its driver and does not ask for more. It does
if every AND that is read is driven by an index query, which is read on
until enough has passed the other children (`take_listing_of_indexDriven`).
-/
import ReviewSearch.Proofs.Plan.Listing

namespace ReviewSearch.Source

variable {store : Store} {size : Predicate → Nat}

mutual

/-- Whether every AND that is read has an index query for a driver. -/
def indexDriven (size : Predicate → Nat) : Source → Bool
  | .indexed _ | .filter _ | .matcher _ => true
  | .conj ss =>
    match (driver? size ss).bind fun i => ss[i]? with
    | some (.indexed _) | none => true
    | some _ => false
  | .disj ss => indexDrivenAll size ss

def indexDrivenAll (size : Predicate → Nat) : List Source → Bool
  | [] => true
  | s :: ss => indexDriven size s && indexDrivenAll size ss

end

theorem indexDrivenAll_eq_all (ss : List Source) :
    indexDrivenAll size ss = ss.all (indexDriven size) := by
  induction ss with
  | nil => rfl
  | cons s ss ih => simp [indexDrivenAll, ih]

theorem indexDriven_disj (ss : List Source) :
    (disj ss).indexDriven size = ss.all (indexDriven size) := by
  rw [indexDriven, indexDrivenAll_eq_all]

/-- The driver of an index-driven AND is an index query. -/
theorem eq_indexed_of_indexDriven {ss : List Source} {i : Nat} {s : Source}
    (h : (conj ss).indexDriven size = true) (hi : driver? size ss = some i)
    (hs : ss[i]? = some s) : ∃ q, s = .indexed q := by
  rw [indexDriven, hi, Option.bind_some, hs] at h
  cases s with
  | indexed q => exact ⟨q, rfl⟩
  | _ => cases h

/-- Cutting the queries of an index-driven plan short behind the first `n`
results leaves the first `n` results of the plan alone. -/
theorem take_listing_of_indexDriven {s : Source} (h : s.indexDriven size = true) {m n : Nat}
    (hmn : n ≤ m) :
    (s.listing store size fun _ => n).take n = (s.listing store size fun _ => m).take n := by
  have hcut (ds : List Document) : (ds.take n).take n = (ds.take m).take n := by
    rw [List.take_take, List.take_take, Nat.min_self, Nat.min_eq_left hmn]
  induction s with
  | indexed q => exact hcut _
  | conj ss _ =>
    cases hi : driver? size ss with
    | none => rw [listing_conj_of_no_driver hi, listing_conj_of_no_driver hi]
    | some i =>
      obtain ⟨s, hs, _⟩ := getElem?_of_driver? hi
      obtain ⟨q, rfl⟩ := eq_indexed_of_indexDriven h hi hs
      rw [listing_conj_of_driver hi hs, listing_conj_of_driver hi hs, led_indexed, led_indexed]
      exact hcut _
  | disj ss ih =>
    rw [indexDriven_disj, List.all_eq_true] at h
    rw [listing_disj, listing_disj]
    exact Order.take_distinctBy_flatMap [] (fun s hs => ih s hs (h s hs))
      fun s _ => nodup_ids_listing s
  | filter p => rfl
  | matcher m => rfl

end ReviewSearch.Source
