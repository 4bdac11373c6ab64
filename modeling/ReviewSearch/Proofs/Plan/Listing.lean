/-
ReviewSearch.Proofs.Plan.Listing — the results of a plan as a list.

`listing` says in one equation for each kind of source which records a
plan lists over a store, and in which order. Two things are left open:
`size`, the estimates that drivers are chosen by, and `cap`, how many
results each index query is read up to.

* `of_mem_listing` — only records of the store are listed, and only those
  that the plan accepts;
* `nodup_ids_listing` — none is listed twice;
* `listing_congr` — caps beyond the size of the store are all the same;
* `mem_listing` — if no cap is below the size of the store, all accepted
  records are listed, whichever children are the drivers.

A plan is WELL BUILT over a store (`WellBuilt`) if its index queries ask
what the store can answer and its ORs have readable children.
-/
import Mathlib.Data.List.Basic
import ReviewSearch.Proofs.Plan.Windows

namespace ReviewSearch.Source

variable {store : Store} {size : Predicate → Nat} {cap : IndexQuery → Nat} {d : Document}

/-! ## The list -/

/-- What an AND lists, of whose children one is the driver: the driver is
read up to its cap behind the others if it is an index query, and in full
if it is not. -/
def led (store : Store) (cap : IndexQuery → Nat) (others : List Source) :
    Source → List Document → List Document
  | .indexed q, _ => (accepted others (store.results q.predicate)).take (cap q)
  | _, ds => accepted others ds

theorem led_indexed (others : List Source) (q : IndexQuery) (ds : List Document) :
    led store cap others (.indexed q) ds
      = (accepted others (store.results q.predicate)).take (cap q) := rfl

theorem led_of_not_indexed {s : Source} (h : ∀ q, s ≠ .indexed q) (others : List Source)
    (ds : List Document) : led store cap others s ds = accepted others ds := by
  cases s with
  | indexed q => exact absurd rfl (h q)
  | _ => rfl

mutual

/-- The records that a source lists, in their order. -/
def listing (store : Store) (size : Predicate → Nat) (cap : IndexQuery → Nat) :
    Source → List Document
  | .indexed q => (store.results q.predicate).take (cap q)
  | .conj ss =>
    match driver? size ss with
    | none => []
    | some i =>
      match ss[i]?, (listings store size cap ss)[i]? with
      | some s, some ds => led store cap (others ss i) s ds
      | _, _ => []
  | .disj ss => Order.distinctBy Document.id [] (listings store size cap ss).flatten
  | .filter _ | .matcher _ => []

def listings (store : Store) (size : Predicate → Nat) (cap : IndexQuery → Nat) :
    List Source → List (List Document)
  | [] => []
  | s :: ss => listing store size cap s :: listings store size cap ss

end

theorem listings_eq_map (ss : List Source) :
    listings store size cap ss = ss.map (listing store size cap) := by
  induction ss with
  | nil => rfl
  | cons s ss ih => simp [listings, ih]

theorem listing_indexed (q : IndexQuery) :
    (indexed q).listing store size cap = (store.results q.predicate).take (cap q) := rfl

theorem listing_conj_of_driver {ss : List Source} {i : Nat} {s : Source}
    (hi : driver? size ss = some i) (hs : ss[i]? = some s) :
    (conj ss).listing store size cap
      = led store cap (others ss i) s (s.listing store size cap) := by
  have hds : (listings store size cap ss)[i]? = some (s.listing store size cap) := by
    rw [listings_eq_map, List.getElem?_map, hs]
    rfl
  simp only [listing, hi, hs, hds]

theorem listing_conj_of_no_driver {ss : List Source} (h : driver? size ss = none) :
    (conj ss).listing store size cap = [] := by
  simp only [listing, h]

theorem listing_disj (ss : List Source) :
    (disj ss).listing store size cap
      = Order.distinctBy Document.id [] (ss.flatMap (listing store size cap)) := by
  rw [listing, listings_eq_map, List.flatMap_def]

/-! ## What is listed -/

/-- What an AND lists, the others accept; and the driver lists it or, if
it is an index query, finds it. -/
theorem mem_led {others : List Source} {s : Source} {ds : List Document}
    (h : d ∈ led store cap others s ds) :
    others.all (satisfiedBy d) = true ∧
      (d ∈ ds ∨ ∃ q, s = .indexed q ∧ d ∈ store.results q.predicate) := by
  by_cases hs : ∃ q, s = .indexed q
  · obtain ⟨q, rfl⟩ := hs
    rw [led_indexed] at h
    obtain ⟨hmem, hacc⟩ := List.mem_filter.mp (List.mem_of_mem_take h)
    exact ⟨hacc, .inr ⟨q, rfl, hmem⟩⟩
  · rw [led_of_not_indexed (not_exists.mp hs)] at h
    obtain ⟨hmem, hacc⟩ := List.mem_filter.mp h
    exact ⟨hacc, .inl hmem⟩

/-- Records that are listed are in the store, and the plan accepts
them. -/
theorem of_mem_listing {s : Source} (h : d ∈ s.listing store size cap) :
    d ∈ store ∧ s.satisfiedBy d = true := by
  induction s with
  | indexed q => exact Store.mem_results.mp (List.mem_of_mem_take h)
  | conj ss ih =>
    cases hi : driver? size ss with
    | none =>
      rw [listing_conj_of_no_driver hi] at h
      exact absurd h List.not_mem_nil
    | some i =>
      obtain ⟨s, hs, _⟩ := getElem?_of_driver? hi
      rw [listing_conj_of_driver hi hs] at h
      obtain ⟨hothers, hdriver⟩ := mem_led h
      have hboth : d ∈ store ∧ s.satisfiedBy d = true := by
        rcases hdriver with hlisted | ⟨q, rfl, hfound⟩
        · exact ih s (List.mem_of_getElem? hs) hlisted
        · exact Store.mem_results.mp hfound
      refine ⟨hboth.1, ?_⟩
      rw [← all_others hs, hboth.2, hothers]
      rfl
  | disj ss ih =>
    rw [listing_disj] at h
    obtain ⟨s, hs, hd⟩ := List.mem_flatMap.mp (Order.mem_of_mem_distinctBy h).1
    obtain ⟨hstore, hsat⟩ := ih s hs hd
    refine ⟨hstore, ?_⟩
    rw [satisfiedBy_disj, List.any_eq_true]
    exact ⟨s, hs, hsat⟩
  | filter p => exact absurd h List.not_mem_nil
  | matcher m => exact absurd h List.not_mem_nil

theorem nodup_ids_accepted {ds : List Document} (h : (ds.map Document.id).Nodup)
    (filters : List Source) : ((accepted filters ds).map Document.id).Nodup :=
  h.sublist (List.filter_sublist.map _)

theorem nodup_ids_take {ds : List Document} (h : (ds.map Document.id).Nodup) (n : Nat) :
    ((ds.take n).map Document.id).Nodup :=
  h.sublist ((List.take_sublist n ds).map _)

/-- No record is listed twice. -/
theorem nodup_ids_listing (s : Source) :
    ((s.listing store size cap).map Document.id).Nodup := by
  induction s with
  | indexed q => exact nodup_ids_take (store.nodup_ids_results q.predicate) (cap q)
  | conj ss ih =>
    cases hi : driver? size ss with
    | none =>
      rw [listing_conj_of_no_driver hi]
      exact List.nodup_nil
    | some i =>
      obtain ⟨s, hs, _⟩ := getElem?_of_driver? hi
      rw [listing_conj_of_driver hi hs]
      by_cases hq : ∃ q, s = .indexed q
      · obtain ⟨q, rfl⟩ := hq
        exact nodup_ids_take (nodup_ids_accepted (store.nodup_ids_results q.predicate) _) (cap q)
      · rw [led_of_not_indexed (not_exists.mp hq)]
        exact nodup_ids_accepted (ih s (List.mem_of_getElem? hs)) _
  | disj ss _ =>
    rw [listing_disj]
    exact Order.nodup_map_distinctBy ..
  | filter p => exact List.nodup_nil
  | matcher m => exact List.nodup_nil

/-- A plan lists no more records than the store has. -/
theorem length_listing_le (s : Source) : (s.listing store size cap).length ≤ store.size :=
  Store.length_le_size (fun _ h => (of_mem_listing h).1) (nodup_ids_listing s)

/-! ## Queries of a plan -/

mutual

/-- The index queries of a plan. -/
def queries : Source → List IndexQuery
  | .indexed q => [q]
  | .conj ss | .disj ss => queriesOf ss
  | .filter _ | .matcher _ => []

def queriesOf : List Source → List IndexQuery
  | [] => []
  | s :: ss => queries s ++ queriesOf ss

end

theorem queriesOf_eq_flatMap (ss : List Source) : queriesOf ss = ss.flatMap queries := by
  induction ss with
  | nil => rfl
  | cons s ss ih => simp [queriesOf, ih]

@[simp] theorem queries_indexed (q : IndexQuery) : (indexed q).queries = [q] := rfl

@[simp] theorem queries_conj (ss : List Source) : (conj ss).queries = ss.flatMap queries :=
  queriesOf_eq_flatMap ss

@[simp] theorem queries_disj (ss : List Source) : (disj ss).queries = ss.flatMap queries :=
  queriesOf_eq_flatMap ss

@[simp] theorem queries_filter (p : Predicate) : (filter p).queries = [] := rfl

@[simp] theorem queries_matcher (m : Matcher) : (matcher m).queries = [] := rfl

mutual

/-- Whether the children of every OR are readable. -/
def orsReadable : Source → Bool
  | .indexed _ | .filter _ | .matcher _ => true
  | .conj ss => orsReadableAll ss
  | .disj ss => ss.all readable && orsReadableAll ss

def orsReadableAll : List Source → Bool
  | [] => true
  | s :: ss => orsReadable s && orsReadableAll ss

end

theorem orsReadableAll_eq_all (ss : List Source) : orsReadableAll ss = ss.all orsReadable := by
  induction ss with
  | nil => rfl
  | cons s ss ih => simp [orsReadableAll, ih]

@[simp] theorem orsReadable_conj (ss : List Source) :
    (conj ss).orsReadable = ss.all orsReadable :=
  orsReadableAll_eq_all ss

@[simp] theorem orsReadable_disj (ss : List Source) :
    (disj ss).orsReadable = (ss.all readable && ss.all orsReadable) := by
  rw [orsReadable, orsReadableAll_eq_all]

/-- A plan whose index queries all are of one kind, and in which every
child of an OR is readable. -/
structure Built (P : IndexQuery → Prop) (s : Source) : Prop where
  queries : ∀ q ∈ s.queries, P q
  orsReadable : s.orsReadable = true

/-- A plan that a store can be read by: its queries ask what the store
answers, in windows that are not empty. -/
def WellBuilt (store : Store) : Source → Prop :=
  Built fun q => q.Formed ∧ store.Supports q.predicate

namespace Built

variable {P : IndexQuery → Prop} {ss : List Source} {s : Source}

theorem mono {P' : IndexQuery → Prop} (hPP' : ∀ q, P q → P' q) (h : s.Built P) : s.Built P' :=
  ⟨fun q hq => hPP' q (h.queries q hq), h.orsReadable⟩

theorem indexed {q : IndexQuery} (h : P q) : (Source.indexed q).Built P :=
  ⟨by simpa, rfl⟩

theorem filter (p : Predicate) : (Source.filter p).Built P :=
  ⟨by simp, rfl⟩

theorem matcher (m : Matcher) : (Source.matcher m).Built P :=
  ⟨by simp, rfl⟩

theorem conj (h : ∀ s ∈ ss, s.Built P) : (Source.conj ss).Built P where
  queries q hq := by
    obtain ⟨s, hs, hq⟩ := List.mem_flatMap.mp (queries_conj ss ▸ hq)
    exact (h s hs).queries q hq
  orsReadable := by
    rw [orsReadable_conj, List.all_eq_true]
    exact fun s hs => (h s hs).orsReadable

theorem disj (h : ∀ s ∈ ss, s.Built P) (hr : ∀ s ∈ ss, s.readable = true) :
    (Source.disj ss).Built P where
  queries q hq := by
    obtain ⟨s, hs, hq⟩ := List.mem_flatMap.mp (queries_disj ss ▸ hq)
    exact (h s hs).queries q hq
  orsReadable := by
    rw [orsReadable_disj, Bool.and_eq_true, List.all_eq_true, List.all_eq_true]
    exact ⟨hr, fun s hs => (h s hs).orsReadable⟩

theorem of_conj (h : (Source.conj ss).Built P) (hs : s ∈ ss) : s.Built P where
  queries q hq := h.queries q (queries_conj ss ▸ List.mem_flatMap_of_mem hs hq)
  orsReadable := List.all_eq_true.mp (orsReadable_conj ss ▸ h.orsReadable) s hs

theorem of_disj (h : (Source.disj ss).Built P) (hs : s ∈ ss) : s.Built P ∧ s.readable = true := by
  have hors := h.orsReadable
  rw [orsReadable_disj, Bool.and_eq_true, List.all_eq_true, List.all_eq_true] at hors
  exact ⟨⟨fun q hq => h.queries q (queries_disj ss ▸ List.mem_flatMap_of_mem hs hq),
    hors.2 s hs⟩, hors.1 s hs⟩

end Built

/-! ## Caps -/

theorem take_congr_of_length_le {ds : List Document} {m n : Nat} (hlen : ds.length ≤ store.size)
    (h : min m store.size = min n store.size) : ds.take m = ds.take n := by
  rw [List.take_eq_take_iff]
  omega

/-- Caps matter up to the size of the store only. -/
theorem listing_congr {cap cap' : IndexQuery → Nat} (s : Source)
    (hcap : ∀ q ∈ s.queries, min (cap q) store.size = min (cap' q) store.size) :
    s.listing store size cap = s.listing store size cap' := by
  induction s with
  | indexed q =>
    exact take_congr_of_length_le (store.length_results_le q.predicate) (hcap q (by simp))
  | conj ss ih =>
    cases hi : driver? size ss with
    | none => rw [listing_conj_of_no_driver hi, listing_conj_of_no_driver hi]
    | some i =>
      obtain ⟨s, hs, _⟩ := getElem?_of_driver? hi
      have hmem := List.mem_of_getElem? hs
      have hcap' : ∀ q ∈ s.queries, min (cap q) store.size = min (cap' q) store.size :=
        fun q hq => hcap q (queries_conj ss ▸ List.mem_flatMap_of_mem hmem hq)
      rw [listing_conj_of_driver hi hs, listing_conj_of_driver hi hs, ih s hmem hcap']
      by_cases hq : ∃ q, s = .indexed q
      · obtain ⟨q, rfl⟩ := hq
        have hlen : (accepted (others ss i) (store.results q.predicate)).length ≤ store.size :=
          Nat.le_trans (List.length_filter_le ..) (store.length_results_le q.predicate)
        rw [led_indexed, led_indexed]
        exact take_congr_of_length_le hlen (hcap' q (by simp))
      · rw [led_of_not_indexed (not_exists.mp hq), led_of_not_indexed (not_exists.mp hq)]
  | disj ss ih =>
    rw [listing_disj, listing_disj]
    refine congrArg _ (List.flatMap_congr fun s hs => ih s hs fun q hq => hcap q ?_)
    exact queries_disj ss ▸ List.mem_flatMap_of_mem hs hq
  | filter p => rfl
  | matcher m => rfl

/-! ## Completeness -/

/-- If no query is cut short, a readable plan lists all that it
accepts. -/
theorem mem_listing_of_satisfiedBy {s : Source} (hs : s.orsReadable = true)
    (hr : s.readable = true) (hcap : ∀ q ∈ s.queries, store.size ≤ cap q) (hd : d ∈ store)
    (h : s.satisfiedBy d = true) : d ∈ s.listing store size cap := by
  induction s with
  | indexed q =>
    have hlen := Nat.le_trans (store.length_results_le q.predicate) (hcap q (by simp))
    rw [listing_indexed, List.take_of_length_le hlen]
    exact Store.mem_results.mpr ⟨hd, h⟩
  | conj ss ih =>
    rw [readable_conj, ← anyReadable_eq_any] at hr
    obtain ⟨i, hi⟩ := exists_driver? size hr
    obtain ⟨s, hget, hsr⟩ := getElem?_of_driver? hi
    have hmem := List.mem_of_getElem? hget
    have hcap' : ∀ q ∈ s.queries, store.size ≤ cap q :=
      fun q hq => hcap q (queries_conj ss ▸ List.mem_flatMap_of_mem hmem hq)
    rw [← all_others hget, Bool.and_eq_true] at h
    rw [listing_conj_of_driver hi hget]
    by_cases hq : ∃ q, s = .indexed q
    · obtain ⟨q, rfl⟩ := hq
      have hlen : (accepted (others ss i) (store.results q.predicate)).length ≤ cap q := by
        calc (accepted (others ss i) (store.results q.predicate)).length
            ≤ (store.results q.predicate).length := List.length_filter_le ..
          _ ≤ store.size := store.length_results_le q.predicate
          _ ≤ cap q := hcap' q (by simp)
      rw [led_indexed, List.take_of_length_le hlen]
      exact List.mem_filter.mpr ⟨Store.mem_results.mpr ⟨hd, h.1⟩, h.2⟩
    · rw [led_of_not_indexed (not_exists.mp hq)]
      have hors := List.all_eq_true.mp (orsReadable_conj ss ▸ hs) s hmem
      exact List.mem_filter.mpr ⟨ih s hmem hors hsr hcap' h.1, h.2⟩
  | disj ss ih =>
    rw [satisfiedBy_disj, List.any_eq_true] at h
    rw [orsReadable_disj, Bool.and_eq_true, List.all_eq_true, List.all_eq_true] at hs
    obtain ⟨s, hmem, hsat⟩ := h
    have hcap' : ∀ q ∈ s.queries, store.size ≤ cap q :=
      fun q hq => hcap q (queries_disj ss ▸ List.mem_flatMap_of_mem hmem hq)
    have hlisted := ih s hmem (hs.2 s hmem) (hs.1 s hmem) hcap' hsat
    rw [listing_disj]
    -- the record with the number of `d` that is kept is `d`, for the store has no other
    obtain ⟨d', hd', hid⟩ := Order.exists_mem_distinctBy (List.mem_flatMap_of_mem hmem hlisted)
      (List.not_mem_nil (a := d.id))
    obtain ⟨s', _, hlisted'⟩ := List.mem_flatMap.mp (Order.mem_of_mem_distinctBy hd').1
    rw [Store.eq_of_id_eq hd (of_mem_listing hlisted').1 hid.symm]
    exact hd'
  | filter p => simp at hr
  | matcher m => simp at hr

/-- If no query is cut short, a readable plan lists just what it
accepts. -/
theorem mem_listing {s : Source} (hs : s.orsReadable = true) (hr : s.readable = true)
    (hcap : ∀ q ∈ s.queries, store.size ≤ cap q) :
    d ∈ s.listing store size cap ↔ d ∈ store ∧ s.satisfiedBy d = true :=
  ⟨of_mem_listing, fun h => mem_listing_of_satisfiedBy hs hr hcap h.1 h.2⟩

end ReviewSearch.Source
