/-
ReviewSearch.Proofs.Plan.Estimates — estimates never fall short.

`matchCount` is how many records of a store a plan accepts.

* `matchCount_le_of_estimate` — the estimate of a plan is at least that: an
  AND accepts no more than any of its children does, and an OR no more than
  all of its children together, so the least of the estimates and their
  capped sum are enough (`matchCount_conj_le`, `matchCount_disj_le`);
* `exists_finds_feed` — a reading delivers records that the plan accepts,
  none twice, whatever the windows of its queries are, so it delivers no
  more than that (`Finds.length_le`);
* `estimate_covers_matches` — both, for every readable plan.
-/
import Mathlib.Algebra.Ring.Nat
import ReviewSearch.Proofs.Plan.Faultless

namespace ReviewSearch

/-! ## Counting -/

theorem countP_or_le {α : Type} (p q : α → Bool) (xs : List α) :
    (xs.countP fun x => p x || q x) ≤ xs.countP p + xs.countP q := by
  induction xs with
  | nil => exact Nat.le_refl _
  | cons x xs ih =>
    simp only [List.countP_cons]
    cases p x <;> cases q x <;> simp <;> omega

/-- What any of several tests accepts is no more than what they accept
together. -/
theorem countP_any_le {α β : Type} (test : β → α → Bool) (xs : List α) (ys : List β) :
    (xs.countP fun x => ys.any fun y => test y x) ≤ (ys.map fun y => xs.countP (test y)).sum := by
  induction ys with
  | nil => simp
  | cons y ys ih =>
    simp only [List.any_cons, List.map_cons, List.sum_cons]
    exact Nat.le_trans (countP_or_le _ _ xs) (Nat.add_le_add_left ih _)

theorem Store.cardinality_of_supports {store : Store} {p : Predicate} (h : store.Supports p) :
    store.cardinality p = (store.results p).length := by
  rw [cardinality, unsupported?_of_supports h]

namespace Source

variable {store : Store} {size : Predicate → Nat} {s t : Source} {ss : List Source}
  {ds : List Document} {n : Nat}

/-- How many records of a store a plan accepts. -/
def matchCount (store : Store) (s : Source) : Nat :=
  (Table.values store.documents).countP fun d => s.satisfiedBy d

theorem matchCount_le_size (store : Store) (s : Source) : matchCount store s ≤ store.size := by
  have h : matchCount store s ≤ (Table.values store.documents).length := List.countP_le_length
  simpa [Table.values, Store.size] using h

theorem matchCount_indexed (store : Store) (q : IndexQuery) :
    matchCount store (.indexed q) = (store.results q.predicate).length := by
  rw [(store.results_perm q.predicate).length_eq, ← List.countP_eq_length_filter]
  rfl

/-- An AND accepts no more records than any of its children. -/
theorem matchCount_conj_le (store : Store) (hs : s ∈ ss) :
    matchCount store (.conj ss) ≤ matchCount store s := by
  refine List.countP_mono_left fun d _ h => ?_
  rw [satisfiedBy_conj, List.all_eq_true] at h
  exact h s hs

/-- An OR accepts no more records than its children together. -/
theorem matchCount_disj_le (store : Store) (ss : List Source) :
    matchCount store (.disj ss) ≤ (ss.map (matchCount store)).sum := by
  unfold matchCount
  simp only [satisfiedBy_disj]
  exact countP_any_le (fun s d => s.satisfiedBy d) _ ss

/-! ## Estimates -/

theorem sum_matchCount_le
    (h : ∀ s ∈ ss, ∃ n, s.estimate? size = some n ∧ matchCount store s ≤ n) :
    (ss.map (matchCount store)).sum ≤ (estimates size ss).sum := by
  induction ss with
  | nil => exact Nat.le_refl _
  | cons s ss ih =>
    obtain ⟨⟨n, hn, hle⟩, hrest⟩ := List.forall_mem_cons.mp h
    rw [List.map_cons, List.sum_cons, estimates, hn, Option.toList_some, List.singleton_append,
      List.sum_cons]
    exact Nat.add_le_add hle (ih hrest)

/-- The estimate of a plan is at least the number of records that it
accepts. The sum over an OR is capped, but so is the number of records. -/
theorem matchCount_le_of_estimate (hsize : store.size ≤ Count.max)
    (hs : s.Built fun q => store.Supports q.predicate)
    (hn : s.estimate? store.cardinality = some n) : matchCount store s ≤ n := by
  induction s generalizing n with
  | indexed q =>
    obtain rfl := Option.some.inj hn
    rw [Store.cardinality_of_supports (hs.queries q (by simp))]
    exact Nat.le_of_eq (matchCount_indexed store q)
  | conj ss ih =>
    rw [estimate?, estimates_eq_filterMap] at hn
    obtain ⟨s, hmem, hsn⟩ := List.mem_filterMap.mp (List.min?_mem hn)
    exact Nat.le_trans (matchCount_conj_le store hmem) (ih s hmem (hs.of_conj hmem) hsn)
  | disj ss ih =>
    obtain rfl := Option.some.inj hn
    have hall : ∀ s ∈ ss, ∃ n, s.estimate? store.cardinality = some n
        ∧ matchCount store s ≤ n := by
      intro s hmem
      obtain ⟨hbuilt, hr⟩ := hs.of_disj hmem
      obtain ⟨n, hsn⟩ := Option.isSome_iff_exists.mp ((isSome_estimate? _ s).trans hr)
      exact ⟨n, hsn, ih s hmem hbuilt hsn⟩
    have hsum (ns : List Nat) : ns.foldl Count.add 0 = min ns.sum Count.max :=
      foldl_capped_add Count.max ns
    rw [hsum]
    refine Nat.le_min.mpr ⟨?_, Nat.le_trans (matchCount_le_size store _) hsize⟩
    exact Nat.le_trans (matchCount_disj_le store ss) (sum_matchCount_le hall)
  | filter p => cases hn
  | matcher m => cases hn

/-! ## Readings -/

/-- Records of a store that a plan accepts, none of them twice. -/
structure Finds (store : Store) (s : Source) (ds : List Document) : Prop where
  nodup : (ds.map Document.id).Nodup
  sound : ∀ d ∈ ds, d ∈ store ∧ s.satisfiedBy d = true

theorem Finds.length_le (h : Finds store s ds) : ds.length ≤ matchCount store s := by
  let found := (Table.values store.documents).filter fun d => s.satisfiedBy d
  have hsub : ds.map Document.id ⊆ found.map Document.id := by
    refine List.map_subset _ fun d hd => ?_
    obtain ⟨hstore, hsat⟩ := h.sound d hd
    exact List.mem_filter.mpr ⟨hstore, hsat⟩
  have hlen := (h.nodup.subperm hsub).length_le
  rwa [List.length_map, List.length_map, ← List.countP_eq_length_filter] at hlen

theorem finds_indexed {q : IndexQuery} (h : ds.Sublist (store.results q.predicate)) :
    Finds store (.indexed q) ds where
  nodup := (store.nodup_ids_results q.predicate).sublist (h.map _)
  sound _ hd := Store.mem_results.mp (h.subset hd)

/-- What a child of an AND finds and the others accept, the AND finds. -/
theorem Finds.conj {i : Nat} (hget : ss[i]? = some s) (h : Finds store s ds) :
    Finds store (.conj ss) (accepted (others ss i) ds) where
  nodup := nodup_ids_accepted h.nodup _
  sound d hd := by
    obtain ⟨hmem, hothers⟩ := List.mem_filter.mp hd
    obtain ⟨hstore, hsat⟩ := h.sound d hmem
    refine ⟨hstore, ?_⟩
    rw [← all_others hget, hsat, hothers]
    rfl

theorem Finds.sublist {ds' : List Document} (h : Finds store s ds) (hsub : ds'.Sublist ds) :
    Finds store s ds' where
  nodup := h.nodup.sublist (hsub.map _)
  sound d hd := h.sound d (hsub.subset hd)

/-- The feed of a readable plan delivers records that the plan finds. -/
theorem exists_finds_feed (size : Predicate → Nat)
    (hs : s.Built fun q => store.Supports q.predicate) (hr : s.readable = true) :
    ∃ ds : List Document, (s.feed false).delivered (store.estimatedBy size) = ds.map .ok
      ∧ Finds store s ds := by
  induction s with
  | indexed q =>
    obtain ⟨ds, hds, hsub⟩ := exists_delivered_windows size (hs.queries q (by simp)) []
    rw [accepted_nil_filters] at hsub
    exact ⟨ds, hds, finds_indexed hsub⟩
  | conj ss ih =>
    rw [readable_conj, ← anyReadable_eq_any] at hr
    obtain ⟨i, hi⟩ := exists_driver? size hr
    obtain ⟨s, hget, hsr⟩ := getElem?_of_driver? hi
    have hmem := List.mem_of_getElem? hget
    rw [feed, if_pos hr]
    by_cases hq : ∃ q, s = .indexed q
    · obtain ⟨q, rfl⟩ := hq
      obtain ⟨ds, hds, hsub⟩ := exists_delivered_windows size
        ((hs.of_conj hmem).queries q (by simp)) (others ss i)
      rw [delivered_conjFeed_of_indexed hi hget]
      exact ⟨ds, hds, ((finds_indexed (.refl _)).conj hget).sublist hsub⟩
    · obtain ⟨ds, hds, hfinds⟩ := ih s hmem (hs.of_conj hmem) hsr
      rw [delivered_conjFeed_of_not_indexed hi hget (not_exists.mp hq)]
      exact ⟨_, delivered_filtered hds _ _, hfinds.conj hget⟩
  | disj ss ih =>
    have hchild : ∀ f ∈ feeds false ss, ∃ ds : List Document,
        f.delivered (store.estimatedBy size) = ds.map .ok
          ∧ ∀ d ∈ ds, d ∈ store ∧ (disj ss).satisfiedBy d = true := by
      intro f hf
      rw [feeds_eq_map] at hf
      obtain ⟨s, hmem, rfl⟩ := List.mem_map.mp hf
      obtain ⟨hbuilt, hsr⟩ := hs.of_disj hmem
      obtain ⟨ds, hds, hfinds⟩ := ih s hmem hbuilt hsr
      refine ⟨ds, hds, fun d hd => ?_⟩
      obtain ⟨hstore, hsat⟩ := hfinds.sound d hd
      exact ⟨hstore, satisfiedBy_disj ss ▸ List.any_eq_true.mpr ⟨s, hmem, hsat⟩⟩
    obtain ⟨ds, hds, hsound⟩ := Feed.exists_delivered_concat hchild
    rw [feed, Feed.delivered_distinct _ _ hds]
    exact ⟨_, rfl, Order.nodup_map_distinctBy _ _ _,
      fun d hd => hsound d (Order.mem_of_mem_distinctBy hd).1⟩
  | filter p => simp at hr
  | matcher m => simp at hr

/-- The estimate of a readable plan never falls short, whatever the windows
of its index queries. It has one; that is at least the number of records
that the plan accepts, and for a single index query just that number; and
reading the plan to its end gives no fault and no more records than these.
The store supports the predicates that it is asked for, and has no more
records than a word counts. -/
theorem estimate_covers_matches (store : Store) (hsize : store.size ≤ Count.max) (s : Source)
    (hs : s.Built fun q => store.Supports q.predicate) (hr : s.readable = true) :
    ∃ n, s.estimate? store.cardinality = some n
      ∧ matchCount store s ≤ n
      ∧ (∀ q, s = .indexed q → n = matchCount store s)
      ∧ ∀ t, ∃ stream ds, s.read false = .ok stream
        ∧ (stream.toList store.toIndex t).1 = .ok ds
        ∧ ds.length ≤ matchCount store s := by
  obtain ⟨n, hn⟩ := Option.isSome_iff_exists.mp ((isSome_estimate? store.cardinality s).trans hr)
  refine ⟨n, hn, matchCount_le_of_estimate hsize hs hn, ?_, fun t => ?_⟩
  · rintro q rfl
    obtain rfl := Option.some.inj hn
    rw [Store.cardinality_of_supports (hs.queries q (by simp)), matchCount_indexed]
  · obtain ⟨ds, hds, hfinds⟩ := exists_finds_feed store.cardinality hs hr
    refine ⟨_, ds, if_pos hr, ?_, hfinds.length_le⟩
    rw [← store.estimatedBy_cardinality]
    exact Stream.read_deferred (steady_estimatedBy store store.cardinality) hds none t

/-- An AND of an OR of two queries with a record in common, a query and a
matcher. The OR is estimated at seven and the query at four, of which the
AND accepts two; the query is asked for three of its records in windows of
one. -/
theorem estimate_covers_matches_sixChanges :
    let core : Predicate := .leaf (.exact "project" "core")
    let topic : Predicate := .leaf (.exact "topic" "x")
    let query (p : Predicate) (w : Window) : Source := .indexed (.ofWindow p w 1)
    let s : Source := .conj
      [.disj [query core ⟨0, 6, []⟩, query topic ⟨0, 6, []⟩], query core ⟨0, 3, []⟩,
        .matcher ⟨0, "odd", 1, fun d => d.id % 2 == 1⟩]
    s.estimate? Store.sixChanges.cardinality = some 4
      ∧ matchCount Store.sixChanges s = 2
      ∧ ∃ stream ds, s.read false = .ok stream
        ∧ (stream.toList Store.sixChanges.toIndex {}).1 = .ok ds
        ∧ ds.length ≤ 2 := by
  intro core topic query s
  have hcore : Store.sixChanges.Supports core := by decide
  have htopic : Store.sixChanges.Supports topic := by decide
  have hs : s.Built fun q => Store.sixChanges.Supports q.predicate := by
    refine .conj ?_
    simp only [List.forall_mem_cons, List.not_mem_nil, false_implies, implies_true, and_true]
    refine ⟨.disj ?_ ?_, .indexed hcore, .matcher _⟩
    · simp only [List.forall_mem_cons, List.not_mem_nil, false_implies, implies_true, and_true]
      exact ⟨.indexed hcore, .indexed htopic⟩
    · simp [query]
  have hestimate : s.estimate? Store.sixChanges.cardinality = some 4 := by decide
  have hcount : matchCount Store.sixChanges s = 2 := by decide
  obtain ⟨-, -, -, -, hread⟩ :=
    estimate_covers_matches Store.sixChanges (by decide) s hs rfl
  obtain ⟨stream, ds, hstream, hlist, hlen⟩ := hread {}
  exact ⟨hestimate, hcount, stream, ds, hstream, hlist, hcount ▸ hlen⟩

end Source

end ReviewSearch
