/-
ReviewSearch.Proofs.Plan.Enumeration — reading a plan lists its results.

* `delivered_feed` — over a store, the feed of a readable plan that is
  well built delivers its listing (`ReviewSearch.Proofs.Plan.Listing`)
  with every index query read up to the number it wants, and no fault;
* `read_agrees_with_satisfiedBy` — so reading the plan to its end agrees
  with asking it about every record of the store.

A plan read cut down to requested fields delivers the same records, cut
down, if all its index queries are asked for the same fields.
-/
import Mathlib.Data.List.Basic
import ReviewSearch.Proofs.Plan.Listing

namespace ReviewSearch.Source

variable {store : Store} {size : Predicate → Nat}

/-! ## The parts of a feed -/

@[simp] theorem handed_nil_fields (ds : List Document) : handed [] ds = ds.map .ok := rfl

theorem handed_eq_map (fields : List String) (ds : List Document) :
    handed fields ds = (ds.map fun d => d.project fields).map .ok := by
  rw [handed, List.map_map]
  rfl

theorem feeds_eq_map (raw : Bool) (ss : List Source) : feeds raw ss = ss.map (feed raw) := by
  induction ss with
  | nil => rfl
  | cons s ss ih => simp [feeds, ih]

/-- What passes through the other children of an AND comes out cut
down. -/
theorem delivered_filtered {ix : Index} {feed : Records} {ds : List Document}
    (h : feed.delivered ix = handed [] ds) (others : List Source) (fields : List String) :
    (filtered others fields feed).delivered ix = handed fields (accepted others ds) := by
  rw [filtered, Feed.delivered_sift_of_ok _ h, handed_eq_map]
  refine congrArg _ ?_
  simp only [answer_every_judge, accepted]
  rw [← List.filterMap_eq_map, List.filterMap_filter]
  rfl

/-- Cutting records down leaves their numbers, so it may come before or
after dropping repetitions. -/
theorem distinctBy_map_project (fields : List String) (seen : List Nat) (ds : List Document) :
    Order.distinctBy Document.id seen (ds.map fun d => d.project fields)
      = (Order.distinctBy Document.id seen ds).map fun d => d.project fields := by
  induction ds generalizing seen with
  | nil => rfl
  | cons d ds ih =>
    have hid : (d.project fields).id = d.id := Document.project_id d fields
    rw [List.map_cons]
    by_cases hseen : d.id ∈ seen
    · rw [Order.distinctBy_cons_of_mem (hid.symm ▸ hseen), Order.distinctBy_cons_of_mem hseen, ih]
    · rw [Order.distinctBy_cons_of_not_mem (hid.symm ▸ hseen),
        Order.distinctBy_cons_of_not_mem hseen, List.map_cons, hid, ih]

/-! ## Requested fields -/

/-- The first of several requests that asks for any field. -/
def firstRequest (requests : List (List String)) : List String :=
  (requests.find? fun fields => !fields.isEmpty).getD []

theorem firstRequest_append (rs rs' : List (List String)) :
    firstRequest (rs ++ rs')
      = if (firstRequest rs).isEmpty then firstRequest rs' else firstRequest rs := by
  unfold firstRequest
  rw [List.find?_append]
  cases h : rs.find? fun fields => !fields.isEmpty with
  | none => rfl
  | some fields =>
    have hsome : fields.isEmpty = false := by simpa using List.find?_some h
    simp [hsome]

theorem firstRequest_of_forall_eq {fields : List String} {requests : List (List String)}
    (hne : requests ≠ []) (h : ∀ r ∈ requests, r = fields) : firstRequest requests = fields := by
  obtain ⟨r, rs, rfl⟩ := List.exists_cons_of_ne_nil hne
  obtain rfl := h r (by simp)
  unfold firstRequest
  cases hr : r.isEmpty with
  | false => simp [hr]
  | true =>
    rw [List.find?_eq_none.mpr]
    · exact (List.isEmpty_iff.mp hr).symm
    · intro r' hr'
      simp [h r' hr', hr]

/-- The fields requested of a source are those of the first query that
asks for any. -/
theorem requestedFields_eq (s : Source) :
    s.requestedFields = firstRequest (s.queries.map fun q => q.window.fields) := by
  induction s with
  | indexed q =>
    show q.window.fields = firstRequest [q.window.fields]
    exact (firstRequest_of_forall_eq (by simp) (by simp)).symm
  | conj ss ih =>
    rw [queries_conj]
    exact requestedFieldsOf_eq ih
  | disj ss ih =>
    rw [queries_disj]
    exact requestedFieldsOf_eq ih
  | filter p => rfl
  | matcher m => rfl
where
  requestedFieldsOf_eq {ss : List Source}
      (ih : ∀ s ∈ ss, s.requestedFields = firstRequest (s.queries.map fun q => q.window.fields)) :
      requestedFieldsOf ss = firstRequest ((ss.flatMap queries).map fun q => q.window.fields) := by
    induction ss with
    | nil => rfl
    | cons s ss ihs =>
      rw [List.flatMap_cons, List.map_append, firstRequest_append, ← ih s List.mem_cons_self,
        ← ihs fun s' hs' => ih s' (List.mem_cons_of_mem _ hs')]
      rfl

theorem requestedFields_of_uniform {fields : List String} {s : Source} (hne : s.queries ≠ [])
    (h : ∀ q ∈ s.queries, q.window.fields = fields) : s.requestedFields = fields := by
  rw [requestedFields_eq]
  refine firstRequest_of_forall_eq (by simpa using hne) ?_
  intro r hr
  obtain ⟨q, hq, rfl⟩ := List.mem_map.mp hr
  exact h q hq

/-! ## The feed of a plan -/

theorem led_of_queries_eq_nil {cap : IndexQuery → Nat} {s : Source} (h : s.queries = [])
    (others : List Source) : led store cap others s [] = [] := by
  have hq : ∀ q, s ≠ .indexed q := by
    rintro q rfl
    simp at h
  rw [led_of_not_indexed hq]
  rfl

/-- A source without index queries lists nothing. -/
theorem listing_of_queries_eq_nil {cap : IndexQuery → Nat} {s : Source} (h : s.queries = []) :
    s.listing store size cap = [] := by
  induction s with
  | indexed q => simp at h
  | conj ss ih =>
    rw [queries_conj, List.flatMap_eq_nil_iff] at h
    cases hi : driver? size ss with
    | none => exact listing_conj_of_no_driver hi
    | some i =>
      obtain ⟨s, hs, _⟩ := getElem?_of_driver? hi
      have hmem := List.mem_of_getElem? hs
      rw [listing_conj_of_driver hi hs, ih s hmem (h s hmem), led_of_queries_eq_nil (h s hmem)]
  | disj ss ih =>
    rw [queries_disj, List.flatMap_eq_nil_iff] at h
    rw [listing_disj, List.flatMap_eq_nil_iff.mpr fun s hs => ih s hs (h s hs)]
    rfl
  | filter p => rfl
  | matcher m => rfl

/-- What an AND hands out is cut down to the fields of its driver. A
driver without queries has no fields of its own, but lists nothing. -/
theorem handed_requestedFields {cap : IndexQuery → Nat} {fields : List String} {s : Source}
    (h : ∀ q ∈ s.queries, q.window.fields = fields) (others : List Source) :
    handed s.requestedFields (led store cap others s (s.listing store size cap))
      = handed fields (led store cap others s (s.listing store size cap)) := by
  by_cases hne : s.queries = []
  · rw [listing_of_queries_eq_nil hne, led_of_queries_eq_nil hne]
    rfl
  · rw [requestedFields_of_uniform hne h]

/-- An AND is not readable, or it has a driver: an index query, or another
readable source. -/
theorem driver_cases (size : Predicate → Nat) (ss : List Source) :
    anyReadable ss = false
      ∨ (∃ i q, driver? size ss = some i ∧ ss[i]? = some (.indexed q))
      ∨ ∃ i s, driver? size ss = some i ∧ ss[i]? = some s ∧ s ∈ ss ∧ s.readable = true
        ∧ ∀ q, s ≠ .indexed q := by
  cases hr : anyReadable ss with
  | false => exact .inl rfl
  | true =>
    obtain ⟨i, hi⟩ := exists_driver? size hr
    obtain ⟨s, hs, hsr⟩ := getElem?_of_driver? hi
    by_cases hq : ∃ q, s = .indexed q
    · obtain ⟨q, rfl⟩ := hq
      exact .inr (.inl ⟨i, q, hi, hs⟩)
    · exact .inr (.inr ⟨i, s, hi, hs, List.mem_of_getElem? hs, hsr, not_exists.mp hq⟩)

theorem feed_conj_of_not_readable {ss : List Source} (h : anyReadable ss = false) (raw : Bool) :
    (conj ss).feed raw = .failed (notReadable (.conj ss)) := by
  rw [feed, h]
  rfl

/-- An AND with a driver is readable. -/
theorem feed_conj_of_driver {ss : List Source} {i : Nat} (hi : driver? size ss = some i)
    (raw : Bool) : (conj ss).feed raw = conjFeed ss (feeds false ss) raw := by
  obtain ⟨s, hs, hr⟩ := getElem?_of_driver? hi
  have hany : anyReadable ss = true := by
    rw [anyReadable_eq_any, List.any_eq_true]
    exact ⟨s, List.mem_of_getElem? hs, hr⟩
  rw [feed, if_pos hany]

/-- An AND whose driver is an index query reads it in windows, behind the
others. -/
theorem course_conjFeed_of_indexed {ix : Index} {ss : List Source} {i : Nat} {q : IndexQuery}
    (hi : driver? ix.cardinality ss = some i) (hget : ss[i]? = some (.indexed q)) (raw : Bool)
    (n : Nat) :
    (conjFeed ss (feeds false ss) raw).course ix n
      = Course.ofCalls ((asksOf ss).map .cardinality)
        ++ (windows q (others ss i) (if raw then q.window.fields else [])).course ix n := by
  have hfeed : (feeds false ss)[i]? = some ((Source.indexed q).feed false) := by
    rw [feeds_eq_map, List.getElem?_map, hget]
    rfl
  rw [conjFeed, Feed.course]
  simp only [hi, hget, hfeed]
  rfl

/-- An AND reads any other driver through the others. -/
theorem course_conjFeed_of_not_indexed {ix : Index} {ss : List Source} {i : Nat} {s : Source}
    (hi : driver? ix.cardinality ss = some i) (hget : ss[i]? = some s)
    (hs : ∀ q, s ≠ .indexed q) (raw : Bool) (n : Nat) :
    (conjFeed ss (feeds false ss) raw).course ix n
      = Course.ofCalls ((asksOf ss).map .cardinality)
        ++ (filtered (others ss i) (if raw then s.requestedFields else [])
          (s.feed false)).course ix n := by
  have hfeed : (feeds false ss)[i]? = some (s.feed false) := by
    rw [feeds_eq_map, List.getElem?_map, hget]
    rfl
  rw [conjFeed, Feed.course]
  -- `hs` settles the match on the driver
  simp only [hi, hget, hfeed]

/-- An AND with a driver asks for cardinalities, and then reads the driver:
its windows, if it is an index query, behind the other children, and what
it delivers otherwise through them. -/
theorem course_conj_of_indexed {ix : Index} {ss : List Source} {i : Nat} {q : IndexQuery}
    (hi : driver? ix.cardinality ss = some i) (hget : ss[i]? = some (.indexed q)) (raw : Bool)
    (n : Nat) :
    ((conj ss).feed raw).course ix n = Course.ofCalls ((asksOf ss).map .cardinality)
      ++ (windows q (others ss i) (if raw then q.window.fields else [])).course ix n := by
  rw [feed_conj_of_driver hi, course_conjFeed_of_indexed hi hget]

theorem course_conj_of_not_indexed {ix : Index} {ss : List Source} {i : Nat} {s : Source}
    (hi : driver? ix.cardinality ss = some i) (hget : ss[i]? = some s)
    (hs : ∀ q, s ≠ .indexed q) (raw : Bool) (n : Nat) :
    ((conj ss).feed raw).course ix n = Course.ofCalls ((asksOf ss).map .cardinality)
      ++ (filtered (others ss i) (if raw then s.requestedFields else [])
        (s.feed false)).course ix n := by
  rw [feed_conj_of_driver hi, course_conjFeed_of_not_indexed hi hget hs]

/-- An OR reads its children one after the other and drops repetitions. -/
theorem course_disj (ix : Index) (ss : List Source) (raw : Bool) (n : Nat) :
    ((disj ss).feed raw).course ix n
      = ((Feed.concat (feeds raw ss)).course ix n).distinct Document.id [] :=
  Feed.course_distinct ..

theorem delivered_conjFeed_of_indexed {ss : List Source} {i : Nat} {q : IndexQuery}
    (hi : driver? size ss = some i) (hget : ss[i]? = some (.indexed q)) (raw : Bool) :
    (conjFeed ss (feeds false ss) raw).delivered (store.estimatedBy size)
      = (windows q (others ss i) (if raw then q.window.fields else [])).delivered
        (store.estimatedBy size) := by
  have hsteady := steady_estimatedBy store size
  rw [Feed.delivered_eq_answers hsteady _ 0, Feed.delivered_eq_answers hsteady _ 0,
    course_conjFeed_of_indexed hi hget, Course.answers_append, Course.answers_ofCalls]
  rfl

theorem delivered_conjFeed_of_not_indexed {ss : List Source} {i : Nat} {s : Source}
    (hi : driver? size ss = some i) (hget : ss[i]? = some s) (hs : ∀ q, s ≠ .indexed q)
    (raw : Bool) :
    (conjFeed ss (feeds false ss) raw).delivered (store.estimatedBy size)
      = (filtered (others ss i) (if raw then s.requestedFields else [])
        (s.feed false)).delivered (store.estimatedBy size) := by
  have hsteady := steady_estimatedBy store size
  rw [Feed.delivered_eq_answers hsteady _ 0, Feed.delivered_eq_answers hsteady _ 0,
    course_conjFeed_of_not_indexed hi hget hs, Course.answers_append, Course.answers_ofCalls]
  rfl

theorem delivered_conjFeed (hsize : store.size ≤ Count.max) {ss : List Source} {i : Nat}
    {s : Source} (hi : driver? size ss = some i) (hget : ss[i]? = some s)
    (hs : s.WellBuilt store)
    (hfeed : (s.feed false).delivered (store.estimatedBy size)
      = handed [] (s.listing store size IndexQuery.wanted)) (raw : Bool) :
    (conjFeed ss (feeds false ss) raw).delivered (store.estimatedBy size)
      = handed (if raw then s.requestedFields else [])
        (led store IndexQuery.wanted (others ss i) s
          (s.listing store size IndexQuery.wanted)) := by
  by_cases hq : ∃ q, s = .indexed q
  · obtain ⟨q, rfl⟩ := hq
    obtain ⟨hformed, hsupported⟩ := hs.queries q (by simp)
    rw [delivered_conjFeed_of_indexed hi hget]
    exact delivered_windows hformed hsupported hsize
  · rw [delivered_conjFeed_of_not_indexed hi hget (not_exists.mp hq),
      led_of_not_indexed (not_exists.mp hq)]
    exact delivered_filtered hfeed _ _

/-- The feed of a readable plan that is well built delivers its listing:
whole records, or, if all queries ask for the same fields, records cut
down to those. -/
theorem delivered_feed (size : Predicate → Nat) (hsize : store.size ≤ Count.max) {s : Source}
    (hs : s.WellBuilt store) (hr : s.readable = true) (raw : Bool) (fields : List String)
    (hfields : raw = true → ∀ q ∈ s.queries, q.window.fields = fields) :
    (s.feed raw).delivered (store.estimatedBy size)
      = handed (if raw then fields else []) (s.listing store size IndexQuery.wanted) := by
  induction s generalizing raw with
  | indexed q =>
    have hq : q ∈ (indexed q).queries := by simp
    obtain ⟨hformed, hsupported⟩ := hs.queries q hq
    rw [feed, delivered_windows hformed hsupported hsize, accepted_nil_filters, listing_indexed]
    cases raw with
    | false => rfl
    | true => rw [if_pos rfl, if_pos rfl, hfields rfl q hq]
  | conj ss ih =>
    rw [readable_conj, ← anyReadable_eq_any] at hr
    obtain ⟨i, hi⟩ := exists_driver? size hr
    obtain ⟨s, hget, hsr⟩ := getElem?_of_driver? hi
    have hmem := List.mem_of_getElem? hget
    have hwhole := ih s hmem (hs.of_conj hmem) hsr false (by simp)
    rw [feed, if_pos hr, listing_conj_of_driver hi hget,
      delivered_conjFeed hsize hi hget (hs.of_conj hmem) hwhole raw]
    cases raw with
    | false => rfl
    | true =>
      refine handed_requestedFields (fun q hq => hfields rfl q ?_) (others ss i)
      exact queries_conj ss ▸ List.mem_flatMap_of_mem hmem hq
  | disj ss ih =>
    have hchild : ∀ s ∈ ss, (s.feed raw).delivered (store.estimatedBy size)
        = handed (if raw then fields else []) (s.listing store size IndexQuery.wanted) := by
      intro s hmem
      obtain ⟨hwell, hsr⟩ := hs.of_disj hmem
      refine ih s hmem hwell hsr raw fun hraw q hq => hfields hraw q ?_
      exact queries_disj ss ▸ List.mem_flatMap_of_mem hmem hq
    have hall : (Feed.concat (feeds raw ss)).delivered (store.estimatedBy size)
        = handed (if raw then fields else [])
          (ss.flatMap (listing store size IndexQuery.wanted)) := by
      rw [Feed.delivered_concat, feeds_eq_map, List.flatMap_map, handed, List.map_flatMap]
      exact List.flatMap_congr hchild
    rw [handed_eq_map] at hall
    rw [feed, Feed.delivered_distinct _ _ hall, listing_disj, handed_eq_map,
      distinctBy_map_project]
  | filter p => simp at hr
  | matcher m => simp at hr

/-! ## Reading to the end -/

/-- Reading a plan over a store gives its listing, up to the records
wanted. -/
theorem read_feed (size : Predicate → Nat) (hsize : store.size ≤ Count.max) {s : Source}
    (hs : s.WellBuilt store) (hr : s.readable = true) (raw : Bool) (fields : List String)
    (hfields : raw = true → ∀ q ∈ s.queries, q.window.fields = fields) (want : Option Nat)
    (t : Trace Consult) :
    ((Stream.deferred (s.feed raw)).read (store.estimatedBy size) want t).1
      = .ok (want.elim id List.take
        ((s.listing store size IndexQuery.wanted).map
          fun d => d.project (if raw then fields else []))) := by
  have h := delivered_feed size hsize hs hr raw fields hfields
  rw [handed_eq_map] at h
  rw [Stream.read_deferred (steady_estimatedBy store size) h]
  cases want <;> rfl

/-- Reading a plan to its end agrees with asking it. What is read are
records of the store that the plan accepts, none of them twice; and if no
query wants fewer results than the store has records, it is all of these.
The index may estimate as it likes, so this holds whichever children of
its ANDs are the drivers. No store has more records than a word counts. -/
theorem read_agrees_with_satisfiedBy (store : Store) (size : Predicate → Nat)
    (hsize : store.size ≤ Count.max) (s : Source) (hs : s.WellBuilt store)
    (hr : s.readable = true) (t : Trace Consult) :
    ∃ stream ds, s.read false = .ok stream
      ∧ (stream.toList (store.estimatedBy size) t).1 = .ok ds
      ∧ (ds.map Document.id).Nodup
      ∧ (∀ d ∈ ds, d ∈ store ∧ s.satisfiedBy d = true)
      ∧ ((∀ q ∈ s.queries, store.size ≤ q.window.start + q.window.limit) →
        ∀ d, d ∈ ds ↔ d ∈ store ∧ s.satisfiedBy d = true) := by
  refine ⟨.deferred (s.feed false), s.listing store size IndexQuery.wanted, if_pos hr, ?_,
    nodup_ids_listing s, fun d hd => of_mem_listing hd, ?_⟩
  · have h := read_feed size hsize hs hr false [] (by simp) none t
    simpa [Stream.toList] using h
  · intro hwant d
    refine mem_listing hs.orsReadable hr fun q hq => ?_
    have hsum := hwant q hq
    -- the sum of start and limit is capped, but no store goes beyond the cap
    show store.size ≤ min (q.window.start + q.window.limit) Count.max
    omega

/-- An AND of an OR of queries, a query that is asked for more than the
store has, a filter and a matcher, over an index that takes one result for
the most there is. -/
theorem read_agrees_with_satisfiedBy_sixChanges :
    let core : Predicate := .leaf (.exact "project" "core")
    let topic : Predicate := .leaf (.exact "topic" "x")
    let query (p : Predicate) (w : Window) : Source := .indexed (.ofWindow p w 1)
    let s : Source := .conj
      [.disj [query core ⟨2, 4, []⟩, query topic ⟨0, 6, []⟩], query core ⟨0, Count.max, []⟩,
        .filter (.neg (.leaf (.exact "file" "a"))), .matcher ⟨0, "odd", 1, fun d => d.id % 2 == 1⟩]
    ∃ stream ds, s.read false = .ok stream
      ∧ (stream.toList Store.sixChanges.toIndex {}).1 = .ok ds
      ∧ (ds.map Document.id).Nodup
      ∧ ∀ d, d ∈ ds ↔ d ∈ Store.sixChanges ∧ s.satisfiedBy d = true := by
  intro core topic query s
  have hcore : Store.sixChanges.Supports core := by decide
  have htopic : Store.sixChanges.Supports topic := by decide
  have hquery {p : Predicate} (w : Window) (hp : Store.sixChanges.Supports p) :
      (query p w).WellBuilt Store.sixChanges :=
    .indexed ⟨.ofWindow p w Nat.one_pos, hp⟩
  have hs : s.WellBuilt Store.sixChanges := by
    refine .conj ?_
    simp only [List.forall_mem_cons, List.not_mem_nil, false_implies, implies_true, and_true]
    refine ⟨.disj ?_ ?_, hquery _ hcore, .filter _, .matcher _⟩
    · simp only [List.forall_mem_cons, List.not_mem_nil, false_implies, implies_true, and_true]
      exact ⟨hquery _ hcore, hquery _ htopic⟩
    · simp [query]
  obtain ⟨stream, ds, hread, hlist, hids, _, hall⟩ :=
    read_agrees_with_satisfiedBy Store.sixChanges Store.sixChanges.cardinality (by decide) s hs
      rfl {}
  exact ⟨stream, ds, hread, hlist, hids, hall (by decide)⟩

end ReviewSearch.Source
