/-
ReviewSearch.Proofs.Plan.Branches — an OR whose branches are cut short.

The index queries under an OR want as many results each as the page does
that the OR is read for, and the OR drops records that an earlier branch
has delivered. What is dropped is not made up for by its branch. Still no
result of the page is missing if every AND that is read is driven by an
index query: a branch that is cut short has as many different records as
the page wants, whatever was delivered before it.

* `delivers_of_ledBy`, `delivers_disj` — what sources deliver over a
  store, whether it supports all their queries or refuses some;
* `cutting_branches_loses_nothing` — the OR delivers the same first
  records as with queries that want everything.
-/
import Mathlib.Data.List.Basic
import ReviewSearch.Proofs.Plan.Asking
import ReviewSearch.Proofs.Plan.Fronts
import ReviewSearch.Proofs.Plan.Remake

namespace ReviewSearch

/-! ## What a store finds -/

namespace Store

variable {store : Store} {p : Predicate}

/-- What searches for a predicate find: nothing if they are refused. -/
def found (store : Store) (p : Predicate) : List Document :=
  if store.Supports p then store.results p else []

theorem exists_search_eq_error (h : ¬store.Supports p) :
    ∃ e, ∀ n w, store.toIndex.search n p w = .error e := by
  obtain ⟨l, hl, hanswers⟩ := not_forall₂.mp h
  have hsome : (store.unsupported? p).isSome := by
    rw [unsupported?, List.find?_isSome]
    exact ⟨l, hl, by simp [hanswers]⟩
  obtain ⟨l', hl'⟩ := Option.isSome_iff_exists.mp hsome
  exact ⟨_, fun n w => by simp only [toIndex, search, hl']; rfl⟩

theorem nodup_ids_found (store : Store) (p : Predicate) :
    ((store.found p).map Document.id).Nodup := by
  unfold found
  split
  · exact store.nodup_ids_results p
  · exact List.nodup_nil

end Store

/-- The query that wants everything the index has. -/
def IndexQuery.unlimited (maxLimit : Nat) (q : IndexQuery) : IndexQuery :=
  .ofWindow q.predicate { q.window with limit := Count.max } maxLimit

theorem IndexQuery.wanted_unlimited (maxLimit : Nat) (q : IndexQuery) :
    (q.unlimited maxLimit).wanted = Count.max := by
  show min (q.window.start + Count.max) Count.max = Count.max
  omega

namespace Source

variable {store : Store} {q : IndexQuery} {filters : List Source} {fields : List String}
variable {s : Source} {raw : Bool}

/-! ## What sources deliver -/

/-- The records that a source delivers over a store, past any fault. -/
def delivers (store : Store) (raw : Bool) (s : Source) : List Document :=
  itemsOf ((s.feed raw).delivered store.toIndex)

theorem items_course_feed (s : Source) (raw : Bool) (n : Nat) :
    ((s.feed raw).course store.toIndex n).items = s.delivers store raw := by
  unfold delivers
  rw [Feed.delivered_eq_answers store.steady_toIndex _ n]
  rfl

theorem delivers_disj (ss : List Source) :
    (disj ss).delivers store raw
      = Order.distinctBy Document.id [] (ss.flatMap (delivers store raw)) := by
  rw [← items_course_feed _ raw 0, course_disj, Course.items_distinct]
  refine congrArg _ ?_
  rw [Course.items, ← Feed.delivered_eq_answers store.steady_toIndex, Feed.delivered_concat,
    feeds_eq_map, List.flatMap_map, itemsOf, List.filterMap_flatMap]
  rfl

theorem items_windows (hq : q.Formed) (hsize : store.size ≤ Count.max) (n : Nat) :
    ((windows q filters fields).course store.toIndex n).items
      = ((accepted filters (store.found q.predicate)).take q.wanted).map
          fun d => d.project fields := by
  unfold Store.found
  split
  · next hp =>
    have hlen := Nat.le_trans (store.length_results_le q.predicate) hsize
    rw [Course.items, answers_windows hq (Store.serves_toIndex hp) hlen, handed_eq_map,
      itemsOf_map_ok]
  · next hp =>
    obtain ⟨e, he⟩ := Store.exists_search_eq_error hp
    rw [accepted, List.filter_nil, List.take_nil, List.map_nil, windows]
    by_cases hstop : q.backend.limit = 0 ∨ q.wanted ≤ 0
    · rw [course_windowsFrom_of_reached hstop]
      rfl
    · rw [course_windowsFrom_of_error (by omega) (by omega) (he _ _)]
      rfl

/-- A source that an index query leads delivers what the query finds and
the filters accept, as much as the query wants. -/
theorem delivers_of_ledBy (hs : s.LedBy store.toIndex q filters) (hq : q.Formed)
    (hsize : store.size ≤ Count.max) (raw : Bool) :
    s.delivers store raw = ((accepted filters (store.found q.predicate)).take q.wanted).map
      fun d => d.project (if raw then q.window.fields else []) := by
  obtain ⟨asked, filters', hfilters, hcourse⟩ := hs.exists_course_feed raw 0
  rw [← items_course_feed s raw 0, hcourse, Course.items_append, items_windows hq hsize, hfilters]
  rw [Course.items, Course.answers_ofCalls]
  rfl

theorem map_id_map_project (fields : List String) (ds : List Document) :
    (ds.map fun d => d.project fields).map Document.id = ds.map Document.id := by
  rw [List.map_map]
  exact List.map_congr_left fun d _ => Document.project_id d fields

/-! ## Queries that want everything -/

/-- The plan with queries that want everything the index has. -/
def unlimited (maxLimit : Nat) (s : Source) : Source :=
  s.remake (IndexQuery.unlimited maxLimit) id

theorem harmless_unlimited (maxLimit : Nat) : Harmless (IndexQuery.unlimited maxLimit) id :=
  ⟨fun _ => rfl, fun _ _ => rfl, fun _ => rfl⟩

theorem LedBy.mem_queries {ix : Index} (h : s.LedBy ix q filters) : q ∈ s.queries := by
  cases h with
  | alone => simp
  | driver hi hs =>
    rw [queries_conj]
    exact List.mem_flatMap_of_mem (List.mem_of_getElem? hs) (by simp)

theorem LedBy.remake {ix : Index} {f : IndexQuery → IndexQuery} {g : Predicate → Predicate}
    (h : Harmless f g) (hs : s.LedBy ix q filters) :
    (s.remake f g).LedBy ix (f q) (filters.map (Source.remake f g)) := by
  cases hs with
  | alone =>
    rw [remake_indexed]
    exact .alone
  | @driver ss i hi hs =>
    rw [remake_conj, ← List.eraseIdx_map]
    exact .driver ((driver?_remake h ss).trans hi) (by rw [List.getElem?_map, hs]; simp)

/-- A readable source whose ANDs are driven by index queries is an OR, or
an index query leads it. -/
theorem exists_ledBy_of_indexDriven (hr : s.readable = true)
    (h : s.indexDriven store.cardinality = true) :
    (∃ ss, s = .disj ss) ∨ ∃ q filters, s.LedBy store.toIndex q filters := by
  cases s with
  | indexed q => exact .inr ⟨q, [], .alone⟩
  | conj ss =>
    rw [readable_conj, ← anyReadable_eq_any] at hr
    obtain ⟨i, hi⟩ := exists_driver? store.cardinality hr
    obtain ⟨s, hs, _⟩ := getElem?_of_driver? hi
    obtain ⟨q, rfl⟩ := eq_indexed_of_indexDriven h hi hs
    exact .inr ⟨q, _, .driver hi hs⟩
  | disj ss => exact .inl ⟨ss, rfl⟩
  | filter p => simp at hr
  | matcher m => simp at hr

theorem take_delivers_of_ledBy (hsize : store.size ≤ Count.max) {maxLimit : Nat}
    (hmax : 0 < maxLimit) (hs : s.LedBy store.toIndex q filters) (hq : q.Formed) :
    (s.delivers store raw).take q.wanted
      = ((s.unlimited maxLimit).delivers store raw).take q.wanted := by
  have hs' := hs.remake (harmless_unlimited maxLimit)
  have hq' : (q.unlimited maxLimit).Formed := .ofWindow _ _ hmax
  have hwant : min q.wanted Count.max = q.wanted := Nat.min_eq_left (Nat.min_le_right ..)
  rw [unlimited, delivers_of_ledBy hs hq hsize, delivers_of_ledBy hs' hq' hsize,
    accepted_remake (harmless_unlimited maxLimit), IndexQuery.wanted_unlimited,
    ← List.map_take, ← List.map_take, List.take_take, List.take_take, Nat.min_self, hwant]
  rfl

/-- The first records of an index-driven source do not depend on whether
its queries want more, and none comes twice. -/
theorem take_delivers_unlimited (raw : Bool) (hsize : store.size ≤ Count.max) {w : Window}
    {maxLimit : Nat} (hmax : 0 < maxLimit) (hr : s.readable = true) (hors : s.orsReadable = true)
    (hdriven : s.indexDriven store.cardinality = true)
    (hwindow : ∀ q ∈ s.queries, q = .ofWindow q.predicate w maxLimit) :
    (s.delivers store raw).take w.wanted
        = ((s.unlimited maxLimit).delivers store raw).take w.wanted
      ∧ ((s.delivers store raw).map Document.id).Nodup := by
  induction s with
  | disj ss ih =>
    rw [indexDriven_disj, List.all_eq_true] at hdriven
    rw [orsReadable_disj, Bool.and_eq_true, List.all_eq_true, List.all_eq_true] at hors
    have hchild : ∀ s ∈ ss, _ := fun s hs => ih s hs (hors.1 s hs) (hors.2 s hs) (hdriven s hs)
      fun q hq => hwindow q (queries_disj ss ▸ List.mem_flatMap_of_mem hs hq)
    rw [unlimited, remake_disj, delivers_disj, delivers_disj, List.flatMap_map]
    exact ⟨Order.take_distinctBy_flatMap [] (fun s hs => (hchild s hs).1)
      fun s hs => (hchild s hs).2, Order.nodup_map_distinctBy ..⟩
  | _ =>
    obtain ⟨ss, hss⟩ | ⟨q, filters, hled⟩ := exists_ledBy_of_indexDriven hr hdriven
    · cases hss
    have hq := hwindow q hled.mem_queries
    have hformed : q.Formed := hq ▸ .ofWindow q.predicate w hmax
    have hwanted : q.wanted = w.wanted := by rw [hq]; rfl
    rw [← hwanted]
    refine ⟨take_delivers_of_ledBy hsize hmax hled hformed, ?_⟩
    rw [delivers_of_ledBy hled hformed hsize, map_id_map_project]
    exact nodup_ids_take (nodup_ids_accepted (store.nodup_ids_found q.predicate) filters) _

/-- Cutting the branches of an OR short before repetitions are dropped loses
nothing of the page. Let all queries of an OR be made for one window of
`want` records, and every AND that it reads be driven by an index query.
Then the same OR whose queries want everything begins with the same
records, as many of the first `want` as it has, and has no others if the
OR ends before it has delivered `want`. -/
theorem cutting_branches_loses_nothing (store : Store) (hsize : store.size ≤ Count.max)
    (w : Window) (maxLimit : Nat) (hmax : 0 < maxLimit) (ss : List Source)
    (hors : (disj ss).orsReadable = true)
    (hdriven : (disj ss).indexDriven store.cardinality = true)
    (hwindow : ∀ q ∈ (disj ss).queries, q = .ofWindow q.predicate w maxLimit) (raw : Bool)
    (t t' : Trace Consult) :
    let want := min (w.start + w.limit) Count.max
    ∃ cut whole course course', (disj ss).read raw = .ok cut
      ∧ ((disj ss).unlimited maxLimit).read raw = .ok whole
      ∧ cut.Drains store.toIndex t course
      ∧ whole.Drains store.toIndex t' course'
      ∧ course.items.take (min want course'.items.length)
        = course'.items.take (min want course'.items.length)
      ∧ (course.items.length < want → course.items = course'.items) := by
  intro want
  obtain ⟨hsame, -⟩ := take_delivers_unlimited raw hsize hmax rfl hors hdriven hwindow
  have hr : ((disj ss).unlimited maxLimit).readable = true := readable_remake (disj ss)
  refine ⟨_, _, _, _, if_pos rfl, if_pos hr, drains_feed _ raw _ rfl, drains_feed _ raw _ rfl,
    ?_⟩
  rw [items_course_feed, items_course_feed]
  generalize (disj ss).delivers store raw = ds at hsame
  generalize ((disj ss).unlimited maxLimit).delivers store raw = ds' at hsame
  change ds.take want = ds'.take want at hsame
  have hshorter {n : Nat} (hn : n ≤ want) : ds.take n = ds'.take n := by
    rw [← Nat.min_eq_left hn, ← List.take_take, hsame, List.take_take]
  refine ⟨hshorter (Nat.min_le_left ..), fun hlt => ?_⟩
  have hlt' : ds'.length < want := by
    have hlen := congrArg List.length hsame
    rw [List.length_take, List.length_take] at hlen
    omega
  rwa [List.take_of_length_le (Nat.le_of_lt hlt), List.take_of_length_le (Nat.le_of_lt hlt')]
    at hsame

/-- Pages of two of an OR that delivers change 1 first. Both queries of the
inner OR find that change as well, last, and are cut short in front of
it. -/
theorem cutting_branches_loses_nothing_sixChanges :
    let core : Predicate := .leaf (.exact "project" "core")
    let topic : Predicate := .leaf (.exact "topic" "x")
    let query (p : Predicate) : Source := .indexed (.ofWindow p ⟨1, 1, []⟩ 1)
    let s : Source := .disj
      [.conj [.filter topic, query core], .disj [query topic, query core]]
    ∃ cut whole course course', s.read false = .ok cut
      ∧ (s.unlimited 1).read false = .ok whole
      ∧ cut.Drains Store.sixChanges.toIndex {} course
      ∧ whole.Drains Store.sixChanges.toIndex {} course'
      ∧ course.items.take (min 2 course'.items.length)
        = course'.items.take (min 2 course'.items.length)
      ∧ course.items.map Document.id = [1, 6, 5, 4, 3]
      ∧ course'.items.map Document.id = [1, 6, 5, 4, 3, 2] := by
  intro core topic query s
  obtain ⟨cut, whole, course, course', hcut, hwhole, hdrains, hdrains', hsame, -⟩ :=
    cutting_branches_loses_nothing Store.sixChanges (by decide) ⟨1, 1, []⟩ 1 (by decide)
      [.conj [.filter topic, query core], .disj [query topic, query core]] rfl (by decide)
      (by decide) false {} {}
  refine ⟨cut, whole, course, course', hcut, hwhole, hdrains, hdrains', hsame, ?_, ?_⟩
  · obtain rfl := eq_deferred_of_read hcut
    rw [hdrains.items_unique (drains_feed s false _ rfl)]
    decide +kernel
  · obtain rfl := eq_deferred_of_read hwhole
    rw [hdrains'.items_unique (drains_feed (s.unlimited 1) false _ rfl)]
    decide +kernel

end Source

end ReviewSearch
