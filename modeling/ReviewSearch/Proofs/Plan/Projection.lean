/-
ReviewSearch.Proofs.Plan.Projection — reading a plan cut down.

Records are cut down to the requested fields at the end of every way out
of a plan: behind the filters of an index query, behind the other children
of an AND, and for the children of an OR before repetitions are dropped.
Nothing on the way looks at a record that has been cut down but for its
number.

* `course_feed_raw` — if all queries of a plan are asked for the same
  fields, what happens while it is read cut down is what happens while it
  is read whole, but for the records on their way out; over any index;
* `raw_read_is_projected_read` — reading a query's plan cut down gives the
  records of reading it whole, each cut down (`Document.CutTo`).
-/
import ReviewSearch.Proofs.Plan.Faultless
import ReviewSearch.Proofs.Plan.Laziness

namespace ReviewSearch

namespace Source

variable {ix : Index} {q : IndexQuery} {filters : List Source} {fields : List String}

/-! ## Index queries -/

theorem pass_eq_mapItems (items : List (Except Fault Document)) (want : Nat) :
    pass filters fields items want
      = (pass filters [] items want).mapItems fun d => d.project fields := by
  induction items generalizing want with
  | nil => cases want <;> rfl
  | cons item items ih =>
    cases want with
    | zero => rfl
    | succ want =>
      cases item with
      | error e => simp [pass, ih (want + 1)]
      | ok d =>
        cases h : filters.all (satisfiedBy d) with
        | true => simp [pass_ok_of_accepted h, ih want]
        | false => simp [pass_ok_of_not_accepted h, ih (want + 1)]

/-- The windows of a query are the same whatever is cut out of its
records. -/
theorem course_windowsFrom_eq_mapItems (turns offset n m : Nat) :
    (windowsFrom q filters fields turns offset n).course ix m
      = ((windowsFrom q filters [] turns offset n).course ix m).mapItems
        fun d => d.project fields := by
  induction turns generalizing offset n m with
  | zero => rfl
  | succ turns ih =>
    by_cases hstop : q.backend.limit = 0 ∨ q.wanted ≤ n
    · rw [course_windowsFrom_of_reached hstop, course_windowsFrom_of_reached hstop]
      rfl
    cases hsearch : ix.search (m + 1) q.predicate { q.backend with start := offset } with
    | error e =>
      rw [course_windowsFrom_of_error (by omega) (by omega) hsearch,
        course_windowsFrom_of_error (by omega) (by omega) hsearch]
      rfl
    | ok items =>
      rw [course_windowsFrom_of_ok (by omega) (by omega) hsearch,
        course_windowsFrom_of_ok (by omega) (by omega) hsearch, pass_eq_mapItems]
      dsimp only
      split
      · simp
      · split
        · simp
        · simp [ih]

/-! ## Sources without queries -/

/-- A source without index queries has no records. -/
theorem items_course_of_queries_eq_nil {s : Source} (h : s.queries = []) (raw : Bool) (n : Nat) :
    ((s.feed raw).course ix n).items = [] := by
  induction s generalizing raw n with
  | indexed q => simp at h
  | conj ss ih =>
    rw [queries_conj, List.flatMap_eq_nil_iff] at h
    rcases driver_cases ix.cardinality ss with hr | ⟨i, q, _, hs⟩ | ⟨i, s, hi, hs, hmem, _, hq⟩
    · rw [feed_conj_of_not_readable hr]
      rfl
    · exact absurd (h _ (List.mem_of_getElem? hs)) (by simp)
    · rw [course_conj_of_not_indexed hi hs hq, Course.items_append, filtered,
        Feed.course_sift, Course.items_sift, ih s hmem (h s hmem), Course.items_ofCalls]
      rfl
  | disj ss ih =>
    rw [queries_disj, List.flatMap_eq_nil_iff] at h
    have hconcat : ((Feed.concat (feeds raw ss)).course ix n).items = [] := by
      refine Feed.course_concat_induction (motive := fun _ c => c.items = []) (fun _ => rfl)
        ?_ ?_ n
      · intro n c c' hc hc'
        rw [Course.items_append, hc, hc']
        rfl
      · intro f hf n
        rw [feeds_eq_map] at hf
        obtain ⟨s, hs, rfl⟩ := List.mem_map.mp hf
        exact ih s hs (h s hs) raw n
    rw [course_disj, Course.items_distinct, hconcat]
    rfl
  | filter p => rfl
  | matcher m => rfl

/-! ## Plans -/

/-- An AND cuts the records of its driver down to the fields of the
driver. If it has no queries, these may be others, but it has no records
either. -/
theorem course_filtered {s : Source} (hs : ∀ q ∈ s.queries, q.window.fields = fields)
    (others : List Source) (n : Nat) :
    (filtered others s.requestedFields (s.feed false)).course ix n
      = ((filtered others [] (s.feed false)).course ix n).mapItems
        fun d => d.project fields := by
  have hpass (fields : List String) :
      (filtered others fields (s.feed false)).course ix n
        = ((filtered others [] (s.feed false)).course ix n).mapItems
          fun d => d.project fields := by
    rw [filtered, filtered, Feed.course_sift, Feed.course_sift, ← Course.sift_map_snd]
    refine congrArg (Course.sift · _) (funext fun d => ?_)
    dsimp only
    split <;> rfl
  rw [hpass]
  by_cases hne : s.queries = []
  · refine Course.mapItems_congr fun d hd => ?_
    rw [filtered, Feed.course_sift, Course.items_sift, items_course_of_queries_eq_nil hne] at hd
    exact absurd hd List.not_mem_nil
  · rw [requestedFields_of_uniform hne hs]

/-- If all queries of a plan are asked for the same fields, what happens
while it is read cut down is what happens while it is read whole, and
every record is cut down on its way out. -/
theorem course_feed_raw {s : Source} (hs : ∀ q ∈ s.queries, q.window.fields = fields) (n : Nat) :
    (s.feed true).course ix n
      = ((s.feed false).course ix n).mapItems fun d => d.project fields := by
  induction s generalizing n with
  | indexed q =>
    obtain rfl := hs q (by simp)
    exact course_windowsFrom_eq_mapItems _ _ _ _
  | conj ss ih =>
    have hchild {s : Source} (hmem : s ∈ ss) : ∀ q ∈ s.queries, q.window.fields = fields :=
      fun q hq => hs q (queries_conj ss ▸ List.mem_flatMap_of_mem hmem hq)
    rcases driver_cases ix.cardinality ss with hr | ⟨i, q, hi, hget⟩ | ⟨i, s, hi, hget, hmem, _, hq⟩
    · rw [feed_conj_of_not_readable hr, feed_conj_of_not_readable hr]
      rfl
    · obtain rfl := hchild (List.mem_of_getElem? hget) q (by simp)
      rw [course_conj_of_indexed hi hget, course_conj_of_indexed hi hget,
        Course.mapItems_append, Course.mapItems_ofCalls]
      exact congrArg _ (course_windowsFrom_eq_mapItems _ _ _ _)
    · rw [course_conj_of_not_indexed hi hget hq, course_conj_of_not_indexed hi hget hq,
        Course.mapItems_append, Course.mapItems_ofCalls]
      exact congrArg _ (course_filtered (hchild hmem) _ n)
  | disj ss ih =>
    have hconcat : (Feed.concat (ss.map (feed true))).course ix n
        = ((Feed.concat (ss.map (feed false))).course ix n).mapItems fun d => d.project fields := by
      refine Feed.course_concat_rel
        (r := fun c c' => c = c'.mapItems fun d : Document => d.project fields)
        rfl ?append ?searches (fun s hmem n => ih s hmem (fun q hq => ?_) n) n
      case append =>
        rintro _ _ c c' rfl rfl
        rw [Course.mapItems_append]
      case searches =>
        rintro _ c rfl
        rw [Course.searches_mapItems]
      exact hs q (queries_disj ss ▸ List.mem_flatMap_of_mem hmem hq)
    rw [course_disj, course_disj, feeds_eq_map, feeds_eq_map, hconcat,
      Course.distinct_mapItems _ fun d => Document.project_id d fields]
  | filter p => rfl
  | matcher m => rfl

end Source

namespace Planner

variable {store : Store} {limits : Limits} {scope? : Option Predicate} {w : Window} {s : Source}

theorem supported_of_makes (h : s.Built (Makes ⟨store.schema, limits, scope?⟩ w)) :
    s.Built fun q => store.Supports q.predicate := by
  refine h.mono fun q hq => ?_
  obtain ⟨p, hp, rfl⟩ := hq
  exact answers_of_answerable hp

/-- Reading a query's plan cut down to the requested fields gives the
records of reading it whole, in the same order and number, each cut down
to these fields: with its number, and with what it stores under the names
requested and nothing else, or whole if no field is requested. The calls
are the same: neither the choice of drivers nor what the filters and
matchers are asked depends on whether records are cut down. -/
theorem raw_read_is_projected_read (store : Store) (limits : Limits)
    (scope? : Option Predicate) (w : Window) (p : Predicate) (log : Log) (s : Source)
    (h : (plan ⟨store.schema, limits, scope?⟩ w p log).1 = .ok s) (t t' : Trace Consult) :
    ∃ whole cut course course', ∃ ds : List Document, s.read false = .ok whole
      ∧ s.read true = .ok cut
      ∧ whole.Drains store.toIndex t course
      ∧ cut.Drains store.toIndex t' course'
      ∧ course.answers = ds.map .ok
      ∧ course'.answers = (ds.map fun d => d.project w.fields).map .ok
      ∧ (∀ d : Document, d.CutTo w.fields (d.project w.fields))
      ∧ course'.calls = course.calls := by
  obtain ⟨hbuilt, hr⟩ := built_of_root (plan_eq_ok_iff.mp h).1
  have hfields : ∀ q ∈ s.queries, q.window.fields = w.fields :=
    fun q hq => congrArg Window.fields (hbuilt.queries q hq).window_eq
  obtain ⟨ds, hds⟩ : (s.feed false).Faultless (store.estimatedBy store.cardinality) :=
    Source.faultless_feed (supported_of_makes hbuilt) hr false
  rw [store.estimatedBy_cardinality] at hds
  rw [Feed.delivered_eq_answers store.steady_toIndex _ t.searches] at hds
  have hraw : (s.feed true).course store.toIndex t'.searches
      = ((s.feed false).course store.toIndex t.searches).mapItems fun d => d.project w.fields := by
    rw [← Source.course_feed_raw hfields]
    exact Feed.course_of_steady store.steady_toIndex _ _ _
  refine ⟨_, _, _, _, ds, if_pos hr, if_pos hr, s.drains_feed false _ rfl,
    s.drains_feed true _ rfl, hds, ?_, Document.cutTo_project w.fields, ?_⟩
  · rw [hraw, Course.answers_mapItems, hds, List.map_map, List.map_map]
    rfl
  · rw [hraw, Course.calls_mapItems]

/-- An OR of two ANDs, one led by a merged query and one by the scope, with
filters that look at files and topics; the page asks for topics only, which
just the first record has. -/
theorem raw_read_is_projected_read_sixChanges :
    let core : Predicate := .leaf (.exact "project" "core")
    let p : Predicate := .disj
      [.conj [core, .leaf (.exact "topic" "x"), .neg (.leaf (.exact "file" "a"))],
        .neg (.leaf (.exact "topic" "x"))]
    let w : Window := ⟨0, 11, ["topic"]⟩
    let shown (d : Document) := (d.id, d.fields.map fun field => (field.1, field.2.string?))
    ∃ s whole cut course course', ∃ ds : List Document,
      (plan ⟨Store.sixChanges.schema, { maxLimit := 1 }, some core⟩ w p ⟨.fatal, []⟩).1 = .ok s
      ∧ s.read false = .ok whole
      ∧ s.read true = .ok cut
      ∧ whole.Drains Store.sixChanges.toIndex {} course
      ∧ cut.Drains Store.sixChanges.toIndex {} course'
      ∧ course.answers = ds.map .ok
      ∧ course'.answers = (ds.map fun d => d.project ["topic"]).map .ok
      ∧ (∀ d : Document, d.CutTo ["topic"] (d.project ["topic"]))
      ∧ course'.calls = course.calls
      ∧ course.items.map shown
        = [(1, [("project", some "core"), ("topic", some "x")]), (4, [("project", some "core")]),
          (3, [("project", some "core")]), (2, [("project", some "core")])]
      ∧ course'.items.map shown = [(1, [("topic", some "x")]), (4, []), (3, []), (2, [])] := by
  intro core p w shown
  let limits : Limits := { maxLimit := 1 }
  let pl : Planner := ⟨Store.sixChanges.schema, limits, some core⟩
  have hroot : Outcome.root pl w p = .ok (.disj
      [.conj [pl.query w (.conj [core, .leaf (.exact "topic" "x")]),
        .filter (.neg (.leaf (.exact "file" "a")))],
      .conj [pl.query w core, .filter (.neg (.leaf (.exact "topic" "x")))]]) := rfl
  have hplan : (pl.plan w p ⟨.fatal, []⟩).1 = .ok _ := plan_eq_ok_iff.mpr ⟨hroot, by decide⟩
  obtain ⟨whole, cut, course, course', ds, hwhole, hcut, hdrains, hdrains', hds, hds', hread⟩ :=
    raw_read_is_projected_read Store.sixChanges limits (some core) w p ⟨.fatal, []⟩ _ hplan {} {}
  refine ⟨_, whole, cut, course, course', ds, hplan, hwhole, hcut, hdrains, hdrains', hds, hds',
    hread.1, hread.2, ?_, ?_⟩
  · obtain rfl := Source.eq_deferred_of_read hwhole
    rw [hdrains.items_unique (Source.drains_feed _ false _ rfl)]
    decide +kernel
  · obtain rfl := Source.eq_deferred_of_read hcut
    rw [hdrains'.items_unique (Source.drains_feed _ true _ rfl)]
    decide +kernel

end Planner

end ReviewSearch
