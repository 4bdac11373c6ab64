/-
ReviewSearch.Proofs.Plan.Faults — reading a plan over an index that fails.

* `withoutFaults_course_feed` — records that are lost on the way out of
  the index change nothing but that faults stand in their places: the
  other records and all calls are as over an index that loses none;
* `handsOut_windowsFrom` — what the windows of an index query hand out:
  every fault that arrives up to the last record wanted, and the records
  that are accepted;
* `exists_accounts_feed` — all faults that are reached come out, each at
  its place;
* `confinesFaults_feed` — a search that is refused ends the index query,
  or the AND that it drives, and nothing else: a child of an OR delivers
  what it delivers alone but for repetitions, whatever came before it;
* `faults_lose_nothing` — all this of the stream of a plan.
-/
import ReviewSearch.Proofs.Plan.Asking
import ReviewSearch.Proofs.Stream.Faults

namespace ReviewSearch.Source

variable {ix : Index} {q : IndexQuery} {filters : List Source} {fields : List String}
variable {s : Source}

/-! ## Lost records -/

theorem withoutFaults_pass (items : List (Except Fault Document)) (want : Nat) :
    (pass filters fields items want).withoutFaults
      = pass filters fields ((itemsOf items).map .ok) want := by
  induction items generalizing want with
  | nil => cases want <;> rfl
  | cons item items ih =>
    cases want with
    | zero => simp
    | succ want =>
      cases item with
      | error e => exact ih (want + 1)
      | ok d =>
        rw [itemsOf_ok, List.map_cons]
        cases h : filters.all (satisfiedBy d) with
        | true => simp [pass_ok_of_accepted h, ih want]
        | false => simp [pass_ok_of_not_accepted h, ih (want + 1)]

/-- Lost records are not counted, so the windows are the same without
them. -/
theorem withoutFaults_course_windowsFrom (turns offset n m : Nat) :
    ((windowsFrom q filters fields turns offset n).course ix m).withoutFaults
      = ((windowsFrom q filters fields turns offset n).course ix.mended m).withoutFaults := by
  induction turns generalizing offset n m with
  | zero => rfl
  | succ turns ih =>
    by_cases hstop : q.backend.limit = 0 ∨ q.wanted ≤ n
    · rw [course_windowsFrom_of_reached hstop, course_windowsFrom_of_reached hstop]
    cases hsearch : ix.search (m + 1) q.predicate { q.backend with start := offset } with
    | error e =>
      rw [course_windowsFrom_of_error (by omega) (by omega) hsearch,
        course_windowsFrom_of_error (by omega) (by omega) (Index.search_mended_of_error hsearch)]
    | ok items =>
      rw [course_windowsFrom_of_ok (by omega) (by omega) hsearch,
        course_windowsFrom_of_ok (by omega) (by omega) (Index.search_mended_of_ok hsearch)]
      dsimp only
      rw [itemsOf_map_ok]
      simp only [Course.withoutFaults_call, Course.withoutFaults_append, withoutFaults_pass,
        itemsOf_map_ok]
      refine congrArg _ (congrArg _ (congrArg _ ?_))
      split
      · rfl
      · split
        · rfl
        · exact ih _ _ _

/-- Over an index that loses records, what happens while a plan is read is
what happens over an index that loses none, but for the faults. -/
theorem withoutFaults_course_feed (ix : Index) (s : Source) (raw : Bool) (n : Nat) :
    ((s.feed raw).course ix n).withoutFaults = ((s.feed raw).course ix.mended n).withoutFaults := by
  induction s generalizing raw n with
  | indexed q => exact withoutFaults_course_windowsFrom _ _ _ _
  | conj ss ih =>
    have hmended : ix.mended.cardinality = ix.cardinality := rfl
    rcases driver_cases ix.cardinality ss with hr | ⟨i, q, hi, hget⟩ | ⟨i, s, hi, hget, hmem, _, hq⟩
    · rw [feed_conj_of_not_readable hr]
      rfl
    · rw [course_conj_of_indexed hi hget, course_conj_of_indexed (hmended ▸ hi) hget,
        Course.withoutFaults_append, Course.withoutFaults_append]
      exact congrArg _ (withoutFaults_course_windowsFrom _ _ _ _)
    · rw [course_conj_of_not_indexed hi hget hq, course_conj_of_not_indexed (hmended ▸ hi) hget hq,
        Course.withoutFaults_append, Course.withoutFaults_append, filtered, Feed.course_sift,
        Feed.course_sift, Course.withoutFaults_sift, Course.withoutFaults_sift, ih s hmem]
  | disj ss ih =>
    have hconcat : ((Feed.concat (ss.map (feed raw))).course ix n).withoutFaults
        = ((Feed.concat (ss.map (feed raw))).course ix.mended n).withoutFaults := by
      refine Feed.course_concat_rel (r := fun c d => c.withoutFaults = d.withoutFaults)
        rfl ?append ?searches (fun s hmem n => ih s hmem raw n) n
      case append =>
        intro c c' d d' h h'
        rw [Course.withoutFaults_append, h, h', Course.withoutFaults_append]
      case searches =>
        intro c d h
        rw [← Course.searches_withoutFaults c, h, Course.searches_withoutFaults]
    rw [course_disj, course_disj, feeds_eq_map, Course.withoutFaults_distinct,
      Course.withoutFaults_distinct, hconcat]
  | filter p => rfl
  | matcher m => rfl

/-! ## One index query -/

/-- What is demanded of an index behind filters. -/
def demand (filters : List Source) (want : Nat) : Demand :=
  ⟨fun d => filters.all (satisfiedBy d), want⟩

/-- What comes out of what is pulled: every fault, and every record that the
filters accept, cut down. -/
def handOut (filters : List Source) (fields : List String) :
    Except Fault Document → Option (Except Fault Document)
  | .error e => some (.error e)
  | .ok d => if filters.all (satisfiedBy d) then some (.ok (d.project fields)) else none

theorem handOut_of_accepted {d : Document} (h : filters.all (satisfiedBy d) = true) :
    handOut filters fields (.ok d) = some (.ok (d.project fields)) :=
  if_pos h

theorem handOut_of_not_accepted {d : Document} (h : filters.all (satisfiedBy d) = false) :
    handOut filters fields (.ok d) = none :=
  if_neg (ne_true_of_eq_false h)

theorem countP_demand (filters : List Source) (want : Nat) (ds : List Document) :
    ds.countP (demand filters want).accepts = (accepted filters ds).length :=
  List.countP_eq_length_filter

/-- Of one window, every fault comes out up to the last record wanted. -/
theorem exists_pulled_pass (filters : List Source) (fields : List String)
    (items : List (Except Fault Document)) (want : Nat) :
    ∃ pulled, Pulled (demand filters (want + 1)) items pulled
      ∧ (pass filters fields items (want + 1)).answers
        = pulled.filterMap (handOut filters fields) := by
  induction items generalizing want with
  | nil => exact ⟨[], .nil _, rfl⟩
  | cons item items ih =>
    cases item with
    | error e =>
      obtain ⟨pulled, hpulled, hpass⟩ := ih want
      refine ⟨_, hpulled.error e (Nat.succ_pos want), ?_⟩
      exact congrArg (.error e :: ·) hpass
    | ok d =>
      cases h : filters.all (satisfiedBy d) with
      | true =>
        rw [pass_ok_of_accepted h, Course.answers_append, Course.answers_ofCalls]
        have hout (pulled : List (Except Fault Document)) :
            (.ok d :: pulled).filterMap (handOut filters fields)
              = .ok (d.project fields) :: pulled.filterMap (handOut filters fields) :=
          List.filterMap_cons_some (handOut_of_accepted h)
        cases want with
        | zero =>
          -- the reader is given back behind the last record wanted
          have hlast : Pulled (demand filters 1) ([] ++ .ok d :: items) [.ok d] :=
            .front items h rfl
          refine ⟨_, hlast, ?_⟩
          rw [pass_zero, hout]
          rfl
        | succ want =>
          obtain ⟨pulled, hpulled, hpass⟩ := ih want
          refine ⟨_, hpulled.accepted h (Nat.succ_pos want), ?_⟩
          rw [hout, ← hpass]
          rfl
      | false =>
        obtain ⟨pulled, hpulled, hpass⟩ := ih want
        refine ⟨_, hpulled.rejected h (Nat.succ_pos want), ?_⟩
        rw [pass_ok_of_not_accepted h, Course.answers_append, Course.answers_ofCalls, hpass,
          List.filterMap_cons_none (handOut_of_not_accepted h)]
        rfl

/-- A course is one reading behind filters: what is wanted of all that
arrives is pulled, and the faults and the accepted records come out. -/
def HandsOut (ix : Index) (filters : List Source) (fields : List String) (want n : Nat)
    (c : Course Consult Document) : Prop :=
  ∃ pulled, Pulled (demand filters want) (c.arrived ix n) pulled
    ∧ c.answers = pulled.filterMap (handOut filters fields)

/-- A window that is read to its end without meeting the demand leaves the
rest of it to the next one. -/
theorem handsOut_windowsFrom (turns offset n m : Nat) :
    HandsOut ix filters fields (q.wanted - n) m
      ((windowsFrom q filters fields turns offset n).course ix m) := by
  induction turns generalizing offset n m with
  | zero => exact ⟨[], .nil _, rfl⟩
  | succ turns ih =>
    by_cases hstop : q.backend.limit = 0 ∨ q.wanted ≤ n
    · rw [course_windowsFrom_of_reached hstop]
      exact ⟨[], .nil _, rfl⟩
    obtain ⟨want, hwant⟩ : ∃ want, q.wanted - n = want + 1 := ⟨q.wanted - n - 1, by omega⟩
    cases hsearch : ix.search (m + 1) q.predicate { q.backend with start := offset } with
    | error e =>
      rw [course_windowsFrom_of_error (by omega) (by omega) hsearch, HandsOut,
        Course.arrived_search, hsearch, hwant]
      exact ⟨_, (Pulled.nil _).error e (Nat.succ_pos want), rfl⟩
    | ok items =>
      rw [course_windowsFrom_of_ok (by omega) (by omega) hsearch, HandsOut, Course.arrived_search,
        hsearch, Course.arrived_append, Course.arrived_of_searches_eq_zero (searches_pass items _),
        searches_pass, Course.arrived_release, Course.answers_call, Course.answers_append,
        Course.answers_call, hwant, ← countP_demand filters (want + 1), List.nil_append]
      generalize hcount : (itemsOf items).countP (demand filters (want + 1)).accepts = count
      obtain ⟨pulled, hpulled, hpass⟩ := exists_pulled_pass filters fields items want
      have hlast : Pulled (demand filters (want + 1)) (items ++ []) pulled := by
        rwa [List.append_nil]
      rw [hpass]
      by_cases hreached : q.wanted ≤ n + count
      · rw [if_pos hreached]
        exact ⟨pulled, hlast, List.append_nil _⟩
      rw [if_neg hreached]
      by_cases hshort : (itemsOf items).length < q.backend.limit
      · rw [if_pos hshort]
        exact ⟨pulled, hlast, List.append_nil _⟩
      rw [if_neg hshort]
      have hmore : count < want + 1 := by omega
      obtain ⟨pulled', hpulled', hanswers⟩ := ih (offset + (itemsOf items).length) (n + count)
        (m + 1)
      have hrest : q.wanted - (n + count) = want + 1 - count := by omega
      rw [hrest] at hpulled'
      subst hcount
      rw [hpulled.eq_of_lt hmore, hanswers, ← List.filterMap_append]
      exact ⟨_, .append hmore hpulled', rfl⟩

/-! Filters may be asked in any order. -/

theorem all_eq_of_accepted_eq {filters' : List Source}
    (h : ∀ ds, accepted filters' ds = accepted filters ds) (d : Document) :
    filters'.all (satisfiedBy d) = filters.all (satisfiedBy d) := by
  have hone := congrArg List.length (h [d])
  simp only [← countP_demand _ 0, demand, List.countP_singleton] at hone
  cases hall : filters.all (satisfiedBy d) <;> simpa [hall] using hone

theorem handOut_congr {filters' : List Source}
    (h : ∀ ds, accepted filters' ds = accepted filters ds) (fields : List String) :
    handOut filters' fields = handOut filters fields := by
  funext item
  cases item with
  | error e => rfl
  | ok d => rw [handOut, all_eq_of_accepted_eq h, handOut]

theorem HandsOut.congr {filters' : List Source} {want n : Nat} {c : Course Consult Document}
    (h : HandsOut ix filters' fields want n c)
    (hfilters : ∀ ds, accepted filters' ds = accepted filters ds) :
    HandsOut ix filters fields want n c := by
  have hdemand : demand filters' want = demand filters want :=
    congrArg (Demand.mk · want) (funext (all_eq_of_accepted_eq hfilters))
  rwa [HandsOut, hdemand, handOut_congr hfilters] at h

/-- A source that an index query leads hands out what the query wants. -/
theorem LedBy.handsOut (h : s.LedBy ix q filters) (raw : Bool) (n : Nat) :
    HandsOut ix filters (if raw then q.window.fields else []) q.wanted n
      ((s.feed raw).course ix n) := by
  obtain ⟨asked, filters', hfilters, hcourse⟩ := h.exists_course_feed raw n
  have hwindows : HandsOut ix filters' (if raw then q.window.fields else []) q.wanted n _ :=
    handsOut_windowsFrom (Count.max + 1) q.backend.start 0 n
  have hquiet : Course.searches (Course.ofCalls (asked.map .cardinality)
      : Course Consult Document) = 0 := Course.searches_cardinalities asked
  rw [hcourse]
  unfold HandsOut
  rw [Course.arrived_append, Course.arrived_of_searches_eq_zero hquiet, hquiet,
    Course.answers_append, Course.answers_ofCalls]
  exact hwindows.congr hfilters

/-! ## Faults that are reached -/

/-- A record on its way out: whole, or, where fields are asked for, cut
down. -/
def Cut (raw : Bool) (d d' : Document) : Prop :=
  ∃ fields, (raw = false → fields = []) ∧ d' = d.project fields

theorem Cut.eq_of_whole {d d' : Document} (h : Cut false d d') : d' = d := by
  obtain ⟨_, hfields, rfl⟩ := h
  rw [hfields rfl, Document.project_nil]

theorem surfaces_handOut {raw : Bool} (hraw : raw = false → fields = [])
    (pulled : List (Except Fault Document)) :
    Surfaces (Cut raw) pulled (pulled.filterMap (handOut filters fields)) := by
  induction pulled with
  | nil => exact .nil
  | cons item pulled ih =>
    cases item with
    | error e => exact .fault e ih
    | ok d =>
      cases h : filters.all (satisfiedBy d) with
      | true =>
        rw [List.filterMap_cons_some (handOut_of_accepted h)]
        exact .passed ⟨fields, hraw, rfl⟩ ih
      | false =>
        rw [List.filterMap_cons_none (handOut_of_not_accepted h)]
        exact .dropped d ih

/-- What is demanded of an index to read a source: one demand for each index
query that is read, in the order in which they are. -/
inductive Demands (ix : Index) : Source → List Demand → Prop
  | led {s : Source} {q : IndexQuery} {filters : List Source} (h : s.LedBy ix q filters) :
      Demands ix s [demand filters q.wanted]
  | driven {ss : List Source} {i : Nat} {s : Source} {ws : List Demand}
      (hi : driver? ix.cardinality ss = some i) (hs : ss[i]? = some s)
      (hq : ∀ q, s ≠ .indexed q) (h : Demands ix s ws) : Demands ix (.conj ss) ws
  | none : Demands ix (.disj []) []
  | branch {s : Source} {ss : List Source} {ws ws' : List Demand} (h : Demands ix s ws)
      (h' : Demands ix (.disj ss) ws') : Demands ix (.disj (s :: ss)) (ws ++ ws')

theorem LedBy.exists_accounts (h : s.LedBy ix q filters) (raw : Bool) (n : Nat) :
    ∃ ws, s.Demands ix ws ∧ Course.Accounts ix (Cut raw) n ws ((s.feed raw).course ix n) := by
  obtain ⟨pulled, hpulled, hanswers⟩ := h.handsOut raw n
  refine ⟨_, .led h, .of_pulled hpulled ?_⟩
  rw [hanswers]
  exact surfaces_handOut (by simp +contextual) pulled

/-- Children of an OR are accounted for one behind the other. -/
theorem exists_accounts_concat {R : Document → Document → Prop} {raw : Bool} {ss : List Source}
    (h : ∀ s ∈ ss, ∀ n, ∃ ws, s.Demands ix ws
      ∧ Course.Accounts ix R n ws ((s.feed raw).course ix n)) (n : Nat) :
    ∃ ws, (disj ss).Demands ix ws
      ∧ Course.Accounts ix R n ws ((Feed.concat (feeds raw ss)).course ix n) := by
  induction ss generalizing n with
  | nil => exact ⟨[], .none, .nil⟩
  | cons s ss ih =>
    obtain ⟨ws, hws, hs⟩ := h s List.mem_cons_self n
    obtain ⟨ws', hws', hss⟩ := ih (fun s hs => h s (List.mem_cons_of_mem _ hs)) _
    exact ⟨ws ++ ws', .branch hws hws', Feed.course_concat_cons .. ▸ hs.append hss⟩

/-- All faults that are reached while a plan is read come out, each at its
place and once. -/
theorem exists_accounts_feed (ix : Index) (hr : s.readable = true) (hors : s.orsReadable = true)
    (raw : Bool) (n : Nat) :
    ∃ ws, s.Demands ix ws ∧ Course.Accounts ix (Cut raw) n ws ((s.feed raw).course ix n) := by
  induction s generalizing raw n with
  | indexed q => exact LedBy.alone.exists_accounts raw n
  | conj ss ih =>
    rw [readable_conj, ← anyReadable_eq_any] at hr
    rw [orsReadable_conj, List.all_eq_true] at hors
    rcases driver_cases ix.cardinality ss with hnot | ⟨i, q, hi, hget⟩ |
      ⟨i, s, hi, hget, hmem, hsr, hq⟩
    · rw [hr] at hnot
      cases hnot
    · exact (LedBy.driver hi hget).exists_accounts raw n
    · have hcut (d d' : Document) (hd : (if (Verdict.every ((others ss i).map (judge d))).answer
          then some (d.project (if raw then s.requestedFields else [])) else none) = some d') :
          Cut raw d d' := by
        split at hd
        · exact ⟨_, by simp +contextual, (Option.some.inj hd).symm⟩
        · cases hd
      have hwhole (d d₁ d₂ : Document) (hd : Cut false d d₁) (hd' : Cut raw d₁ d₂) : Cut raw d d₂ :=
        hd.eq_of_whole ▸ hd'
      obtain ⟨ws, hws, hs⟩ := ih s hmem hsr (hors s hmem) false n
      refine ⟨ws, .driven hi hget hq hws, ?_⟩
      rw [course_conj_of_not_indexed hi hget hq, filtered, Feed.course_sift]
      exact .calls (Course.searches_cardinalities _) (hs.sift hcut hwhole)
  | disj ss ih =>
    rw [orsReadable_disj, Bool.and_eq_true, List.all_eq_true, List.all_eq_true] at hors
    obtain ⟨ws, hws, hss⟩ := exists_accounts_concat
      (fun s hs n => ih s hs (hors.1 s hs) (hors.2 s hs) raw n) n
    rw [course_disj]
    exact ⟨ws, hws, hss.distinct _ _⟩
  | filter p => simp at hr
  | matcher m => simp at hr

/-! ## Searches that are refused -/

theorem endsAtRefusal_windowsFrom (turns offset n m : Nat) :
    Course.EndsAtRefusal ix m ((windowsFrom q filters fields turns offset n).course ix m) := by
  refine course_windowsFrom_induction (fun _ => .nil) ?refused ?window turns offset n m
  case refused =>
    intro m w e hsearch
    have hquiet : Course.searches ([.answer (.error e)] : Course Consult Document) = 0 := rfl
    refine .search (fun e' he' => ?_) (.of_quiet hquiet .nil)
    obtain rfl := Except.error.inj (hsearch.symm.trans he')
    rfl
  case window =>
    intro m w items want c hsearch hc
    have hrelease : Course.searches (Course.ofCalls [.release] : Course Consult Document) = 0 := rfl
    refine .search (fun e he => ?_) (.of_quiet (searches_pass items _) (.of_quiet hrelease hc))
    cases hsearch.symm.trans he

/-- A search that is refused ends the index query, or the AND that it
drives. -/
theorem LedBy.endsAtRefusal (h : s.LedBy ix q filters) (raw : Bool) (n : Nat) :
    Course.EndsAtRefusal ix n ((s.feed raw).course ix n) := by
  obtain ⟨asked, filters', -, hcourse⟩ := h.exists_course_feed raw n
  rw [hcourse]
  exact .of_quiet (Course.searches_cardinalities asked) (endsAtRefusal_windowsFrom _ _ _ _)

/-- A child of an OR goes on with the number of searches made before it.
Whatever these gave, it does what it does alone, without the records that
were delivered before it. -/
theorem course_disj_append (ix : Index) (before : List Source) (child : Source)
    (after : List Source) (raw : Bool) (n : Nat) :
    let earlier := ((disj before).feed raw).course ix n
    let own := (child.feed raw).course ix (n + earlier.searches)
    ∃ rest, ((disj (before ++ child :: after)).feed raw).course ix n
      = earlier ++ (own.distinct Document.id (earlier.items.map Document.id) ++ rest) := by
  intro earlier own
  have hearlier : earlier
      = ((Feed.concat (feeds raw before)).course ix n).distinct Document.id [] := course_disj ..
  have hsearches : earlier.searches = ((Feed.concat (feeds raw before)).course ix n).searches := by
    rw [hearlier, Course.searches, Course.calls_distinct, Course.searches]
  have hfeeds : feeds raw (before ++ child :: after)
      = feeds raw before ++ child.feed raw :: feeds raw after := by
    rw [feeds_eq_map, feeds_eq_map, feeds_eq_map, List.map_append, List.map_cons]
  have hall := course_disj ix (before ++ child :: after) raw n
  rw [hfeeds, Feed.course_concat_append, Feed.course_concat_cons, ← hsearches,
    Course.distinct_append, ← hearlier, List.append_nil, Course.distinct_append] at hall
  exact ⟨_, hall⟩

/-- An AND that no index query drives hands out what its driver answers. -/
theorem answers_course_filtered (others : List Source) (feed : Records) (n : Nat) :
    ((filtered others fields feed).course ix n).answers
      = (feed.course ix n).answers.filterMap (handOut others fields) := by
  rw [filtered, Feed.course_sift, Course.answers_sift]
  refine congrArg (List.filterMap · _) (funext fun item => ?_)
  cases item with
  | error e => rfl
  | ok d =>
    dsimp only
    rw [answer_every_judge, handOut]
    split <;> rfl

/-- Faults stay in the part of a plan where they arise, while the plan is
read behind so many searches. The parts are read by streams of their own
over the same index, behind the searches made before them. -/
structure ConfinesFaults (ix : Index) (raw : Bool) (s : Source) (searches : Nat)
    (course : Course Consult Document) : Prop where
  /-- An index query, or the AND that it drives, answers with every fault that
  arrives up to the last record wanted, and with the records that are
  accepted. -/
  handsOut {q : IndexQuery} {filters : List Source} (h : s.LedBy ix q filters) :
    HandsOut ix filters (if raw then q.window.fields else []) q.wanted searches course
  /-- A search that is refused ends the index query, or the AND that it
  drives, behind the fault. -/
  ends {q : IndexQuery} {filters : List Source} (h : s.LedBy ix q filters) :
    course.EndsAtRefusal ix searches
  /-- An AND with another driver goes on as long as its driver does: it
  answers with the faults of the driver and with the records of it that the
  other children accept. -/
  driver {ss : List Source} {i : Nat} {d : Source} (h : s = .conj ss)
    (hi : driver? ix.cardinality ss = some i) (hd : ss[i]? = some d)
    (hq : ∀ q, d ≠ .indexed q) : ∃ stream own, d.read false = .ok stream
      ∧ (∀ t, t.searches = searches → stream.Drains ix t own)
      ∧ course.answers = own.answers.filterMap
        (handOut (ss.eraseIdx i) (if raw then d.requestedFields else []))
  /-- A child of an OR answers with its own faults, each at its place, and
  delivers its own records but for those that were delivered before it,
  whatever faults came before. -/
  child {before : List Source} {c : Source} {after : List Source}
    (h : s = .disj (before ++ c :: after)) :
    ∃ first stream earlier own answers rest, (disj before).read raw = .ok first
      ∧ c.read raw = .ok stream
      ∧ (∀ t, t.searches = searches → first.Drains ix t earlier)
      ∧ (∀ t, t.searches = searches + earlier.searches → stream.Drains ix t own)
      ∧ Surfaces Eq own.answers answers
      ∧ itemsOf answers
        = Order.distinctBy Document.id (earlier.items.map Document.id) own.items
      ∧ course.answers = earlier.answers ++ (answers ++ rest)

theorem confinesFaults_feed (hors : s.orsReadable = true) (raw : Bool) (n : Nat) :
    s.ConfinesFaults ix raw n ((s.feed raw).course ix n) where
  handsOut h := h.handsOut raw n
  ends h := h.endsAtRefusal raw n
  driver {ss i d} h hi hd hq := by
    subst h
    obtain ⟨d', hd', hr⟩ := getElem?_of_driver? hi
    obtain rfl := Option.some.inj (hd'.symm.trans hd)
    refine ⟨_, _, if_pos hr, fun t ht => drains_feed d' false ix ht, ?_⟩
    rw [course_conj_of_not_indexed hi hd hq, Course.answers_append, Course.answers_ofCalls,
      List.nil_append, answers_course_filtered, handOut_congr (accepted_others ss i)]
  child {before c after} h := by
    subst h
    rw [orsReadable_disj, Bool.and_eq_true, List.all_eq_true] at hors
    have hr : c.readable = true := hors.1 c (by simp)
    obtain ⟨rest, hrest⟩ := course_disj_append ix before c after raw n
    refine ⟨_, _, _, _, _, rest.answers, if_pos rfl, if_pos hr,
      fun t ht => drains_feed (disj before) raw ix ht, fun t ht => drains_feed c raw ix ht,
      .distinct Document.id _ _, Course.items_distinct .., ?_⟩
    rw [hrest, Course.answers_append, Course.answers_append]

/-! ## The stream of a plan -/

/-- Faults of the index neither lose nor repeat other records. Over any
index, which may lose records on the way out and refuse searches as it
likes, let a plan be read to its end, past all faults. Then

* the records are those that are read over the index that loses none, in
  the same order, and so are the calls; and if no search is refused, that
  reading is without faults;
* every fault that is reached comes out at its place, once: the one of a
  search that is refused, and those that readers deliver. They are read to
  their ends, but for the reader that delivers the last record that an index
  query wants: behind that record nothing is reached;
* a search that is refused ends the index query, or the AND that it
  drives, and nothing else: what else an AND or an OR reads answers with
  its own faults and records. -/
theorem faults_lose_nothing (ix : Index) (raw : Bool) (s : Source) (hr : s.readable = true)
    (hors : s.orsReadable = true) (t : Trace Consult) :
    ∃ stream course course' demands, s.read raw = .ok stream
      ∧ stream.Drains ix t course
      ∧ stream.Drains ix.mended t course'
      ∧ course.items = course'.items
      ∧ course.calls = course'.calls
      ∧ ((∀ n p w, ∃ items, ix.search n p w = .ok items) →
        course'.answers = course'.items.map .ok)
      ∧ s.Demands ix demands
      ∧ course.Accounts ix (Cut raw) t.searches demands
      ∧ s.ConfinesFaults ix raw t.searches course := by
  obtain ⟨hitems, hcalls⟩ :=
    Course.items_eq_of_withoutFaults (withoutFaults_course_feed ix s raw t.searches)
  obtain ⟨demands, hdemands, haccounts⟩ := exists_accounts_feed ix hr hors raw t.searches
  obtain ⟨_, -, hmended⟩ := exists_accounts_feed ix.mended hr hors raw t.searches
  exact ⟨_, _, _, demands, if_pos hr, drains_feed s raw ix rfl, drains_feed s raw ix.mended rfl,
    hitems, hcalls, hmended.answers_eq, hdemands, haccounts,
    confinesFaults_feed hors raw t.searches⟩

/-- An index that loses a record behind every window and refuses the second
search, read for an OR of two queries of three records. The refusal ends
the first query. The second one has its third record in its second window,
and what is lost behind that is not reached. -/
theorem faults_lose_nothing_sixChanges :
    let query (p : Predicate) : Source := .indexed (.ofWindow p ⟨0, 3, []⟩ 2)
    let core := query (.leaf (.exact "project" "core"))
    let topic := query (.leaf (.exact "topic" "x"))
    let ix : Index := { Store.sixChanges.toIndex with
      search := fun n p w =>
        if n = 2 then .error (.index "down")
        else (Store.sixChanges.toIndex.search n p w).map (· ++ [.error (.index "lost")]) }
    ∃ stream course course' demands, (disj [core, topic]).read false = .ok stream
      ∧ stream.Drains ix {} course
      ∧ course.answers.map (Except.map Document.id)
        = [.ok 4, .ok 3, .error (.index "lost"), .error (.index "down"), .ok 6, .ok 5,
          .error (.index "lost"), .ok 1]
      ∧ stream.Drains ix.mended {} course'
      ∧ course'.answers.map (Except.map Document.id)
        = [.ok 4, .ok 3, .error (.index "down"), .ok 6, .ok 5, .ok 1]
      ∧ course.items = course'.items
      ∧ course.calls = course'.calls
      ∧ (disj [core, topic]).Demands ix demands
      ∧ course.Accounts ix (Cut false) 0 demands
      ∧ (disj [core, topic]).ConfinesFaults ix false 0 course := by
  intro query core topic ix
  obtain ⟨stream, course, course', demands, hread, hdrains, hdrains', hitems, hcalls, -, hdemands,
    haccounts, hconfined⟩ := faults_lose_nothing ix false (disj [core, topic]) rfl rfl {}
  obtain rfl := eq_deferred_of_read hread
  refine ⟨_, course, course', demands, hread, hdrains, ?_, hdrains', ?_, hitems, hcalls, hdemands,
    haccounts, hconfined⟩
  · rw [hdrains.answers_unique (drains_feed _ false ix rfl)]
    decide +kernel
  · rw [hdrains'.answers_unique (drains_feed _ false ix.mended rfl)]
    decide +kernel

end ReviewSearch.Source
