/-
ReviewSearch.Proofs.Search.Paging — what stands on a page.

The plan of a query is the same in every window but for the window itself
(`ReviewSearch.Proofs.Plan.Rewindow`), so over a store a query has one list
of results for each number that its index queries are read up to:
`Engine.listed`. A page that starts at `start` and has room for `limit`
documents is a slice of the list for `start + limit + 1`
(`queryPredicate_eq_ok_iff`): the index queries stop behind the one result
that tells of more.
-/
import ReviewSearch.Proofs.Plan.Enumeration
import ReviewSearch.Proofs.Plan.Rewindow
import ReviewSearch.Search.Engine

namespace ReviewSearch

/-! ## Where a page lies -/

namespace Settings

variable {st : Settings} {l : Limits} {p : Predicate}

/-- A page can be asked for if its start is not negative and it is not
behind the last page. -/
theorem extent_eq_ok_iff {x : Extent} :
    st.extent l p = .ok x ↔
      x = ⟨st.start.toNat, st.pageLimit l p⟩ ∧ 0 ≤ st.start
        ∧ (0 < st.pageLimit l p → st.start.toNat / st.pageLimit l p + 1 ≤ l.maxPages) := by
  unfold extent
  dsimp only
  by_cases hneg : st.start < 0
  · rw [if_pos hneg]
    simp only [reduceCtorEq, false_iff, not_and]
    omega
  · rw [if_neg hneg]
    by_cases hbeyond : 0 < st.pageLimit l p ∧ l.maxPages < st.start.toNat / st.pageLimit l p + 1
    · rw [if_pos hbeyond]
      simp only [reduceCtorEq, false_iff, not_and]
      exact fun _ _ hwithin => absurd (hwithin hbeyond.1) (Nat.not_le.mpr hbeyond.2)
    · rw [if_neg hbeyond, Except.ok.injEq]
      refine ⟨fun h => ⟨h.symm, Int.not_lt.mp hneg, fun hpos => ?_⟩, fun h => h.1.symm⟩
      exact Nat.not_lt.mp fun hlt => hbeyond ⟨hpos, hlt⟩

/-- Without limits a page takes all that a word counts, but for one at
most. -/
theorem pageLimit_of_noLimit (h : st.noLimit = true) : Count.max ≤ st.pageLimit l p + 1 := by
  unfold pageLimit effectiveLimit
  simp only [h, if_true]
  split <;> omega

end Settings

namespace Engine

variable {e : Engine} {store : Store} {st : Settings} {p : Predicate}

/-! ## The results of a query -/

/-- The source of a query, whatever the window. -/
def source? (e : Engine) (p : Predicate) : Except Fault Source :=
  Planner.Outcome.root e.planner ⟨0, 0, []⟩ p

/-- Whether a query has a plan. -/
def Plans (e : Engine) (p : Predicate) : Prop :=
  (∃ s, e.source? p = .ok s) ∧ p.termCount ≤ e.limits.maxTerms

/-- What the plan of a query lists over a store, with its index queries
read up to `n` results each. -/
def listed (e : Engine) (store : Store) (p : Predicate) (n : Nat) : List Document :=
  match e.source? p with
  | .ok s => s.listing store store.cardinality fun _ => n
  | .error _ => []

theorem nodup_ids_listed (n : Nat) : ((e.listed store p n).map Document.id).Nodup := by
  unfold listed
  split
  · exact Source.nodup_ids_listing _
  · exact List.nodup_nil

theorem length_listed_le (e : Engine) (store : Store) (p : Predicate) (n : Nat) :
    (e.listed store p n).length ≤ store.size := by
  unfold listed
  split
  · exact Source.length_listing_le _
  · exact Nat.zero_le _

theorem of_mem_listed {n : Nat} {d : Document} (h : d ∈ e.listed store p n) : d ∈ store := by
  unfold listed at h
  split at h
  · exact (Source.of_mem_listing h).1
  · exact absurd h List.not_mem_nil

theorem listed_congr {m n : Nat} (h : min m store.size = min n store.size) :
    e.listed store p m = e.listed store p n := by
  unfold listed
  split
  · exact Source.listing_congr _ fun _ _ => h
  · rfl

/-! ## Plans in a window -/

/-- A query with a plan has one for every window, and all list the
same. -/
theorem exists_plan (store : Store) (w : Window) (log : Log) (h : e.Plans p) :
    ∃ s, (e.planner.plan w p log).1 = .ok s
      ∧ s.Built (e.planner.Makes w) ∧ s.readable = true
      ∧ ∀ n, (s.listing store store.cardinality fun _ => n) = e.listed store p n := by
  obtain ⟨⟨s, hs⟩, hterms⟩ := h
  have hroot := Planner.root_atWindow w hs
  obtain ⟨hbuilt, hreadable⟩ := Planner.built_of_root hroot
  refine ⟨_, Planner.plan_eq_ok_iff.mpr ⟨hroot, hterms⟩, hbuilt, hreadable, fun n => ?_⟩
  have hlisting : (s.atWindow w e.limits.maxLimit).listing store store.cardinality (fun _ => n)
      = s.listing store store.cardinality fun _ => n :=
    Source.listing_atWindow s fun _ _ => rfl
  rw [listed, hs]
  exact hlisting

theorem plans_of_plan {w : Window} {log : Log} {s : Source}
    (h : (e.planner.plan w p log).1 = .ok s) : e.Plans p := by
  obtain ⟨hroot, hterms⟩ := Planner.plan_eq_ok_iff.mp h
  exact ⟨⟨_, Planner.root_atWindow _ hroot⟩, hterms⟩

theorem plan_eq {x : Extent} {log : Log} (h : st.extent e.limits p = .ok x) :
    e.plan st p log = e.planner.plan (st.window x) p log := by
  unfold plan
  rw [h]

/-- Over a store, reading a plan gives what it lists, with its queries read
up to the number wanted. -/
theorem readPlan_eq {w : Window} {s : Source} (hindex : e.index = store.toIndex)
    (hsize : store.size ≤ Count.max) (hmax : 0 < e.limits.maxLimit)
    (hs : s.Built (e.planner.Makes w)) (hr : s.readable = true) (want : Nat)
    (t : Trace Consult) :
    (e.readPlan (!w.fields.isEmpty) want s t).1
      = .ok (((s.listing store store.cardinality fun _ => w.wanted).take want).map
          fun d => d.project w.fields) := by
  have hschema : store.schema = e.planner.schema := by
    show store.schema = e.index.schema
    rw [hindex]
    rfl
  have hwell := Planner.Makes.wellBuilt hs hschema hmax
  have hfields : ∀ q ∈ s.queries, q.window.fields = w.fields :=
    fun q hq => by rw [(hs.queries q hq).window_eq]
  have hcap : s.listing store store.cardinality IndexQuery.wanted
      = s.listing store store.cardinality fun _ => w.wanted := by
    refine Source.listing_congr s fun q hq => ?_
    rw [IndexQuery.wanted, (hs.queries q hq).window_eq]
  have hread := Source.read_feed store.cardinality hsize hwell hr (!w.fields.isEmpty)
    w.fields (fun _ => hfields) (some want) t
  unfold readPlan Source.read
  rw [if_pos hr, hindex, ← Store.estimatedBy_cardinality]
  refine hread.trans (congrArg Except.ok ?_)
  rw [hcap]
  show List.take want (List.map _ _) = _
  rw [List.map_take]
  cases hfield : w.fields with
  | nil => rfl
  | cons _ _ => rfl

/-! ## Pages -/

variable {x : Extent} {sess : Session}

/-- The results behind `x.start` of a query that has a plan. -/
theorem results_eq_ok (hindex : e.index = store.toIndex) (hsize : store.size ≤ Count.max)
    (hmax : 0 < e.limits.maxLimit) (h : e.Plans p) :
    (e.results st x p sess).1
      = .ok ((((e.listed store p (st.window x).wanted).take (x.start + (st.window x).limit)).map
          fun d => d.project st.fields).drop x.start) := by
  obtain ⟨s, hplan, hbuilt, hr, hlisted⟩ :=
    exists_plan store (st.window x) sess.journal.log h
  have hread := readPlan_eq hindex hsize hmax hbuilt hr (x.start + (st.window x).limit) sess.trace
  rw [hlisted] at hread
  unfold results
  simp only [hplan]
  exact congrArg (Except.map _) hread

theorem plans_of_results {found : List Document}
    (h : (e.results st x p sess).1 = .ok found) : e.Plans p := by
  cases hplan : (e.planner.plan (st.window x) p sess.journal.log).1 with
  | ok s => exact plans_of_plan hplan
  | error f =>
    unfold results at h
    simp only [hplan] at h
    cases h

/-- The page of an extent over a store: a slice of what the plan lists when
its queries are read up to one result behind the page. -/
def pageOf (e : Engine) (store : Store) (st : Settings) (p : Predicate) (x : Extent) : Page :=
  let ds := e.listed store p (x.start + x.limit + 1)
  ⟨p.display, p, x.limit, ((ds.drop x.start).take x.limit).map fun d => d.project st.fields,
    decide (x.start + x.limit < ds.length)⟩

/-- The limit and the end of a page are capped, which makes no difference
below the cap. -/
theorem ofResults_eq_pageOf (hsize : store.size ≤ Count.max) :
    Page.ofResults p.display p x.limit
        ((((e.listed store p (st.window x).wanted).take (x.start + (st.window x).limit)).map
          fun d => d.project st.fields).drop x.start)
      = e.pageOf store st p x := by
  have hlimit : (st.window x).limit = min (x.limit + 1) Count.max := rfl
  have hwanted : (st.window x).wanted
      = min (x.start + min (x.limit + 1) Count.max) Count.max := rfl
  have hlisted : e.listed store p (st.window x).wanted
      = e.listed store p (x.start + x.limit + 1) := by
    refine listed_congr ?_
    omega
  have hlen := length_listed_le e store p (x.start + x.limit + 1)
  unfold Page.ofResults pageOf
  rw [hlisted]
  generalize e.listed store p (x.start + x.limit + 1) = ds at hlen
  have hslice : (ds.take (x.start + (st.window x).limit)).drop x.start
      = (ds.drop x.start).take (st.window x).limit := by
    rw [List.drop_take, Nat.add_sub_cancel_left]
  have hdocuments : ((ds.drop x.start).take (st.window x).limit).take x.limit
      = (ds.drop x.start).take x.limit := by
    rw [List.take_take, List.take_eq_take_iff, List.length_drop]
    omega
  have hmore : x.limit < ((ds.drop x.start).take (st.window x).limit).length
      ↔ x.start + x.limit < ds.length := by
    rw [List.length_take, List.length_drop]
    omega
  rw [← List.map_drop, hslice, ← List.map_take, hdocuments, List.length_map]
  simp only [hmore]

theorem execute_eq_ok_iff {page : Page} (hindex : e.index = store.toIndex)
    (hsize : store.size ≤ Count.max) (hmax : 0 < e.limits.maxLimit) :
    (e.execute st p.display p sess).1 = .ok page ↔
      ∃ x, st.extent e.limits p = .ok x
        ∧ (x.limit = 0 ∧ page = .empty p.display p
          ∨ 0 < x.limit ∧ e.Plans p ∧ page = e.pageOf store st p x) := by
  unfold execute
  cases hx : st.extent e.limits p with
  | error f => simp
  | ok x =>
    simp only [Except.ok.injEq, exists_eq_left']
    by_cases hzero : x.limit = 0
    · simp [hzero, eq_comm]
    · simp only [hzero, if_false, false_and, false_or, Nat.pos_of_ne_zero hzero, true_and]
      constructor
      · intro h
        obtain ⟨found, hfound, rfl⟩ := map_eq_ok_iff.mp h
        have hplans := plans_of_results hfound
        obtain rfl := Except.ok.inj ((results_eq_ok hindex hsize hmax hplans).symm.trans hfound)
        exact ⟨hplans, ofResults_eq_pageOf hsize⟩
      · rintro ⟨hplans, rfl⟩
        show Except.map _ _ = _
        rw [results_eq_ok hindex hsize hmax hplans]
        exact congrArg Except.ok (ofResults_eq_pageOf hsize)

/-- Over a store, a query succeeds if its page can be asked for and, unless
that has no room, it has a plan. Its page is then a slice of what the plan
lists. -/
theorem queryPredicate_eq_ok_iff (sess : Session) {page : Page} (hindex : e.index = store.toIndex)
    (hsize : store.size ≤ Count.max) (hmax : 0 < e.limits.maxLimit) :
    (e.queryPredicate st p sess).1 = .ok page ↔
      ∃ x, st.extent e.limits p = .ok x
        ∧ (x.limit = 0 ∧ page = .empty p.display p
          ∨ 0 < x.limit ∧ e.Plans p ∧ page = e.pageOf store st p x) :=
  execute_eq_ok_iff hindex hsize hmax

end Engine

end ReviewSearch
