/-
ReviewSearch.Proofs.Search.Slices — when a page is a slice of the whole
result.

The index queries of a plan are read up to one result behind the page, and
that may be too few: an AND filters what an OR or another AND in front of
it delivers, and an OR drops what it has delivered before.

* `isSlice_iff` — a page is the slice of the whole result that it should
  be exactly when cutting the queries short changes neither the slice nor
  the existence of a result behind it;
* it never does if every AND that is read is driven by an index query;
* `exists_not_isSlice` — with an OR for a driver, a page can be empty and
  the last one, though a record is there that satisfies the query.

In any case, all documents of a page are in the whole result.
-/
import ReviewSearch.Proofs.Plan.Fronts
import ReviewSearch.Proofs.Search.Complete

namespace ReviewSearch

/-- A page that has the documents of a whole result from `start` on, as
many as it has room for, and tells whether there are more. -/
def Page.IsSlice (page full : Page) (start : Nat) : Prop :=
  page.documents = (full.documents.drop start).take page.limit
    ∧ (page.more = true ↔ start + page.limit < full.documents.length)

theorem Limits.pos_of_defect? {l : Limits} (h : l.defect? = none) :
    0 < l.maxLimit ∧ 0 < l.maxPages := by
  unfold Limits.defect? at h
  split_ifs at h with _ hmaxLimit _ _ hmaxPages
  exact ⟨Nat.pos_of_ne_zero hmaxLimit, Nat.pos_of_ne_zero hmaxPages⟩

namespace Engine

variable {e : Engine} {store : Store} {st : Settings} {p : Predicate}

/-- Records of a store that are cut down to fields are still told apart. -/
theorem map_project_inj (fields : List String) {ds ds' : List Document}
    (h : ∀ d ∈ ds, d ∈ store) (h' : ∀ d ∈ ds', d ∈ store) :
    ds.map (fun d => d.project fields) = ds'.map (fun d => d.project fields) ↔ ds = ds' := by
  refine ⟨fun heq => ?_, congrArg _⟩
  induction ds generalizing ds' with
  | nil => exact (List.map_eq_nil_iff.mp heq.symm).symm
  | cons d ds ih =>
    obtain ⟨d', ds'', rfl, hd, hds⟩ := List.map_eq_cons_iff.mp heq.symm
    obtain ⟨hstore, hrest⟩ := List.forall_mem_cons.mp h
    obtain ⟨hstore', hrest'⟩ := List.forall_mem_cons.mp h'
    have hid : d.id = d'.id := by
      have hproject := congrArg Document.id hd
      rw [Document.project_id, Document.project_id] at hproject
      exact hproject.symm
    rw [Store.eq_of_id_eq hstore hstore' hid, ih hrest hrest' hds.symm]

/-- A page is a slice of the whole result if the list that is cut short and
the whole one agree there. -/
theorem isSlice_pageOf_iff {x : Extent} {full : Page}
    (hfull : full.documents
      = (e.listed store p store.size).map fun d => d.project st.fields) :
    let cut := e.listed store p (x.start + x.limit + 1)
    let all := e.listed store p store.size
    (e.pageOf store st p x).IsSlice full x.start ↔
      (cut.drop x.start).take x.limit = (all.drop x.start).take x.limit
        ∧ (x.start + x.limit < cut.length ↔ x.start + x.limit < all.length) := by
  intro cut all
  have hmem {n : Nat} : ∀ d ∈ ((e.listed store p n).drop x.start).take x.limit, d ∈ store :=
    fun d hd => of_mem_listed (List.mem_of_mem_drop (List.mem_of_mem_take hd))
  unfold Page.IsSlice
  rw [hfull, List.length_map, ← List.map_drop, ← List.map_take]
  refine and_congr (map_project_inj st.fields hmem hmem) ?_
  show (decide (x.start + x.limit < cut.length) = true ↔ _) ↔ _
  rw [decide_eq_true_iff]
  exact Iff.rfl

/-- Lists that agree up to one item behind a slice agree on the slice. -/
theorem slice_congr {cut all : List Document} {start limit : Nat}
    (h : cut.take (start + limit + 1) = all.take (start + limit + 1)) :
    (cut.drop start).take limit = (all.drop start).take limit
      ∧ (start + limit < cut.length ↔ start + limit < all.length) := by
  have hslice (ds : List Document) : (ds.drop start).take limit
      = ((ds.take (start + limit + 1)).drop start).take limit := by
    rw [List.drop_take, List.take_take, Nat.min_eq_left (by omega)]
  have hlen := congrArg List.length h
  rw [List.length_take, List.length_take] at hlen
  exact ⟨by rw [hslice cut, h, ← hslice all], by omega⟩

/-- What is listed with queries cut short is in the whole list. -/
theorem mem_listed_of_mem_listed {n : Nat} {d : Document} (h : d ∈ e.listed store p n) :
    d ∈ e.listed store p store.size := by
  unfold listed at h ⊢
  split at h
  · next s hs =>
    obtain ⟨hbuilt, hr⟩ := Planner.built_of_root hs
    obtain ⟨hd, hsat⟩ := Source.of_mem_listing h
    exact Source.mem_listing_of_satisfiedBy hbuilt.orsReadable hr (fun _ _ => Nat.le_refl _) hd
      hsat
  · exact absurd h List.not_mem_nil

/-- A page with room for a document is the slice of the whole result, read
without limits, that it should be, if and only if the plan lists the same
slice with its queries cut short behind the page, and as to whether there
is more, the same. This is so if every AND that is read is driven by an
index query. In any case the documents of the page are in the whole
result. -/
theorem isSlice_iff (e : Engine) (store : Store) (hindex : e.index = store.toIndex)
    (hsize : store.size < Count.max) (hlimits : e.limits.defect? = none) (st : Settings)
    (p : Predicate) (sess : Session) (page : Page)
    (h : (e.queryPredicate st p sess).1 = .ok page) (hpos : 0 < page.limit) (sess' : Session)
    (log : Log) :
    ∃ plan full, (e.plan st p log).1 = .ok plan
      ∧ (e.queryPredicate { st with noLimit := true, start := 0 } p sess').1 = .ok full
      ∧ (let start := st.start.toNat
        let cut := plan.listing store store.cardinality fun _ => start + page.limit + 1
        let all := plan.listing store store.cardinality fun _ => store.size
        page.IsSlice full start ↔
          (cut.drop start).take page.limit = (all.drop start).take page.limit
            ∧ (start + page.limit < cut.length ↔ start + page.limit < all.length))
      ∧ (plan.indexDriven store.cardinality = true → page.IsSlice full st.start.toNat)
      ∧ ∀ d ∈ page.documents, d ∈ full.documents := by
  obtain ⟨hmax, hpages⟩ := Limits.pos_of_defect? hlimits
  obtain ⟨x, hx, hpage⟩ := (queryPredicate_eq_ok_iff sess hindex (Nat.le_of_lt hsize) hmax).mp h
  obtain ⟨hxeq, _, _⟩ := Settings.extent_eq_ok_iff.mp hx
  obtain ⟨_, rfl⟩ | ⟨_, hplans, rfl⟩ := hpage
  · exact absurd hpos (Nat.lt_irrefl 0)
  obtain ⟨plan, hplan, _, _, hlisted⟩ := exists_plan store (st.window x) log hplans
  have hrun := queryPredicate_of_noLimit { st with noLimit := true } hindex hsize hmax rfl
    hplans hpages (Int.le_refl 0) (by decide) sess'
  have hfull := (pageOf_of_noLimit { st with noLimit := true } (e := e) (p := p) hsize
    rfl 0).1
  rw [List.drop_zero] at hfull
  have hstart : st.start.toNat = x.start := by rw [hxeq]
  have hiff := isSlice_pageOf_iff (x := x) hfull
  rw [hstart]
  refine ⟨plan, _, plan_eq hx ▸ hplan, hrun, ?iff, ?driven, ?members⟩
  case iff =>
    intro start cut all
    have hcut : cut = e.listed store p (x.start + x.limit + 1) := hlisted _
    have hall : all = e.listed store p store.size := hlisted _
    rw [hcut, hall]
    exact hiff
  case driven =>
    intro hdriven
    refine hiff.mpr ?_
    rcases Nat.le_total (x.start + x.limit + 1) store.size with hle | hle
    · refine slice_congr ?_
      rw [← hlisted, ← hlisted]
      exact Source.take_listing_of_indexDriven hdriven hle
    · rw [listed_of_size_le hle]
      exact ⟨rfl, Iff.rfl⟩
  case members =>
    intro d hd
    obtain ⟨d', hd', rfl⟩ := List.mem_map.mp hd
    have hlist : d' ∈ e.listed store p store.size :=
      mem_listed_of_mem_listed (List.mem_of_mem_drop (List.mem_of_mem_take hd'))
    refine (congrArg (d'.project st.fields ∈ ·) hfull).mpr ?_
    exact List.mem_map_of_mem (f := fun d : Document => d.project st.fields) hlist

/-- A second page of an index query: the index-driven case. -/
theorem isSlice_iff_sixChanges :
    let e : Engine := ⟨Store.sixChanges.toIndex, .empty, {}, some (.leaf .statusOpen)⟩
    let p : Predicate := .leaf (.exact "project" "core")
    let sess : Session := ⟨{}, ⟨⟨.fatal, []⟩, {}⟩⟩
    ∃ page full, (e.queryPredicate { requested := 2, start := 1 } p sess).1 = .ok page
      ∧ (e.queryPredicate { noLimit := true } p sess).1 = .ok full
      ∧ page.documents.map Document.id = [3, 2] ∧ page.IsSlice full 1 := by
  intro e p sess
  have hsize : Store.sixChanges.size < Count.max := by decide
  have hplans : e.Plans p := ⟨⟨_, rfl⟩, by decide⟩
  have hextent : Settings.extent { requested := 2, start := 1 } e.limits p = .ok ⟨1, 2⟩ :=
    Settings.extent_eq_ok_iff.mpr (by decide)
  have h := (queryPredicate_eq_ok_iff sess rfl (Nat.le_of_lt hsize) (by decide)).mpr
    ⟨_, hextent, .inr ⟨by decide, hplans, rfl⟩⟩
  obtain ⟨plan, full, hplan, hfull, _, hdriven, _⟩ := isSlice_iff e Store.sixChanges rfl hsize
    rfl { requested := 2, start := 1 } p sess _ h (by decide) sess ⟨.fatal, []⟩
  rw [plan_eq hextent, Planner.plan_eq_ok_iff] at hplan
  have hquery : plan = e.planner.query ⟨1, 3, []⟩ p := (Except.ok.inj hplan.1).symm
  refine ⟨_, full, h, hfull, by decide, hdriven ?_⟩
  rw [hquery]
  rfl

/-- Of the six changes, the first is the only one of the project that has
the topic. The OR is the driver, for it has fewer changes than the project;
its query is read up to two results, which are later changes of other
projects, and none of them passes. So the page is empty and claims to be
the last, though there is a result. -/
theorem exists_not_isSlice :
    let e : Engine := ⟨Store.sixChanges.toIndex, .empty, {}, some (.leaf .statusOpen)⟩
    let p : Predicate := .conj [.leaf (.exact "project" "core"),
      .disj [.leaf (.exact "topic" "x"), .leaf (.exact "file" "a")]]
    let sess : Session := ⟨{}, ⟨⟨.fatal, []⟩, {}⟩⟩
    ∃ page full, (e.queryPredicate { requested := 1 } p sess).1 = .ok page
      ∧ (e.queryPredicate { noLimit := true } p sess).1 = .ok full
      ∧ page.limit = 1 ∧ page.documents = [] ∧ page.more = false
      ∧ full.documents.map Document.id = [1] ∧ ¬page.IsSlice full 0 := by
  intro e p sess
  have hsize : Store.sixChanges.size < Count.max := by decide
  have hplans : e.Plans p := ⟨⟨_, rfl⟩, by decide⟩
  have hextent : Settings.extent { requested := 1 } e.limits p = .ok ⟨0, 1⟩ :=
    Settings.extent_eq_ok_iff.mpr (by decide)
  have hpage := (queryPredicate_eq_ok_iff sess rfl (Nat.le_of_lt hsize) (by decide)).mpr
    ⟨_, hextent, .inr ⟨by decide, hplans, rfl⟩⟩
  have hnone : (e.pageOf Store.sixChanges { requested := 1 } p ⟨0, 1⟩).documents = [] :=
    List.map_eq_nil_iff.mp (show List.map Document.id _ = [] by decide)
  obtain ⟨full, hfull, hone⟩ : ∃ full,
      (e.queryPredicate { noLimit := true } p sess).1 = .ok full
        ∧ full.documents.map Document.id = [1] := by
    have hall : (e.listed Store.sixChanges p Store.sixChanges.size).map Document.id = [1] := by
      decide
    have hdocuments := (pageOf_of_noLimit { noLimit := true } (e := e) (p := p) hsize rfl 0).1
    refine ⟨_, queryPredicate_of_noLimit { noLimit := true } rfl hsize (by decide) rfl
      hplans (by decide) (Int.le_refl 0) (by decide) sess, ?_⟩
    refine (congrArg (List.map Document.id) hdocuments).trans ?_
    rw [List.drop_zero, List.map_map]
    exact hall
  refine ⟨_, full, hpage, hfull, rfl, hnone, by decide, hone, fun hslice => ?_⟩
  have hids := congrArg (List.map Document.id) hslice.1
  rw [hnone, List.map_take, List.map_drop, hone] at hids
  exact absurd hids (by decide)

end Engine

end ReviewSearch
