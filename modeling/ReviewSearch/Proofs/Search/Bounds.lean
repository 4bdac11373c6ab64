/-
ReviewSearch.Proofs.Search.Bounds — pages keep to every bound, and no count
overflows.

* `Settings.le_effectiveLimit_iff`, `Settings.pageLimit_succ_le` — the limit
  of a page is the least of all limits that bind it, and leaves room for one
  result more below what the index gives at once;
* `Settings.extent_eq_beyond_iff` — a page is refused for its number just if
  it starts behind all pages. The bound is an exact product, which the words
  of a machine need not hold: the test divides instead;
* `Engine.keepsTo_of_execute` — a page has no more documents than its limit,
  and tells of more only if it is full;
* `Engine.execute?` — a query that is run with every count checked, but for
  those that are capped where they are added (`Count.add`). It has a value,
  and the same as without (`Engine.execute?_eq`).

`Engine.boundsPages` puts these together, for every request.
-/
import ReviewSearch.Proofs.Plan.Refusal
import ReviewSearch.Proofs.Search.Paging
import ReviewSearch.Proofs.Search.Pulling

namespace ReviewSearch

/-! ## The limit of a page -/

namespace Settings

variable {st : Settings} {l : Limits} {p : Predicate}

/-- What the caller asks for, or the default. -/
def requestedOrDefault (st : Settings) (l : Limits) : Nat :=
  if 0 < st.requested then st.requested else l.defaultLimit

/-- The effective limit of a caller who has limits is the least of those of
the caller and the index and of all those in the query. -/
theorem le_effectiveLimit_iff (hlimit : st.noLimit = false) {n : Nat} :
    n ≤ st.effectiveLimit l p ↔ n ≤ st.permitted ∧ n ≤ l.maxLimit ∧ n ≤ st.requestedOrDefault l
      ∧ ∀ leaf ∈ p.leaves, ∀ k, leaf.limit? = some k → n ≤ k := by
  have hleaves : (∀ leaf ∈ p.leaves, ∀ k, leaf.limit? = some k → n ≤ k)
      ↔ ∀ k ∈ p.leaves.filterMap Leaf.limit?, n ≤ k := by
    simp only [List.mem_filterMap, forall_exists_index, and_imp]
    exact ⟨fun h k leaf hleaf hk => h leaf hleaf k hk, fun h leaf hleaf k hk => h k leaf hleaf hk⟩
  rw [hleaves, effectiveLimit, Predicate.minLimit?, requestedOrDefault]
  simp only [hlimit, Bool.false_eq_true, if_false]
  generalize p.leaves.filterMap Leaf.limit? = limits
  cases hmin : limits.min? with
  | none =>
    rw [List.min?_eq_none_iff.mp hmin]
    simp only [Nat.le_min, and_assoc, List.not_mem_nil, false_imp_iff, implies_true, and_true]
  | some k =>
    rw [← List.le_min?_iff hmin]
    simp only [Nat.le_min, and_assoc]

theorem pageLimit_le_effectiveLimit (st : Settings) (l : Limits) (p : Predicate) :
    st.pageLimit l p ≤ st.effectiveLimit l p := by
  unfold pageLimit
  dsimp only
  split
  · exact Nat.sub_le _ 1
  · exact Nat.le_refl _

/-- The page leaves room for one result more, unless the index gives one at
a time. -/
theorem pageLimit_succ_le (hlimit : st.noLimit = false) (hmax : 1 < l.maxLimit) :
    st.pageLimit l p + 1 ≤ l.maxLimit := by
  have hle := ((le_effectiveLimit_iff hlimit).mp (Nat.le_refl (st.effectiveLimit l p))).2.1
  unfold pageLimit
  dsimp only
  split <;> omega

/-! ## Pages that cannot be asked for -/

/-- The fault of a page behind the last one. -/
def beyond (l : Limits) : Fault :=
  .refused ("Cannot go beyond page " ++ toString l.maxPages ++ " of results")

/-- A start that is behind all pages is one that the last page does not
reach. -/
theorem extent_eq_beyond_iff (hstart : 0 ≤ st.start) (hlimit : 0 < st.pageLimit l p) :
    st.extent l p = .error (beyond l) ↔ (st.pageLimit l p * l.maxPages : Int) ≤ st.start := by
  have hpages : l.maxPages < st.start.toNat / st.pageLimit l p + 1
      ↔ (st.pageLimit l p * l.maxPages : Int) ≤ st.start := by
    rw [Nat.lt_succ_iff, Nat.le_div_iff_mul_le hlimit, Nat.mul_comm]
    omega
  rw [← hpages, extent, if_neg (Int.not_lt.mpr hstart)]
  dsimp only
  split
  · next h => exact iff_of_true rfl h.2
  · next h => exact iff_of_false nofun fun hlt => h ⟨hlimit, hlt⟩

/-- A page that is not behind all pages lies where it is asked for. -/
theorem extent_of_lt (hstart : 0 ≤ st.start) (hlimit : 0 < st.pageLimit l p)
    (hwithin : st.start < (st.pageLimit l p * l.maxPages : Int)) :
    st.extent l p = .ok ⟨st.start.toNat, st.pageLimit l p⟩ := by
  refine extent_eq_ok_iff.mpr ⟨rfl, hstart, fun _ => ?_⟩
  have hlt : st.start.toNat < l.maxPages * st.pageLimit l p := by
    rw [Nat.mul_comm]
    omega
  exact (Nat.div_lt_iff_lt_mul hlimit).mpr hlt

/-! ## Checked extents -/

/-- The limit of a page, with every count checked. -/
def pageLimit? (st : Settings) (l : Limits) (p : Predicate) : Option Nat :=
  let n := st.effectiveLimit l p
  if n = l.maxLimit ∧ 1 < n then Count.sub? n 1 else some n

/-- Where a page lies, with every count checked. -/
def extent? (st : Settings) (l : Limits) (p : Predicate) : Option (Except Fault Extent) :=
  if st.start < 0 then some (.error (.refused "'start' parameter cannot be less than zero"))
  else do
    let start := st.start.toNat
    let limit ← st.pageLimit? l p
    if 0 < limit then
      let page ← Count.add? (← Count.div? start limit) 1
      if l.maxPages < page then some (.error (beyond l)) else some (.ok ⟨start, limit⟩)
    else some (.ok ⟨start, limit⟩)

theorem pageLimit?_eq (st : Settings) (l : Limits) (p : Predicate) :
    st.pageLimit? l p = some (st.pageLimit l p) := by
  unfold pageLimit? pageLimit
  dsimp only
  split
  · next h => exact Count.sub?_of_le (Nat.le_of_lt h.2)
  · rfl

/-- A start in the signed range leaves room for every count that is made of
it. -/
theorem extent?_eq (hstart : inSignedRange st.start = true) :
    st.extent? l p = some (st.extent l p) := by
  have hroom := succ_toNat_lt_max hstart
  unfold extent? extent
  by_cases hneg : st.start < 0
  · rw [if_pos hneg, if_pos hneg]
  · rw [if_neg hneg, if_neg hneg]
    dsimp only
    rw [pageLimit?_eq, Option.bind_eq_bind, Option.bind_some]
    by_cases hpos : 0 < st.pageLimit l p
    · have hpage : st.start.toNat / st.pageLimit l p + 1 ≤ Count.max := by
        have := Nat.div_le_self st.start.toNat (st.pageLimit l p)
        omega
      rw [if_pos hpos, Count.div?_of_pos hpos, Option.bind_some, Count.add?_of_le hpage,
        Option.bind_some]
      simp only [hpos, true_and]
      exact (apply_ite some _ _ _).symm
    · rw [if_neg hpos, if_neg fun h => hpos h.1]

end Settings

/-! ## Pages of a limit -/

/-- A page that keeps to a limit, and tells of more only if it is full. -/
structure Page.KeepsTo (page : Page) (n : Nat) : Prop where
  limit : page.limit = n
  length_le : page.documents.length ≤ n
  full (h : page.more = true) : page.documents.length = n

theorem Page.keepsTo_empty (text : String) (p : Predicate) : (Page.empty text p).KeepsTo 0 where
  limit := rfl
  length_le := Nat.le_refl 0
  full := nofun

theorem Page.keepsTo_ofResults (text : String) (p : Predicate) (n : Nat)
    (results : List Document) : (Page.ofResults text p n results).KeepsTo n where
  limit := rfl
  length_le := List.length_take_le n results
  full h := List.length_take_of_le (Nat.le_of_lt (of_decide_eq_true h))

namespace Engine

variable {e : Engine} {st : Settings} {p : Predicate}

theorem keepsTo_of_execute {text : String} {s : Session} {page : Page}
    (h : (e.execute st text p s).1 = .ok page) : page.KeepsTo (st.pageLimit e.limits p) := by
  unfold execute at h
  cases hx : st.extent e.limits p with
  | error f =>
    rw [hx] at h
    cases h
  | ok x =>
    obtain ⟨rfl, -, -⟩ := Settings.extent_eq_ok_iff.mp hx
    simp only [hx] at h
    split at h
    next hzero =>
      obtain rfl := Except.ok.inj h
      rw [hzero]
      exact Page.keepsTo_empty text p
    next =>
      obtain ⟨found, -, rfl⟩ := map_eq_ok_iff.mp h
      exact Page.keepsTo_ofResults text p _ found

/-! ## Checked pages -/

/-- Reads the results of a plan that stand on a page, with every count
checked. -/
def readPlan? (e : Engine) (raw : Bool) (start probe : Nat) (plan : Source)
    (t : Trace Consult) : Option (Except Fault (List Document) × Trace Consult) :=
  match plan.read raw with
  | .error f => some (.error f, t)
  | .ok stream => stream.page? e.index start probe t

/-- The results from the start of a page on, with every count checked. -/
def results? (e : Engine) (st : Settings) (x : Extent) (p : Predicate) (s : Session) :
    Option (Except Fault (List Document) × Session) :=
  let w := st.window x
  let (plan, log) := e.planner.plan w p s.journal.log
  let s := { s with journal := { s.journal with log := log } }
  match plan with
  | .error f => some (.error f, s)
  | .ok plan => do
    let (found, t) ← e.readPlan? (!st.fields.isEmpty) x.start w.limit plan s.trace
    some (found, { s with trace := t })

/-- Runs a query, with every count checked. -/
def execute? (e : Engine) (st : Settings) (text : String) (p : Predicate) (s : Session) :
    Option (Except Fault Page × Session) := do
  match ← st.extent? e.limits p with
  | .error f => some (.error f, s)
  | .ok x =>
    if x.limit = 0 then some (.ok (.empty text p), s)
    else
      let (found, s) ← e.results? st x p s
      some (found.map (.ofResults text p x.limit), s)

theorem readPlan?_eq {start probe : Nat} (hstart : start ≤ Count.max)
    (hprobe : probe ≤ Count.max) (hpos : 0 < probe) (raw : Bool) (plan : Source)
    (t : Trace Consult) :
    e.readPlan? raw start probe plan t
      = some (Prod.map (Except.map (·.drop start)) id
          (e.readPlan raw (start + probe) plan t)) := by
  unfold readPlan? readPlan
  cases plan.read raw with
  | error f => rfl
  | ok stream => exact Stream.page?_eq hstart hprobe hpos stream t

theorem results?_eq {x : Extent} (hstart : x.start ≤ Count.max) (s : Session) :
    e.results? st x p s = some (e.results st x p s) := by
  have hpos : 0 < (st.window x).limit := Nat.lt_min.mpr ⟨Nat.succ_pos _, by decide⟩
  have hprobe : (st.window x).limit ≤ Count.max := Count.add_le_max _ _
  unfold results? results
  dsimp only
  cases (e.planner.plan (st.window x) p s.journal.log).1 with
  | error f => rfl
  | ok plan =>
    dsimp only
    rw [readPlan?_eq hstart hprobe hpos]
    rfl

/-- Running a query with every count checked is running it. -/
theorem execute?_eq (hstart : inSignedRange st.start = true) (text : String) (s : Session) :
    e.execute? st text p s = some (e.execute st text p s) := by
  unfold execute? execute
  rw [Settings.extent?_eq hstart, Option.bind_eq_bind, Option.bind_some]
  cases hx : st.extent e.limits p with
  | error f => rfl
  | ok x =>
    obtain ⟨rfl, -, -⟩ := Settings.extent_eq_ok_iff.mp hx
    have hroom := succ_toNat_lt_max hstart
    dsimp only
    split
    · rfl
    · rw [results?_eq (show st.start.toNat ≤ Count.max by omega)]
      rfl

/-! ## Requests -/

/-- The answers to requests for a predicate. It is asked for as it is, or by
a text that is read as it. -/
inductive Answers (e : Engine) (st : Settings) (p : Predicate) : Except Fault Page → Prop
  | predicate (s : Session) : Answers e st p (e.queryPredicate st p s).1
  | text {text : String} (h : e.dialect.parse text = .ok p) (s : Session) :
    Answers e st p (e.query st text s).1

variable {r : Except Fault Page}

/-- A request runs the query for its predicate. -/
theorem Answers.exists_execute (h : e.Answers st p r) :
    ∃ text s, r = (e.execute st text p s).1 := by
  cases h with
  | predicate s => exact ⟨_, _, rfl⟩
  | @text text h s =>
    refine ⟨text, { s with journal := s.journal.event .queryReceived [("query", text)] }, ?_⟩
    unfold query recorded
    dsimp only
    rw [h]

theorem exists_answers_of_query {text : String} {s : Session} {page : Page}
    (h : (e.query st text s).1 = .ok page) :
    ∃ p, e.dialect.parse text = .ok p ∧ e.Answers st p (.ok page) := by
  cases hparse : e.dialect.parse text with
  | ok p => exact ⟨p, rfl, h ▸ .text hparse s⟩
  | error f =>
    unfold query recorded at h
    simp only [hparse] at h
    cases h

/-- Queries that are run in turn are answered as if each was asked
alone. -/
theorem exists_answers_of_queryMany {texts : List String} {s : Session} {pages : List Page}
    (h : (e.queryMany st texts s).1 = .ok pages) :
    ∀ page ∈ pages, ∃ text ∈ texts, ∃ p, e.dialect.parse text = .ok p
      ∧ e.Answers st p (.ok page) := by
  induction texts generalizing s pages with
  | nil =>
    obtain rfl := Except.ok.inj h
    exact fun _ hpage => absurd hpage List.not_mem_nil
  | cons text texts ih =>
    rw [queryMany] at h
    cases hquery : e.query st text s with
    | mk outcome s' =>
      rw [hquery] at h
      cases outcome with
      | error f => cases h
      | ok first =>
        obtain ⟨rest, hrest, rfl⟩ := map_eq_ok_iff.mp h
        intro page hpage
        rcases List.mem_cons.mp hpage with rfl | hpage
        · exact ⟨text, List.mem_cons_self, exists_answers_of_query (congrArg Prod.fst hquery)⟩
        · obtain ⟨text', htext, hp⟩ := ih hrest page hpage
          exact ⟨text', List.mem_cons_of_mem _ htext, hp⟩

/-- The faults of plans are not about pages. -/
theorem ne_beyond_of_plan {pl : Planner} {w : Window} {log : Log} {f : Fault} (l : Limits)
    (h : (pl.plan w p log).1 = .error f) : f ≠ Settings.beyond l := by
  rintro rfl
  rcases Planner.plan_eq_error h with hterms | hroot
  · have hchars := congrArg String.toList (Fault.refused.inj hterms)
    simp at hchars
  · obtain ⟨-, r, hr⟩ := Planner.root_eq_error hroot
    unfold Planner.Outcome.underScope at hr
    split at hr
    · cases hr
    · split at hr <;> cases hr

theorem plan_eq_beyond_iff (log : Log) :
    (e.plan st p log).1 = .error (Settings.beyond e.limits)
      ↔ st.extent e.limits p = .error (Settings.beyond e.limits) := by
  unfold plan
  cases st.extent e.limits p with
  | error f => simp only [Except.error.injEq]
  | ok x => exact iff_of_false (fun h => ne_beyond_of_plan e.limits h rfl) nofun

theorem execute_of_extent_error {f : Fault} (h : st.extent e.limits p = .error f)
    (text : String) (s : Session) : e.execute st text p s = (.error f, s) := by
  unfold execute
  rw [h]

theorem execute_of_extent_ok {x : Extent} (h : st.extent e.limits p = .ok x) (hpos : 0 < x.limit)
    (text : String) (s : Session) :
    e.execute st text p s
      = Prod.map (Except.map (.ofResults text p x.limit)) id (e.results st x p s) := by
  unfold execute
  simp only [h, if_neg (Nat.ne_of_gt hpos)]
  rfl

/-! ## The bounds of pages -/

/-- The bounds that pages, and the counts made of them, keep to. -/
structure BoundsPages (e : Engine) (st : Settings) : Prop where
  /-- The limit of a page exceeds none of the limits that bind its caller,
  those in the query included, -/
  limit_le {p : Predicate} (hlimit : st.noLimit = false) :
    st.pageLimit e.limits p ≤ st.permitted ∧ st.pageLimit e.limits p ≤ e.limits.maxLimit
      ∧ st.pageLimit e.limits p ≤ st.requestedOrDefault e.limits
      ∧ ∀ leaf ∈ p.leaves, ∀ k, leaf.limit? = some k → st.pageLimit e.limits p ≤ k
  /-- and one search has room for the result that tells of more. -/
  limit_succ_le {p : Predicate} (hlimit : st.noLimit = false) (hmax : 1 < e.limits.maxLimit) :
    st.pageLimit e.limits p + 1 ≤ e.limits.maxLimit
  /-- A plan is refused for the number of its page just if the page starts
  behind all pages. -/
  refuses_plan_iff {p : Predicate} (log : Log) (hstart : 0 ≤ st.start)
    (hpos : 0 < st.pageLimit e.limits p) :
    (e.plan st p log).1 = .error (Settings.beyond e.limits)
      ↔ (st.pageLimit e.limits p * e.limits.maxPages : Int) ≤ st.start
  /-- So is a request; -/
  refused {p : Predicate} {r : Except Fault Page} (h : e.Answers st p r) (hstart : 0 ≤ st.start)
    (hpos : 0 < st.pageLimit e.limits p)
    (hbehind : (st.pageLimit e.limits p * e.limits.maxPages : Int) ≤ st.start) :
    r = .error (Settings.beyond e.limits)
  /-- any other is answered by the results of its page. -/
  answered {p : Predicate} {r : Except Fault Page} (h : e.Answers st p r) (hstart : 0 ≤ st.start)
    (hpos : 0 < st.pageLimit e.limits p)
    (hwithin : st.start < (st.pageLimit e.limits p * e.limits.maxPages : Int)) :
    ∃ text s, r = (e.results st ⟨st.start.toNat, st.pageLimit e.limits p⟩ p s).1.map
      (.ofResults text p (st.pageLimit e.limits p))
  /-- A page that is returned keeps to the limit of its query, -/
  page {p : Predicate} {page : Page} (h : e.Answers st p (.ok page)) :
    page.KeepsTo (st.pageLimit e.limits p)
  /-- also among those of queries that are run in turn. -/
  pages {texts : List String} {s : Session} {pages : List Page}
    (h : (e.queryMany st texts s).1 = .ok pages) :
    ∀ page ∈ pages, ∃ text ∈ texts, ∃ p, e.dialect.parse text = .ok p
      ∧ page.KeepsTo (st.pageLimit e.limits p)
  /-- No count of a page overflows, -/
  counts (p : Predicate) (text : String) (s : Session) :
    e.execute? st text p s = some (e.execute st text p s)
  /-- and none of the windows of a query to an index that has no more records
  than a word counts. -/
  windows (hindex : e.index.Counted) (spill : Source.Records) (p : Predicate) (w : Window)
    (filters : List Source) (fields : List String) (n : Nat) :
    (Source.checkedWindows spill (.ofWindow p w e.limits.maxLimit) filters fields).course e.index n
      = (Source.windows (.ofWindow p w e.limits.maxLimit) filters fields).course e.index n

/-- Pages keep to all their bounds, over any limits and for any caller, and
no count of them overflows. -/
theorem boundsPages (e : Engine) (st : Settings) (hstart : inSignedRange st.start = true) :
    e.BoundsPages st where
  limit_le {p} hlimit :=
    (Settings.le_effectiveLimit_iff hlimit).mp (Settings.pageLimit_le_effectiveLimit st e.limits p)
  limit_succ_le hlimit hmax := Settings.pageLimit_succ_le hlimit hmax
  refuses_plan_iff log hstart hpos :=
    (plan_eq_beyond_iff log).trans (Settings.extent_eq_beyond_iff hstart hpos)
  refused h hstart hpos hbehind := by
    obtain ⟨text, s, rfl⟩ := h.exists_execute
    rw [execute_of_extent_error ((Settings.extent_eq_beyond_iff hstart hpos).mpr hbehind)]
  answered h hstart hpos hwithin := by
    obtain ⟨text, s, rfl⟩ := h.exists_execute
    rw [execute_of_extent_ok (Settings.extent_of_lt hstart hpos hwithin) hpos]
    exact ⟨text, s, rfl⟩
  page h := by
    obtain ⟨text, s, hexecute⟩ := h.exists_execute
    exact keepsTo_of_execute hexecute.symm
  pages h := fun page hpage => by
    obtain ⟨text, htext, p, hparse, hp⟩ := exists_answers_of_queryMany h page hpage
    obtain ⟨_, _, hexecute⟩ := hp.exists_execute
    exact ⟨text, htext, p, hparse, keepsTo_of_execute hexecute.symm⟩
  counts p text s := execute?_eq hstart text s
  windows hindex spill p w filters fields n :=
    Source.course_checkedWindows hindex spill p w _ filters fields n

/-- A limit under NOT and OR binds the page. With two results on a page and
three pages at most, none starts behind the sixth result. -/
theorem boundsPages_sixChanges :
    let e : Engine :=
      ⟨Store.sixChanges.toIndex, .empty, { maxPages := 3 }, some (.leaf .statusOpen)⟩
    let st : Settings := { start := 6 }
    let p : Predicate := .disj [.leaf (.exact "project" "core"), .neg (.leaf (.limit 2))]
    e.BoundsPages st ∧ e.index.Counted ∧ st.pageLimit e.limits p = 2
      ∧ ∀ s, (e.queryPredicate st p s).1 = .error (Settings.beyond e.limits) := by
  intro e st p
  have hsize : Store.sixChanges.size ≤ Count.max := by decide
  have hbounds : e.BoundsPages st := boundsPages e st (by decide)
  have hlimit : st.pageLimit e.limits p = 2 := by decide
  refine ⟨hbounds, Store.counted_toIndex hsize, hlimit,
    fun s => hbounds.refused (.predicate s) (by decide) ?_ ?_⟩
  · rw [hlimit]
    decide
  · rw [hlimit]
    decide

end Engine

end ReviewSearch
