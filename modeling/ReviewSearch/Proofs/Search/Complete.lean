/-
ReviewSearch.Proofs.Search.Complete — a query without limits returns
everything, once.

`noLimit_returns_all`: over a store, the page of a query without limits has
every record of the store that satisfies the query and the default scope,
and none that does not satisfy the query; and from a later start on, it is
the rest of that list. Windows of any size, drivers and ORs do not show.

An index in memory has fewer records than a word counts, and so do the
stores here (`store.size < Count.max`).
-/
import ReviewSearch.Proofs.Plan.Meaning
import ReviewSearch.Proofs.Search.Paging

namespace ReviewSearch.Engine

variable {e : Engine} {store : Store} {st : Settings} {p : Predicate}

/-! ## The whole list -/

/-- All caps beyond the size of the store are the same. -/
theorem listed_of_size_le {n : Nat} (h : store.size ≤ n) :
    e.listed store p n = e.listed store p store.size := by
  refine listed_congr ?_
  omega

/-- Records listed satisfy the query. -/
theorem satisfiedBy_of_mem_listed {n : Nat} {d : Document} (h : d ∈ e.listed store p n) :
    p.satisfiedBy d = true := by
  unfold listed at h
  split at h
  · next s hs => exact (Planner.upToScope_root d hs).sound (Source.of_mem_listing h).2
  · exact absurd h List.not_mem_nil

/-- The whole list has every record of the store that satisfies the query
and the default scope. -/
theorem mem_listed (hplans : e.Plans p) {d : Document} (hd : d ∈ store)
    (hp : p.satisfiedBy d = true) (hscope : e.planner.InScope d) :
    d ∈ e.listed store p store.size := by
  obtain ⟨⟨s, hs⟩, _⟩ := hplans
  obtain ⟨hbuilt, hr⟩ := Planner.built_of_root hs
  have hsat : s.satisfiedBy d = true := (Planner.upToScope_root d hs).complete hscope hp
  unfold listed
  rw [hs]
  exact Source.mem_listing_of_satisfiedBy hbuilt.orsReadable hr (fun _ _ => Nat.le_refl _) hd hsat

/-! ## Pages without limits -/

/-- The page of a query without limits is the whole list from its start
on. -/
theorem pageOf_of_noLimit (st : Settings) (hsize : store.size < Count.max)
    (hlimit : st.noLimit = true) (start : Nat) :
    let page := e.pageOf store st p ⟨start, st.pageLimit e.limits p⟩
    page.documents
        = ((e.listed store p store.size).drop start).map (fun d => d.project st.fields)
      ∧ page.more = false := by
  have hmost := Settings.pageLimit_of_noLimit (l := e.limits) (p := p) hlimit
  have hlen := length_listed_le e store p store.size
  unfold pageOf
  generalize st.pageLimit e.limits p = limit at hmost
  dsimp only
  have hlisted : e.listed store p (start + limit + 1) = e.listed store p store.size :=
    listed_of_size_le (by omega)
  constructor
  · rw [hlisted, List.take_of_length_le]
    rw [List.length_drop]
    omega
  · rw [hlisted, decide_eq_false_iff_not]
    omega

/-- A query without limits that succeeds from the first result on succeeds
from any. -/
theorem queryPredicate_of_noLimit (st : Settings) (hindex : e.index = store.toIndex)
    (hsize : store.size < Count.max) (hmax : 0 < e.limits.maxLimit)
    (hlimit : st.noLimit = true) (hplans : e.Plans p) (hpages : 0 < e.limits.maxPages)
    {k : Int} (hk : 0 ≤ k) (hword : inSignedRange k = true) (sess : Session) :
    (e.queryPredicate { st with start := k } p sess).1
      = .ok (e.pageOf store st p ⟨k.toNat, st.pageLimit e.limits p⟩) := by
  have hmost := Settings.pageLimit_of_noLimit (l := e.limits) (p := p) hlimit
  have hbelow := succ_toNat_lt_max hword
  have hpos : 0 < st.pageLimit e.limits p := by omega
  refine (queryPredicate_eq_ok_iff sess hindex (Nat.le_of_lt hsize) hmax).mpr
    ⟨_, ?_, .inr ⟨hpos, hplans, rfl⟩⟩
  refine Settings.extent_eq_ok_iff.mpr ⟨rfl, hk, fun _ => ?_⟩
  show k.toNat / st.pageLimit e.limits p + 1 ≤ e.limits.maxPages
  rw [Nat.div_eq_of_lt (by omega)]
  exact hpages

/-- A query without limits returns everything, once: the records of the
store that satisfy it, and all of these that are in the default scope. From
a later start on it returns the rest of them. -/
theorem noLimit_returns_all (e : Engine) (store : Store) (hindex : e.index = store.toIndex)
    (hsize : store.size < Count.max) (hmax : 0 < e.limits.maxLimit) (st : Settings)
    (hlimit : st.noLimit = true) (hstart : st.start = 0) (p : Predicate) (sess : Session)
    (page : Page) (h : (e.queryPredicate st p sess).1 = .ok page) :
    ∃ ds : List Document, page.documents = ds.map (fun d => d.project st.fields)
      ∧ (page.documents.map Document.id).Nodup
      ∧ (∀ d ∈ ds, d ∈ store ∧ p.satisfiedBy d = true)
      ∧ (∀ d ∈ store, p.satisfiedBy d = true →
        (∀ scope, e.scope? = some scope → scope.satisfiedBy d = true) → d ∈ ds)
      ∧ page.more = false
      ∧ ∀ k : Int, 0 ≤ k → inSignedRange k = true → ∀ sess' : Session, ∃ rest,
        (e.queryPredicate { st with start := k } p sess').1 = .ok rest
          ∧ rest.documents = page.documents.drop k.toNat ∧ rest.more = false := by
  obtain ⟨x, hx, hpage⟩ := (queryPredicate_eq_ok_iff sess hindex (Nat.le_of_lt hsize) hmax).mp h
  obtain ⟨rfl, _, hpages⟩ := Settings.extent_eq_ok_iff.mp hx
  have hmost := Settings.pageLimit_of_noLimit (l := e.limits) (p := p) hlimit
  have hword : 1 < Count.max := by decide
  have hpos : 0 < st.pageLimit e.limits p := by omega
  obtain ⟨hzero, _⟩ | ⟨_, hplans, rfl⟩ := hpage
  · exact absurd hzero (Nat.ne_of_gt hpos)
  have hmaxPages : 0 < e.limits.maxPages := Nat.lt_of_lt_of_le (Nat.succ_pos _) (hpages hpos)
  have hrest (start : Nat) := pageOf_of_noLimit st (e := e) (p := p) hsize hlimit start
  have hdocuments := (hrest 0).1
  rw [List.drop_zero] at hdocuments
  have hzero : st.start.toNat = 0 := by
    rw [hstart]
    rfl
  rw [hzero]
  refine ⟨e.listed store p store.size, hdocuments, ?nodup, ?sound, ?complete, (hrest 0).2, ?rest⟩
  case nodup =>
    have hids : Document.id ∘ (fun d : Document => d.project st.fields) = Document.id :=
      funext fun d => Document.project_id d st.fields
    rw [hdocuments, List.map_map, hids]
    exact nodup_ids_listed store.size
  case sound => exact fun d hd => ⟨of_mem_listed hd, satisfiedBy_of_mem_listed hd⟩
  case complete => exact fun d hd hp hscope => mem_listed hplans hd hp hscope
  case rest =>
    intro k hk hword sess'
    have hrun := queryPredicate_of_noLimit st hindex hsize hmax hlimit hplans hmaxPages hk hword
      sess'
    refine ⟨_, hrun, ?_, (hrest k.toNat).2⟩
    rw [hdocuments, ← List.map_drop]
    exact (hrest k.toNat).1

/-- An index that gives two results at once, asked for a topic or a file
that its schema does not have. -/
theorem noLimit_returns_all_sixChanges :
    let e : Engine := ⟨Store.sixChanges.toIndex, .empty, { maxLimit := 2, defaultLimit := 1 },
      some (.leaf .statusOpen)⟩
    let p : Predicate := .conj [.leaf (.exact "project" "core"),
      .disj [.leaf (.exact "topic" "x"), .leaf (.exact "file" "a")]]
    ∃ page, (e.queryPredicate { noLimit := true } p ⟨{}, ⟨⟨.fatal, []⟩, {}⟩⟩).1 = .ok page
      ∧ page.more = false
      ∧ ∃ ds : List Document, page.documents = ds.map (fun d => d.project [])
        ∧ ∀ d ∈ Store.sixChanges, p.satisfiedBy d = true →
          Leaf.statusOpen.satisfiedBy d = true → d ∈ ds := by
  intro e p
  have hsize : Store.sixChanges.size < Count.max := by decide
  have hplans : e.Plans p := ⟨⟨_, rfl⟩, by decide⟩
  have h := queryPredicate_of_noLimit { noLimit := true } (e := e) (p := p) rfl hsize
    (by decide) rfl hplans (by decide) (Int.le_refl 0) (by decide) ⟨{}, ⟨⟨.fatal, []⟩, {}⟩⟩
  obtain ⟨ds, hds, _, _, hall, hmore, _⟩ := noLimit_returns_all e Store.sixChanges rfl hsize
    (by decide) { noLimit := true } rfl rfl p _ _ h
  refine ⟨_, h, hmore, ds, hds, fun d hd hp hscope => hall d hd hp ?_⟩
  rintro scope ⟨⟩
  exact hscope

end ReviewSearch.Engine
