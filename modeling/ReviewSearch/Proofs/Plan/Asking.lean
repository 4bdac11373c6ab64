/-
ReviewSearch.Proofs.Plan.Asking — what an index query asks of its index.

An index query is read in windows of one size, each a search of its own.
`Source.LedBy` names the sources that are read that way and the filters
that stand in front of their readers: the query alone, without filters,
and an AND that is driven by it, behind its other children.

* `asked_windowsFrom` — searches follow one another a window apart, up
  to the first window that settles the reading (`Settles`): the records
  wanted are reached in it, or it is short;
* `windows_are_invisible` — what is read are the first records wanted of
  those that the filters accept, as if there were no windows, and no
  search is made beyond the one that settles it.
-/
import ReviewSearch.Proofs.Plan.Laziness

namespace ReviewSearch.Source

variable {ix : Index} {q : IndexQuery} {filters : List Source} {fields : List String}
variable {ds : List Document} {s : Source}

/-! ## Sources that an index query leads -/

/-- Sources that are read from one index query, and the filters in front
of it. -/
inductive LedBy (ix : Index) (q : IndexQuery) : Source → List Source → Prop
  | alone : LedBy ix q (.indexed q) []
  | driver {ss : List Source} {i : Nat} (hi : driver? ix.cardinality ss = some i)
      (hs : ss[i]? = some (.indexed q)) : LedBy ix q (.conj ss) (ss.eraseIdx i)

/-- The other children of an AND are asked in another order than they
stand in. -/
theorem accepted_others (ss : List Source) (i : Nat) (ds : List Document) :
    accepted (others ss i) ds = accepted (ss.eraseIdx i) ds := by
  refine congrArg (List.filter · ds) (funext fun d => ?_)
  rw [Bool.eq_iff_iff, List.all_eq_true, List.all_eq_true]
  simp only [mem_others, List.mem_eraseIdx_iff_getElem?]

theorem LedBy.readable (h : s.LedBy ix q filters) : s.readable = true := by
  cases h with
  | alone => rfl
  | driver hi hs =>
    rw [readable_conj, List.any_eq_true]
    exact ⟨_, List.mem_of_getElem? hs, rfl⟩

/-- A source that an index query leads asks for cardinalities, if at all,
and reads the windows of the query. -/
theorem LedBy.exists_course_feed (h : s.LedBy ix q filters) (raw : Bool) (n : Nat) :
    ∃ (asked : List Predicate) (filters' : List Source),
      (∀ ds, accepted filters' ds = accepted filters ds)
        ∧ (s.feed raw).course ix n = Course.ofCalls (asked.map .cardinality)
          ++ (windows q filters' (if raw then q.window.fields else [])).course ix n := by
  cases h with
  | alone => exact ⟨[], [], fun _ => rfl, rfl⟩
  | @driver ss i hi hs =>
    refine ⟨asksOf ss, others ss i, accepted_others ss i, ?_⟩
    rw [course_conj_of_indexed hi hs]

/-! ## Searches -/

/-- The `j`-th window of `size` records settles a reading: the accepted
records that are wanted are reached in it, or it is short. -/
def Settles (ds : List Document) (filters : List Source) (want size j : Nat) : Prop :=
  want ≤ (accepted filters (ds.take ((j + 1) * size))).length
    ∨ ((ds.drop (j * size)).take size).length < size

instance (ds : List Document) (filters : List Source) (want size j : Nat) :
    Decidable (Settles ds filters want size j) :=
  inferInstanceAs (Decidable (_ ∨ _))

theorem settles_zero_iff {want size : Nat} :
    Settles ds filters want size 0 ↔
      want ≤ (accepted filters (ds.take size)).length ∨ (ds.take size).length < size := by
  simp [Settles]

/-- Behind the first window, what is accepted in it is no longer wanted. -/
theorem settles_succ_iff {want size j : Nat} :
    Settles ds filters want size (j + 1) ↔
      Settles (ds.drop size) filters (want - (accepted filters (ds.take size)).length) size j := by
  have hdrop : ds.drop ((j + 1) * size) = (ds.drop size).drop (j * size) := by
    rw [List.drop_drop, Nat.add_comm size, Nat.succ_mul]
  have htake : ds.take ((j + 1 + 1) * size)
      = ds.take size ++ (ds.drop size).take ((j + 1) * size) := by
    rw [← List.take_add, Nat.add_comm size, Nat.succ_mul (j + 1)]
  unfold Settles
  rw [hdrop, htake, accepted_append, List.length_append]
  refine or_congr_left ?_
  omega

/-- The searches from `offset` on, with `n` records delivered: one a
window behind the other, up to the first that settles what is left. -/
theorem asked_windowsFrom (hds : ix.Serves q.predicate ds) (hlimit : 0 < q.backend.limit)
    (turns offset n m : Nat) (hn : n < q.wanted) (hoffset : offset ≤ ds.length)
    (hturns : ds.length < offset + turns) :
    ∃ j, ((windowsFrom q filters fields turns offset n).course ix m).asked
        = (List.range (j + 1)).map (fun i =>
          .search q.predicate { q.backend with start := offset + i * q.backend.limit })
      ∧ Settles (ds.drop offset) filters (q.wanted - n) q.backend.limit j
      ∧ ∀ i < j, ¬Settles (ds.drop offset) filters (q.wanted - n) q.backend.limit i := by
  induction turns generalizing offset n m with
  | zero => omega
  | succ turns ih =>
    rw [course_windowsFrom_of_ok hlimit hn (hds (m + 1) { q.backend with start := offset })]
    dsimp only
    rw [itemsOf_map_ok]
    generalize hrest : ds.drop offset = rest
    generalize hfound : (accepted filters (rest.take q.backend.limit)).length = found
    have hfirst (c : Course Consult Document) :
        Course.asked (.call (.search q.predicate { q.backend with start := offset }) ::
          (pass filters fields ((rest.take q.backend.limit).map .ok) (q.wanted - n)
            ++ .call .release :: c))
          = .search q.predicate { q.backend with start := offset } :: c.asked := by
      show _ :: Course.asked (_ ++ _) = _
      rw [Course.asked_append, Course.asked_of_searches_eq_zero (searches_pass _ _)]
      rfl
    have hone : [.search q.predicate { q.backend with start := offset }]
        = (List.range 1).map fun i => (.search q.predicate
          { q.backend with start := offset + i * q.backend.limit } : Call Consult) := by
      simp
    rw [hfirst]
    by_cases hreached : q.wanted ≤ n + found
    · rw [if_pos hreached]
      exact ⟨0, hone, settles_zero_iff.mpr (.inl (by omega)), nofun⟩
    by_cases hshort : (rest.take q.backend.limit).length < q.backend.limit
    · rw [if_neg hreached, if_pos hshort]
      exact ⟨0, hone, settles_zero_iff.mpr (.inr hshort), nofun⟩
    rw [if_neg hreached, if_neg hshort]
    have hfull : (rest.take q.backend.limit).length = q.backend.limit :=
      Nat.le_antisymm (List.length_take_le ..) (Nat.not_lt.mp hshort)
    have hleft : q.backend.limit ≤ ds.length - offset := by
      rw [← List.length_drop, hrest, ← hfull]
      exact List.length_take_le' ..
    obtain ⟨j, hasked, hsettles, hbefore⟩ := ih (offset + q.backend.limit) (n + found) (m + 1)
      (by omega) (by omega) (by omega)
    have hwant : q.wanted - (n + found) = q.wanted - n - found := by omega
    rw [← List.drop_drop, hrest, hwant, ← hfound] at hsettles hbefore
    refine ⟨j + 1, ?_, settles_succ_iff.mpr hsettles, fun i hi => ?_⟩
    · rw [hfull, hasked, List.range_succ_eq_map (n := j + 1), List.map_cons, List.map_map,
        Nat.zero_mul, Nat.add_zero]
      refine congrArg _ (List.map_congr_left fun i _ => ?_)
      rw [Function.comp_apply, Nat.succ_mul, Nat.add_assoc, Nat.add_comm q.backend.limit]
    · cases i with
      | zero =>
        rw [settles_zero_iff]
        omega
      | succ i => exact fun h => hbefore i (Nat.lt_of_succ_lt_succ hi) (settles_succ_iff.mp h)

/-! ## Reading -/

/-- Windows do not show, and no search is made that is not needed. Let an
index answer the searches for a predicate with slices of one list, which
is no longer than a word counts, and let a query for that predicate want
`want` records, in windows of `size`. Whoever drains it, alone or as the
driver of an AND, comes to an end and gets the first `want` of the records
that the filters accept, in the order of the list. The searches are one
window behind the other from the front of the list on; the last is the
first that settles the reading, and there is none if nothing is wanted. -/
theorem windows_are_invisible (ix : Index) (p : Predicate) (ds : List Document)
    (hds : ix.Serves p ds) (hlen : ds.length ≤ Count.max) (w : Window) (maxLimit : Nat)
    (hmax : 0 < maxLimit) (s : Source) (filters : List Source)
    (hs : s.LedBy ix (.ofWindow p w maxLimit) filters) (raw : Bool) (t : Trace Consult) :
    let want := min (w.start + w.limit) Count.max
    let size := min want maxLimit
    ∃ stream course, s.read raw = .ok stream
      ∧ stream.Drains ix t course
      ∧ course.answers = ((ds.filter fun d => filters.all (satisfiedBy d)).take want).map
          (fun d => .ok (d.project (if raw then w.fields else [])))
      ∧ ∃ k, course.asked = (List.range k).map (fun j => .search p ⟨j * size, size, w.fields⟩)
        ∧ (k = 0 ↔ want = 0)
        ∧ ∀ j, k = j + 1 →
          Settles ds filters want size j ∧ ∀ i < j, ¬Settles ds filters want size i := by
  intro want size
  have hformed := IndexQuery.Formed.ofWindow p w hmax
  obtain ⟨asked, filters', hfilters, hcourse⟩ := hs.exists_course_feed raw t.searches
  refine ⟨_, _, if_pos hs.readable, drains_feed s raw ix rfl, ?_, ?_⟩
  · rw [hcourse, Course.answers_append, Course.answers_ofCalls, List.nil_append,
      answers_windows hformed hds hlen, hfilters]
    rfl
  · rw [hcourse, Course.asked_append,
      Course.asked_of_searches_eq_zero (Course.searches_cardinalities asked), List.nil_append]
    have hsettles (size j : Nat) :
        Settles ds filters' want size j ↔ Settles ds filters want size j := by
      unfold Settles
      rw [hfilters]
    by_cases hwant : want = 0
    · have hnone : (IndexQuery.ofWindow p w maxLimit).wanted ≤ 0 := Nat.le_of_eq hwant
      refine ⟨0, ?_, by simp [hwant], nofun⟩
      rw [windows, course_windowsFrom_of_reached (.inr hnone)]
      rfl
    · have hlimit : 0 < size := Nat.lt_min.mpr ⟨Nat.pos_of_ne_zero hwant, hmax⟩
      have hpositive : 0 < (IndexQuery.ofWindow p w maxLimit).wanted := Nat.pos_of_ne_zero hwant
      have hds' : ix.Serves (IndexQuery.ofWindow p w maxLimit).predicate ds := hds
      obtain ⟨j, hj, hlast, hbefore⟩ := asked_windowsFrom hds' hlimit (Count.max + 1) 0 0
        t.searches hpositive (Nat.zero_le _) (by omega)
      refine ⟨j + 1, ?_, by simp [hwant], ?_⟩
      · rw [windows, hformed.start_eq_zero]
        simp only [Nat.zero_add] at hj
        exact hj
      · intro j' hj'
        obtain rfl := Nat.succ.inj hj'
        exact ⟨(hsettles _ _).mp hlast, fun i hi h => hbefore i hi ((hsettles _ _).mpr h)⟩

/-- An AND of a topic and a project over an index that gives two results
at once, asked for three changes. Only one has both: it is the last of the
second window, so an empty one is asked for behind it. -/
theorem windows_are_invisible_sixChanges :
    let core : Predicate := .leaf (.exact "project" "core")
    let topic : Source := .filter (.leaf (.exact "topic" "x"))
    let s : Source := .conj [topic, .indexed (.ofWindow core ⟨0, 3, []⟩ 2)]
    ∃ stream course, s.read false = .ok stream
      ∧ stream.Drains Store.sixChanges.toIndex {} course
      ∧ course.items.map Document.id = [1]
      ∧ course.asked = [.search core ⟨0, 2, []⟩, .search core ⟨2, 2, []⟩,
        .search core ⟨4, 2, []⟩] := by
  intro core topic s
  have hserves : Store.sixChanges.toIndex.Serves core (Store.sixChanges.results core) :=
    Store.serves_toIndex (by decide)
  have hdriver : driver? Store.sixChanges.cardinality
      [topic, .indexed (.ofWindow core ⟨0, 3, []⟩ 2)] = some 1 := by decide
  have hled : s.LedBy Store.sixChanges.toIndex (.ofWindow core ⟨0, 3, []⟩ 2) [topic] :=
    @LedBy.driver Store.sixChanges.toIndex _ _ 1 hdriver rfl
  obtain ⟨stream, course, hread, hdrains, hanswers, k, hasked, hk, hlast⟩ :=
    windows_are_invisible _ core _ hserves (by decide) ⟨0, 3, []⟩ 2 (by decide) s _ hled false {}
  refine ⟨stream, course, hread, hdrains, ?_, ?_⟩
  · rw [Course.items, hanswers]
    decide
  · obtain ⟨j, rfl⟩ : ∃ j, k = j + 1 := Nat.exists_eq_succ_of_ne_zero (by simp [hk]; decide)
    obtain ⟨hsettles, hbefore⟩ := hlast j rfl
    -- the third window settles the reading and the two in front of it do not
    obtain rfl | rfl | rfl | hj : j = 0 ∨ j = 1 ∨ j = 2 ∨ 2 < j := by omega
    · exact absurd hsettles (by decide)
    · exact absurd hsettles (by decide)
    · exact hasked
    · exact absurd (by decide) (hbefore 2 hj)

end ReviewSearch.Source
