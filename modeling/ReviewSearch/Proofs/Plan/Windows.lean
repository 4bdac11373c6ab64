/-
ReviewSearch.Proofs.Plan.Windows — an index query read in windows.

`pass` is what comes of one window: the records that the filters accept,
up to the number that is still wanted, and every fault on the way. A
window either reaches that number, or comes back short, or hands on to
the next one (`course_windowFeed`, `course_windowsFrom_of_ok`); a search
that fails ends the reading (`course_windowsFrom_of_error`).

`answers_windows`: over an index that answers with slices of one list,
the windows of a query deliver the records of the list that the filters
accept, as many as the query wants, in the order of the list. Where one
window ends and the next begins does not show. The invariant of the loop
is `answers_windowsFrom`: before a search at `offset`, with `n` records
delivered, what is left to deliver are the first `wanted - n` accepted
records behind `offset`. A store that supports the predicate is such an
index (`delivered_windows`). Windows that are not made for an index, so
that they may begin or stop anywhere, still deliver accepted records of the
list in its order (`answers_windowsFrom_sublist`,
`exists_delivered_windows`).
-/
import Mathlib.Data.List.Basic
import ReviewSearch.Proofs.Index.Results
import ReviewSearch.Proofs.Plan.Judgement
import ReviewSearch.Proofs.Stream.Course

namespace ReviewSearch

/-! ## Queries of an index -/

/-- A query made for an index that gives one result at least at once. -/
def IndexQuery.Formed (q : IndexQuery) : Prop :=
  ∃ maxLimit, 0 < maxLimit ∧ q.backend = q.window.forBackend maxLimit

namespace IndexQuery.Formed

variable {q : IndexQuery}

theorem ofWindow (p : Predicate) (w : Window) {maxLimit : Nat} (h : 0 < maxLimit) :
    (IndexQuery.ofWindow p w maxLimit).Formed :=
  ⟨maxLimit, h, rfl⟩

theorem start_eq_zero (h : q.Formed) : q.backend.start = 0 := by
  obtain ⟨_, _, h⟩ := h
  rw [h]
  rfl

theorem limit_eq_zero_iff (h : q.Formed) : q.backend.limit = 0 ↔ q.wanted = 0 := by
  obtain ⟨m, hm, h⟩ := h
  rw [h]
  show min q.window.wanted m = 0 ↔ q.window.wanted = 0
  omega

end IndexQuery.Formed

/-- Every search for a predicate is answered by a slice of one list. -/
def Index.Serves (ix : Index) (p : Predicate) (ds : List Document) : Prop :=
  ∀ n w, ix.search n p w = .ok (((ds.drop w.start).take w.limit).map .ok)

namespace Store

variable {store : Store} {p : Predicate}

theorem serves_estimatedBy (size : Predicate → Nat) (h : store.Supports p) :
    (store.estimatedBy size).Serves p (store.results p) :=
  search_estimatedBy size h

theorem serves_toIndex (h : store.Supports p) : store.toIndex.Serves p (store.results p) :=
  serves_estimatedBy store.cardinality h

theorem steady_toIndex (store : Store) : store.toIndex.Steady :=
  fun _ _ _ _ => rfl

end Store

namespace Source

variable {q : IndexQuery} {filters : List Source} {fields : List String}

/-- The records of a list that all filters accept. -/
def accepted (filters : List Source) (ds : List Document) : List Document :=
  ds.filter fun d => filters.all (satisfiedBy d)

@[simp] theorem accepted_nil_filters (ds : List Document) : accepted [] ds = ds := by
  simp [accepted]

theorem accepted_append (filters : List Source) (ds ds' : List Document) :
    accepted filters (ds ++ ds') = accepted filters ds ++ accepted filters ds' :=
  List.filter_append ..

/-- Records on their way out, cut down to the fields asked for. -/
def handed (fields : List String) (ds : List Document) : List (Except Fault Document) :=
  ds.map fun d => .ok (d.project fields)

/-! ## One window -/

/-- What comes of the items of a window while `want` records are wanted
of it: the filters are asked about each record, records that all of them
accept go out, cut down, and faults as they are. Nothing comes behind the
last record wanted. -/
def pass (filters : List Source) (fields : List String) :
    List (Except Fault Document) → Nat → Course Consult Document
  | _, 0 => []
  | [], _ + 1 => []
  | .error e :: items, want + 1 => .answer (.error e) :: pass filters fields items (want + 1)
  | .ok d :: items, want + 1 =>
    let verdict := Verdict.every (filters.map (judge d))
    Course.ofCalls (verdict.consults.map .note) ++
      if verdict.answer then .answer (.ok (d.project fields)) :: pass filters fields items want
      else pass filters fields items (want + 1)

@[simp] theorem pass_zero (items : List (Except Fault Document)) :
    pass filters fields items 0 = [] := by
  cases items <;> rfl

theorem pass_ok_of_accepted {d : Document} (h : filters.all (satisfiedBy d) = true)
    (items : List (Except Fault Document)) (want : Nat) :
    pass filters fields (.ok d :: items) (want + 1)
      = Course.ofCalls ((Verdict.every (filters.map (judge d))).consults.map .note)
        ++ .answer (.ok (d.project fields)) :: pass filters fields items want := by
  simp only [pass, answer_every_judge, h, if_true]

theorem pass_ok_of_not_accepted {d : Document} (h : filters.all (satisfiedBy d) = false)
    (items : List (Except Fault Document)) (want : Nat) :
    pass filters fields (.ok d :: items) (want + 1)
      = Course.ofCalls ((Verdict.every (filters.map (judge d))).consults.map .note)
        ++ pass filters fields items (want + 1) := by
  simp only [pass, answer_every_judge, h, if_false, Bool.false_eq_true]

theorem accepted_cons_of_accepted {d : Document} (h : filters.all (satisfiedBy d) = true)
    (ds : List Document) : accepted filters (d :: ds) = d :: accepted filters ds := by
  simp only [accepted, List.filter_cons, h, if_true]

theorem accepted_cons_of_not_accepted {d : Document} (h : filters.all (satisfiedBy d) = false)
    (ds : List Document) : accepted filters (d :: ds) = accepted filters ds := by
  simp only [accepted, List.filter_cons, h, if_false, Bool.false_eq_true]

/-- No window is searched on the way through another. -/
@[simp] theorem searches_pass (items : List (Except Fault Document)) (want : Nat) :
    (pass filters fields items want).searches = 0 := by
  induction items generalizing want with
  | nil => cases want <;> rfl
  | cons item items ih =>
    cases want with
    | zero => rfl
    | succ want =>
      cases item with
      | error e => simp [pass, ih]
      | ok d =>
        cases h : filters.all (satisfiedBy d) with
        | true => simp [pass_ok_of_accepted h, ih]
        | false => simp [pass_ok_of_not_accepted h, ih]

/-- Of a window without faults, the accepted records go out, up to the
number wanted. -/
theorem answers_pass (ds : List Document) (want : Nat) :
    (pass filters fields (ds.map .ok) want).answers
      = handed fields ((accepted filters ds).take want) := by
  induction ds generalizing want with
  | nil => cases want <;> rfl
  | cons d ds ih =>
    cases want with
    | zero => rfl
    | succ want =>
      cases h : filters.all (satisfiedBy d) with
      | true =>
        rw [List.map_cons, pass_ok_of_accepted h, accepted_cons_of_accepted h,
          Course.answers_append, Course.answers_ofCalls, Course.answers_answer, ih]
        rfl
      | false =>
        rw [List.map_cons, pass_ok_of_not_accepted h, accepted_cons_of_not_accepted h,
          Course.answers_append, Course.answers_ofCalls, ih]
        rfl

/-- A window passes its items on and is released. If the records wanted
are not reached by then, a short window ends the reading, and a full one
hands on. Faults are no records: they do not count. -/
theorem course_windowFeed (q : IndexQuery) (filters : List Source) (fields : List String)
    (ix : Index) (further : Nat → Nat → Records) (items : List (Except Fault Document))
    (i n m : Nat) (hn : n < q.wanted) :
    (windowFeed q filters fields further items i n).course ix m
      = pass filters fields items (q.wanted - n) ++ .call .release ::
        (if q.wanted ≤ n + (accepted filters (itemsOf items)).length then []
          else if i + (itemsOf items).length < q.backend.limit then []
          else (further (i + (itemsOf items).length)
            (n + (accepted filters (itemsOf items)).length)).course ix m) := by
  obtain ⟨want, hwant⟩ : ∃ want, q.wanted - n = want + 1 := ⟨q.wanted - n - 1, by omega⟩
  induction items generalizing i n want with
  | nil =>
    have hnot : ¬q.wanted ≤ n := by omega
    simp only [windowFeed, Feed.course, hwant, pass, itemsOf_nil, accepted, List.filter_nil,
      List.length_nil, Nat.add_zero, hnot, if_false, List.nil_append]
    by_cases hshort : i < q.backend.limit <;> simp [hshort, Feed.course]
  | cons item items ih =>
    cases item with
    | error e =>
      rw [windowFeed, Feed.course, ih i n hn want hwant, hwant]
      rfl
    | ok d =>
      simp only [windowFeed, Feed.course_notes, answer_every_judge]
      cases h : filters.all (satisfiedBy d) with
      | false =>
        have hcount : i + 1 + (itemsOf items).length = i + (itemsOf (.ok d :: items)).length := by
          rw [itemsOf_ok, List.length_cons]
          omega
        rw [if_neg (by simp), ih (i + 1) n hn want hwant, hwant, pass_ok_of_not_accepted h,
          List.append_assoc, hcount, itemsOf_ok, accepted_cons_of_not_accepted h]
      | true =>
        rw [if_pos rfl, hwant, pass_ok_of_accepted h, List.append_assoc, itemsOf_ok,
          accepted_cons_of_accepted h, List.length_cons, List.length_cons, Feed.course,
          List.cons_append]
        refine congrArg _ (congrArg _ ?_)
        by_cases hlast : q.wanted ≤ n + 1
        · obtain rfl : want = 0 := by omega
          rw [if_pos hlast, if_pos (by omega), pass_zero]
          rfl
        · obtain ⟨want', rfl⟩ : ∃ want', want = want' + 1 := ⟨want - 1, by omega⟩
          rw [if_neg hlast, ih (i + 1) (n + 1) (by omega) want' (by omega),
            show q.wanted - (n + 1) = want' + 1 by omega,
            show n + 1 + (accepted filters (itemsOf items)).length
              = n + ((accepted filters (itemsOf items)).length + 1) by omega,
            show i + 1 + (itemsOf items).length = i + ((itemsOf items).length + 1) by omega]

/-! ## All windows -/

variable {ix : Index} {turns offset n m : Nat}

theorem course_windowsFrom_of_reached (h : q.backend.limit = 0 ∨ q.wanted ≤ n) :
    (windowsFrom q filters fields turns offset n).course ix m = [] := by
  cases turns with
  | zero => rfl
  | succ turns =>
    rw [windowsFrom, if_pos h]
    rfl

/-- A search that fails ends the reading with its fault. -/
theorem course_windowsFrom_of_error (hlimit : 0 < q.backend.limit) (hn : n < q.wanted) {e : Fault}
    (h : ix.search (m + 1) q.predicate { q.backend with start := offset } = .error e) :
    (windowsFrom q filters fields (turns + 1) offset n).course ix m
      = [.call (.search q.predicate { q.backend with start := offset }), .answer (.error e)] := by
  rw [windowsFrom, if_neg (by omega), Feed.course, h]
  rfl

/-- A window passes its items on. The next one begins behind its records,
unless enough has been delivered or the window is short. -/
theorem course_windowsFrom_of_ok (hlimit : 0 < q.backend.limit) (hn : n < q.wanted)
    {items : List (Except Fault Document)}
    (h : ix.search (m + 1) q.predicate { q.backend with start := offset } = .ok items) :
    (windowsFrom q filters fields (turns + 1) offset n).course ix m
      = .call (.search q.predicate { q.backend with start := offset }) ::
        (pass filters fields items (q.wanted - n) ++ .call .release ::
          (if q.wanted ≤ n + (accepted filters (itemsOf items)).length then []
            else if (itemsOf items).length < q.backend.limit then []
            else (windowsFrom q filters fields turns (offset + (itemsOf items).length)
              (n + (accepted filters (itemsOf items)).length)).course ix (m + 1))) := by
  have hgo : ¬(q.backend.limit = 0 ∨ q.wanted ≤ n) := by omega
  have hwindow := course_windowFeed q filters fields ix
    (fun i n => windowsFrom q filters fields turns (offset + i) n) items 0 n (m + 1) hn
  simp only [Nat.zero_add] at hwindow
  rw [windowsFrom, if_neg hgo, Feed.course, h, ← hwindow]

/-- What holds of a reading that stops, of one whose next search is
refused, and of a window in front of a reading of which it holds, holds of
all windows. -/
theorem course_windowsFrom_induction {motive : Nat → Course Consult Document → Prop}
    (stopped : ∀ m, motive m [])
    (refused : ∀ m w e, ix.search (m + 1) q.predicate w = .error e →
      motive m [.call (.search q.predicate w), .answer (.error e)])
    (window : ∀ m w items want c, ix.search (m + 1) q.predicate w = .ok items →
      motive (m + 1) c → motive m (.call (.search q.predicate w) ::
        (pass filters fields items (want + 1) ++ .call .release :: c)))
    (turns offset n m : Nat) :
    motive m ((windowsFrom q filters fields turns offset n).course ix m) := by
  induction turns generalizing offset n m with
  | zero => exact stopped m
  | succ turns ih =>
    by_cases hstop : q.backend.limit = 0 ∨ q.wanted ≤ n
    · rw [course_windowsFrom_of_reached hstop]
      exact stopped m
    cases hsearch : ix.search (m + 1) q.predicate { q.backend with start := offset } with
    | error e =>
      rw [course_windowsFrom_of_error (by omega) (by omega) hsearch]
      exact refused m _ e hsearch
    | ok items =>
      obtain ⟨want, hwant⟩ : ∃ want, q.wanted - n = want + 1 := ⟨q.wanted - n - 1, by omega⟩
      rw [course_windowsFrom_of_ok (by omega) (by omega) hsearch, hwant]
      refine window m _ items want _ hsearch ?_
      split
      · exact stopped (m + 1)
      · split
        · exact stopped (m + 1)
        · exact ih _ _ _

/-! ## Windows on one list -/

variable {ds : List Document}

/-- Windows on one list deliver accepted records of it in their order,
wherever they begin and however many they are. -/
theorem answers_windowsFrom_sublist (filters : List Source) (fields : List String)
    (hds : ix.Serves q.predicate ds) (turns offset n m : Nat) :
    ∃ xs : List Document, xs.Sublist (accepted filters (ds.drop offset))
      ∧ ((windowsFrom q filters fields turns offset n).course ix m).answers
        = handed fields xs := by
  induction turns generalizing offset n m with
  | zero => exact ⟨[], List.nil_sublist _, rfl⟩
  | succ turns ih =>
    by_cases hstop : q.backend.limit = 0 ∨ q.wanted ≤ n
    · rw [course_windowsFrom_of_reached hstop]
      exact ⟨[], List.nil_sublist _, rfl⟩
    obtain ⟨hlimit, hn⟩ := not_or.mp hstop
    rw [course_windowsFrom_of_ok (by omega) (by omega) (hds _ _), itemsOf_map_ok,
      Course.answers_call, Course.answers_append, answers_pass, Course.answers_call]
    dsimp only
    let window := (ds.drop offset).take q.backend.limit
    have hsplit : accepted filters (ds.drop offset)
        = accepted filters window ++ accepted filters (ds.drop (offset + q.backend.limit)) := by
      rw [← accepted_append, ← List.drop_drop, List.take_append_drop]
    have hfront (want : Nat) : ((accepted filters window).take want).Sublist
        (accepted filters window) := List.take_sublist _ _
    rw [hsplit]
    split
    · exact ⟨_, (hfront _).trans (List.sublist_append_left _ _), List.append_nil _⟩
    split
    · exact ⟨_, (hfront _).trans (List.sublist_append_left _ _), List.append_nil _⟩
    · next hfull =>
      have hlen : window.length = q.backend.limit :=
        Nat.le_antisymm (List.length_take_le _ _) (Nat.le_of_not_lt hfull)
      obtain ⟨xs, hxs, hanswers⟩ := ih (offset + window.length)
        (n + (accepted filters window).length) (m + 1)
      rw [hlen] at hxs
      refine ⟨(accepted filters window).take (q.wanted - n) ++ xs, (hfront _).append hxs, ?_⟩
      rw [hanswers, handed, handed, handed, List.map_append]

/-- The invariant of the loop: behind `offset`, with `n` records
delivered, the accepted records that are still wanted come next. Every
full window moves on by one record at least, so the turns that are left
last for the records that are left. -/
theorem answers_windowsFrom (hq : q.Formed) (hds : ix.Serves q.predicate ds)
    (turns offset n m : Nat) (hturns : ds.length ≤ offset + turns) :
    ((windowsFrom q filters fields turns offset n).course ix m).answers
      = handed fields ((accepted filters (ds.drop offset)).take (q.wanted - n)) := by
  induction turns generalizing offset n m with
  | zero =>
    rw [List.drop_eq_nil_of_le (by omega)]
    simp [windowsFrom, Feed.course, accepted, handed]
  | succ turns ih =>
    by_cases hstop : q.backend.limit = 0 ∨ q.wanted ≤ n
    · have hnone : q.wanted - n = 0 := by
        rcases hstop with h | h
        · rw [hq.limit_eq_zero_iff.mp h]
          omega
        · omega
      rw [course_windowsFrom_of_reached hstop, hnone]
      rfl
    · obtain ⟨hlimit, hn⟩ := not_or.mp hstop
      rw [course_windowsFrom_of_ok (by omega) (by omega) (hds _ _), itemsOf_map_ok,
        Course.answers_call, Course.answers_append, answers_pass, Course.answers_call]
      dsimp only
      generalize hrest : ds.drop offset = rest
      generalize hfound : accepted filters (rest.take q.backend.limit) = found
      have hsplit : accepted filters rest
          = found ++ accepted filters (rest.drop q.backend.limit) := by
        rw [← hfound, ← accepted_append, List.take_append_drop]
      by_cases hreach : q.wanted ≤ n + found.length
      · have henough : q.wanted - n ≤ found.length := by omega
        rw [if_pos hreach, hsplit, List.take_append_of_le_length henough]
        exact List.append_nil _
      · have hall : found.length ≤ q.wanted - n := by omega
        rw [if_neg hreach, hsplit, List.take_append, List.take_of_length_le hall, handed, handed,
          List.map_append]
        refine congrArg _ ?_
        by_cases hshort : (rest.take q.backend.limit).length < q.backend.limit
        · -- the list ends inside a short window
          rw [if_pos hshort]
          rw [List.length_take] at hshort
          rw [List.drop_eq_nil_of_le (show rest.length ≤ q.backend.limit by omega)]
          simp [accepted]
        · rw [if_neg hshort]
          rw [List.length_take] at hshort
          have hfull : (rest.take q.backend.limit).length = q.backend.limit := by
            rw [List.length_take]
            omega
          rw [hfull, ih (offset + q.backend.limit) (n + found.length) _ (by omega), ← hrest,
            List.drop_drop,
            show q.wanted - (n + found.length) = q.wanted - n - found.length by omega]
          rfl

/-- The windows of a query deliver the accepted records of its list, as
many as are wanted. -/
theorem answers_windows (hq : q.Formed) (hds : ix.Serves q.predicate ds)
    (hlen : ds.length ≤ Count.max) (m : Nat) :
    ((windows q filters fields).course ix m).answers
      = handed fields ((accepted filters ds).take q.wanted) := by
  unfold windows
  rw [hq.start_eq_zero, answers_windowsFrom hq hds _ 0 0 m (by omega)]
  rfl

/-! ## Windows on a store -/

variable {store : Store} {size : Predicate → Nat}

theorem steady_estimatedBy (store : Store) (size : Predicate → Nat) :
    (store.estimatedBy size).Steady :=
  fun _ _ _ _ => rfl

theorem delivered_windows (hq : q.Formed) (hp : store.Supports q.predicate)
    (hsize : store.size ≤ Count.max) :
    (windows q filters fields).delivered (store.estimatedBy size) =
      handed fields ((accepted filters (store.results q.predicate)).take q.wanted) := by
  have hlen := store.length_results_le q.predicate
  rw [Feed.delivered_eq_answers (steady_estimatedBy store size) _ 0]
  exact answers_windows hq (Store.serves_estimatedBy size hp) (by omega) 0

/-- The windows of a query deliver records that it finds and the filters
accept, whatever they are. -/
theorem exists_delivered_windows (size : Predicate → Nat) (hp : store.Supports q.predicate)
    (filters : List Source) :
    ∃ ds : List Document, (windows q filters []).delivered (store.estimatedBy size) = ds.map .ok
      ∧ ds.Sublist (accepted filters (store.results q.predicate)) := by
  obtain ⟨ds, hds, hanswers⟩ := answers_windowsFrom_sublist filters []
    (Store.serves_estimatedBy size hp) (Count.max + 1) q.backend.start 0 0
  refine ⟨ds, ?_, hds.trans ((List.drop_sublist _ _).filter _)⟩
  rw [Feed.delivered_eq_answers (steady_estimatedBy store size) _ 0]
  exact hanswers

end Source

end ReviewSearch
