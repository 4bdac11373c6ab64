/-
ReviewSearch.Proofs.Plan.Overflow — no count of the window loop overflows.

Counts are words of 64 bits. `Count.add?`, `Count.sub?` and `Count.div?` are
the operations on words: they give the exact result, and nothing where that
is no word.

`checkedWindows` are the windows of an index query with every count checked.
Where a count would overflow, and where the turns run out, it goes on with
a feed `spill`, which may be any. Over an index that has no more records than
a word counts (`Index.Counted`) it is never reached: `course_checkedWindows`.
-/
import ReviewSearch.Proofs.Plan.Windows

namespace ReviewSearch

/-! ## Words -/

namespace Count

/-- The sum, if it is a word. -/
def add? (a b : Nat) : Option Nat :=
  if a + b ≤ max then some (a + b) else none

/-- The difference, if it is not negative. -/
def sub? (a b : Nat) : Option Nat :=
  if b ≤ a then some (a - b) else none

/-- The quotient, if there is one. -/
def div? (a b : Nat) : Option Nat :=
  if b = 0 then none else some (a / b)

theorem add?_of_le {a b : Nat} (h : a + b ≤ max) : add? a b = some (a + b) :=
  if_pos h

theorem sub?_of_le {a b : Nat} (h : b ≤ a) : sub? a b = some (a - b) :=
  if_pos h

theorem div?_of_pos {a b : Nat} (h : 0 < b) : div? a b = some (a / b) :=
  if_neg (Nat.ne_of_gt h)

end Count

/-- What an index gives for a window ends at a place that a word counts. -/
def Index.Counted (ix : Index) : Prop :=
  ∀ n p w items, w.start ≤ Count.max → ix.search n p w = .ok items →
    w.start + (itemsOf items).length ≤ Count.max

/-- A store that a word counts gives nothing behind its records. -/
theorem Store.counted_toIndex {store : Store} (hsize : store.size ≤ Count.max) :
    store.toIndex.Counted := by
  intro n p w items hstart h
  obtain ⟨ds, hds, h⟩ := bind_eq_ok_iff.mp h
  obtain rfl := Except.ok.inj h
  have hlen := store.length_results_le p
  unfold Store.search at hds
  split at hds
  · cases hds
  · obtain rfl := Except.ok.inj hds
    rw [itemsOf_map_ok, List.length_take, List.length_drop]
    omega

/-! ## The window loop -/

namespace Source

/-- One window, with every count checked. -/
def checkedWindowFeed (spill : Records) (q : IndexQuery) (filters : List Source)
    (fields : List String) (further : Nat → Nat → Records) :
    List (Except Fault Document) → Nat → Nat → Records
  | [], inWindow, delivered =>
    .release (if inWindow < q.backend.limit then .done else further inWindow delivered)
  | .error e :: items, inWindow, delivered =>
    .reply (some (.error e))
      (checkedWindowFeed spill q filters fields further items inWindow delivered)
  | .ok d :: items, inWindow, delivered =>
    match Count.add? inWindow 1 with
    | none => spill
    | some inWindow =>
      let verdict := Verdict.every (filters.map (judge d))
      .notes verdict.consults
        (if verdict.answer then
          match Count.add? delivered 1 with
          | none => spill
          | some delivered =>
            .reply (some (.ok (d.project fields)))
              (if q.wanted ≤ delivered then .release .done
              else checkedWindowFeed spill q filters fields further items inWindow delivered)
        else checkedWindowFeed spill q filters fields further items inWindow delivered)

/-- Windows from `offset` on, with every count checked. -/
def checkedWindowsFrom (spill : Records) (q : IndexQuery) (filters : List Source)
    (fields : List String) : Nat → Nat → Nat → Records
  | 0, _, _ => spill
  | turns + 1, offset, delivered =>
    if q.backend.limit = 0 ∨ q.wanted ≤ delivered then .done
    else
      .search q.predicate { q.backend with start := offset } fun answer =>
        match answer with
        | .error e => .failed e
        | .ok items =>
          checkedWindowFeed spill q filters fields
            (fun inWindow delivered =>
              match Count.add? offset inWindow with
              | none => spill
              | some offset => checkedWindowsFrom spill q filters fields turns offset delivered)
            items 0 delivered

/-- All windows of an index query, with every count checked. -/
def checkedWindows (spill : Records) (q : IndexQuery) (filters : List Source)
    (fields : List String) : Records :=
  checkedWindowsFrom spill q filters fields (Count.max + 1) q.backend.start 0

variable {q : IndexQuery} {filters : List Source} {fields : List String} {spill : Records}
  {ix : Index}

/-- In a window whose records a word counts, with as many delivered, no
count overflows. -/
theorem course_checkedWindowFeed {further further' : Nat → Nat → Records}
    {items : List (Except Fault Document)} {i n : Nat} (m : Nat)
    (hi : i + (itemsOf items).length ≤ Count.max) (hn : n + (itemsOf items).length ≤ Count.max)
    (hfurther : ∀ n', n' ≤ n + (itemsOf items).length →
      q.backend.limit ≤ i + (itemsOf items).length →
      (further' (i + (itemsOf items).length) n').course ix m
        = (further (i + (itemsOf items).length) n').course ix m) :
    (checkedWindowFeed spill q filters fields further' items i n).course ix m
      = (windowFeed q filters fields further items i n).course ix m := by
  induction items generalizing i n with
  | nil =>
    rw [checkedWindowFeed, windowFeed, Feed.course, Feed.course]
    by_cases hshort : i < q.backend.limit
    · rw [if_pos hshort, if_pos hshort]
    · rw [if_neg hshort, if_neg hshort]
      exact congrArg _ (hfurther n (Nat.le_refl _) (Nat.not_lt.mp hshort))
  | cons item items ih =>
    cases item with
    | error e =>
      rw [checkedWindowFeed, windowFeed, Feed.course, Feed.course]
      exact congrArg _ (ih hi hn hfurther)
    | ok d =>
      rw [itemsOf_ok, List.length_cons] at hi hn hfurther
      have hcount : i + 1 + (itemsOf items).length = i + ((itemsOf items).length + 1) := by omega
      rw [checkedWindowFeed, windowFeed, Count.add?_of_le (show i + 1 ≤ Count.max by omega),
        Count.add?_of_le (show n + 1 ≤ Count.max by omega)]
      simp only [Feed.course_notes]
      refine congrArg _ ?_
      have hrest (n' : Nat) (hn' : n' ≤ n + 1) :
          (checkedWindowFeed spill q filters fields further' items (i + 1) n').course ix m
            = (windowFeed q filters fields further items (i + 1) n').course ix m := by
        refine ih (by omega) (by omega) ?_
        rw [hcount]
        exact fun k hk => hfurther k (by omega)
      split
      · rw [Feed.course, Feed.course]
        refine congrArg _ ?_
        split
        · rfl
        · exact hrest _ (Nat.le_refl _)
      · exact hrest _ (Nat.le_succ n)

/-- The invariant of the loop: the offset is a word, no more records have
been delivered than lie in front of it, and there are turns left for all
offsets behind it. -/
theorem course_checkedWindowsFrom (hix : ix.Counted) {turns offset n : Nat} (m : Nat)
    (hoffset : offset ≤ Count.max) (hn : n ≤ offset) (hturns : Count.max < offset + turns) :
    (checkedWindowsFrom spill q filters fields turns offset n).course ix m
      = (windowsFrom q filters fields turns offset n).course ix m := by
  induction turns generalizing offset n m with
  | zero => omega
  | succ turns ih =>
    rw [checkedWindowsFrom, windowsFrom]
    by_cases hstop : q.backend.limit = 0 ∨ q.wanted ≤ n
    · rw [if_pos hstop, if_pos hstop]
    · rw [if_neg hstop, if_neg hstop, Feed.course, Feed.course]
      refine congrArg _ ?_
      cases hsearch : ix.search (m + 1) q.predicate { q.backend with start := offset } with
      | error e => rfl
      | ok items =>
        have hend : offset + (itemsOf items).length ≤ Count.max :=
          hix _ _ _ items hoffset hsearch
        refine course_checkedWindowFeed (m + 1) (by omega) (by omega) fun n' hn' hfull => ?_
        -- a full window moves the offset on, by one record at least
        rw [Nat.zero_add] at hfull ⊢
        rw [Count.add?_of_le hend]
        exact ih (m + 1) hend (by omega) (by omega)

/-- The windows of a query are the same with every count checked: none
overflows, and the turns do not run out. -/
theorem course_checkedWindows (hix : ix.Counted) (spill : Records) (p : Predicate) (w : Window)
    (maxLimit : Nat) (filters : List Source) (fields : List String) (m : Nat) :
    (checkedWindows spill (.ofWindow p w maxLimit) filters fields).course ix m
      = (windows (.ofWindow p w maxLimit) filters fields).course ix m :=
  course_checkedWindowsFrom hix m (Nat.zero_le _) (Nat.le_refl _) (by
    show Count.max < 0 + (Count.max + 1)
    omega)

end Source

end ReviewSearch
