/-
ReviewSearch.Proofs.Search.Pulling — reading is pulling.

Reading up to a number of items is one pull, and reading up to one item less
of what the pull leaves (`Feed.gather_succ`, `Stream.read_succ`).

`Stream.pageLoop?` is the loop that reads a page: it pulls, counts the items
that it skips and those that it takes, and closes the stream behind the
last. Every count is checked, and its turns are bounded. No count overflows
and the turns do not run out: `Stream.page?_eq`, the loop reads what
`Stream.read` does.
-/
import ReviewSearch.Proofs.Plan.Overflow
import ReviewSearch.Proofs.Stream.OneShot

namespace ReviewSearch

variable {ν α : Type}

/-! ## One pull -/

namespace Feed

/-- What was read once a pull has been answered. -/
def Gathered.after (ix : Index) (n : Nat) (p : Pull ν α) : Gathered ν α :=
  match p.reply with
  | none => ⟨[], none, p.readers, p.trace⟩
  | some (.error e) => ⟨[], some e, p.readers, p.trace⟩
  | some (.ok a) =>
    if n = 0 then ⟨[a], none, p.readers, p.trace⟩
    else (p.rest.gather ix (some n) p.readers p.trace).cons a

theorem gather_succ (ix : Index) (n : Nat) (feed : Feed ν α) (readers : Nat) (t : Trace ν) :
    feed.gather ix (some (n + 1)) readers t = .after ix n (feed.pull ix readers t) := by
  induction feed generalizing readers t with
  | done => rfl
  | reply r rest =>
    match r with
    | none | some (.error _) => rfl
    | some (.ok a) =>
      rw [gather, pull, Gathered.after]
      simp only [Option.some.injEq, Nat.add_eq_right]
      rfl
  | note n rest ih => exact ih readers _
  | search p w next ih => exact ih _ _ _
  | estimate ps next ih => exact ih _ readers _
  | release rest ih => exact ih _ _

end Feed

namespace Stream

variable {ix : Index}

/-- What reading on comes to once a pull has been answered. -/
def readAfter (ix : Index) (n : Nat) :
    Reply α × Stream ν α × Trace ν → Except Fault (List α) × Trace ν
  | (none, s, t) => (.ok [], (s.close t).2)
  | (some (.error e), s, t) => (.error e, (s.close t).2)
  | (some (.ok a), s, t) => Prod.map (Except.map (a :: ·)) id (s.read ix (some n) t)

theorem read_zero (s : Stream ν α) (t : Trace ν) :
    s.read ix (some 0) t = (.ok [], (s.close t).2) :=
  if_pos rfl

/-- Reading an open feed, by its first pull. -/
theorem read_of_nextOf {feed : Feed ν α} {s : Stream ν α} (n : Nat) {t t' : Trace ν}
    (hfeed : s.toFeed.gather ix (some (n + 1)) s.readers t
      = feed.gather ix (some (n + 1)) s.readers t') :
    s.read ix (some (n + 1)) t = readAfter ix n (nextOf ix feed s.readers t') := by
  have hpos : some (n + 1) ≠ some 0 := by simp
  rw [read, if_neg hpos, hfeed, Feed.gather_succ, nextOf]
  generalize feed.pull ix s.readers t' = p
  obtain ⟨_ | _ | a, rest, readers, t''⟩ := p
  · rfl
  · rfl
  · cases n with
    | zero => rfl
    | succ n =>
      simp only [Feed.Gathered.after, readAfter, read, if_false, toFeed, Nat.succ_ne_zero,
        Option.some.injEq, Feed.Gathered.cons]
      generalize rest.gather ix (some (n + 1)) readers t'' = g
      cases g.fault? <;> rfl

/-- Reading a stream is pulling it once, and reading what the pull
leaves. -/
theorem read_succ (n : Nat) (s : Stream ν α) (t : Trace ν) :
    s.read ix (some (n + 1)) t = readAfter ix n (s.next ix t) := by
  obtain ⟨state, readers⟩ := s
  cases state with
  | opened feed => exact read_of_nextOf n rfl
  | pending opener =>
    obtain ⟨ns, f | feed⟩ := opener
    · have hpos : some (n + 1) ≠ some 0 := by simp
      rw [read, if_neg hpos, toFeed, Feed.gather_notes]
      rfl
    · exact read_of_nextOf n (Feed.gather_notes ix _ ns feed readers t)
  | closed => rfl

/-! ## The loop that reads a page -/

/-- Reads up to `probe` items behind the first `start`, with every count
checked: `skipped` items have been skipped and `found` were taken. -/
def pageLoop? (ix : Index) (start probe : Nat) :
    Nat → Nat → List α → Stream ν α → Trace ν → Option (Except Fault (List α) × Trace ν)
  | 0, _, _, _, _ => none
  | turns + 1, skipped, found, s, t =>
    if probe ≤ found.length then some (.ok found, (s.close t).2)
    else
      match s.next ix t with
      | (none, s, t) => some (.ok found, (s.close t).2)
      | (some (.error e), s, t) => some (.error e, (s.close t).2)
      | (some (.ok a), s, t) =>
        if skipped < start then
          match Count.add? skipped 1 with
          | none => none
          | some skipped => pageLoop? ix start probe turns skipped found s t
        else
          match Count.add? found.length 1 with
          | none => none
          | some _ => pageLoop? ix start probe turns skipped (found ++ [a]) s t

/-- Reads up to `probe` items behind the first `start`. There is a turn for
each item, and one to see that there are enough. -/
def page? (ix : Index) (start probe : Nat) (s : Stream ν α) (t : Trace ν) :
    Option (Except Fault (List α) × Trace ν) :=
  pageLoop? ix start probe (start + probe + 1) 0 [] s t

variable {start probe : Nat}

/-- With all in front of the page skipped, the loop takes what is read of the
rest. -/
theorem pageLoop?_taking (hprobe : probe ≤ Count.max) {turns n : Nat} {found : List α}
    (hfound : found.length + n = probe) (hturns : n < turns) (s : Stream ν α) (t : Trace ν) :
    pageLoop? ix start probe turns start found s t
      = some (Prod.map (Except.map (found ++ ·)) id (s.read ix (some n) t)) := by
  induction turns generalizing n found s t with
  | zero => omega
  | succ turns ih =>
    rw [pageLoop?]
    cases n with
    | zero =>
      rw [if_pos (show probe ≤ found.length by omega), read_zero]
      simp [Except.map]
    | succ n =>
      rw [if_neg (by omega), read_succ]
      generalize s.next ix t = r
      match r with
      | (none, s, t) => simp [readAfter, Except.map]
      | (some (.error e), s, t) => rfl
      | (some (.ok a), s, t) =>
        have hlen : (found ++ [a]).length + n = probe := by
          rw [List.length_append, List.length_singleton]
          omega
        simp only [Nat.lt_irrefl, if_false,
          Count.add?_of_le (show found.length + 1 ≤ Count.max by omega)]
        rw [ih hlen (by omega), readAfter]
        obtain ⟨_ | rest, t⟩ := s.read ix (some n) t
        · rfl
        · simp [Except.map]

/-- With `k` items in front of the page left, the loop reads on and drops
them. -/
theorem pageLoop?_skipping (hstart : start ≤ Count.max) (hprobe : probe ≤ Count.max)
    (hpos : 0 < probe) {turns skipped k : Nat} (hskipped : skipped + k = start)
    (hturns : k + probe < turns) (s : Stream ν α) (t : Trace ν) :
    pageLoop? ix start probe turns skipped [] s t
      = some (Prod.map (Except.map (·.drop k)) id (s.read ix (some (k + probe)) t)) := by
  induction k generalizing turns skipped s t with
  | zero =>
    obtain rfl : skipped = start := hskipped
    rw [pageLoop?_taking hprobe (Nat.zero_add probe) (by omega), Nat.zero_add]
    rfl
  | succ k ih =>
    obtain ⟨turns, rfl⟩ := Nat.exists_eq_succ_of_ne_zero (Nat.ne_of_gt (Nat.zero_lt_of_lt hturns))
    rw [pageLoop?, List.length_nil, if_neg (Nat.not_le.mpr hpos), Nat.add_right_comm, read_succ]
    generalize s.next ix t = r
    match r with
    | (none, s, t) | (some (.error _), s, t) => rfl
    | (some (.ok a), s, t) =>
      simp only [if_pos (show skipped < start by omega),
        Count.add?_of_le (show skipped + 1 ≤ Count.max by omega)]
      rw [ih (by omega) (by omega), readAfter]
      obtain ⟨_ | rest, t⟩ := s.read ix (some (k + probe)) t <;> rfl

/-- The loop reads up to the end of a page and drops what is in front of
it. -/
theorem page?_eq (hstart : start ≤ Count.max) (hprobe : probe ≤ Count.max) (hpos : 0 < probe)
    (s : Stream ν α) (t : Trace ν) :
    s.page? ix start probe t
      = some (Prod.map (Except.map (·.drop start)) id (s.read ix (some (start + probe)) t)) :=
  pageLoop?_skipping hstart hprobe hpos (Nat.zero_add start) (Nat.lt_succ_self _) s t

end Stream

end ReviewSearch
