/-
ReviewSearch.Proofs.Stream.Readers — the readers that are open under a
stream.

`Call.opened` and `Call.released` count in a list of calls the readers
that its searches open, and those that are released. Calls go ONE AT A
TIME (`Call.OneAtATime`) if at no moment more than one reader is open, and
at no search any.

* `Feed.Orderly` — a feed that searches only while no reader is open,
  releases only the one that is, and has none open at its end;
* `Stream.Orderly.run` — pulls and closes in any order keep a stream over
  such a feed orderly, and the trace of its calls with it;
* `Trace.Orderly.oneAtATime` — the calls of an orderly trace go one at a
  time;
* `Stream.run_of_untouched`, `Stream.run_of_closed` — nothing is called
  before the first pull and behind the end.
-/
import Mathlib.Data.List.Basic
import ReviewSearch.Stream.Basic

namespace ReviewSearch

/-! ## Calls -/

namespace Call

variable {ν : Type}

def isSearch : Call ν → Bool
  | .search .. => true
  | _ => false

def isRelease : Call ν → Bool
  | .release => true
  | _ => false

/-- How many readers calls open that come behind `n` searches. -/
def openedFrom (ix : Index) : Nat → List (Call ν) → Nat
  | _, [] => 0
  | n, .search p w :: cs => (ix.search (n + 1) p w).isOk.toNat + openedFrom ix (n + 1) cs
  | n, .cardinality _ :: cs | n, .release :: cs | n, .note _ :: cs => openedFrom ix n cs

/-- How many readers are opened by all the calls of a run. A search that
fails opens none. -/
def opened (ix : Index) (cs : List (Call ν)) : Nat :=
  openedFrom ix 0 cs

/-- How many readers calls release. -/
def released (cs : List (Call ν)) : Nat :=
  cs.countP isRelease

/-- Calls that open one reader at a time. -/
structure OneAtATime (ix : Index) (cs : List (Call ν)) : Prop where
  /-- At no moment are there more releases than readers, or more than one
  reader that is not released. -/
  atMostOne : ∀ before, before <+: cs →
    released before ≤ opened ix before ∧ opened ix before ≤ released before + 1
  /-- Before a search, every reader has been released. -/
  evenAtSearch : ∀ before p w, before ++ [.search p w] <+: cs →
    opened ix before = released before

variable {ix : Index} {cs : List (Call ν)}

theorem openedFrom_append (n : Nat) (cs cs' : List (Call ν)) :
    openedFrom ix n (cs ++ cs')
      = openedFrom ix n cs + openedFrom ix (n + cs.countP isSearch) cs' := by
  induction cs generalizing n with
  | nil => simp [openedFrom]
  | cons c cs ih =>
    cases c with
    | search p w =>
      simp only [List.cons_append, openedFrom, ih, List.countP_cons, isSearch, if_true]
      rw [Nat.add_assoc, Nat.add_assoc, Nat.add_comm 1]
    | _ => simp [openedFrom, ih, isSearch]

theorem opened_concat_search (p : Predicate) (w : Window) :
    opened ix (cs ++ [.search p w])
      = opened ix cs + (ix.search (cs.countP isSearch + 1) p w).isOk.toNat := by
  simp [opened, openedFrom_append, openedFrom]

theorem opened_concat {c : Call ν} (h : c.isSearch = false) :
    opened ix (cs ++ [c]) = opened ix cs := by
  cases c with
  | search => cases h
  | _ => simp [opened, openedFrom_append, openedFrom]

theorem released_concat (c : Call ν) :
    released (cs ++ [c]) = released cs + c.isRelease.toNat := by
  cases c <;> simp [released, isRelease]

theorem oneAtATime_nil : OneAtATime ix ([] : List (Call ν)) where
  atMostOne before h := by
    rw [List.prefix_nil.mp h]
    exact ⟨Nat.le_refl _, Nat.zero_le _⟩
  evenAtSearch before p w h := absurd (List.prefix_nil.mp h) (by simp)

/-- One call more: a search must come when no reader is open, and a
release while one is. -/
theorem OneAtATime.concat (h : OneAtATime ix cs) {c : Call ν}
    (hcount : released (cs ++ [c]) ≤ opened ix (cs ++ [c])
      ∧ opened ix (cs ++ [c]) ≤ released (cs ++ [c]) + 1)
    (hsearch : c.isSearch = true → opened ix cs = released cs) :
    OneAtATime ix (cs ++ [c]) where
  atMostOne before hbefore := by
    rcases List.prefix_concat_iff.mp hbefore with rfl | hbefore
    · exact hcount
    · exact h.atMostOne before hbefore
  evenAtSearch before p w hbefore := by
    rcases List.prefix_concat_iff.mp hbefore with heq | hbefore
    · obtain ⟨rfl, hc⟩ := List.append_inj' heq rfl
      obtain rfl := List.singleton_inj.mp hc
      exact hsearch rfl
    · exact h.evenAtSearch before p w hbefore

end Call

/-! ## Traces -/

namespace Trace

variable {ν : Type} {ix : Index} {t : Trace ν} {held : Bool}

@[simp] theorem calls_record (t : Trace ν) (c : Call ν) :
    (t.record c).calls = t.calls ++ [c] :=
  List.reverse_cons

@[simp] theorem calls_recordSearch (t : Trace ν) (p : Predicate) (w : Window) :
    (t.recordSearch p w).calls = t.calls ++ [.search p w] :=
  List.reverse_cons

theorem calls_recordAll (t : Trace ν) (cs : List (Call ν)) :
    (t.recordAll cs).calls = t.calls ++ cs := by
  induction cs generalizing t with
  | nil => exact (List.append_nil _).symm
  | cons c cs ih =>
    show ((t.record c).recordAll cs).calls = _
    rw [ih, calls_record, List.append_assoc]
    rfl

/-- Traces of calls that are made one at a time, from no call on; `held`
says whether a reader is open behind the last one. -/
inductive Orderly (ix : Index) : Trace ν → Bool → Prop
  | start : Orderly ix {} false
  | search {t : Trace ν} (h : Orderly ix t false) (p : Predicate) (w : Window) :
      Orderly ix (t.recordSearch p w) (ix.search (t.searches + 1) p w).isOk
  | cardinality {t : Trace ν} {held : Bool} (h : Orderly ix t held) (p : Predicate) :
      Orderly ix (t.record (.cardinality p)) held
  | release {t : Trace ν} (h : Orderly ix t true) : Orderly ix (t.record .release) false
  | note {t : Trace ν} {held : Bool} (h : Orderly ix t held) (n : ν) :
      Orderly ix (t.record (.note n)) held

namespace Orderly

theorem cardinalities (h : t.Orderly ix held) (ps : List Predicate) :
    (t.recordAll (ps.map .cardinality)).Orderly ix held := by
  induction ps generalizing t with
  | nil => exact h
  | cons p ps ih => exact ih (h.cardinality p)

theorem notes (h : t.Orderly ix held) (ns : List ν) :
    (t.recordAll (ns.map .note)).Orderly ix held := by
  induction ns generalizing t with
  | nil => exact h
  | cons n ns ih => exact ih (h.note n)

/-- Releasing all readers leaves none. -/
theorem releases (h : t.Orderly ix held) :
    (t.recordAll (List.replicate held.toNat .release)).Orderly ix false := by
  cases held with
  | false => exact h
  | true => exact h.release

theorem searches_eq (h : t.Orderly ix held) : t.searches = t.calls.countP Call.isSearch := by
  induction h with
  | start => rfl
  | search _ p w ih =>
    rw [calls_recordSearch, List.countP_append, ← ih]
    rfl
  | cardinality _ _ ih | release _ ih | note _ _ ih =>
    rw [calls_record, List.countP_append, ← ih]
    rfl

/-- All readers are released but for the one that is held. -/
theorem opened_eq (h : t.Orderly ix held) :
    Call.opened ix t.calls = Call.released t.calls + held.toNat := by
  induction h with
  | start => rfl
  | search h p w ih =>
    rw [calls_recordSearch, Call.opened_concat_search, Call.released_concat, ih, h.searches_eq]
    rfl
  | cardinality _ _ ih | note _ _ ih =>
    rw [calls_record, Call.opened_concat rfl, Call.released_concat, ih]
    rfl
  | release _ ih =>
    rw [calls_record, Call.opened_concat rfl, Call.released_concat, ih]
    rfl

/-- With one call more, the calls of an orderly trace still go one at a
time. -/
theorem oneAtATime_of_concat (h : t.Orderly ix held) {cs : List (Call ν)} {c : Call ν}
    (hcalls : t.calls = cs ++ [c]) (hcs : Call.OneAtATime ix cs)
    (hsearch : c.isSearch = true → Call.opened ix cs = Call.released cs) :
    Call.OneAtATime ix t.calls := by
  have hopened := h.opened_eq
  have hheld := Bool.toNat_le held
  rw [hcalls] at hopened ⊢
  exact hcs.concat (by omega) hsearch

theorem oneAtATime (h : t.Orderly ix held) : Call.OneAtATime ix t.calls := by
  induction h with
  | start => exact Call.oneAtATime_nil
  | search h p w ih =>
    exact (h.search p w).oneAtATime_of_concat (calls_recordSearch ..) ih fun _ => h.opened_eq
  | cardinality h p ih =>
    exact (h.cardinality p).oneAtATime_of_concat (calls_record ..) ih nofun
  | release h ih => exact h.release.oneAtATime_of_concat (calls_record ..) ih nofun
  | note h n ih => exact (h.note n).oneAtATime_of_concat (calls_record ..) ih nofun

end Orderly

end Trace

/-! ## Feeds -/

namespace Feed

variable {ν α β : Type} {ix : Index} {held : Bool}

/-- A feed that searches only while no reader is open, releases only the
open one, and has none open at its end, whatever the index says. `held`
says whether a reader is open before it. -/
def Orderly : Feed ν α → Bool → Prop
  | done, held => held = false
  | reply (some _) rest, held => Orderly rest held
  | reply none _, held => held = false
  | note _ rest, held => Orderly rest held
  | search _ _ next, held => held = false ∧ ∀ answer, Orderly (next answer) answer.isOk
  | estimate _ next, held => ∀ size, Orderly (next size) held
  | release rest, held => held = true ∧ Orderly rest false

theorem orderly_failed (f : Fault) : (failed f : Feed ν α).Orderly false := rfl

@[simp] theorem orderly_notes (ns : List ν) (rest : Feed ν α) :
    (notes ns rest).Orderly held ↔ rest.Orderly held := by
  induction ns with
  | nil => rfl
  | cons n ns ih => exact ih

/-! ### Feeds made of feeds -/

theorem Orderly.sift {feed : Feed ν α} (h : feed.Orderly held) (f : α → List ν × Option β) :
    (feed.sift f).Orderly held := by
  induction feed generalizing held with
  | done => exact h
  | reply r rest ih =>
    match r with
    | none => exact h
    | some (.error e) => exact ih h
    | some (.ok a) =>
      rw [Feed.sift, orderly_notes]
      split
      · exact ih h
      · exact ih h
  | note n rest ih => exact ih h
  | search p w next ih => exact ⟨h.1, fun answer => ih answer (h.2 answer)⟩
  | estimate ps next ih => exact fun size => ih size (h size)
  | release rest ih => exact ⟨h.1, ih h.2⟩

/-- At its end a feed has released its reader, so another may begin. -/
theorem Orderly.append {first second : Feed ν α} (h : first.Orderly held)
    (hsecond : second.Orderly false) : (first.append second).Orderly held := by
  induction first generalizing held with
  | done => exact h ▸ hsecond
  | reply r rest ih =>
    match r with
    | none => exact h ▸ hsecond
    | some x => exact ih h
  | note n rest ih => exact ih h
  | search p w next ih => exact ⟨h.1, fun answer => ih answer (h.2 answer)⟩
  | estimate ps next ih => exact fun size => ih size (h size)
  | release rest ih => exact ⟨h.1, ih h.2⟩

theorem orderly_concat {fs : List (Feed ν α)} (h : ∀ f ∈ fs, f.Orderly false) :
    (concat fs).Orderly false := by
  induction fs with
  | nil => rfl
  | cons f fs ih =>
    obtain ⟨hf, hfs⟩ := List.forall_mem_cons.mp h
    exact hf.append (ih hfs)

theorem Orderly.distinct {feed : Feed ν α} (h : feed.Orderly held) (key : α → Nat)
    (seen : List Nat) : (feed.distinct key seen).Orderly held := by
  induction feed generalizing held seen with
  | done => exact h
  | reply r rest ih =>
    match r with
    | none => exact h
    | some (.error e) => exact ih h seen
    | some (.ok a) =>
      rw [Feed.distinct]
      split
      · exact ih h seen
      · exact ih h _
  | note n rest ih => exact ih h seen
  | search p w next ih => exact ⟨h.1, fun answer => ih answer (h.2 answer) seen⟩
  | estimate ps next ih => exact fun size => ih size (h size) seen
  | release rest ih => exact ⟨h.1, ih h.2 seen⟩

end Feed

/-! ## Pulls -/

/-- A pull after which the trace is orderly, with the reader that is open,
and so is what is left of the feed, unless that has ended; then none is
open. -/
structure Pull.Orderly {ν α : Type} (ix : Index) (p : Pull ν α) (held : Bool) : Prop where
  readers : p.readers = held.toNat
  trace : p.trace.Orderly ix held
  rest {x : Except Fault α} (h : p.reply = some x) : p.rest.Orderly held
  ended (h : p.reply = none) : held = false

/-- A pull leaves an orderly feed orderly, and none open at its end; it
keeps an orderly trace so. -/
theorem Feed.Orderly.exists_held {ν α : Type} {feed : Feed ν α} {held : Bool}
    (h : feed.Orderly held) (ix : Index) (t : Trace ν) :
    ∃ held' : Bool, (feed.pull ix held.toNat t).readers = held'.toNat
      ∧ (∀ x, (feed.pull ix held.toNat t).reply = some x →
        (feed.pull ix held.toNat t).rest.Orderly held')
      ∧ ((feed.pull ix held.toNat t).reply = none → held' = false)
      ∧ (t.Orderly ix held → (feed.pull ix held.toNat t).trace.Orderly ix held') := by
  induction feed generalizing held t with
  | done => exact ⟨held, rfl, nofun, fun _ => h, id⟩
  | reply r rest _ =>
    match r with
    | none => exact ⟨held, rfl, nofun, fun _ => h, id⟩
    | some x => exact ⟨held, rfl, fun _ _ => h, nofun, id⟩
  | note n rest ih =>
    obtain ⟨held', hreaders, hrest, hend, htrace⟩ := ih h (t.record (.note n))
    exact ⟨held', hreaders, hrest, hend, fun ht => htrace (ht.note n)⟩
  | search p w next ih =>
    obtain ⟨rfl, hnext⟩ := h
    have hopened : (if (ix.search (t.searches + 1) p w).isOk then false.toNat + 1
        else false.toNat) = (ix.search (t.searches + 1) p w).isOk.toNat := by
      cases (ix.search (t.searches + 1) p w).isOk <;> rfl
    simp only [Feed.pull, hopened]
    obtain ⟨held', hreaders, hrest, hend, htrace⟩ := ih _ (hnext _) (t.recordSearch p w)
    exact ⟨held', hreaders, hrest, hend, fun ht => htrace (ht.search p w)⟩
  | estimate ps next ih =>
    obtain ⟨held', hreaders, hrest, hend, htrace⟩ :=
      ih _ (h _) (t.recordAll (ps.map .cardinality))
    exact ⟨held', hreaders, hrest, hend, fun ht => htrace (ht.cardinalities ps)⟩
  | release rest ih =>
    obtain ⟨rfl, hrest⟩ := h
    obtain ⟨held', hreaders, hrest, hend, htrace⟩ := ih hrest (t.record .release)
    exact ⟨held', hreaders, hrest, hend, fun ht => htrace ht.release⟩

/-- A pull runs an orderly feed in order. -/
theorem Feed.Orderly.pull {ν α : Type} {ix : Index} {feed : Feed ν α} {held : Bool}
    (h : feed.Orderly held) {t : Trace ν} (ht : t.Orderly ix held) :
    ∃ held', (feed.pull ix held.toNat t).Orderly ix held' := by
  obtain ⟨held', hreaders, hrest, hend, htrace⟩ := h.exists_held ix t
  exact ⟨held', hreaders, htrace ht, fun hx => hrest _ hx, hend⟩

/-! ## Streams -/

namespace Stream

variable {ν α : Type} {ix : Index} {s : Stream ν α} {t : Trace ν} {held : Bool}

/-- Streams over orderly feeds; `held` says whether a reader is open. -/
inductive Orderly : Stream ν α → Bool → Prop
  | pending {opener : Opener ν α} (h : ∀ feed, opener.outcome = .ok feed → feed.Orderly false) :
      Orderly ⟨.pending opener, 0⟩ false
  | opened {feed : Feed ν α} {held : Bool} (h : feed.Orderly held) :
      Orderly ⟨.opened feed, held.toNat⟩ held
  | closed : Orderly ⟨.closed, 0⟩ false

theorem orderly_deferred {feed : Feed ν α} (h : feed.Orderly false) :
    (deferred feed).Orderly false :=
  .pending fun _ heq => Except.ok.inj heq ▸ h

theorem Orderly.readers_eq (h : s.Orderly held) : s.readers = held.toNat := by
  cases h <;> rfl

/-- Closing releases the reader that is open. -/
theorem Orderly.close (h : s.Orderly held) (ht : t.Orderly ix held) :
    (s.close t).1.Orderly false ∧ (s.close t).2.Orderly ix false := by
  refine ⟨.closed, ?_⟩
  rw [Stream.close, h.readers_eq]
  exact ht.releases

theorem orderly_nextOf {feed : Feed ν α} (h : feed.Orderly held) (ht : t.Orderly ix held) :
    ∃ held', (nextOf ix feed held.toNat t).2.1.Orderly held'
      ∧ (nextOf ix feed held.toNat t).2.2.Orderly ix held'
      ∧ ((nextOf ix feed held.toNat t).1 = none →
        (nextOf ix feed held.toNat t).2.1 = ⟨.closed, 0⟩) := by
  obtain ⟨held', hpull⟩ := h.pull ht
  unfold nextOf
  generalize feed.pull ix held.toNat t = p at hpull
  obtain ⟨reply, rest, readers, trace⟩ := p
  obtain rfl : readers = held'.toNat := hpull.readers
  cases reply with
  | none =>
    obtain rfl := hpull.ended rfl
    exact ⟨false, .closed, hpull.trace, fun _ => rfl⟩
  | some x => exact ⟨held', .opened (hpull.rest rfl), hpull.trace, nofun⟩

/-- A pull keeps a stream and its trace orderly. The end closes the
stream. -/
theorem Orderly.next (h : s.Orderly held) (ht : t.Orderly ix held) :
    ∃ held', (s.next ix t).2.1.Orderly held' ∧ (s.next ix t).2.2.Orderly ix held'
      ∧ ((s.next ix t).1 = none → (s.next ix t).2.1 = ⟨.closed, 0⟩) := by
  cases h with
  | @pending opener hopener =>
    have hnotes := ht.notes opener.notes
    unfold Stream.next
    dsimp only
    cases houtcome : opener.outcome with
    | ok feed => exact orderly_nextOf (hopener feed houtcome) hnotes
    | error f => exact ⟨false, .closed, hnotes, nofun⟩
  | opened hfeed => exact orderly_nextOf hfeed ht
  | closed => exact ⟨false, .closed, ht, fun _ => rfl⟩

/-! ### Runs -/

/-- What may be done to a stream. To drop it is to close it. -/
inductive Act where
  | pull
  | close
  deriving DecidableEq

/-- What a run comes to: the answers to its pulls, the stream, and the
trace of the calls. -/
structure Run (ν α : Type) where
  replies : List (Reply α)
  stream : Stream ν α
  trace : Trace ν

/-- Pulls and closes a stream. -/
def run (ix : Index) : List Act → Stream ν α → Trace ν → Run ν α
  | [], s, t => ⟨[], s, t⟩
  | .pull :: acts, s, t =>
    let (reply, s, t) := s.next ix t
    let rest := run ix acts s t
    { rest with replies := reply :: rest.replies }
  | .close :: acts, s, t =>
    let (s, t) := s.close t
    run ix acts s t

theorem run_append (acts acts' : List Act) (s : Stream ν α) (t : Trace ν) :
    (s.run ix (acts ++ acts') t).trace
      = ((s.run ix acts t).stream.run ix acts' (s.run ix acts t).trace).trace := by
  induction acts generalizing s t with
  | nil => rfl
  | cons act acts ih =>
    cases act with
    | pull => exact ih _ _
    | close => exact ih _ _

/-- A closed stream stays closed, and nothing is called. -/
theorem run_of_closed (acts : List Act) (t : Trace ν) :
    ((⟨.closed, 0⟩ : Stream ν α).run ix acts t).stream = ⟨.closed, 0⟩
      ∧ ((⟨.closed, 0⟩ : Stream ν α).run ix acts t).trace = t := by
  induction acts generalizing t with
  | nil => exact ⟨rfl, rfl⟩
  | cons act acts ih =>
    cases act with
    | pull => exact ih t
    | close => exact ih t

/-- From a close on, nothing is called but the releases of the close. -/
theorem calls_run_close (acts : List Act) (s : Stream ν α) (t : Trace ν) :
    (s.run ix (.close :: acts) t).trace.calls
      = t.calls ++ List.replicate s.readers .release := by
  show ((s.close t).1.run ix acts (s.close t).2).trace.calls = _
  rw [Stream.close, (run_of_closed acts _).2, Trace.calls_recordAll]

/-- Nothing is called before the first pull. -/
theorem run_of_untouched (hs : s.readers = 0) {acts : List Act} (hacts : Act.pull ∉ acts) :
    (s.run ix acts t).trace = t := by
  cases acts with
  | nil => rfl
  | cons act acts =>
    cases act with
    | pull => exact absurd List.mem_cons_self hacts
    | close =>
      show ((s.close t).1.run ix acts (s.close t).2).trace = t
      rw [Stream.close, hs]
      exact (run_of_closed acts t).2

/-- Pulls and closes in any order keep a stream and its trace orderly.
Behind an end or a close no reader is open. -/
theorem Orderly.run (h : s.Orderly held) (ht : t.Orderly ix held) (acts : List Act) :
    ∃ held', (s.run ix acts t).stream.Orderly held' ∧ (s.run ix acts t).trace.Orderly ix held'
      ∧ (none ∈ (s.run ix acts t).replies ∨ Act.close ∈ acts → held' = false) := by
  -- Once the stream is closed, the rest of the run changes nothing.
  have hclosed {t : Trace ν} (ht : t.Orderly ix false) (acts : List Act) :
      ((⟨.closed, 0⟩ : Stream ν α).run ix acts t).stream.Orderly false
        ∧ ((⟨.closed, 0⟩ : Stream ν α).run ix acts t).trace.Orderly ix false := by
    obtain ⟨hstream, htrace⟩ := @run_of_closed ν α ix acts t
    rw [hstream, htrace]
    exact ⟨.closed, ht⟩
  induction acts generalizing s t held with
  | nil => exact ⟨held, h, ht, by simp [Stream.run]⟩
  | cons act acts ih =>
    cases act with
    | close =>
      obtain ⟨hstream, htrace⟩ := hclosed (h.close ht).2 acts
      exact ⟨false, hstream, htrace, fun _ => rfl⟩
    | pull =>
      obtain ⟨held', hstream, htrace, hend⟩ := h.next ht
      simp only [Stream.run]
      generalize s.next ix t = step at hstream htrace hend
      obtain ⟨reply, s', t'⟩ := step
      cases reply with
      | some x =>
        obtain ⟨held'', hstream, htrace, hend⟩ := ih hstream htrace
        exact ⟨held'', hstream, htrace, by simpa using hend⟩
      | none =>
        obtain rfl : s' = ⟨.closed, 0⟩ := hend rfl
        obtain rfl : held' = false := by cases hstream; rfl
        obtain ⟨hstream, htrace⟩ := hclosed htrace acts
        exact ⟨false, hstream, htrace, fun _ => rfl⟩

end Stream

end ReviewSearch
