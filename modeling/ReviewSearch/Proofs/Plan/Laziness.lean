/-
ReviewSearch.Proofs.Plan.Laziness — when the stream of a plan calls the
index.

* `orderly_feed` — the feed of every plan searches only while no reader is
  open, and has none open at its end: a window is released before the next
  window, and before the next child of an OR;
* `readers_one_at_a_time` — so whatever is pulled and closed, the stream
  of a plan has at most one reader open, calls nothing before the first
  pull and behind a close, and ends with every reader released.

Nothing is asked of the index: it may fail at any search, and answer the
same search in another way the next time.
-/
import Mathlib.Data.List.Infix
import ReviewSearch.Proofs.Plan.Enumeration
import ReviewSearch.Proofs.Stream.Draining

namespace ReviewSearch.Source

/-! ## The feed of a plan -/

section Windows

variable {q : IndexQuery} {filters : List Source} {fields : List String}

/-- A window holds one reader, and gives it back before the next window
and where enough is delivered. -/
theorem orderly_windowFeed {further : Nat → Nat → Records}
    (hfurther : ∀ inWindow delivered, (further inWindow delivered).Orderly false)
    (items : List (Except Fault Document)) (inWindow delivered : Nat) :
    (windowFeed q filters fields further items inWindow delivered).Orderly true := by
  induction items generalizing inWindow delivered with
  | nil =>
    refine ⟨rfl, ?_⟩
    split
    · rfl
    · exact hfurther inWindow delivered
  | cons item items ih =>
    cases item with
    | error e => exact ih inWindow delivered
    | ok d =>
      simp only [windowFeed, Feed.orderly_notes]
      split
      · -- the record is delivered
        show Feed.Orderly _ true
        split
        · exact ⟨rfl, rfl⟩
        · exact ih _ _
      · exact ih _ _

theorem orderly_windowsFrom (turns offset delivered : Nat) :
    (windowsFrom q filters fields turns offset delivered).Orderly false := by
  induction turns generalizing offset delivered with
  | zero => rfl
  | succ turns ih =>
    unfold windowsFrom
    split
    · rfl
    · refine ⟨rfl, fun answer => ?_⟩
      cases answer with
      | error e => exact Feed.orderly_failed e
      | ok items => exact orderly_windowFeed (fun _ _ => ih _ _) items 0 delivered

end Windows

/-- An AND reads one child only, its driver. -/
theorem orderly_conjFeed {ss : List Source} {feeds : List Records}
    (h : ∀ feed ∈ feeds, feed.Orderly false) (raw : Bool) :
    (conjFeed ss feeds raw).Orderly false := by
  intro size
  dsimp only
  generalize driver? size ss = driver
  match driver with
  | none => exact Feed.orderly_failed _
  | some i =>
    dsimp only
    split
    next s feed _ hfeed =>
      cases s with
      | indexed q => exact orderly_windowsFrom _ _ _
      | _ => exact (h feed (List.mem_of_getElem? hfeed)).sift _
    next => exact Feed.orderly_failed _

theorem orderly_feed (raw : Bool) (s : Source) : (s.feed raw).Orderly false := by
  have hfeeds {raw : Bool} {ss : List Source} (ih : ∀ s ∈ ss, ∀ raw, (s.feed raw).Orderly false) :
      ∀ feed ∈ feeds raw ss, feed.Orderly false := by
    intro feed hfeed
    rw [feeds_eq_map] at hfeed
    obtain ⟨s, hs, rfl⟩ := List.mem_map.mp hfeed
    exact ih s hs raw
  induction s generalizing raw with
  | indexed q => exact orderly_windowsFrom _ _ _
  | conj ss ih =>
    rw [feed]
    split
    · exact orderly_conjFeed (hfeeds ih) raw
    · exact Feed.orderly_failed _
  | disj ss ih => exact (Feed.orderly_concat (hfeeds ih)).distinct _ _
  | filter p => exact Feed.orderly_failed _
  | matcher m => exact Feed.orderly_failed _

/-! ## The stream of a plan -/

theorem eq_deferred_of_read {raw : Bool} {s : Source} {stream : Stream Consult Document}
    (h : s.read raw = .ok stream) : stream = .deferred (s.feed raw) := by
  unfold read at h
  split at h
  · exact (Except.ok.inj h).symm
  · cases h

/-- The stream of a plan drains the course of its feed. -/
theorem drains_feed (s : Source) (raw : Bool) (ix : Index) {n : Nat} {t : Trace Consult}
    (ht : t.searches = n) : (Stream.deferred (s.feed raw)).Drains ix t ((s.feed raw).course ix n) :=
  ht ▸ Stream.drains_deferred (orderly_feed raw s) t

/-- Readers are opened late, one at a time, and always given back. Over
any index, let the stream of a plan be pulled and closed in any order; to
drop it is to close it. Then

* no call is made before the first pull;
* from a close on, no call is made but the one that releases the reader
  that is open, if one is;
* there are never two readers open at once, and no search is made while
  one is: the one before it has been released;
* behind the end of the stream and behind a close, every reader that was
  opened has been released, and released once. -/
theorem readers_one_at_a_time (ix : Index) (raw : Bool) (s : Source)
    (stream : Stream Consult Document) (h : s.read raw = .ok stream) (acts : List Stream.Act) :
    (Stream.Act.pull ∉ acts → (stream.run ix acts {}).trace.calls = [])
    ∧ (∀ before after, acts = before ++ .close :: after →
      ∃ n ≤ 1, (stream.run ix acts {}).trace.calls
        = (stream.run ix before {}).trace.calls ++ List.replicate n .release)
    ∧ Call.OneAtATime ix (stream.run ix acts {}).trace.calls
    ∧ (none ∈ (stream.run ix acts {}).replies ∨ Stream.Act.close ∈ acts →
      Call.opened ix (stream.run ix acts {}).trace.calls
        = Call.released (stream.run ix acts {}).trace.calls) := by
  obtain rfl := eq_deferred_of_read h
  have hstream := Stream.orderly_deferred (orderly_feed raw s)
  have hstart : Trace.Orderly ix ({} : Trace Consult) false := .start
  obtain ⟨held, -, htrace, hend⟩ := hstream.run hstart acts
  refine ⟨fun hacts => ?_, ?_, htrace.oneAtATime, fun hacts => ?_⟩
  · rw [Stream.run_of_untouched rfl hacts]
    rfl
  · rintro before after rfl
    obtain ⟨held, hstream, -, -⟩ := hstream.run hstart before
    refine ⟨held.toNat, Bool.toNat_le held, ?_⟩
    rw [Stream.run_append, Stream.calls_run_close, hstream.readers_eq]
  · rw [htrace.opened_eq, hend hacts, Bool.toNat_false, Nat.add_zero]

/-- An OR of two queries over an index that hands out one result at a
time: the third pull has closed two windows of the first query and opened
one of the second, which the close gives back. -/
theorem readers_one_at_a_time_sixChanges :
    let query (p : Predicate) : Source := .indexed (.ofWindow p ⟨0, 2, []⟩ 1)
    let s : Source := .disj
      [query (.leaf (.exact "topic" "x")), query (.leaf (.exact "project" "core"))]
    ∃ stream, s.read false = .ok stream
      ∧ let calls := (stream.run Store.sixChanges.toIndex
          [.pull, .pull, .pull, .close, .pull] {}).trace.calls
        Call.OneAtATime Store.sixChanges.toIndex calls
          ∧ Call.opened Store.sixChanges.toIndex calls = Call.released calls
          ∧ Call.released calls = 3 := by
  intro query s
  refine ⟨.deferred (s.feed false), rfl, ?_⟩
  obtain ⟨-, -, honce, hend⟩ := readers_one_at_a_time Store.sixChanges.toIndex false s _ rfl
    [.pull, .pull, .pull, .close, .pull]
  exact ⟨honce, hend (.inr (by decide)), by decide⟩

end ReviewSearch.Source
