/-
ReviewSearch.Proofs.Stream.Delivery — what a feed delivers.

An index is STEADY if the answer to a search does not depend on its
number. Over a steady index a feed delivers one list of items and faults,
whatever has been read before: `Feed.delivered` walks through the feed
and collects its answers up to the first end.

`Feed.gather_of_delivered`, `Stream.read_deferred`: reading a feed that
delivers no fault gives a front of its list, as many items as are wanted,
or all.
-/
import Mathlib.Data.List.Basic
import ReviewSearch.Proofs.Order.Distinct
import ReviewSearch.Stream.Basic

namespace ReviewSearch

/-- The same search has the same answer, whatever its number. -/
def Index.Steady (ix : Index) : Prop :=
  ∀ m n p w, ix.search m p w = ix.search n p w

namespace Feed

variable {ν α : Type} {ix : Index}

/-- All answers of a feed up to its first end. -/
def delivered (ix : Index) : Feed ν α → List (Except Fault α)
  | done => []
  | reply none _ => []
  | reply (some x) rest => x :: delivered ix rest
  | note _ rest => delivered ix rest
  | search p w next => delivered ix (next (ix.search 0 p w))
  | estimate _ next => delivered ix (next ix.cardinality)
  | release rest => delivered ix rest

/-! ## Reading -/

/-- Over a steady index, a feed without faults is read up to the items
that are wanted. -/
theorem gather_of_delivered (hix : ix.Steady) {want : Option Nat} (hwant : want ≠ some 0)
    {feed : Feed ν α} {xs : List α} (h : feed.delivered ix = xs.map .ok) (readers : Nat)
    (t : Trace ν) :
    (feed.gather ix want readers t).items = want.elim xs xs.take
      ∧ (feed.gather ix want readers t).fault? = none := by
  induction feed generalizing want xs readers t with
  | done =>
    rw [List.map_eq_nil_iff.mp h.symm]
    cases want <;> simp [gather]
  | reply r rest ih =>
    match r with
    | none =>
      rw [List.map_eq_nil_iff.mp h.symm]
      cases want <;> simp [gather]
    | some (.error e) =>
      obtain ⟨x, xs, rfl, hx, _⟩ := List.map_eq_cons_iff.mp h.symm
      exact absurd hx (by simp)
    | some (.ok a) =>
      obtain ⟨x, xs, rfl, hx, hxs⟩ := List.map_eq_cons_iff.mp h.symm
      obtain rfl : x = a := Except.ok.inj hx
      match want with
      | none =>
        obtain ⟨hitems, hfault⟩ := ih hwant hxs.symm readers t
        simp [gather, Gathered.cons, hitems, hfault]
      | some 1 => simp [gather]
      | some (n + 2) =>
        have hless : some (n + 1) ≠ some 0 := by simp
        obtain ⟨hitems, hfault⟩ := ih hless hxs.symm readers t
        simp [gather, Gathered.cons, hitems, hfault]
  | note n rest ih => exact ih hwant h _ _
  | search p w next ih =>
    have hsearch : ix.search (t.searches + 1) p w = ix.search 0 p w := hix _ _ p w
    simp only [gather, hsearch]
    exact ih _ hwant h _ _
  | estimate ps next ih => exact ih _ hwant h _ _
  | release rest ih => exact ih hwant h _ _

end Feed

/-- A pending stream whose feed delivers no fault is read up to the items
that are wanted. -/
theorem Stream.read_deferred {ν α : Type} {ix : Index} (hix : ix.Steady) {feed : Feed ν α}
    {xs : List α} (h : feed.delivered ix = xs.map .ok) (want : Option Nat) (t : Trace ν) :
    ((Stream.deferred feed).read ix want t).1 = .ok (want.elim xs xs.take) := by
  unfold Stream.read
  by_cases hwant : want = some 0
  · simp [hwant]
  · obtain ⟨hitems, hfault⟩ := Feed.gather_of_delivered hix hwant h 0 t
    simp [hwant, Stream.toFeed, Stream.deferred, Feed.notes, hitems, hfault]

end ReviewSearch
