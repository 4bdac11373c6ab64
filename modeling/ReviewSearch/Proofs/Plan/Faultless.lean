/-
ReviewSearch.Proofs.Plan.Faultless — plans ask a store for nothing that it
cannot answer.

* `faultless_feed` — over a store that supports all its index queries, a
  readable plan in which every child of an OR is readable delivers no
  fault, whatever its windows are;
* `plan_is_answered` — a query's plan is such a plan, so that reading it
  to its end never fails.

Unlike `ReviewSearch.Proofs.Plan.Enumeration`, nothing is said of what is
delivered, so the limits may be anything, and the store as large as it
likes.
-/
import Mathlib.Data.List.Basic
import ReviewSearch.Proofs.Plan.Enumeration
import ReviewSearch.Proofs.Plan.Shape

namespace ReviewSearch

/-! ## Feeds without faults -/

namespace Feed

variable {ν α β : Type} {ix : Index}

/-- A feed that delivers items only. -/
def Faultless (ix : Index) (feed : Feed ν α) : Prop :=
  ∃ xs : List α, feed.delivered ix = xs.map .ok

theorem Faultless.sift {feed : Feed ν α} (h : feed.Faultless ix) (f : α → List ν × Option β) :
    (feed.sift f).Faultless ix := by
  obtain ⟨xs, hxs⟩ := h
  exact ⟨_, delivered_sift_of_ok f hxs⟩

/-- Feeds that deliver good items only do so one behind the other. -/
theorem exists_delivered_concat {P : α → Prop} {fs : List (Feed ν α)}
    (h : ∀ f ∈ fs, ∃ xs : List α, f.delivered ix = xs.map .ok ∧ ∀ x ∈ xs, P x) :
    ∃ xs : List α, (concat fs).delivered ix = xs.map .ok ∧ ∀ x ∈ xs, P x := by
  induction fs with
  | nil => exact ⟨[], rfl, by simp⟩
  | cons f fs ih =>
    obtain ⟨⟨xs, hxs, hP⟩, hfs⟩ := List.forall_mem_cons.mp h
    obtain ⟨ys, hys, hP'⟩ := ih hfs
    refine ⟨xs ++ ys, ?_, List.forall_mem_append.mpr ⟨hP, hP'⟩⟩
    show (f.append (concat fs)).delivered ix = _
    rw [delivered_append, hxs, hys, List.map_append]

theorem faultless_concat {fs : List (Feed ν α)} (h : ∀ f ∈ fs, f.Faultless ix) :
    (concat fs).Faultless ix := by
  obtain ⟨xs, hxs, -⟩ := exists_delivered_concat (P := fun _ => True) fun f hf =>
    (h f hf).imp fun _ hxs => ⟨hxs, fun _ _ => trivial⟩
  exact ⟨xs, hxs⟩

theorem Faultless.distinct {feed : Feed ν α} (h : feed.Faultless ix) (key : α → Nat)
    (seen : List Nat) : (feed.distinct key seen).Faultless ix := by
  obtain ⟨xs, hxs⟩ := h
  exact ⟨_, delivered_distinct key seen hxs⟩

end Feed

namespace Source

variable {store : Store} {size : Predicate → Nat}

/-! ## Plans without faults -/

theorem faultless_windowsFrom {q : IndexQuery} {filters : List Source} {fields : List String}
    (hq : store.Supports q.predicate) (turns offset n : Nat) :
    (windowsFrom q filters fields turns offset n).Faultless (store.estimatedBy size) := by
  unfold Feed.Faultless
  rw [Feed.delivered_eq_answers (steady_estimatedBy store size) _ 0]
  obtain ⟨ds, -, hanswers⟩ := answers_windowsFrom_sublist filters fields
    (Store.serves_estimatedBy size hq) turns offset n 0
  exact ⟨_, hanswers.trans (handed_eq_map fields ds)⟩

/-- A readable AND has a driver, and reads it alone. -/
theorem faultless_conjFeed {ss : List Source} (hr : anyReadable ss = true)
    (hqueries : ∀ s ∈ ss, ∀ q ∈ s.queries, store.Supports q.predicate)
    (hfeeds : ∀ s ∈ ss, s.readable = true →
      (s.feed false).Faultless (store.estimatedBy size)) (raw : Bool) :
    (conjFeed ss (feeds false ss) raw).Faultless (store.estimatedBy size) := by
  obtain ⟨i, hi⟩ := exists_driver? size hr
  obtain ⟨s, hget, hsr⟩ := getElem?_of_driver? hi
  have hs := List.mem_of_getElem? hget
  unfold Feed.Faultless
  by_cases hq : ∃ q, s = .indexed q
  · obtain ⟨q, rfl⟩ := hq
    rw [delivered_conjFeed_of_indexed hi hget]
    exact faultless_windowsFrom (hqueries _ hs q (by simp)) _ _ _
  · rw [delivered_conjFeed_of_not_indexed hi hget (not_exists.mp hq)]
    exact (hfeeds _ hs hsr).sift _

theorem faultless_feed {s : Source} (hs : s.Built fun q => store.Supports q.predicate)
    (hr : s.readable = true) (raw : Bool) :
    (s.feed raw).Faultless (store.estimatedBy size) := by
  induction s generalizing raw with
  | indexed q => exact faultless_windowsFrom (hs.queries q (by simp)) _ _ _
  | conj ss ih =>
    rw [readable_conj, ← anyReadable_eq_any] at hr
    rw [feed, if_pos hr]
    exact faultless_conjFeed hr (fun s hmem => (hs.of_conj hmem).queries)
      (fun s hmem hsr => ih s hmem (hs.of_conj hmem) hsr false) raw
  | disj ss ih =>
    rw [feed, feeds_eq_map]
    refine (Feed.faultless_concat fun f hf => ?_).distinct _ _
    obtain ⟨s, hmem, rfl⟩ := List.mem_map.mp hf
    exact ih s hmem (hs.of_disj hmem).1 (hs.of_disj hmem).2 raw
  | filter p => simp at hr
  | matcher m => simp at hr

/-- Reading such a plan to its end gives records and no fault. -/
theorem exists_toList {s : Source} (hs : s.Built fun q => store.Supports q.predicate)
    (hr : s.readable = true) (raw : Bool) (t : Trace Consult) :
    ∃ stream ds, s.read raw = .ok stream
      ∧ (stream.toList (store.estimatedBy size) t).1 = .ok ds := by
  obtain ⟨ds, hds⟩ := faultless_feed hs hr raw
  exact ⟨_, ds, if_pos hr, Stream.read_deferred (steady_estimatedBy store size) hds none t⟩

end Source

namespace Planner

/-- What a query's plan asks of a store can be answered: the plan and the
children of its ORs are readable, its index queries are ANDs and ORs over
fields of the schema, and reading it to its end, whole or cut down to the
requested fields, gives no fault. -/
theorem plan_is_answered (store : Store) (limits : Limits) (scope? : Option Predicate)
    (w : Window) (p : Predicate) (log : Log) (s : Source)
    (h : (plan ⟨store.schema, limits, scope?⟩ w p log).1 = .ok s) :
    s.readable = true
      ∧ s.orsReadable = true
      ∧ (∀ q ∈ s.queries, Answerable store.schema q.predicate)
      ∧ ∀ raw t, ∃ stream ds, s.read raw = .ok stream
        ∧ (stream.toList store.toIndex t).1 = .ok ds := by
  obtain ⟨hbuilt, hr⟩ := built_of_root (plan_eq_ok_iff.mp h).1
  let pl : Planner := ⟨store.schema, limits, scope?⟩
  have hmade : ∀ q ∈ s.queries, pl.answerable q.predicate := by
    intro q hq
    obtain ⟨p, hp, rfl⟩ := hbuilt.queries q hq
    exact hp
  have hsupported : s.Built fun q => store.Supports q.predicate :=
    ⟨fun q hq => answers_of_answerable (hmade q hq), hbuilt.orsReadable⟩
  refine ⟨hr, hbuilt.orsReadable, fun q hq => answerable_iff.mp (hmade q hq), fun raw t => ?_⟩
  exact store.estimatedBy_cardinality ▸ Source.exists_toList hsupported hr raw t

/-- A query of all kinds of parts, whose plan merges a project and a topic
into one index query in front of a file that the schema does not have, and
puts a NOT under the scope. The index hands out one result at a time. -/
theorem plan_is_answered_sixChanges :
    let p : Predicate := .disj
      [.conj [.leaf (.exact "project" "core"), .leaf (.limit 3), .leaf (.exact "topic" "x"),
        .leaf (.exact "file" "a")], .neg (.leaf (.exact "topic" "x"))]
    let limits : Limits := { maxLimit := 1 }
    ∃ s, (plan ⟨Store.sixChanges.schema, limits, some (.leaf .statusOpen)⟩ ⟨0, 11, []⟩ p
        ⟨.fatal, []⟩).1 = .ok s
      ∧ s.queries.map IndexQuery.predicate
        = [.conj [.leaf (.exact "project" "core"), .leaf (.exact "topic" "x")], .leaf .statusOpen]
      ∧ ∃ stream ds, s.read false = .ok stream
        ∧ (stream.toList Store.sixChanges.toIndex {}).1 = .ok ds := by
  intro p limits
  let pl : Planner := ⟨Store.sixChanges.schema, limits, some (.leaf .statusOpen)⟩
  have hroot : Outcome.root pl ⟨0, 11, []⟩ p = .ok (.disj
      [.conj [pl.query ⟨0, 11, []⟩
          (.conj [.leaf (.exact "project" "core"), .leaf (.exact "topic" "x")]),
        .filter (.leaf (.exact "file" "a"))],
      .conj [pl.query ⟨0, 11, []⟩ (.leaf .statusOpen),
        .filter (.neg (.leaf (.exact "topic" "x")))]]) := rfl
  have hplan : (pl.plan ⟨0, 11, []⟩ p ⟨.fatal, []⟩).1 = .ok _ :=
    plan_eq_ok_iff.mpr ⟨hroot, by decide⟩
  obtain ⟨-, -, -, hread⟩ := plan_is_answered Store.sixChanges limits (some (.leaf .statusOpen))
    ⟨0, 11, []⟩ p ⟨.fatal, []⟩ _ hplan
  exact ⟨_, hplan, rfl, hread false {}⟩

end Planner

end ReviewSearch
