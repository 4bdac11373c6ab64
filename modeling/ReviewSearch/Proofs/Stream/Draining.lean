/-
ReviewSearch.Proofs.Stream.Draining — streams that are pulled to their end.

A stream DRAINS a course (`Stream.Drains`) if pulls are answered by the
answers of the course, one by one, and by the end from then on, and if the
calls of the course have been made by then.

* `Feed.exists_follows` — one pull makes the moves of a course up to the
  first answer;
* `Stream.drains_deferred` — so the stream of an orderly feed drains the
  course of the feed.
-/
import ReviewSearch.Proofs.Stream.Course

namespace ReviewSearch

variable {ν α : Type}

/-! ## Pulls -/

/-- A pull makes the moves of the course up to the first answer, or all of
them. -/
structure Pull.Follows {ν α : Type} (ix : Index) (p : Pull ν α) (t : Trace ν)
    (before c : Course ν α) : Prop where
  answers : before.answers = []
  calls : p.trace.calls = t.calls ++ before.calls
  reply : p.reply = none → c = before
  rest {x : Except Fault α} (h : p.reply = some x) :
    c = before ++ .answer x :: p.rest.course ix p.trace.searches

theorem Pull.Follows.call {p : Pull ν α} {t t' : Trace ν} {before c : Course ν α} {ix : Index}
    (h : p.Follows ix t' before c) {cs : List (Call ν)} (ht : t'.calls = t.calls ++ cs) :
    p.Follows ix t (Course.ofCalls cs ++ before) (Course.ofCalls cs ++ c) where
  answers := by simp [h.answers]
  calls := by simp [h.calls, ht]
  reply hp := by rw [h.reply hp]
  rest hp := by rw [h.rest hp, List.append_assoc]

namespace Feed

variable {ix : Index}

theorem searches_recordAll (t : Trace ν) (cs : List (Call ν)) :
    (t.recordAll cs).searches = t.searches := by
  induction cs generalizing t with
  | nil => rfl
  | cons c cs ih => exact ih (t.record c)

theorem exists_follows (feed : Feed ν α) (ix : Index) (readers : Nat) (t : Trace ν) :
    ∃ before, (feed.pull ix readers t).Follows ix t before (feed.course ix t.searches) := by
  induction feed generalizing readers t with
  | done => exact ⟨[], rfl, (List.append_nil _).symm, fun _ => rfl, nofun⟩
  | reply r rest _ =>
    cases r with
    | none => exact ⟨[], rfl, (List.append_nil _).symm, fun _ => rfl, nofun⟩
    | some x =>
      refine ⟨[], rfl, (List.append_nil _).symm, nofun, fun h => ?_⟩
      obtain rfl := Option.some.inj h
      rfl
  | note n rest ih =>
    obtain ⟨before, h⟩ := ih readers (t.record (.note n))
    exact ⟨_, h.call (Trace.calls_record t (.note n))⟩
  | search p w next ih =>
    obtain ⟨before, h⟩ := ih (ix.search (t.searches + 1) p w) _ (t.recordSearch p w)
    exact ⟨_, h.call (Trace.calls_recordSearch t p w)⟩
  | estimate ps next ih =>
    obtain ⟨before, h⟩ := ih ix.cardinality readers (t.recordAll (ps.map .cardinality))
    rw [searches_recordAll] at h
    exact ⟨_, h.call (Trace.calls_recordAll t (ps.map .cardinality))⟩
  | release rest ih =>
    obtain ⟨before, h⟩ := ih (readers - 1) (t.record .release)
    exact ⟨_, h.call (Trace.calls_record t .release)⟩

end Feed

/-! ## Streams -/

namespace Stream

variable {ix : Index} {t : Trace ν} {c : Course ν α}

/-- A stream that follows a course: it answers pulls by the answers of the
course, and by the end from then on; and when it has come to the end, it
has made the calls of the course. -/
structure Drains (ix : Index) (s : Stream ν α) (t : Trace ν) (c : Course ν α) : Prop where
  replies (k : Nat) : (s.run ix (List.replicate k .pull) t).replies
    = (List.range k).map fun j => c.answers[j]?
  calls {k : Nat} (h : c.answers.length < k) :
    (s.run ix (List.replicate k .pull) t).trace.calls = t.calls ++ c.calls

namespace Drains

variable {s : Stream ν α} {c' : Course ν α}

/-- A stream that is drained gives one list of answers. -/
theorem answers_unique (h : s.Drains ix t c) (h' : s.Drains ix t c') : c.answers = c'.answers := by
  refine List.ext_getElem? fun j => ?_
  have hreplies := (h.replies (j + 1)).symm.trans (h'.replies (j + 1))
  exact List.map_inj_left.mp hreplies j (List.mem_range.mpr (Nat.lt_succ_self j))

theorem items_unique (h : s.Drains ix t c) (h' : s.Drains ix t c') : c.items = c'.items :=
  congrArg itemsOf (h.answers_unique h')

end Drains

theorem replies_run_of_closed (k : Nat) (t : Trace ν) :
    ((⟨.closed, 0⟩ : Stream ν α).run ix (List.replicate k .pull) t).replies
      = List.replicate k none := by
  induction k with
  | zero => rfl
  | succ k ih => exact congrArg (none :: ·) ih

/-- The stream of an orderly feed drains the course of the feed. -/
theorem drains_opened {feed : Feed ν α} {held : Bool} (h : feed.Orderly held) (t : Trace ν) :
    (⟨.opened feed, held.toNat⟩ : Stream ν α).Drains ix t (feed.course ix t.searches) := by
  suffices hrun : ∀ k, ∀ {feed : Feed ν α} {held : Bool}, feed.Orderly held → ∀ t : Trace ν,
      let run := (⟨.opened feed, held.toNat⟩ : Stream ν α).run ix (List.replicate k .pull) t
      let c := feed.course ix t.searches
      run.replies = (List.range k).map (fun j => c.answers[j]?)
        ∧ (c.answers.length < k → run.trace.calls = t.calls ++ c.calls) from
    ⟨fun k => (hrun k h t).1, fun {k} => (hrun k h t).2⟩
  intro k
  induction k with
  | zero => exact fun _ t => ⟨rfl, fun h => absurd h (Nat.not_lt_zero _)⟩
  | succ k ih =>
    intro feed held h t
    obtain ⟨held', hreaders, hrest, hend, -⟩ := h.exists_held ix t
    obtain ⟨before, hbefore⟩ := feed.exists_follows ix held.toNat t
    simp only [List.replicate_succ, run, next, nextOf, List.range_succ_eq_map, List.map_cons,
      List.map_map]
    generalize feed.pull ix held.toNat t = p at hreaders hrest hend hbefore
    obtain ⟨reply, rest, readers, trace⟩ := p
    obtain rfl : readers = held'.toNat := hreaders
    cases reply with
    | none =>
      -- the end closes the stream, with no reader left to release
      obtain rfl := hend rfl
      have hc := hbefore.reply rfl
      obtain ⟨-, htrace⟩ := @run_of_closed ν α ix (List.replicate k .pull) trace
      have hnone : before.answers = [] := hbefore.answers
      simp only [close, hc, hnone]
      have hends : List.replicate k none
          = (List.range k).map ((fun j => ([] : List (Except Fault α))[j]?) ∘ Nat.succ) := by
        simp [Function.comp_def]
      exact ⟨congrArg (none :: ·) ((replies_run_of_closed k trace).trans hends),
        fun _ => (congrArg Trace.calls htrace).trans hbefore.calls⟩
    | some x =>
      obtain ⟨hreplies, hcalls⟩ := ih (hrest x rfl) trace
      rw [hbefore.rest rfl, Course.answers_append, hbefore.answers, Course.calls_append]
      refine ⟨congrArg (some x :: ·) hreplies, fun hk => ?_⟩
      rw [hcalls (Nat.lt_of_succ_lt_succ hk), hbefore.calls, List.append_assoc]
      rfl

theorem drains_deferred {feed : Feed ν α} (h : feed.Orderly false) (t : Trace ν) :
    (deferred feed).Drains ix t (feed.course ix t.searches) := by
  have hopened : (⟨.opened feed, 0⟩ : Stream ν α).Drains ix t _ := drains_opened h t
  refine ⟨fun k => ?_, fun {k} hk => ?_⟩
  · cases k with
    | zero => rfl
    | succ k => exact hopened.replies (k + 1)
  · cases k with
    | zero => exact absurd hk (Nat.not_lt_zero _)
    | succ k => exact hopened.calls hk

end Stream

end ReviewSearch
