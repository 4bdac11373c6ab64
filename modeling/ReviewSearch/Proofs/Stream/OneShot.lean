/-
ReviewSearch.Proofs.Stream.OneShot — a stream is opened once and read once.

A stream stands over an opener, and any number of changes to its items may
be laid over it (`Layers`). Whatever its opener gives, and in whatever order
it is pulled and closed, the replies are those beneath up to their first
end, each item changed by every layer (`upToEnd`, `Layers.apply`).

* `Stream.Ready` — a stream that is open over what is left;
* `Stream.Ready.next_nil`, `next_cons` — what one pull does to it, and
  `Stream.Ready.run` what a run does;
* `Layers.next_wrap` — the first pull runs the opener and then pulls the
  open stream, unless the opener of the stream itself fails;
* `Layers.account_run_wrap` — so the account of a whole run, and of reading
  what it leaves to the end.
-/
import ReviewSearch.Index.Store
import ReviewSearch.Proofs.Stream.Course

namespace ReviewSearch

variable {ν α β γ : Type}

/-! ## What is beneath -/

/-- Replies up to their first end. -/
def upToEnd : List (Reply α) → List (Except Fault α)
  | [] => []
  | none :: _ => []
  | some x :: rs => x :: upToEnd rs

/-- What an opener has beneath it: its replies up to their first end, or the
fault with which it fails. -/
def beneath (outcome : Except Fault (List (Reply α))) : List (Except Fault α) :=
  match outcome with
  | .ok rs => upToEnd rs
  | .error f => [.error f]

/-- Changes to the items of a stream, laid one over the other. -/
inductive Layers (ν α : Type) : Type → Type 1
  | bare : Layers ν α α
  | layer {β γ : Type} (inner : Layers ν α β) (f : β → List ν × γ) : Layers ν α γ

namespace Layers

/-- The stream with every change laid over it. -/
def wrap : {β : Type} → Layers ν α β → Stream ν α → Stream ν β
  | _, bare, s => s
  | _, layer inner f, s => (inner.wrap s).mapItems f

/-- What becomes of an item, and the notes left of it: every layer changes
it once, the innermost first. -/
def apply : {β : Type} → Layers ν α β → α → List ν × β
  | _, bare, a => ([], a)
  | _, layer inner f, a => ((inner.apply a).1 ++ (f (inner.apply a).2).1, (f (inner.apply a).2).2)

def isBare : {β : Type} → Layers ν α β → Bool
  | _, bare => true
  | _, layer _ _ => false

/-- The step of a feed under all layers. -/
def step (L : Layers ν α β) (a : α) : List ν × Option β :=
  ((L.apply a).1, some (L.apply a).2)

/-- The notes that are left of answers. -/
def notesOf (L : Layers ν α β) (xs : List (Except Fault α)) : List ν :=
  (itemsOf xs).flatMap fun a => (L.apply a).1

/-- An answer as it comes through all layers. -/
def through (L : Layers ν α β) (x : Except Fault α) : Except Fault β :=
  x.map fun a => (L.apply a).2

@[simp] theorem notesOf_nil (L : Layers ν α β) : L.notesOf [] = [] := rfl

@[simp] theorem notesOf_append (L : Layers ν α β) (xs ys : List (Except Fault α)) :
    L.notesOf (xs ++ ys) = L.notesOf xs ++ L.notesOf ys := by
  simp [notesOf]

theorem notesOf_cons (L : Layers ν α β) (x : Except Fault α) (xs : List (Except Fault α)) :
    L.notesOf (x :: xs) = L.notesOf [x] ++ L.notesOf xs :=
  L.notesOf_append [x] xs

end Layers

/-! ## Feeds under layers -/

namespace Feed

theorem pull_notes (ix : Index) (ns : List ν) (feed : Feed ν α) (readers : Nat) (t : Trace ν) :
    (notes ns feed).pull ix readers t = feed.pull ix readers (t.recordAll (ns.map .note)) := by
  induction ns generalizing t with
  | nil => rfl
  | cons n ns ih => exact ih (t.record (.note n))

theorem gather_notes (ix : Index) (want : Option Nat) (ns : List ν) (feed : Feed ν α)
    (readers : Nat) (t : Trace ν) : (notes ns feed).gather ix want readers t
      = feed.gather ix want readers (t.recordAll (ns.map .note)) := by
  induction ns generalizing t with
  | nil => rfl
  | cons n ns ih => exact ih (t.record (.note n))

theorem notes_append (ns ns' : List ν) (feed : Feed ν α) :
    notes (ns ++ ns') feed = notes ns (notes ns' feed) :=
  List.foldr_append

theorem sift_notes (f : α → List ν × Option β) (ns : List ν) (feed : Feed ν α) :
    (notes ns feed).sift f = notes ns (feed.sift f) := by
  induction ns with
  | nil => rfl
  | cons n ns ih => exact congrArg (note n) ih

/-- Items that are passed as they are leave the feed as it is. -/
theorem sift_bare (feed : Feed ν α) : feed.sift (Layers.bare (ν := ν)).step = feed := by
  induction feed with
  | done => rfl
  | reply r rest ih =>
    match r with
    | none | some (.error _) | some (.ok _) => exact congrArg (reply _) ih
  | note n rest ih => exact congrArg (note n) ih
  | search p w next ih => exact congrArg (search p w) (funext ih)
  | estimate ps next ih => exact congrArg (estimate ps) (funext ih)
  | release rest ih => exact congrArg release ih

/-- A layer over others passes what they pass. -/
theorem sift_layer (L : Layers ν α β) (f : β → List ν × γ) (feed : Feed ν α) :
    (feed.sift L.step).sift (fun b => ((f b).1, some (f b).2)) = feed.sift (L.layer f).step := by
  induction feed with
  | done => rfl
  | reply r rest ih =>
    match r with
    | none | some (.error _) => exact congrArg (reply _) ih
    | some (.ok a) =>
      simp only [sift, Layers.step, Layers.apply, sift_notes, notes_append] at ih ⊢
      rw [ih]
  | note n rest ih => exact congrArg (note n) ih
  | search p w next ih => exact congrArg (search p w) (funext ih)
  | estimate ps next ih => exact congrArg (estimate ps) (funext ih)
  | release rest ih => exact congrArg release ih

end Feed

theorem Layers.toFeed_wrap (L : Layers ν α β) (s : Stream ν α) :
    (L.wrap s).toFeed = s.toFeed.sift L.step := by
  induction L with
  | bare => exact (Feed.sift_bare s.toFeed).symm
  | layer inner f ih =>
    rw [← Feed.sift_layer, ← ih]
    rfl

namespace Stream

variable {ix : Index} {s : Stream ν β} {t : Trace ν} {L : Layers ν α β}
  {xs : List (Except Fault α)}

/-! ## An open stream -/

/-- A stream that is open, with the answers `xs` left beneath its layers. -/
def Ready (L : Layers ν α β) (s : Stream ν β) (xs : List (Except Fault α)) : Prop :=
  ∃ rs, upToEnd rs = xs ∧ s = ⟨.opened ((Feed.ofReplies rs).sift L.step), 0⟩

/-- With nothing left, a pull is answered by the end and closes the
stream. -/
theorem Ready.next_nil (h : Ready L s []) (ix : Index) (t : Trace ν) :
    s.next ix t = (none, ⟨.closed, 0⟩, t) := by
  obtain ⟨rs, hrs, rfl⟩ := h
  match rs with
  | [] | none :: _ => rfl
  | some _ :: _ => cases hrs

/-- An answer beneath comes through all layers, which leave their notes of
it, and the rest is left. -/
theorem Ready.next_cons {x : Except Fault α} (h : Ready L s (x :: xs)) (ix : Index)
    (t : Trace ν) :
    ∃ s', Ready L s' xs
      ∧ s.next ix t = (some (L.through x), s', t.recordAll ((L.notesOf [x]).map .note)) := by
  obtain ⟨rs, hrs, rfl⟩ := h
  match rs with
  | [] | none :: _ => cases hrs
  | some y :: rs =>
    obtain ⟨rfl, rfl⟩ := List.cons.inj hrs
    refine ⟨_, ⟨rs, rfl, rfl⟩, ?_⟩
    cases y with
    | error e => rfl
    | ok a =>
      have hnotes : L.notesOf [.ok a] = (L.apply a).1 := List.append_nil _
      simp only [next, nextOf, Feed.ofReplies, Feed.sift, Layers.step, Feed.pull_notes, Feed.pull,
        hnotes]
      rfl

/-! ## Runs -/

/-- How often a stream is pulled before it is closed. -/
def pullsBeforeClose (acts : List Act) : Nat :=
  (acts.takeWhile (· = .pull)).length

@[simp] theorem pullsBeforeClose_nil : pullsBeforeClose [] = 0 := rfl

@[simp] theorem pullsBeforeClose_close (acts : List Act) :
    pullsBeforeClose (.close :: acts) = 0 := rfl

@[simp] theorem pullsBeforeClose_pull (acts : List Act) :
    pullsBeforeClose (.pull :: acts) = pullsBeforeClose acts + 1 := rfl

/-- The replies to `n` pulls of which only the first `k` find the stream
open. -/
def repliesOf (answers : List (Except Fault β)) (k n : Nat) : List (Reply β) :=
  (List.range n).map fun i => if i < k then answers[i]? else none

theorem repliesOf_zero (answers : List (Except Fault β)) (n : Nat) :
    repliesOf answers 0 n = List.replicate n none := by
  simp [repliesOf, List.map_const']

theorem repliesOf_nil (k n : Nat) :
    repliesOf ([] : List (Except Fault β)) k n = List.replicate n none := by
  simp [repliesOf, List.map_const']

theorem repliesOf_cons (x : Except Fault β) (answers : List (Except Fault β)) (k n : Nat) :
    repliesOf (x :: answers) (k + 1) (n + 1) = some x :: repliesOf answers k n := by
  simp [repliesOf, List.range_succ_eq_map, Function.comp_def]

/-- A closed stream answers every pull with the end. -/
theorem replies_run_closed (acts : List Act) (t : Trace ν) :
    ((⟨.closed, 0⟩ : Stream ν β).run ix acts t).replies
      = List.replicate (acts.count .pull) none := by
  induction acts generalizing t with
  | nil => rfl
  | cons act acts ih =>
    cases act with
    | close => exact ih t
    | pull =>
      rw [List.count_cons_self, List.replicate_succ]
      exact congrArg (none :: ·) (ih t)

/-- What a run does to an open stream. -/
structure Ready.Ran (L : Layers ν α β) (xs : List (Except Fault α)) (acts : List Act)
    (t : Trace ν) (r : Run ν β) : Prop where
  replies : r.replies
    = repliesOf (xs.map L.through) (pullsBeforeClose acts) (acts.count .pull)
  calls : r.trace.calls
    = t.calls ++ (L.notesOf (xs.take (pullsBeforeClose acts))).map .note
  closed (h : .close ∈ acts ∨ xs.length < pullsBeforeClose acts) : r.stream = ⟨.closed, 0⟩
  ready (h : ¬(.close ∈ acts ∨ xs.length < pullsBeforeClose acts)) :
    Ready L r.stream (xs.drop (pullsBeforeClose acts))

theorem Ready.run (h : Ready L s xs) (ix : Index) (acts : List Act) (t : Trace ν) :
    Ready.Ran L xs acts t (s.run ix acts t) := by
  induction acts generalizing s xs t with
  | nil =>
    refine ⟨rfl, ?_, ?_, fun _ => h⟩
    · simp [Stream.run]
    · simp
  | cons act acts ih =>
    cases act with
    | close =>
      have hreaders : s.readers = 0 := by
        obtain ⟨rs, -, rfl⟩ := h
        rfl
      obtain ⟨hstream, htrace⟩ := @run_of_closed ν β ix acts t
      have hrun : s.run ix (.close :: acts) t = (⟨.closed, 0⟩ : Stream ν β).run ix acts t := by
        rw [Stream.run, Stream.close, hreaders]
        rfl
      rw [hrun]
      refine ⟨?_, ?_, fun _ => hstream, fun hnot => absurd (.inl List.mem_cons_self) hnot⟩
      · rw [replies_run_closed, pullsBeforeClose_close, repliesOf_zero]
        rfl
      · simp [htrace]
    | pull =>
      cases xs with
      | nil =>
        obtain ⟨hstream, htrace⟩ := @run_of_closed ν β ix acts t
        have hrun : s.run ix (.pull :: acts) t
            = { (⟨.closed, 0⟩ : Stream ν β).run ix acts t with
                replies := none :: ((⟨.closed, 0⟩ : Stream ν β).run ix acts t).replies } := by
          rw [Stream.run, h.next_nil]
        rw [hrun]
        refine ⟨?_, ?_, fun _ => hstream, fun hnot => absurd (.inr ?_) hnot⟩
        · rw [List.map_nil, repliesOf_nil, replies_run_closed, List.count_cons_self]
          rfl
        · simp [htrace]
        · exact Nat.succ_pos _
      | cons x xs =>
        obtain ⟨s', hs', hnext⟩ := h.next_cons ix t
        have hran := ih hs' (t.recordAll ((L.notesOf [x]).map .note))
        have hopen : (Act.close ∈ Act.pull :: acts
            ∨ (x :: xs).length < pullsBeforeClose (.pull :: acts))
            ↔ (Act.close ∈ acts ∨ xs.length < pullsBeforeClose acts) := by simp
        simp only [Stream.run, hnext]
        refine ⟨?_, ?_, fun hclosed => hran.closed (hopen.mp hclosed),
          fun hnot => hran.ready (hnot ∘ hopen.mpr)⟩
        · rw [List.map_cons, pullsBeforeClose_pull, List.count_cons_self, repliesOf_cons,
            ← hran.replies]
        · rw [hran.calls, Trace.calls_recordAll, pullsBeforeClose_pull, List.take_succ_cons,
            L.notesOf_cons x (xs.take _), List.map_append, List.append_assoc]

/-! ## Reading to the end -/

/-- Reading the answers `xs` to their end, behind notes `ns`: the items in
front of the first fault are changed by all layers, and there is nothing
else and they are the result, or the fault is. -/
def ReadsOut (L : Layers ν α β) (ns : List ν) (xs : List (Except Fault α)) (t : Trace ν)
    (result : Except Fault (List β) × Trace ν) : Prop :=
  ∃ (items : List α) (rest : List (Except Fault α)), xs = items.map .ok ++ rest
    ∧ result.2.calls = t.calls ++ (ns ++ L.notesOf (items.map .ok)).map .note
    ∧ (rest = [] ∧ result.1 = .ok (items.map fun a => (L.apply a).2)
      ∨ ∃ e more, rest = .error e :: more ∧ result.1 = .error e)

/-- The same of what is gathered, with `n` readers open. -/
def Gathers (L : Layers ν α β) (xs : List (Except Fault α)) (n : Nat) (t : Trace ν)
    (g : Feed.Gathered ν β) : Prop :=
  ∃ (items : List α) (rest : List (Except Fault α)), xs = items.map .ok ++ rest
    ∧ g.items = items.map (fun a => (L.apply a).2) ∧ g.readers = n
    ∧ g.trace.calls = t.calls ++ (L.notesOf (items.map .ok)).map .note
    ∧ (rest = [] ∧ g.fault? = none ∨ ∃ e more, rest = .error e :: more ∧ g.fault? = some e)

theorem gathers_sift_ofReplies (L : Layers ν α β) (ix : Index) (rs : List (Reply α)) (n : Nat)
    (t : Trace ν) :
    Gathers L (upToEnd rs) n t (((Feed.ofReplies rs).sift L.step).gather ix none n t) := by
  induction rs generalizing t with
  | nil => exact ⟨[], [], rfl, rfl, rfl, (List.append_nil _).symm, .inl ⟨rfl, rfl⟩⟩
  | cons r rs ih =>
    match r with
    | none => exact ⟨[], [], rfl, rfl, rfl, (List.append_nil _).symm, .inl ⟨rfl, rfl⟩⟩
    | some (.error e) =>
      exact ⟨[], .error e :: upToEnd rs, rfl, rfl, rfl, (List.append_nil _).symm,
        .inr ⟨e, _, rfl, rfl⟩⟩
    | some (.ok a) =>
      have hgather : ((Feed.ofReplies (some (.ok a) :: rs)).sift L.step).gather ix none n t
          = (((Feed.ofReplies rs).sift L.step).gather ix none n
              (t.recordAll ((L.notesOf [.ok a]).map .note))).cons (L.apply a).2 := by
        simp [Feed.ofReplies, Feed.sift, Layers.step, Feed.gather_notes, Feed.gather,
          Layers.notesOf]
      obtain ⟨items, rest, hxs, hitems, hreaders, hcalls, hend⟩ :=
        ih (t.recordAll ((L.notesOf [.ok a]).map .note))
      rw [hgather]
      refine ⟨a :: items, rest, by rw [upToEnd, hxs]; rfl, congrArg _ hitems, hreaders, ?_, hend⟩
      refine hcalls.trans ?_
      rw [Trace.calls_recordAll, List.map_cons, L.notesOf_cons (.ok a) (items.map .ok),
        List.map_append, List.append_assoc]

theorem readsOut_toList {ns : List ν} {rs : List (Reply α)} (hs : s.readers = 0)
    (hfeed : s.toFeed = Feed.notes ns ((Feed.ofReplies rs).sift L.step)) (ix : Index)
    (t : Trace ν) : ReadsOut L ns (upToEnd rs) t (s.toList ix t) := by
  obtain ⟨items, rest, hxs, hitems, hreaders, hcalls, hend⟩ :=
    gathers_sift_ofReplies L ix rs 0 (t.recordAll (ns.map .note))
  refine ⟨items, rest, hxs, ?_⟩
  simp only [toList, read, hs, hfeed, Feed.gather_notes, reduceCtorEq, if_false]
  generalize ((Feed.ofReplies rs).sift L.step).gather ix none 0 _ = g
    at hitems hreaders hcalls hend
  have htrace : (g.trace.recordAll (List.replicate g.readers .release)).calls
      = t.calls ++ (ns ++ L.notesOf (items.map .ok)).map .note := by
    rw [hreaders, List.replicate_zero, Trace.calls_recordAll, hcalls, Trace.calls_recordAll,
      List.append_nil, List.map_append, List.append_assoc]
  rcases hend with ⟨rfl, hfault⟩ | ⟨e, more, rfl, hfault⟩
  · rw [hfault]
    exact ⟨htrace, .inl ⟨rfl, by rw [hitems]⟩⟩
  · rw [hfault]
    exact ⟨htrace, .inr ⟨e, more, rfl, rfl⟩⟩

theorem Ready.readsOut (h : Ready L s xs) (ix : Index) (t : Trace ν) :
    ReadsOut L [] xs t (s.toList ix t) := by
  obtain ⟨rs, rfl, rfl⟩ := h
  exact readsOut_toList rfl rfl ix t

theorem readsOut_closed (L : Layers ν α β) (ix : Index) (t : Trace ν) :
    ReadsOut L [] ([] : List (Except Fault α)) t ((⟨.closed, 0⟩ : Stream ν β).toList ix t) :=
  have hfeed : (⟨.closed, 0⟩ : Stream ν β).toFeed
      = Feed.notes [] ((Feed.ofReplies ([] : List (Reply α))).sift L.step) := rfl
  readsOut_toList rfl hfeed ix t

end Stream

/-! ## From the start -/

namespace Layers

variable {opening : List ν} {outcome : Except Fault (List (Reply α))} {ix : Index} {t : Trace ν}

theorem readers_wrap (L : Layers ν α β) (s : Stream ν α) : (L.wrap s).readers = s.readers := by
  induction L with
  | bare => rfl
  | layer inner f ih => exact ih

theorem exists_toFeed_wrap (L : Layers ν α β) (opening : List ν)
    (outcome : Except Fault (List (Reply α))) : ∃ rs, upToEnd rs = beneath outcome
      ∧ (L.wrap (.ofOpener ⟨opening, outcome.map .ofReplies⟩)).toFeed
        = Feed.notes opening ((Feed.ofReplies rs).sift L.step) := by
  simp only [toFeed_wrap, ← Feed.sift_notes]
  cases outcome with
  | ok rs => exact ⟨rs, rfl, rfl⟩
  | error f => exact ⟨[some (.error f)], rfl, rfl⟩

theorem nextOf_notes (ix : Index) (ns : List ν) (feed : Feed ν α) (readers : Nat) (t : Trace ν) :
    Stream.nextOf ix (Feed.notes ns feed) readers t
      = Stream.nextOf ix feed readers (t.recordAll (ns.map .note)) := by
  rw [Stream.nextOf, Feed.pull_notes, Stream.nextOf]

/-- The opener of the stream itself fails, with no layer over it. -/
def FailsBare (L : Layers ν α β) (outcome : Except Fault (List (Reply α))) : Prop :=
  outcome.isOk = false ∧ L.isBare = true

/-- Then the fault is the reply to the first pull, which closes the
stream. -/
theorem next_wrap_of_failsBare {L : Layers ν α β} (h : L.FailsBare outcome) (opening : List ν)
    (ix : Index) (t : Trace ν) : ∃ f, beneath outcome = [.error f]
      ∧ (L.wrap (.ofOpener ⟨opening, outcome.map .ofReplies⟩)).next ix t
        = (some (.error f), ⟨.closed, 0⟩, t.recordAll (opening.map .note)) := by
  obtain ⟨houtcome, hbare⟩ := h
  cases outcome with
  | ok rs => cases houtcome
  | error f =>
    cases L with
    | layer inner f => cases hbare
    | bare => exact ⟨f, rfl, rfl⟩

/-- Otherwise the first pull runs the opener, and then pulls an open
stream. -/
theorem next_wrap {L : Layers ν α β} (h : ¬L.FailsBare outcome) (opening : List ν) (ix : Index)
    (t : Trace ν) :
    ∃ s, Stream.Ready L s (beneath outcome)
      ∧ (L.wrap (.ofOpener ⟨opening, outcome.map .ofReplies⟩)).next ix t
        = s.next ix (t.recordAll (opening.map .note)) := by
  cases L with
  | bare =>
    cases outcome with
    | error f => exact absurd ⟨rfl, rfl⟩ h
    | ok rs =>
      refine ⟨_, ⟨rs, rfl, rfl⟩, ?_⟩
      rw [Feed.sift_bare]
      rfl
  | layer inner f =>
    obtain ⟨rs, hrs, hfeed⟩ := exists_toFeed_wrap (inner.layer f) opening outcome
    refine ⟨_, ⟨rs, hrs, rfl⟩, ?_⟩
    have hreaders : (inner.wrap (.ofOpener ⟨opening, outcome.map .ofReplies⟩)).readers = 0 :=
      inner.readers_wrap _
    exact (congrArg₂ (Stream.nextOf ix · · t) hfeed hreaders).trans (nextOf_notes ..)

/-- What a run of pulls and closes does to a stream over an opener, with any
changes laid over it, and what it leaves to be read. -/
structure Account (ix : Index) (L : Layers ν α β) (opening : List ν)
    (outcome : Except Fault (List (Reply α))) (acts : List Stream.Act) (t : Trace ν)
    (r : Stream.Run ν β) : Prop where
  /-- The pulls before the first close are answered by what is beneath, up
  to its first end and through all layers, and then by the end; the pulls
  behind a close are answered by the end. -/
  replies : r.replies = Stream.repliesOf ((beneath outcome).map L.through)
    (Stream.pullsBeforeClose acts) (acts.count .pull)
  /-- The opener runs once if there is a pull before the first close, and at
  no other time. Every layer sees each item that is pulled once, in their
  order. -/
  calls : r.trace.calls = t.calls
    ++ ((if Stream.pullsBeforeClose acts = 0 then [] else opening)
      ++ L.notesOf ((beneath outcome).take (Stream.pullsBeforeClose acts))).map .note
  pending : r.stream.isPending = true ↔ acts = []
  /-- A stream is closed from a close or an end on, and from the first pull
  on if its own opener fails; if there is a layer over the one whose opener
  fails, that is from the pull behind the fault on. -/
  closed : r.stream.isClosed = true ↔ .close ∈ acts
    ∨ (beneath outcome).length < Stream.pullsBeforeClose acts
    ∨ 0 < Stream.pullsBeforeClose acts ∧ L.FailsBare outcome
  /-- Reading to the end gives what is left beneath, or its first fault. -/
  readsOut : Stream.ReadsOut L (if acts = [] then opening else [])
    (if .close ∈ acts then [] else (beneath outcome).drop (Stream.pullsBeforeClose acts))
    r.trace (r.stream.toList ix r.trace)

variable {L : Layers ν α β} {acts : List Stream.Act}

/-- A stream that is closed has nothing left. -/
theorem Account.of_closed {r : Stream.Run ν β} (hstream : r.stream = ⟨.closed, 0⟩)
    (hreplies : r.replies = Stream.repliesOf ((beneath outcome).map L.through)
      (Stream.pullsBeforeClose acts) (acts.count .pull))
    (hcalls : r.trace.calls = t.calls
      ++ ((if Stream.pullsBeforeClose acts = 0 then [] else opening)
        ++ L.notesOf ((beneath outcome).take (Stream.pullsBeforeClose acts))).map .note)
    (hacts : acts ≠ []) (hclosed : .close ∈ acts
      ∨ (beneath outcome).length < Stream.pullsBeforeClose acts
      ∨ 0 < Stream.pullsBeforeClose acts ∧ L.FailsBare outcome) :
    Account ix L opening outcome acts t r := by
  refine ⟨hreplies, hcalls, ?_, ?_, ?_⟩
  · rw [hstream]
    exact iff_of_false nofun hacts
  · rw [hstream]
    exact iff_of_true rfl hclosed
  · have hleft : (if .close ∈ acts then []
        else (beneath outcome).drop (Stream.pullsBeforeClose acts)) = [] := by
      rw [ite_eq_left_iff, List.drop_eq_nil_iff]
      intro hnot
      rcases hclosed with h | h | ⟨hpulls, houtcome, -⟩
      · exact absurd h hnot
      · exact Nat.le_of_lt h
      · -- a fault is all that is beneath
        cases outcome with
        | ok rs => cases houtcome
        | error f => exact hpulls
    rw [hstream, hleft, if_neg hacts]
    exact Stream.readsOut_closed L ix r.trace

theorem account_nil (L : Layers ν α β) (opening : List ν)
    (outcome : Except Fault (List (Reply α))) (ix : Index) (t : Trace ν) :
    Account ix L opening outcome [] t
      ((L.wrap (.ofOpener ⟨opening, outcome.map .ofReplies⟩)).run ix [] t) := by
  obtain ⟨rs, hrs, hfeed⟩ := exists_toFeed_wrap L opening outcome
  have hpending : (L.wrap (.ofOpener ⟨opening, outcome.map .ofReplies⟩)).isPending = true := by
    cases L <;> rfl
  refine ⟨rfl, (List.append_nil _).symm, iff_of_true hpending rfl, ?_, ?_⟩
  · refine iff_of_false (fun h => ?_) (by simp)
    cases L <;> cases h
  · rw [if_pos rfl, if_neg List.not_mem_nil, Stream.pullsBeforeClose_nil, List.drop_zero, ← hrs]
    exact Stream.readsOut_toList (L.readers_wrap _) hfeed ix t

theorem account_close (L : Layers ν α β) (opening : List ν)
    (outcome : Except Fault (List (Reply α))) (ix : Index) (acts : List Stream.Act)
    (t : Trace ν) : Account ix L opening outcome (.close :: acts) t
      ((L.wrap (.ofOpener ⟨opening, outcome.map .ofReplies⟩)).run ix (.close :: acts) t) := by
  obtain ⟨hstream, htrace⟩ := @Stream.run_of_closed ν β ix acts t
  have hrun : (L.wrap (.ofOpener ⟨opening, outcome.map .ofReplies⟩)).run ix (.close :: acts) t
      = (⟨.closed, 0⟩ : Stream ν β).run ix acts t := by
    rw [Stream.run, Stream.close, L.readers_wrap]
    rfl
  rw [hrun]
  refine .of_closed hstream ?_ ?_ (List.cons_ne_nil _ _) (.inl List.mem_cons_self)
  · rw [Stream.replies_run_closed, Stream.pullsBeforeClose_close, Stream.repliesOf_zero]
    rfl
  · rw [htrace]
    simp

/-- If its own opener fails, the first pull is all there is. -/
theorem account_pull_of_failsBare (h : L.FailsBare outcome) (opening : List ν) (ix : Index)
    (acts : List Stream.Act) (t : Trace ν) : Account ix L opening outcome (.pull :: acts) t
      ((L.wrap (.ofOpener ⟨opening, outcome.map .ofReplies⟩)).run ix (.pull :: acts) t) := by
  obtain ⟨f, hbeneath, hnext⟩ := next_wrap_of_failsBare h opening ix t
  obtain ⟨hstream, htrace⟩ :=
    @Stream.run_of_closed ν β ix acts (t.recordAll (opening.map .note))
  simp only [Stream.run, hnext]
  refine .of_closed hstream ?_ ?_ (List.cons_ne_nil _ _) (.inr (.inr ⟨Nat.succ_pos _, h⟩))
  · rw [Stream.replies_run_closed, hbeneath, List.map_singleton, Stream.pullsBeforeClose_pull,
      List.count_cons_self, Stream.repliesOf_cons, Stream.repliesOf_nil]
    rfl
  · rw [htrace, Trace.calls_recordAll, hbeneath]
    simp [notesOf]

/-- If the stream opens, it runs as an open stream does. -/
theorem account_pull (h : ¬L.FailsBare outcome) (opening : List ν) (ix : Index)
    (acts : List Stream.Act) (t : Trace ν) : Account ix L opening outcome (.pull :: acts) t
      ((L.wrap (.ofOpener ⟨opening, outcome.map .ofReplies⟩)).run ix (.pull :: acts) t) := by
  obtain ⟨s, hs, hnext⟩ := next_wrap h opening ix t
  have hrun : (L.wrap (.ofOpener ⟨opening, outcome.map .ofReplies⟩)).run ix (.pull :: acts) t
      = s.run ix (.pull :: acts) (t.recordAll (opening.map .note)) := by
    rw [Stream.run, hnext, Stream.run]
  rw [hrun]
  have hran := hs.run ix (.pull :: acts) (t.recordAll (opening.map .note))
  generalize s.run ix (.pull :: acts) (t.recordAll (opening.map .note)) = r at hran
  have hcalls : r.trace.calls = t.calls
      ++ ((if Stream.pullsBeforeClose (.pull :: acts) = 0 then [] else opening)
        ++ L.notesOf ((beneath outcome).take (Stream.pullsBeforeClose (.pull :: acts)))).map
          .note := by
    have hpulls : Stream.pullsBeforeClose (.pull :: acts) ≠ 0 := Nat.succ_ne_zero _
    rw [hran.calls, Trace.calls_recordAll, if_neg hpulls, List.map_append, List.append_assoc]
  by_cases hclosed : .close ∈ Stream.Act.pull :: acts
      ∨ (beneath outcome).length < Stream.pullsBeforeClose (.pull :: acts)
  · exact .of_closed (hran.closed hclosed) hran.replies hcalls (List.cons_ne_nil _ _)
      (hclosed.imp_right .inl)
  · have hready := hran.ready hclosed
    have hopen : r.stream.isPending = false ∧ r.stream.isClosed = false := by
      obtain ⟨rs, -, hstream⟩ := hready
      rw [hstream]
      exact ⟨rfl, rfl⟩
    refine ⟨hran.replies, hcalls, ?_, ?_, ?_⟩
    · simp [hopen.1]
    · rw [hopen.2]
      refine iff_of_false Bool.false_ne_true ?_
      rintro (hc | hc | hc)
      · exact hclosed (.inl hc)
      · exact hclosed (.inr hc)
      · exact h hc.2
    · rw [if_neg (List.cons_ne_nil _ _), if_neg fun hc => hclosed (.inl hc)]
      exact hready.readsOut ix r.trace

/-- A stream over an opener is opened once and read once, whatever its opener
gives, however many changes are laid over it, and in whatever order it is
pulled and closed. -/
theorem account_run_wrap (L : Layers ν α β) (opening : List ν)
    (outcome : Except Fault (List (Reply α))) (ix : Index) (acts : List Stream.Act)
    (t : Trace ν) : Account ix L opening outcome acts t
      ((L.wrap (.ofOpener ⟨opening, outcome.map .ofReplies⟩)).run ix acts t) := by
  match acts with
  | [] => exact account_nil L opening outcome ix t
  | .close :: acts => exact account_close L opening outcome ix acts t
  | .pull :: acts =>
    by_cases h : L.FailsBare outcome
    · exact account_pull_of_failsBare h opening ix acts t
    · exact account_pull h opening ix acts t

/-- With a layer over it, a stream whose opener has failed is still open: the
layer passes the fault on and does not look behind it. -/
theorem open_behind_fault :
    let s : Stream Empty Nat := (bare.layer fun n => ([], n * 10)).wrap
      (.ofOpener ⟨[], .error (.index "down")⟩)
    let r := s.run (Store.empty .v1).toIndex [.pull] {}
    r.replies = [some (.error (.index "down"))] ∧ r.stream.isClosed = false :=
  ⟨rfl, rfl⟩

end Layers

end ReviewSearch
