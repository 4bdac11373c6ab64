/-
ReviewSearch.Proofs.Refs.Verdict — when a record is stale.

The checker asks its probes in order and stops at the first that differs
or fails. Its verdict needs no order: `check_stale_iff` says from the
recorded states and globs, and from what the refs are, when a record is
stale.

`LiveRefs.Serves` ties the answers of the live refs to a store of refs, in
which a project may be unreadable. Globs ask only for the names that begin
with their stem; that is enough, since they cover no others.
-/
import Mathlib.Data.List.Basic
import ReviewSearch.Proofs.Refs.Covering
import ReviewSearch.Refs.Staleness

namespace ReviewSearch

/-! ## Stores of refs -/

/-- What the refs of a project point at, or that it cannot be read. -/
abbrev RefStore : Type := String → Option (String → Option ObjectId)

/-- The answers of the live refs are those of a store: the object of a
ref, and the refs that begin with a text, in any order. No question about
an unreadable project is answered. -/
structure LiveRefs.Serves (live : LiveRefs) (store : RefStore) : Prop where
  object {project : String} {refs : String → Option ObjectId} (h : store project = some refs)
    (name : String) : live.object project name = .ok (refs name)
  under {project : String} {refs : String → Option ObjectId} (h : store project = some refs)
    (stem : String) : ∃ found, live.under project stem = .ok found ∧ ∀ name id,
      (name, id) ∈ found ↔ refs name = some id ∧ RefSnapshot.beginsWith stem name = true
  object_unreadable {project : String} (h : store project = none) (name : String) :
    ∃ reason, live.object project name = .error reason
  under_unreadable {project : String} (h : store project = none) (stem : String) :
    ∃ reason, live.under project stem = .error reason

/-! ## What is recorded -/

namespace ByProject

variable {α : Type} {t : ByProject α} {project : String} {x : α}

theorem mem_of_iff (ht : t.Ordered) :
    x ∈ t.of project ↔ ∃ xs, (project, xs) ∈ t ∧ x ∈ xs := by
  unfold ByProject.of
  constructor
  · intro h
    cases hget : Table.get? project t with
    | none =>
      rw [hget] at h
      cases h
    | some xs =>
      rw [hget] at h
      exact ⟨xs, ht.get?_eq_some_iff.mp hget, h⟩
  · rintro ⟨xs, hxs, hx⟩
    rw [ht.get?_eq_some_iff.mpr hxs]
    exact hx

theorem of_update (y : α) (other : String) :
    ByProject.of other (Table.update project [] (· ++ [y]) t)
      = if other = project then t.of other ++ [y] else t.of other := by
  unfold ByProject.of Table.update
  split_ifs with h
  · rw [h, Table.get?_put_self]
    rfl
  · rw [Table.get?_put_of_ne h]

/-- What is recorded for a project keeps the order of its entries. -/
theorem of_ofList (es : List (String × α)) (project : String) :
    (ofList es).of project = (es.filter (·.1 = project)).map Prod.snd := by
  have hfrom (t : ByProject α) : ByProject.of project
      (es.foldl (fun t e => Table.update e.1 [] (· ++ [e.2]) t) t)
        = t.of project ++ (es.filter (·.1 = project)).map Prod.snd := by
    induction es generalizing t with
    | nil => simp
    | cons e es ih =>
      rw [List.foldl_cons, ih, of_update, List.filter_cons]
      split_ifs <;> simp_all
  exact hfrom []

theorem mem_of_ofList_iff {es : List (String × α)} :
    x ∈ (ofList es).of project ↔ (project, x) ∈ es := by
  rw [of_ofList]
  simp

theorem ordered_ofList (es : List (String × α)) : (ofList es).Ordered := by
  have hfrom (t : ByProject α) (ht : t.Ordered) :
      (es.foldl (fun t e => Table.update e.1 [] (· ++ [e.2]) t) t).Ordered := by
    induction es generalizing t with
    | nil => exact ht
    | cons e es ih => exact ih _ (ht.put _ _)
  exact hfrom [] .nil

end ByProject

namespace Staleness

variable {live : LiveRefs} {store : RefStore} {r : Recorded} {project : String}

/-! ## Probes -/

/-- Probes find no difference just if none of them finds one. -/
theorem make_differs_iff {ps : List Probe} :
    (Probe.make ps).differs = .ok false ↔ ∀ p ∈ ps, p.differs = .ok false := by
  induction ps with
  | nil => simp [Probe.make]
  | cons p ps ih =>
    rw [List.forall_mem_cons, ← ih, Probe.make]
    split
    · next h => exact ⟨fun hps => ⟨h, hps⟩, fun h => h.2⟩
    · next d h => exact ⟨fun hd => absurd hd (h · ), fun hd => absurd hd.1 (h ·)⟩

theorem check_stale_iff_probes {id : Nat} {j : Journal} :
    (check live id r j).stale = true ↔ ∃ p ∈ probes live r, p.differs ≠ .ok false := by
  have hfound : (check live id r j).stale = true
      ↔ (Probe.make (probes live r)).differs ≠ .ok false := by
    simp only [check]
    split <;> simp [*]
  rw [hfound, ne_eq, make_differs_iff]
  simp

theorem mem_probes_iff (hstates : r.states.Ordered) (hglobs : r.globs.Ordered) {p : Probe} :
    p ∈ probes live r ↔ (∃ project, ∃ s ∈ r.states.of project, p = stateProbe live project s)
      ∨ ∃ project, ∃ g ∈ r.globs.of project,
        p = globProbe live (r.states.of project) project g := by
  simp only [probes, List.mem_append, List.mem_flatMap, Prod.exists, List.mem_map,
    ByProject.mem_of_iff hstates, ByProject.mem_of_iff hglobs]
  constructor
  · rintro (⟨project, ss, hss, s, hs, rfl⟩ | ⟨project, gs, hgs, g, hg, rfl⟩)
    · exact .inl ⟨project, s, ⟨ss, hss, hs⟩, rfl⟩
    · exact .inr ⟨project, g, ⟨gs, hgs, hg⟩, rfl⟩
  · rintro (⟨project, s, ⟨ss, hss, hs⟩, rfl⟩ | ⟨project, g, ⟨gs, hgs, hg⟩, rfl⟩)
    · exact .inl ⟨project, ss, hss, s, hs, rfl⟩
    · exact .inr ⟨project, gs, hgs, g, hg, rfl⟩

/-- A state differs if its project is unreadable or its ref has another
object. -/
theorem stateProbe_differs_iff (hserves : live.Serves store) (s : RefState) :
    (stateProbe live project s).differs ≠ .ok false ↔ store project = none
      ∨ ∃ refs, store project = some refs ∧ (refs s.name).getD .zero ≠ s.id := by
  obtain ⟨name, id⟩ := s
  cases hstore : store project with
  | none =>
    obtain ⟨reason, hreason⟩ := hserves.object_unreadable hstore name
    simp [stateProbe, hreason, Except.map]
  | some refs =>
    simp [stateProbe, hserves.object hstore, Except.map, RefState.ofRef]

/-- A glob differs if its project is unreadable or some ref that it covers
is not recorded. -/
theorem globProbe_differs_iff (hserves : live.Serves store) (recorded : List RefState)
    (g : Glob) : (globProbe live recorded project g).differs ≠ .ok false ↔ store project = none
      ∨ ∃ refs, store project = some refs ∧ ∃ name id, refs name = some id
        ∧ g.covers name = true ∧ ⟨name, id⟩ ∉ recorded := by
  cases hstore : store project with
  | none =>
    obtain ⟨reason, hreason⟩ := hserves.under_unreadable hstore (String.ofList g.stem)
    simp [globProbe, hreason, Except.map]
  | some refs =>
    obtain ⟨found, hfound, hmem⟩ := hserves.under hstore (String.ofList g.stem)
    have hunder {name : String} {id : ObjectId} (hcovers : g.covers name = true) :
        (name, id) ∈ found ↔ refs name = some id := by
      have hbegins : RefSnapshot.beginsWith (String.ofList g.stem) name = true := by
        rw [RefSnapshot.beginsWith, String.toList_ofList, List.isPrefixOf_iff_prefix]
        exact Glob.stem_isPrefix_of_covers hcovers
      rw [hmem, and_iff_left hbegins]
    have hdiffers : (globProbe live recorded project g).differs ≠ .ok false
        ↔ ∃ name id, (name, id) ∈ found ∧ g.covers name = true ∧ ⟨name, id⟩ ∉ recorded := by
      simp [globProbe, hfound, Except.map]
    rw [hdiffers]
    constructor
    · rintro ⟨name, id, hin, hcovers, hnot⟩
      exact .inr ⟨refs, rfl, name, id, (hunder hcovers).mp hin, hcovers, hnot⟩
    · rintro (h | ⟨_, h, name, id, hrefs, hcovers, hnot⟩)
      · cases h
      · cases h
        exact ⟨name, id, (hunder hcovers).mpr hrefs, hcovers, hnot⟩

/-! ## The verdict -/

/-- Something is recorded of a project that cannot be read. -/
def Unreadable (store : RefStore) (r : Recorded) : Prop :=
  ∃ project, store project = none ∧ (r.states.of project ≠ [] ∨ r.globs.of project ≠ [])

/-- A recorded state is not the live one; an absent ref has the object of
zeros. -/
def Moved (store : RefStore) (r : Recorded) : Prop :=
  ∃ project refs, store project = some refs
    ∧ ∃ s ∈ r.states.of project, (refs s.name).getD .zero ≠ s.id

/-- A live ref that a glob of its project covers is not recorded there
with its object. -/
def Unrecorded (store : RefStore) (r : Recorded) : Prop :=
  ∃ project refs, store project = some refs ∧ ∃ g ∈ r.globs.of project,
    ∃ name id, refs name = some id ∧ g.covers name = true ∧ ⟨name, id⟩ ∉ r.states.of project

theorem exists_probe_differs_iff (hserves : live.Serves store) (hstates : r.states.Ordered)
    (hglobs : r.globs.Ordered) : (∃ p ∈ probes live r, p.differs ≠ .ok false)
      ↔ Unreadable store r ∨ Moved store r ∨ Unrecorded store r := by
  constructor
  · rintro ⟨p, hp, hdiffers⟩
    obtain ⟨project, s, hs, rfl⟩ | ⟨project, g, hg, rfl⟩ :=
      (mem_probes_iff hstates hglobs).mp hp
    · obtain hnone | ⟨refs, hstore, hne⟩ := (stateProbe_differs_iff hserves s).mp hdiffers
      · exact .inl ⟨project, hnone, .inl (List.ne_nil_of_mem hs)⟩
      · exact .inr (.inl ⟨project, refs, hstore, s, hs, hne⟩)
    · obtain hnone | ⟨refs, hstore, href⟩ := (globProbe_differs_iff hserves _ g).mp hdiffers
      · exact .inl ⟨project, hnone, .inr (List.ne_nil_of_mem hg)⟩
      · exact .inr (.inr ⟨project, refs, hstore, g, hg, href⟩)
  · have hstate {project : String} {s : RefState} (hs : s ∈ r.states.of project)
        (h : (stateProbe live project s).differs ≠ .ok false) :
        ∃ p ∈ probes live r, p.differs ≠ .ok false :=
      ⟨_, (mem_probes_iff hstates hglobs).mpr (.inl ⟨project, s, hs, rfl⟩), h⟩
    have hglob {project : String} {g : Glob} (hg : g ∈ r.globs.of project)
        (h : (globProbe live (r.states.of project) project g).differs ≠ .ok false) :
        ∃ p ∈ probes live r, p.differs ≠ .ok false :=
      ⟨_, (mem_probes_iff hstates hglobs).mpr (.inr ⟨project, g, hg, rfl⟩), h⟩
    rintro (⟨project, hnone, hne | hne⟩ | ⟨project, refs, hstore, s, hs, hne⟩
      | ⟨project, refs, hstore, g, hg, href⟩)
    · obtain ⟨s, hs⟩ := List.exists_mem_of_ne_nil _ hne
      exact hstate hs ((stateProbe_differs_iff hserves s).mpr (.inl hnone))
    · obtain ⟨g, hg⟩ := List.exists_mem_of_ne_nil _ hne
      exact hglob hg ((globProbe_differs_iff hserves _ g).mpr (.inl hnone))
    · exact hstate hs ((stateProbe_differs_iff hserves s).mpr (.inr ⟨refs, hstore, hne⟩))
    · exact hglob hg ((globProbe_differs_iff hserves _ g).mpr (.inr ⟨refs, hstore, href⟩))

/-- Two records of the same states and globs, in whatever order and
however often. -/
structure SameEntries (r r' : Recorded) : Prop where
  states (project : String) (s : RefState) :
    s ∈ r.states.of project ↔ s ∈ r'.states.of project
  globs (project : String) (g : Glob) : g ∈ r.globs.of project ↔ g ∈ r'.globs.of project

/-- Entries that are put down in another order or more than once. -/
theorem sameEntries_ofList {states states' : List (String × RefState)}
    {globs globs' : List (String × Glob)} (hstates : ∀ e, e ∈ states ↔ e ∈ states')
    (hglobs : ∀ e, e ∈ globs ↔ e ∈ globs') :
    SameEntries ⟨.ofList states, .ofList globs⟩ ⟨.ofList states', .ofList globs'⟩ where
  states project s := by rw [ByProject.mem_of_ofList_iff, ByProject.mem_of_ofList_iff, hstates]
  globs project g := by rw [ByProject.mem_of_ofList_iff, ByProject.mem_of_ofList_iff, hglobs]

theorem ne_nil_congr {α : Type} {xs ys : List α} (h : ∀ x, x ∈ xs ↔ x ∈ ys) :
    xs ≠ [] ↔ ys ≠ [] := by
  simp only [ne_eq, List.eq_nil_iff_forall_not_mem, h]

/-- A record is stale just if something is recorded of a project that
cannot be read, or a recorded state is not the live one, or a live ref
that a glob covers is not recorded; and any record of the same states and
globs gets the same verdict. -/
theorem check_stale_iff (hserves : live.Serves store) (hstates : r.states.Ordered)
    (hglobs : r.globs.Ordered) (id : Nat) (j : Journal) :
    ((check live id r j).stale = true
        ↔ Unreadable store r ∨ Moved store r ∨ Unrecorded store r)
      ∧ ∀ r' : Recorded, r'.states.Ordered → r'.globs.Ordered → SameEntries r r' →
        ∀ id' j', (check live id' r' j').stale = (check live id r j).stale := by
  have hverdict {r : Recorded} (hstates : r.states.Ordered) (hglobs : r.globs.Ordered)
      (id : Nat) (j : Journal) : (check live id r j).stale = true
        ↔ Unreadable store r ∨ Moved store r ∨ Unrecorded store r := by
    rw [check_stale_iff_probes, exists_probe_differs_iff hserves hstates hglobs]
  refine ⟨hverdict hstates hglobs id j, fun r' hstates' hglobs' hsame id' j' => ?_⟩
  rw [Bool.eq_iff_iff, hverdict hstates' hglobs', hverdict hstates hglobs]
  simp only [Unreadable, Moved, Unrecorded, hsame.states, hsame.globs,
    ne_nil_congr (hsame.states _), ne_nil_congr (hsame.globs _)]

/-! ### One ref -/

/-- The answers about one ref of one project; no other project can be
read. -/
def oneRef (project name : String) (id : ObjectId) : LiveRefs where
  object other wanted :=
    if other = project then .ok (if wanted = name then some id else none)
    else .error (other ++ " unavailable")
  under other stem :=
    if other = project then
      .ok (if RefSnapshot.beginsWith stem name then [(name, id)] else [])
    else .error (other ++ " unavailable")

theorem serves_oneRef (project name : String) (id : ObjectId) :
    (oneRef project name id).Serves fun other =>
      if other = project then some fun wanted => if wanted = name then some id else none
      else none where
  object h wanted := by
    split_ifs at h with hproject
    cases h
    simp [oneRef, hproject]
  under h stem := by
    split_ifs at h with hproject
    cases h
    refine ⟨_, if_pos hproject, fun wanted id' => ?_⟩
    by_cases hwanted : wanted = name
    · subst hwanted
      split_ifs with hbegins <;> simp [hbegins, eq_comm]
    · split_ifs <;> simp [hwanted]
  object_unreadable h wanted := by
    split_ifs at h with hproject
    exact ⟨_, if_neg hproject⟩
  under_unreadable h stem := by
    split_ifs at h with hproject
    exact ⟨_, if_neg hproject⟩

def newHead : LiveRefs :=
  oneRef "aero" "refs/heads/new" ⟨List.replicate 20 1, rfl⟩

def oldHead : String × RefState :=
  ("aero", ⟨"refs/heads/old", .zero⟩)

/-- Some states, and all refs under `refs/heads`. -/
def heads (states : List (String × RefState)) : Recorded where
  states := .ofList states
  globs := .ofList [("aero", ⟨"refs/heads/*".toList, by decide⟩)]

/-- A ref that has been made since the record was stored makes it stale,
also when an entry of the record is repeated. -/
theorem check_stale_iff_newHead :
    (check newHead 7 (heads [oldHead]) ⟨⟨.fatal, []⟩, {}⟩).stale = true
      ∧ (check newHead 7 (heads [oldHead, oldHead]) ⟨⟨.fatal, []⟩, {}⟩).stale = true := by
  have hordered (states : List (String × RefState)) :
      (heads states).states.Ordered ∧ (heads states).globs.Ordered :=
    ⟨ByProject.ordered_ofList _, ByProject.ordered_ofList _⟩
  obtain ⟨hiff, hsame⟩ := check_stale_iff (serves_oneRef _ _ _ : newHead.Serves _)
    (hordered [oldHead]).1 (hordered _).2 7 ⟨⟨.fatal, []⟩, {}⟩
  have hstale := hiff.mpr (.inr (.inr ⟨"aero", _, rfl, ⟨"refs/heads/*".toList, by decide⟩,
    by decide, "refs/heads/new", _, rfl, by decide, by decide⟩))
  have hentries : SameEntries (heads [oldHead]) (heads [oldHead, oldHead]) :=
    sameEntries_ofList (fun e => by simp) fun _ => .rfl
  exact ⟨hstale, (hsame _ (hordered _).1 (hordered _).2 hentries 7 _).trans hstale⟩

end Staleness

end ReviewSearch
