/-
ReviewSearch.Proofs.Refs.Trust — which records are trusted.

A record is VOUCHED for if its two fields list entries, all of these are
well-formed (`RefState.Writes`, `Glob.Writes`), and the live refs confirm
what they say (`LiveRefs.Confirms`).

* `check_fresh_iff` — a check without a difference is a confirmation;
  `confirms_iff` says what that means if the live refs are those of a
  store;
* `mapM_entries_iff` — which values of a field are read, and as what: a
  number, a boolean and an object are taken for no entries at all;
* `trusted_iff_vouched` — so a record that is vouched for is fresh, and a
  fresh record is vouched for unless one of its fields holds such a value;
* `numbered_is_fresh` — a record whose field lists nothing, and which yet
  is fresh.
-/
import ReviewSearch.Proofs.Refs.Entries
import ReviewSearch.Proofs.Refs.Verdict

namespace ReviewSearch

/-! ## Confirmed entries -/

/-- The answers of the live refs confirm recorded entries: every state is
the live one, an absent ref having the object of zeros, and of the refs
that begin like a glob, all that it covers are recorded with their
objects. A question without an answer confirms nothing. -/
structure LiveRefs.Confirms (live : LiveRefs) (states : List (String × RefState))
    (globs : List (String × Glob)) : Prop where
  state {project : String} {s : RefState} (h : (project, s) ∈ states) :
    ∃ id?, live.object project s.name = .ok id? ∧ id?.getD .zero = s.id
  glob {project : String} {g : Glob} (h : (project, g) ∈ globs) :
    ∃ found, live.under project (String.ofList g.stem) = .ok found ∧ ∀ name id,
      (name, id) ∈ found → g.covers name = true → (project, ⟨name, id⟩) ∈ states

/-- The same of a store: every project can be read, every state is that of
the ref, and every ref that a glob covers is recorded with its object. -/
structure Confirmed (store : RefStore) (states : List (String × RefState))
    (globs : List (String × Glob)) : Prop where
  state {project : String} {s : RefState} (h : (project, s) ∈ states) :
    ∃ refs, store project = some refs ∧ (refs s.name).getD .zero = s.id
  glob {project : String} {g : Glob} (h : (project, g) ∈ globs) :
    ∃ refs, store project = some refs ∧ ∀ name id, refs name = some id → g.covers name = true →
      (project, ⟨name, id⟩) ∈ states

namespace Staleness

variable {live : LiveRefs} {store : RefStore} {project : String}
  {states : List (String × RefState)} {globs : List (String × Glob)}

theorem stateProbe_confirms_iff {s : RefState} :
    (stateProbe live project s).differs = .ok false
      ↔ ∃ id?, live.object project s.name = .ok id? ∧ id?.getD .zero = s.id := by
  obtain ⟨name, id⟩ := s
  cases h : live.object project name <;> simp [stateProbe, h, Except.map, RefState.ofRef]

theorem globProbe_confirms_iff {recorded : List RefState} {g : Glob} :
    (globProbe live recorded project g).differs = .ok false
      ↔ ∃ found, live.under project (String.ofList g.stem) = .ok found ∧ ∀ name id,
        (name, id) ∈ found → g.covers name = true → ⟨name, id⟩ ∈ recorded := by
  cases h : live.under project (String.ofList g.stem) <;> simp [globProbe, h, Except.map]

/-- A check finds no difference just if the live refs confirm what is
recorded. -/
theorem check_fresh_iff {id : Nat} {j : Journal} :
    (check live id ⟨.ofList states, .ofList globs⟩ j).stale = false
      ↔ live.Confirms states globs := by
  have hprobes : (check live id ⟨.ofList states, .ofList globs⟩ j).stale = false
      ↔ ∀ p ∈ probes live ⟨.ofList states, .ofList globs⟩, p.differs = .ok false := by
    rw [← Bool.not_eq_true, check_stale_iff_probes]
    simp
  have hmem {p : Probe} := @mem_probes_iff live ⟨.ofList states, .ofList globs⟩
    (ByProject.ordered_ofList _) (ByProject.ordered_ofList _) p
  rw [hprobes]
  constructor
  · intro h
    refine ⟨fun {project s} hs => ?_, fun {project g} hg => ?_⟩
    · have hs' := ByProject.mem_of_ofList_iff.mpr hs
      exact stateProbe_confirms_iff.mp (h _ (hmem.mpr (.inl ⟨project, s, hs', rfl⟩)))
    · have hg' := ByProject.mem_of_ofList_iff.mpr hg
      obtain ⟨found, hfound, hall⟩ :=
        globProbe_confirms_iff.mp (h _ (hmem.mpr (.inr ⟨project, g, hg', rfl⟩)))
      exact ⟨found, hfound, fun name id hin hcovers =>
        ByProject.mem_of_ofList_iff.mp (hall name id hin hcovers)⟩
  · intro h p hp
    obtain ⟨project, s, hs, rfl⟩ | ⟨project, g, hg, rfl⟩ := hmem.mp hp
    · exact stateProbe_confirms_iff.mpr (h.state (ByProject.mem_of_ofList_iff.mp hs))
    · obtain ⟨found, hfound, hall⟩ := h.glob (ByProject.mem_of_ofList_iff.mp hg)
      exact globProbe_confirms_iff.mpr ⟨found, hfound, fun name id hin hcovers =>
        ByProject.mem_of_ofList_iff.mpr (hall name id hin hcovers)⟩

/-- The answers of a store confirm just what the store does: a glob covers
only refs that begin like it. -/
theorem confirms_iff (hserves : live.Serves store) :
    live.Confirms states globs ↔ Confirmed store states globs := by
  have hstate (project : String) (s : RefState) :
      (∃ id?, live.object project s.name = .ok id? ∧ id?.getD .zero = s.id)
        ↔ ∃ refs, store project = some refs ∧ (refs s.name).getD .zero = s.id := by
    rw [← stateProbe_confirms_iff, ← not_iff_not, ← ne_eq, stateProbe_differs_iff hserves]
    cases store project <;> simp
  have hglob (project : String) (g : Glob) :
      (∃ found, live.under project (String.ofList g.stem) = .ok found ∧ ∀ name id,
        (name, id) ∈ found → g.covers name = true → (project, ⟨name, id⟩) ∈ states)
        ↔ ∃ refs, store project = some refs ∧ ∀ name id, refs name = some id →
          g.covers name = true → (project, ⟨name, id⟩) ∈ states := by
    have h := @globProbe_differs_iff live store project hserves
      ((ByProject.ofList states).of project) g
    rw [ne_eq, globProbe_confirms_iff] at h
    simp only [ByProject.mem_of_ofList_iff] at h
    rw [← not_iff_not, h]
    cases store project <;> simp
  exact ⟨fun h => ⟨fun hs => (hstate _ _).mp (h.state hs), fun hg => (hglob _ _).mp (h.glob hg)⟩,
    fun h => ⟨fun hs => (hstate _ _).mpr (h.state hs), fun hg => (hglob _ _).mpr (h.glob hg)⟩⟩

/-! ## The entries in a field -/

/-- `Lists v texts`: a field with the value `v` lists these entries. A
field that is missing or null lists none, a text lists itself, and an
array of texts lists its items. -/
inductive Lists : Option Json → List String → Prop
  | absent : Lists none []
  | null : Lists (some .null) []
  | text (s : String) : Lists (some (.string s)) [s]
  | texts (ss : List String) : Lists (some (.array (ss.map .string))) ss

/-- Numbers, booleans and objects, which list nothing. -/
inductive IsMute : Option Json → Prop
  | bool (b : Bool) : IsMute (some (.bool b))
  | number (n : Json.Number) : IsMute (some (.number n))
  | object (members : List (String × Json)) : IsMute (some (.object members))

theorem Lists.not_isMute {v : Option Json} {texts : List String} (h : Lists v texts) :
    ¬IsMute v := by
  cases h <;> rintro ⟨⟩

/-- What a check takes a field to list: a mute value is taken for a
missing one. -/
def TakenFor (v : Option Json) (texts : List String) : Prop :=
  Lists v texts ∨ IsMute v ∧ texts = []

theorem takenFor_of_isMute {v : Option Json} {texts : List String} (h : IsMute v) :
    TakenFor v texts ↔ texts = [] :=
  ⟨fun
    | .inl hlists => absurd h hlists.not_isMute
    | .inr hnone => hnone.2, fun hnone => .inr ⟨h, hnone⟩⟩

theorem takenFor_of_not_isMute {v : Option Json} {texts : List String} (h : ¬IsMute v) :
    TakenFor v texts ↔ Lists v texts :=
  or_iff_left fun hmute => h hmute.1

theorem lists_absent_iff {texts : List String} : Lists none texts ↔ texts = [] :=
  ⟨fun | .absent => rfl, fun h => h ▸ .absent⟩

theorem lists_null_iff {texts : List String} : Lists (some .null) texts ↔ texts = [] :=
  ⟨fun | .null => rfl, fun h => h ▸ .null⟩

theorem lists_string_iff {s : String} {texts : List String} :
    Lists (some (.string s)) texts ↔ texts = [s] :=
  ⟨fun | .text _ => rfl, fun h => h ▸ .text s⟩

theorem lists_array_iff {items : List Json} {texts : List String} :
    Lists (some (.array items)) texts ↔ items = texts.map .string :=
  ⟨fun | .texts _ => rfl, fun h => h ▸ .texts texts⟩

section Reading

variable {α : Type} {read : List UInt8 → Except RefFault α} {Writes : String → α → Prop}

/-- An array is read just if all its items are texts, and each of them has
the form. -/
theorem mapM_items_iff
    (hread : ∀ text a, read (Text.Utf8.encode text) = .ok a ↔ Writes text a)
    (hempty : ∀ a, ¬Writes "" a) {items : List Json} {as : List α} :
    (items.map fun v => Text.Utf8.encode (v.string?.getD "")).mapM read = .ok as
      ↔ ∃ texts : List String, items = texts.map .string ∧ List.Forall₂ Writes texts as := by
  rw [mapM_eq_ok_iff, List.forall₂_map_left_iff]
  simp only [hread]
  constructor
  · intro h
    induction h with
    | nil => exact ⟨[], rfl, .nil⟩
    | @cons v a items as ha has ih =>
      obtain ⟨texts, rfl, htexts⟩ := ih
      cases v with
      | string s => exact ⟨s :: texts, rfl, .cons ha htexts⟩
      | _ => exact absurd ha (hempty a)
  · rintro ⟨texts, rfl, h⟩
    rw [List.forall₂_map_left_iff]
    exact h

/-- The entries in a field are read just if the field lists, or is taken
to list, texts that have the form. -/
theorem mapM_entries_iff
    (hread : ∀ text a, read (Text.Utf8.encode text) = .ok a ↔ Writes text a)
    (hempty : ∀ a, ¬Writes "" a) {d : Document} {field : String} {as : List α} :
    (entries d field).mapM read = .ok as
      ↔ ∃ texts, TakenFor (d.field? field) texts ∧ List.Forall₂ Writes texts as := by
  have hnothing {v : Option Json} (hv : ∀ texts, TakenFor v texts ↔ texts = []) :
      ([] : List (List UInt8)).mapM read = .ok as
        ↔ ∃ texts, TakenFor v texts ∧ List.Forall₂ Writes texts as := by
    simp only [mapM_eq_ok_iff, List.forall₂_nil_left_iff, hv, exists_eq_left]
  have hlists {v : Option Json} (hv : ¬IsMute v) :
      (∃ texts, TakenFor v texts ∧ List.Forall₂ Writes texts as)
        ↔ ∃ texts, Lists v texts ∧ List.Forall₂ Writes texts as := by
    simp only [takenFor_of_not_isMute hv]
  unfold entries
  cases d.field? field with
  | none => exact hnothing fun _ => (takenFor_of_not_isMute (by nofun)).trans lists_absent_iff
  | some v =>
    cases v with
    | null => exact hnothing fun _ => (takenFor_of_not_isMute (by nofun)).trans lists_null_iff
    | bool b => exact hnothing fun _ => takenFor_of_isMute (.bool b)
    | number n => exact hnothing fun _ => takenFor_of_isMute (.number n)
    | object members => exact hnothing fun _ => takenFor_of_isMute (.object members)
    | string s =>
      have hv : ¬IsMute (some (.string s)) := nofun
      simp only [hlists hv, lists_string_iff, exists_eq_left, mapM_eq_ok_iff,
        List.forall₂_cons_left_iff, List.forall₂_nil_left_iff, hread]
    | array items =>
      have hv : ¬IsMute (some (.array items)) := nofun
      simp only [hlists hv, lists_array_iff, mapM_items_iff hread hempty]

end Reading

/-! ## Trusted records -/

theorem recorded_eq_ok_iff {d : Document} {r : Recorded} :
    recorded d = .ok r ↔ ∃ states globs,
      (entries d "ref_state").mapM RefState.ofEntry = .ok states
        ∧ (entries d "ref_state_pattern").mapM Glob.ofEntry = .ok globs
        ∧ r = ⟨.ofList states, .ofList globs⟩ := by
  unfold recorded RefState.ofEntries Glob.ofEntries
  simp only [bind_eq_ok_iff, map_eq_ok_iff]
  constructor
  · rintro ⟨_, ⟨states, hstates, rfl⟩, _, ⟨globs, hglobs, rfl⟩, h⟩
    exact ⟨states, globs, hstates, hglobs, (Except.ok.inj h).symm⟩
  · rintro ⟨states, globs, hstates, hglobs, rfl⟩
    exact ⟨_, ⟨states, hstates, rfl⟩, _, ⟨globs, hglobs, rfl⟩, rfl⟩

theorem checkDocument_fresh_iff {d : Document} {j : Journal} :
    (checkDocument live d j).stale = false
      ↔ ∃ r, recorded d = .ok r ∧ (check live d.id r j).stale = false := by
  unfold checkDocument
  cases recorded d with
  | ok r => simp
  | error f => simp

/-- The live refs confirm all that a record stores, `reads` saying which
entries the value of a field lists. -/
def Vouched (reads : Option Json → List String → Prop) (live : LiveRefs) (d : Document) :
    Prop :=
  ∃ stateTexts states globTexts globs,
    reads (d.field? "ref_state") stateTexts
      ∧ List.Forall₂ RefState.Writes stateTexts states
      ∧ reads (d.field? "ref_state_pattern") globTexts
      ∧ List.Forall₂ Glob.Writes globTexts globs
      ∧ live.Confirms states globs

/-- A check trusts a record just if it is vouched for, mute values being
taken for missing ones. -/
theorem checkDocument_fresh_iff_vouched {d : Document} {j : Journal} :
    (checkDocument live d j).stale = false ↔ Vouched TakenFor live d := by
  rw [checkDocument_fresh_iff]
  simp only [recorded_eq_ok_iff, mapM_entries_iff (fun _ _ => RefState.ofEntry_eq_ok_iff)
    RefState.not_writes_empty, mapM_entries_iff (fun _ _ => Glob.ofEntry_eq_ok_iff)
    Glob.not_writes_empty]
  constructor
  · rintro ⟨_, ⟨states, globs, ⟨stateTexts, hstateTexts, hstates⟩,
      ⟨globTexts, hglobTexts, hglobs⟩, rfl⟩, hfresh⟩
    exact ⟨stateTexts, states, globTexts, globs, hstateTexts, hstates, hglobTexts, hglobs,
      check_fresh_iff.mp hfresh⟩
  · rintro ⟨stateTexts, states, globTexts, globs, hstateTexts, hstates, hglobTexts, hglobs,
      hconfirmed⟩
    exact ⟨_, ⟨states, globs, ⟨stateTexts, hstateTexts, hstates⟩,
      ⟨globTexts, hglobTexts, hglobs⟩, rfl⟩, check_fresh_iff.mpr hconfirmed⟩

theorem vouched_lists_iff {d : Document} : Vouched Lists live d ↔ Vouched TakenFor live d
    ∧ ¬IsMute (d.field? "ref_state") ∧ ¬IsMute (d.field? "ref_state_pattern") := by
  constructor
  · rintro ⟨stateTexts, states, globTexts, globs, hstateTexts, hstates, hglobTexts, hglobs,
      hconfirmed⟩
    exact ⟨⟨stateTexts, states, globTexts, globs, .inl hstateTexts, hstates, .inl hglobTexts,
      hglobs, hconfirmed⟩, hstateTexts.not_isMute, hglobTexts.not_isMute⟩
  · rintro ⟨⟨stateTexts, states, globTexts, globs, hstateTexts, hstates, hglobTexts, hglobs,
      hconfirmed⟩, hstate, hglob⟩
    exact ⟨stateTexts, states, globTexts, globs, (takenFor_of_not_isMute hstate).mp hstateTexts,
      hstates, (takenFor_of_not_isMute hglob).mp hglobTexts, hglobs, hconfirmed⟩

/-- A record is trusted on entries that the live refs confirm, and if both
fields list entries, on nothing else; for the refs of a store, that is
what the store confirms. A field that holds a number, a boolean or an
object lists none, and the check takes it for a missing one. -/
theorem trusted_iff_vouched (live : LiveRefs) (d : Document) (j : Journal) :
    ((checkDocument live d j).stale = false ↔ Vouched TakenFor live d)
      ∧ (Vouched Lists live d ↔ (checkDocument live d j).stale = false
        ∧ ¬IsMute (d.field? "ref_state") ∧ ¬IsMute (d.field? "ref_state_pattern"))
      ∧ ∀ store, live.Serves store → ∀ states globs,
        live.Confirms states globs ↔ Confirmed store states globs := by
  have hfresh : (checkDocument live d j).stale = false ↔ Vouched TakenFor live d :=
    checkDocument_fresh_iff_vouched
  exact ⟨hfresh, by rw [vouched_lists_iff, hfresh], fun _ hserves _ _ => confirms_iff hserves⟩

/-- A record of one state, in an array, and of one glob that covers it, in
a text. -/
def newHeadRecord : Document :=
  ⟨9, [("ref_state",
      .array [.string "aero:refs/heads/new:0101010101010101010101010101010101010101"]),
    ("ref_state_pattern", .string "aero:refs/heads/*")]⟩

/-- The one ref of the project confirms the record, so it is fresh. -/
theorem trusted_iff_vouched_newHead :
    (checkDocument newHead newHeadRecord ⟨⟨.fatal, []⟩, {}⟩).stale = false := by
  let id : ObjectId := ⟨List.replicate 20 1, rfl⟩
  let heads : Glob := ⟨"refs/heads/*".toList, by decide⟩
  obtain ⟨-, hvouched, hconfirms⟩ :=
    trusted_iff_vouched newHead newHeadRecord ⟨⟨.fatal, []⟩, {}⟩
  have hserves := serves_oneRef "aero" "refs/heads/new" id
  refine (hvouched.mp ⟨_, [("aero", ⟨"refs/heads/new", id⟩)], _, [("aero", heads)],
    .texts ["aero:refs/heads/new:0101010101010101010101010101010101010101"], ?_,
    .text "aero:refs/heads/*", ?_, (hconfirms _ hserves _ _).mpr ?_⟩).1
  · refine .cons ⟨"0101010101010101010101010101010101010101", ?_⟩ .nil
    exact ⟨by decide, ⟨by decide, by decide⟩, ⟨by decide, by decide⟩, by decide⟩
  · exact .cons ⟨by decide, by decide, by decide⟩ .nil
  · refine ⟨fun {project s} hs => ?_, fun {project g} hg => ?_⟩
    · cases List.mem_singleton.mp hs
      exact ⟨_, rfl, rfl⟩
    · cases List.mem_singleton.mp hg
      refine ⟨_, rfl, fun name id' href _ => ?_⟩
      split_ifs at href with hname
      cases href
      simp [hname]

/-- The record with the number 5 for its states. -/
def numbered : Document :=
  ⟨9, [("ref_state", .ofNat 5)]⟩

/-- A number is no entry, but the check trusts the record. -/
theorem numbered_is_fresh :
    (checkDocument newHead numbered ⟨⟨.fatal, []⟩, {}⟩).stale = false
      ∧ ¬Vouched Lists newHead numbered := by
  refine ⟨rfl, ?_⟩
  rintro ⟨texts, -, -, -, h, -⟩
  cases h

end Staleness

end ReviewSearch
