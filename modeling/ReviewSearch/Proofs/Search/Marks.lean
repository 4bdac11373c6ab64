/-
ReviewSearch.Proofs.Search.Marks — what a query leaves in the journal.

From every journal a query comes to the same, with the same calls to the
index, and makes the same marks (`Marks`): an entry that it was received,
the details of its planning, and what `outcomeMarks` says of its outcome.

* `runsQuery_query`, `runsQuery_queryPredicate` — this for each way to run
  one (`RunsQuery`);
* `inTurn_queryMany` — several queries at once are started one behind the
  other until one fails (`InTurn`); what they returned before is then not
  in the answer.
-/
import ReviewSearch.Proofs.Log.Marks
import ReviewSearch.Proofs.Plan.Logging
import ReviewSearch.Search.Operation

namespace ReviewSearch.Engine

open Operation (Run)
open Planner (Detail)

variable {α : Type} {e : Engine} {st : Settings}

/-- From the calls `t` and every journal, a run comes to `a` with the calls
`t'`, and makes the marks `ms`. -/
def Marks (run : Session → α × Session) (t : Trace Consult) (a : α) (t' : Trace Consult)
    (ms : List Mark) : Prop :=
  ∀ j, run ⟨t, j⟩ = (a, ⟨t', j.markAll ms⟩)

/-! ## Entries -/

def receivedEntry (text : String) : Entry :=
  Event.queryReceived.entry [("query", text)]

/-- The entry of an outcome. -/
def outcomeEntry (text : String) : Except Fault Page → Entry
  | .ok page => Event.queryExecuted.entry
      [("query", text), ("returned", toString page.documents.length),
        ("more", if page.more then "true" else "false")]
  | .error f => Event.queryRejected.entry
      [("query", text), ("code", f.code.text), ("reason", f.message)]

/-- The marks of an outcome. -/
def outcomeMarks (text : String) (outcome : Except Fault Page) : List Mark :=
  (match outcome with
    | .ok page => [.count .queriesExecuted 1, .count .documentsReturned page.documents.length]
    | .error _ => [.count .queriesRejected 1]) ++ [.entry (outcomeEntry text outcome)]

/-- The marks of a query, with the details of its planning. -/
def queryMarks (text : String) (details : List Entry) (outcome : Except Fault Page) : List Mark :=
  (receivedEntry text :: details).map .entry ++ outcomeMarks text outcome

theorem enter_eq (text : String) (outcome : Except Fault Page) (j : Journal) :
    enter text outcome j = j.markAll (outcomeMarks text outcome) := by
  cases outcome <;> rfl

/-! ## Queries -/

/-- A run that writes nothing but details of planning. -/
def WritesDetails (run : Session → α × Session) : Prop :=
  ∀ t, ∃ (a : α) (t' : Trace Consult) (es : List Entry), (∀ entry ∈ es, Detail entry)
    ∧ Marks run t a t' (es.map .entry)

/-- A run that leaves in the journal what a query leaves there. -/
def RunsQuery (text : String) (run : Session → Except Fault Page × Session) : Prop :=
  ∀ t, ∃ (outcome : Except Fault Page) (t' : Trace Consult) (es : List Entry),
    (∀ entry ∈ es, Detail entry) ∧ Marks run t outcome t' (queryMarks text es outcome)

theorem writesDetails_fixed (a : α) : WritesDetails fun s => (a, s) :=
  fun t => ⟨a, t, [], List.forall_mem_nil _, fun _ => rfl⟩

theorem writesDetails_results (e : Engine) (st : Settings) (x : Extent) (p : Predicate) :
    WritesDetails (e.results st x p) := by
  intro t
  obtain ⟨r, es, hes, hplan⟩ := Planner.plan_writes e.planner (st.window x) p
  cases r with
  | error f =>
    refine ⟨.error f, t, es, hes, fun j => ?_⟩
    simp only [results, hplan, Journal.markAll_map_entry]
  | ok plan =>
    let read := e.readPlan (!st.fields.isEmpty) (x.start + (st.window x).limit) plan t
    refine ⟨read.1.map (·.drop x.start), read.2, es, hes, fun j => ?_⟩
    simp only [results, hplan, Journal.markAll_map_entry]
    rfl

theorem writesDetails_execute (e : Engine) (st : Settings) (text : String) (p : Predicate) :
    WritesDetails (e.execute st text p) := by
  unfold execute
  cases st.extent e.limits p with
  | error f => exact writesDetails_fixed _
  | ok x =>
    dsimp only
    split
    · exact writesDetails_fixed _
    · intro t
      obtain ⟨found, t', es, hes, hrun⟩ := writesDetails_results e st x p t
      refine ⟨found.map (.ofResults text p x.limit), t', es, hes, fun j => ?_⟩
      dsimp only
      rw [hrun]

/-- The details of a run stand between the two entries of its query. -/
theorem runsQuery_recorded (text : String) {run : Session → Except Fault Page × Session}
    (h : WritesDetails run) : RunsQuery text (recorded text run) := by
  intro t
  obtain ⟨outcome, t', es, hes, hrun⟩ := h t
  refine ⟨outcome, t', es, hes, fun j => ?_⟩
  unfold recorded
  dsimp only
  rw [hrun, enter_eq, ← Journal.markAll_append]
  rfl

theorem runsQuery_query (e : Engine) (st : Settings) (text : String) :
    RunsQuery text (e.query st text) := by
  refine runsQuery_recorded text ?_
  cases e.dialect.parse text with
  | error f => exact writesDetails_fixed _
  | ok p => exact writesDetails_execute e st text p

theorem runsQuery_queryPredicate (e : Engine) (st : Settings) (p : Predicate) :
    RunsQuery p.display (e.queryPredicate st p) :=
  runsQuery_recorded p.display (writesDetails_execute e st p.display p)

theorem plan_writes (e : Engine) (st : Settings) (p : Predicate) :
    ∃ (r : Except Fault Source) (es : List Entry), (∀ entry ∈ es, Detail entry)
      ∧ ∀ log, e.plan st p log = (r, log.writeAll es) := by
  unfold plan
  cases st.extent e.limits p with
  | error f => exact ⟨.error f, [], List.forall_mem_nil _, fun _ => rfl⟩
  | ok x => exact e.planner.plan_writes (st.window x) p

/-! ## Several queries -/

/-- The queries that were started of those with the given texts, one behind
the other until one fails, and what their caller is answered. -/
structure InTurn (texts : List String) (answer : Except Fault (List Page))
    (started : List Run) : Prop where
  /-- The pages of all that were started, or the first fault. -/
  answered : answer = started.mapM Run.outcome
  /-- None is started behind one that fails. -/
  stops : ∀ run ∈ started.dropLast, run.outcome.isOk = true
  texts_prefix : started.map Run.text <+: texts
  /-- All are started unless one fails. -/
  complete : answer.isOk = true → started.map Run.text = texts

theorem InTurn.cons {text : String} {texts : List String} {page : Page}
    {answer : Except Fault (List Page)} {started : List Run} (h : InTurn texts answer started) :
    InTurn (text :: texts) (answer.map (page :: ·)) (⟨text, .ok page⟩ :: started) where
  answered := by
    rw [h.answered, List.mapM_cons]
    rfl
  stops := by
    intro run hrun
    cases started with
    | nil => cases hrun
    | cons run' started =>
      rw [List.dropLast_cons_cons] at hrun
      rcases List.mem_cons.mp hrun with rfl | hrun
      · rfl
      · exact h.stops run hrun
  texts_prefix := by
    rw [List.map_cons, List.prefix_cons_inj]
    exact h.texts_prefix
  complete hok := by
    rw [List.map_cons, h.complete]
    cases answer with
    | ok pages => rfl
    | error f => exact hok

theorem inTurn_queryMany (e : Engine) (st : Settings) (texts : List String) (s : Session) :
    InTurn texts (e.queryMany st texts s).1 (e.runsInTurn st texts s) := by
  induction texts generalizing s with
  | nil => exact ⟨rfl, List.forall_mem_nil _, List.nil_prefix, fun _ => rfl⟩
  | cons text texts ih =>
    unfold queryMany runsInTurn
    rcases e.query st text s with ⟨f | page, s'⟩
    · exact ⟨rfl, List.forall_mem_nil _, by simp, fun h => absurd h Bool.false_ne_true⟩
    · exact (ih s').cons

end ReviewSearch.Engine
