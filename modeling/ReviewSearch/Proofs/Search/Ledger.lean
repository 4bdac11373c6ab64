/-
ReviewSearch.Proofs.Search.Ledger — the counters are a ledger of the run.

Whatever is done with an engine and in whatever order, the marks in the
journal account for it (`Ledger`): one execution or rejection for each
query that was started, the documents of each page, one check for each
record, one stale record for each such verdict.

* `perform_marks` — one operation keeps the books, from every journal;
* `performAll_marks` — so does a run of operations, whose marks are those
  of each of them one behind the other;
* `counters_account` — so the counters of a run that starts from nothing
  can be read off what it did, and the log off the queries it started.
-/
import ReviewSearch.Proofs.Index.Results
import ReviewSearch.Proofs.Search.Marks

namespace ReviewSearch

open Operation (Run Result Performance)

/-! ## Books -/

namespace Operation.Run

def succeeded (r : Run) : Bool :=
  r.outcome.isOk

/-- A query has succeeded or failed. -/
theorem countP_succeeded (runs : List Run) :
    runs.countP succeeded + runs.countP (fun r => !r.succeeded) = runs.length := by
  rw [List.length_eq_countP_add_countP succeeded]
  simp only [Bool.not_eq_true, Bool.decide_eq_false]

/-- How many documents a query has returned. -/
def returned (r : Run) : Nat :=
  match r.outcome with
  | .ok page => page.documents.length
  | .error _ => 0

/-- The entries of a query: it was received, and then either executed or
rejected. -/
def entries (r : Run) : List Entry :=
  [Engine.receivedEntry r.text, Engine.outcomeEntry r.text r.outcome]

end Operation.Run

/-- Whether an entry tells that a query was received, executed or
rejected. -/
def Entry.tellsOfQuery (e : Entry) : Bool :=
  [Event.queryReceived, .queryExecuted, .queryRejected].any fun event => event.text == e.event

/-- The marks account for so many checks, the verdicts among the results,
and the queries that were started. -/
structure Ledger (checks : Nat) (results : List Result) (started : List Run)
    (ms : List Mark) : Prop where
  executed : Mark.total .queriesExecuted ms = started.countP Run.succeeded
  rejected : Mark.total .queriesRejected ms = started.countP fun r => !r.succeeded
  returned : Mark.total .documentsReturned ms = (started.map Run.returned).sum
  checked : Mark.total .stalenessChecks ms = checks
  stale : Mark.total .staleDocuments ms = results.countP Result.isStale
  verdicts : results.countP Result.isStale ≤ checks
  /-- A check that could not be made counts as a stale record as well. -/
  failed : Mark.total .stalenessCheckFailures ms ≤ Mark.total .staleDocuments ms
  told : (Mark.entries ms).filter Entry.tellsOfQuery = started.flatMap Run.entries

namespace Ledger

variable {checks checks' : Nat} {results results' : List Result} {started started' : List Run}
  {ms ms' : List Mark}

theorem nil : Ledger 0 [] [] [] :=
  ⟨rfl, rfl, rfl, rfl, rfl, Nat.le_refl _, Nat.le_refl _, rfl⟩

/-- Books of one run behind another are added up. -/
theorem append (h : Ledger checks results started ms)
    (h' : Ledger checks' results' started' ms') :
    Ledger (checks + checks') (results ++ results') (started ++ started') (ms ++ ms') where
  executed := by rw [Mark.total_append, List.countP_append, h.executed, h'.executed]
  rejected := by rw [Mark.total_append, List.countP_append, h.rejected, h'.rejected]
  returned := by
    rw [Mark.total_append, List.map_append, List.sum_append, h.returned, h'.returned]
  checked := by rw [Mark.total_append, h.checked, h'.checked]
  stale := by rw [Mark.total_append, List.countP_append, h.stale, h'.stale]
  verdicts := by
    rw [List.countP_append]
    exact Nat.add_le_add h.verdicts h'.verdicts
  failed := by
    rw [Mark.total_append, Mark.total_append]
    exact Nat.add_le_add h.failed h'.failed
  told := by
    rw [Mark.entries_append, List.filter_append, List.flatMap_append, h.told, h'.told]

/-- A result that is no verdict is not in the books. -/
theorem answer (h : Ledger checks [] started ms) {r : Result} (hr : r.isStale = false) :
    Ledger checks [r] started ms :=
  have hnone : [r].countP Result.isStale = 0 := by rw [List.countP_singleton, hr]; rfl
  { h with
    stale := h.stale.trans hnone.symm
    verdicts := hnone.trans_le (Nat.zero_le _) }

/-- Details of planning tell of no query. -/
theorem filter_details {es : List Entry} (h : ∀ entry ∈ es, Planner.Detail entry) :
    es.filter Entry.tellsOfQuery = [] := by
  refine List.filter_eq_nil_iff.mpr fun entry hentry => ?_
  cases h entry hentry <;> exact Bool.false_ne_true

theorem details {es : List Entry} (h : ∀ entry ∈ es, Planner.Detail entry) :
    Ledger 0 [] [] (es.map .entry) := by
  have hnone (c : Counter) : Mark.total c (es.map .entry) = 0 := Mark.total_map_entry es
  refine ⟨hnone _, hnone _, hnone _, hnone _, hnone _, Nat.le_refl _,
    (hnone _).trans_le (Nat.zero_le _), ?_⟩
  rw [Mark.entries_map_entry]
  exact filter_details h

/-- A query is counted by its outcome, and told by its two entries. -/
theorem run (text : String) {es : List Entry} (h : ∀ entry ∈ es, Planner.Detail entry)
    (outcome : Except Fault Page) :
    Ledger 0 [] [⟨text, outcome⟩] (Engine.queryMarks text es outcome) := by
  have htotal (c : Counter) : Mark.total c (Engine.queryMarks text es outcome)
      = Mark.total c (Engine.outcomeMarks text outcome) := by
    rw [Engine.queryMarks, Mark.total_append, Mark.total_map_entry, Nat.zero_add]
  have hfailed : Mark.total .stalenessCheckFailures (Engine.queryMarks text es outcome) = 0 := by
    rw [htotal]
    cases outcome <;> rfl
  have htold : (Mark.entries (Engine.queryMarks text es outcome)).filter Entry.tellsOfQuery
      = [Engine.receivedEntry text, Engine.outcomeEntry text outcome] := by
    have hentries : Mark.entries (Engine.outcomeMarks text outcome)
        = [Engine.outcomeEntry text outcome] := by
      cases outcome <;> rfl
    have hreceived : (Engine.receivedEntry text).tellsOfQuery = true := rfl
    have houtcome : (Engine.outcomeEntry text outcome).tellsOfQuery = true := by
      cases outcome <;> rfl
    rw [Engine.queryMarks, Mark.entries_append, Mark.entries_map_entry, hentries,
      List.filter_append, List.filter_cons_of_pos hreceived, filter_details h,
      List.filter_cons_of_pos houtcome]
    rfl
  cases outcome with
  | ok page =>
    exact ⟨htotal _, htotal _, (htotal _).trans (Nat.zero_add _), htotal _, htotal _,
      Nat.le_refl _, hfailed.trans_le (Nat.zero_le _), htold⟩
  | error f =>
    exact ⟨htotal _, htotal _, htotal _, htotal _, htotal _,
      Nat.le_refl _, hfailed.trans_le (Nat.zero_le _), htold⟩

end Ledger

/-! ## Checks -/

namespace Staleness

/-- From every journal a check comes to the same verdict and makes the same
marks, which account for it. -/
theorem check_marks (live : LiveRefs) (id : Nat) (r : Recorded) :
    ∃ stale lookups ms, Ledger 1 [.verdict stale lookups] [] ms
      ∧ ∀ j, check live id r j = ⟨stale, lookups, j.markAll ms⟩ := by
  unfold check
  rcases (Probe.make (probes live r)) with ⟨reason | _ | _, lookups⟩
  · refine ⟨true, lookups, [.count .stalenessChecks 1, .count .stalenessCheckFailures 1,
      .ofEvent .stalenessCheckFailed [("id", toString id), ("reason", reason)],
      .count .staleDocuments 1, .ofEvent .documentStale [("id", toString id)]], ?_, fun _ => rfl⟩
    exact ⟨rfl, rfl, rfl, rfl, rfl, Nat.le_refl _, Nat.le_refl _, rfl⟩
  · refine ⟨false, lookups, [.count .stalenessChecks 1], ?_, fun _ => rfl⟩
    exact ⟨rfl, rfl, rfl, rfl, rfl, Nat.zero_le _, Nat.le_refl _, rfl⟩
  · refine ⟨true, lookups, [.count .stalenessChecks 1, .count .staleDocuments 1,
      .ofEvent .documentStale [("id", toString id)]], ?_, fun _ => rfl⟩
    exact ⟨rfl, rfl, rfl, rfl, rfl, Nat.le_refl _, Nat.zero_le _, rfl⟩

theorem checkDocument_marks (live : LiveRefs) (d : Document) :
    ∃ stale lookups ms, Ledger 1 [.verdict stale lookups] [] ms
      ∧ ∀ j, checkDocument live d j = ⟨stale, lookups, j.markAll ms⟩ := by
  unfold checkDocument
  cases recorded d with
  | ok r => exact check_marks live d.id r
  | error f =>
    refine ⟨true, [], [.count .stalenessChecks 1, .count .staleDocuments 1,
      .count .stalenessCheckFailures 1,
      .ofEvent .stalenessCheckFailed [("id", toString d.id), ("reason", f.message)]],
      ?_, fun _ => rfl⟩
    exact ⟨rfl, rfl, rfl, rfl, rfl, Nat.le_refl _, Nat.le_refl _, rfl⟩

end Staleness

/-! ## Operations -/

namespace Engine

/-- What operations do, from every journal. -/
structure Deed where
  results : List Result
  started : List Run
  settings : Settings
  trace : Trace Consult
  marks : List Mark

/-- A deed as it comes out with a journal. -/
def Deed.on (d : Deed) (j : Journal) : Performance :=
  ⟨d.results, d.started, ⟨d.settings, ⟨d.trace, j.markAll d.marks⟩⟩⟩

theorem queryMany_marks (e : Engine) (st : Settings) (texts : List String) (t : Trace Consult) :
    ∃ (r : Except Fault (List Page)) (t' : Trace Consult) (started : List Run) (ms : List Mark),
      Ledger 0 [] started ms ∧ Marks (e.queryMany st texts) t r t' ms
        ∧ ∀ j, e.runsInTurn st texts ⟨t, j⟩ = started := by
  induction texts generalizing t with
  | nil => exact ⟨.ok [], t, [], [], .nil, fun _ => rfl, fun _ => rfl⟩
  | cons text texts ih =>
    obtain ⟨outcome, t', es, hes, hquery⟩ := runsQuery_query e st text t
    have hrun := Ledger.run text hes outcome
    cases outcome with
    | error f =>
      refine ⟨.error f, t', [⟨text, .error f⟩], _, hrun, fun j => ?_, fun j => ?_⟩
      · rw [queryMany, hquery]
      · rw [runsInTurn, hquery]
    | ok page =>
      obtain ⟨r, t'', started, ms, hledger, hmany, hstarted⟩ := ih t'
      refine ⟨r.map (page :: ·), t'', ⟨text, .ok page⟩ :: started, _, hrun.append hledger,
        fun j => ?_, fun j => ?_⟩
      · rw [queryMany, hquery]
        dsimp only
        rw [hmany, ← Journal.markAll_append]
      · rw [runsInTurn, hquery]
        dsimp only
        rw [hstarted]

/-- One operation comes to the same from every journal, and keeps the
books. -/
theorem perform_marks (e : Engine) (op : Operation) (st : Settings) (t : Trace Consult) :
    ∃ d : Deed, Ledger op.isCheck.toNat d.results d.started d.marks
      ∧ ∀ j, e.perform op ⟨st, ⟨t, j⟩⟩ = d.on j := by
  have hchecked {f : Journal → Staleness.Checked} (h : ∃ stale lookups ms,
      Ledger 1 [.verdict stale lookups] [] ms ∧ ∀ j, f j = ⟨stale, lookups, j.markAll ms⟩) :
      ∃ d : Deed, Ledger 1 d.results d.started d.marks
        ∧ ∀ j, checked ⟨st, ⟨t, j⟩⟩ (f j) = d.on j := by
    obtain ⟨stale, lookups, ms, hledger, hf⟩ := h
    refine ⟨⟨[.verdict stale lookups], [], st, t, ms⟩, hledger, fun j => ?_⟩
    rw [hf]
    rfl
  cases op with
  | set c => exact ⟨⟨[.done], [], st.change c, t, []⟩, Ledger.nil.answer rfl, fun _ => rfl⟩
  | query text =>
    obtain ⟨outcome, t', es, hes, hquery⟩ := runsQuery_query e st text t
    refine ⟨⟨[.page outcome], [⟨text, outcome⟩], st, t', _⟩,
      (Ledger.run text hes outcome).answer rfl, fun j => ?_⟩
    rw [perform, hquery]
    rfl
  | queryPredicate p =>
    obtain ⟨outcome, t', es, hes, hquery⟩ := runsQuery_queryPredicate e st p t
    refine ⟨⟨[.page outcome], [⟨p.display, outcome⟩], st, t', _⟩,
      (Ledger.run p.display hes outcome).answer rfl, fun j => ?_⟩
    rw [perform, hquery]
    rfl
  | queryMany texts =>
    obtain ⟨r, t', started, ms, hledger, hmany, hstarted⟩ := queryMany_marks e st texts t
    refine ⟨⟨[.pages r], started, st, t', ms⟩, hledger.answer rfl, fun j => ?_⟩
    rw [perform, hmany, hstarted]
    rfl
  | plan p =>
    obtain ⟨r, es, hes, hplan⟩ := plan_writes e st p
    refine ⟨⟨[.plan r], [], st, t, es.map .entry⟩, (Ledger.details hes).answer rfl, fun j => ?_⟩
    rw [perform, hplan, Deed.on, Journal.markAll_map_entry]
    rfl
  | check live id r => exact hchecked (Staleness.check_marks live id r)
  | checkDocument live d => exact hchecked (Staleness.checkDocument_marks live d)

/-- A run of operations comes to the same from every journal, and keeps the
books. -/
theorem performAll_marks (e : Engine) (ops : List Operation) (st : Settings)
    (t : Trace Consult) :
    ∃ d : Deed, Ledger (ops.countP Operation.isCheck) d.results d.started d.marks
      ∧ ∀ j, e.performAll ops ⟨st, ⟨t, j⟩⟩ = d.on j := by
  induction ops generalizing st t with
  | nil => exact ⟨⟨[], [], st, t, []⟩, .nil, fun _ => rfl⟩
  | cons op ops ih =>
    obtain ⟨d, hledger, hd⟩ := perform_marks e op st t
    obtain ⟨d', hledger', hd'⟩ := ih d.settings d.trace
    refine ⟨⟨d.results ++ d'.results, d.started ++ d'.started, d'.settings, d'.trace,
      d.marks ++ d'.marks⟩, ?_, fun j => ?_⟩
    · have hchecks : (op :: ops).countP Operation.isCheck
          = op.isCheck.toNat + ops.countP Operation.isCheck := by
        rw [List.countP_cons, Nat.add_comm]
        cases op.isCheck <;> rfl
      rw [hchecks]
      exact hledger.append hledger'
    · rw [performAll, hd]
      dsimp only [Deed.on]
      rw [hd', Deed.on, Journal.markAll_append]

end Engine

/-! ## Accounts -/

/-- The counters account for a run that began with none, and so does the log
for the queries that it started. -/
structure Accounted (checks : Nat) (run : Performance) (j : Journal) : Prop where
  queries : j.counters.queriesExecuted.toNat + j.counters.queriesRejected.toNat
    = run.started.length
  executed : j.counters.queriesExecuted.toNat = run.started.countP Run.succeeded
  returned : j.counters.documentsReturned.toNat = (run.started.map Run.returned).sum
  checked : j.counters.stalenessChecks.toNat = checks
  stale : j.counters.staleDocuments.toNat = run.results.countP Result.isStale
  failed : j.counters.stalenessCheckFailures ≤ j.counters.staleDocuments
  told : Severity.info.passes j.log.threshold = true →
    j.log.entries.filter Entry.tellsOfQuery = run.started.flatMap Run.entries

/-- A counter below 2^64 is the total of the marks. -/
theorem toNat_value_markAll {j : Journal} {c : Counter} {ms : List Mark} {n : Nat}
    (hj : j.counters = {}) (hn : Mark.total c ms = n) (h : n < 2 ^ 64) :
    ((j.markAll ms).counters.value c).toNat = n := by
  have hzero : ({} : Counters).value c = 0 := by cases c <;> rfl
  rw [Journal.value_markAll, hj, hzero, hn, UInt64.zero_add]
  exact UInt64.toNat_ofNat_of_lt h

/-- Every entry that tells of a query is as loud as INFO. -/
theorem passes_entries {threshold : Severity} (h : Severity.info.passes threshold = true)
    (started : List Run) :
    ∀ entry ∈ started.flatMap Run.entries, entry.severity.passes threshold = true := by
  intro entry hentry
  obtain ⟨run, -, hentry⟩ := List.mem_flatMap.mp hentry
  have hinfo : Severity.info.rank ≤ entry.severity.rank := by
    rcases List.mem_pair.mp hentry with rfl | rfl
    · exact Nat.le_refl _
    · cases run.outcome with
      | ok page => exact Nat.le_refl 1
      | error f => exact Nat.le_succ 1
  exact Severity.passes_iff.mpr (Nat.le_trans (Severity.passes_iff.mp h) hinfo)

/-- The books of marks, read off the journal they were made in. -/
theorem Ledger.accounted {checks : Nat} {run : Performance} {j : Journal} {ms : List Mark}
    (h : Ledger checks run.results run.started ms)
    (hj : j.counters = {}) (hlog : j.log.entries = [])
    (hqueries : run.started.length < 2 ^ 64)
    (hdocuments : (run.started.map Run.returned).sum < 2 ^ 64) (hchecks : checks < 2 ^ 64) :
    Accounted checks run (j.markAll ms) := by
  have hexecuted : ((j.markAll ms).counters.value .queriesExecuted).toNat
      = run.started.countP Run.succeeded :=
    toNat_value_markAll hj h.executed (Nat.lt_of_le_of_lt List.countP_le_length hqueries)
  have hrejected : ((j.markAll ms).counters.value .queriesRejected).toNat
      = run.started.countP fun r => !r.succeeded :=
    toNat_value_markAll hj h.rejected (Nat.lt_of_le_of_lt List.countP_le_length hqueries)
  have hstale : ((j.markAll ms).counters.value .staleDocuments).toNat
      = run.results.countP Result.isStale :=
    toNat_value_markAll hj h.stale (Nat.lt_of_le_of_lt h.verdicts hchecks)
  have hfailed : ((j.markAll ms).counters.value .stalenessCheckFailures).toNat
      = Mark.total .stalenessCheckFailures ms :=
    toNat_value_markAll hj rfl
      (Nat.lt_of_le_of_lt h.failed (h.stale ▸ Nat.lt_of_le_of_lt h.verdicts hchecks))
  exact
    { queries := (congrArg₂ (· + ·) hexecuted hrejected).trans (Run.countP_succeeded run.started)
      executed := hexecuted
      returned := toNat_value_markAll hj h.returned hdocuments
      checked := toNat_value_markAll hj h.checked hchecks
      stale := hstale
      failed := by
        rw [UInt64.le_iff_toNat_le]
        exact hfailed.trans_le (h.failed.trans_eq (h.stale.trans hstale.symm))
      told := fun hinfo => by
        rw [Journal.threshold_markAll] at hinfo
        rw [Journal.entries_markAll, hlog, List.nil_append, List.filter_comm, h.told,
          List.filter_eq_self]
        exact passes_entries hinfo run.started }

namespace Engine

/-- Whatever is done with an engine, and in whatever order, the counters and
the log account for it. -/
theorem counters_account (e : Engine) (ops : List Operation) (st : Settings) (t : Trace Consult)
    (threshold : Severity) (run : Performance)
    (hrun : e.performAll ops ⟨st, ⟨t, ⟨⟨threshold, []⟩, {}⟩⟩⟩ = run)
    (hqueries : run.started.length < 2 ^ 64)
    (hdocuments : (run.started.map Run.returned).sum < 2 ^ 64)
    (hchecks : ops.countP Operation.isCheck < 2 ^ 64) :
    Accounted (ops.countP Operation.isCheck) run run.state.session.journal
      ∧ ∀ settings texts s,
          InTurn texts (e.queryMany settings texts s).1 (e.runsInTurn settings texts s) := by
  subst hrun
  obtain ⟨d, hledger, hd⟩ := performAll_marks e ops st t
  rw [hd] at hqueries hdocuments ⊢
  exact ⟨Ledger.accounted hledger rfl rfl hqueries hdocuments hchecks, inTurn_queryMany e⟩

/-- An engine over six changes. -/
def ofSixChanges : Engine :=
  ⟨Store.sixChanges.toIndex, .changes, {}, none⟩

/-- Queries that are answered and queries that are refused, alone and in a
row, a plan, and checks of a record that is fresh, of one that cannot be
compared and of one whose entry is malformed. -/
def severalOperations : List Operation :=
  let live : LiveRefs := ⟨fun _ _ => .error "unreachable", fun _ _ => .ok []⟩
  [.query "project:core", .set (.start (-1)), .query "project:core", .set (.start 0),
    .queryMany ["topic:x", "(", "topic:x"], .plan (.leaf (.exact "file" "a")),
    .checkDocument live ⟨1, []⟩, .check live 2 ⟨[("core", [⟨"refs/heads/a", .zero⟩])], []⟩,
    .checkDocument live ⟨3, [("ref_state", .string "core")]⟩]

/-- The second text in a row is refused, so its third is not started, and
the three documents of the first are counted but not returned. -/
theorem counters_account_sixChanges :
    let run := ofSixChanges.performAll severalOperations ⟨{}, ⟨{}, ⟨⟨.info, []⟩, {}⟩⟩⟩
    run.started.map (fun r => (r.text, r.returned))
        = [("project:core", 4), ("project:core", 0), ("topic:x", 3), ("(", 0)]
      ∧ run.state.session.journal.counters = ⟨2, 2, 7, 3, 2, 2⟩
      ∧ Accounted 3 run run.state.session.journal := by
  refine ⟨by decide +kernel, by decide +kernel, ?_⟩
  exact (counters_account ofSixChanges severalOperations {} {} .info _ rfl (by decide +kernel)
    (by decide +kernel) (by decide)).1

end Engine

end ReviewSearch
