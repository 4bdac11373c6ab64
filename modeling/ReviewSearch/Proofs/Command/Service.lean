/-
ReviewSearch.Proofs.Command.Service — requests are served apart.

Requests are run in turn, and what a line leaves behind is the settings of
its request and the counters. Neither shows in what the next line is
answered: a request makes every setting anew but the permitted limit, which
no request changes (`foldl_changes`), and what a query comes to does not
depend on the journal (`Engine.runsQuery_query`).

* `answers_text` — a text has one response, whatever was served before, and
  the counters account for the query that was run for it;
* `serves_lines` — by induction over the lines, the responses are those of
  the lines that are not blank, one behind the other, and the counters
  account for all queries;
* `requests_are_isolated` — so each response is the one that its line has by
  itself, and the metrics are the totals of the responses.
-/
import ReviewSearch.Command.Run
import ReviewSearch.Proofs.Search.Ledger

namespace ReviewSearch

open Operation (Run)

/-! ## Entries -/

/-- No field of the entry is a status. -/
def Entry.Plain (e : Entry) : Prop :=
  "status" ∉ e.fields.map Prod.fst

theorem Planner.Detail.plain {e : Entry} (h : Planner.Detail e) : e.Plain := by
  cases h <;> simp [Entry.Plain, Event.entry]

/-- The entries of a query have no status. -/
theorem Engine.plain_queryMarks (text : String) {es : List Entry}
    (hes : ∀ e ∈ es, Planner.Detail e) (outcome : Except Fault Page) :
    ∀ e ∈ Mark.entries (queryMarks text es outcome), e.Plain := by
  have hreceived : (receivedEntry text).Plain := by simp [Entry.Plain, receivedEntry, Event.entry]
  have houtcome : ∀ e ∈ Mark.entries (outcomeMarks text outcome), e.Plain := by
    cases outcome <;>
      simp [Mark.entries, Mark.entry?, outcomeMarks, outcomeEntry, Entry.Plain, Event.entry]
  intro e he
  rw [queryMarks, Mark.entries_append, Mark.entries_map_entry, List.mem_append,
    List.mem_cons] at he
  rcases he with (rfl | he) | he
  · exact hreceived
  · exact (hes e he).plain
  · exact houtcome e he

namespace Command

/-! ## Lines of the output -/

namespace Line

/-- Whether the object on a line has a status. -/
def hasStatus : Line → Bool
  | .log e => e.members.any fun m => m.1 == "status"
  | .answer v => (v.member? "status").isSome

/-- The documents of the page on a line; none if there is no page. -/
def documents : Line → List Json
  | .log _ => []
  | .answer v =>
    (((v.member? "data").bind (Json.member? "documents")).bind Json.items?).getD []

/-- The counters in the metrics on a line, by their names; none if there are
no metrics. -/
def metrics : Line → List (String × Option Nat)
  | .log _ => []
  | .answer v =>
    ((((v.member? "data").bind (Json.member? "metrics")).bind Json.members?).getD []).map
      fun member => (member.1, member.2.natUpTo? Count.max)

/-- Whether a line of the output is a response. -/
def isResponse (l : Line) : Bool :=
  !l.isError && l.hasStatus

end Line

/-- The responses of a command. -/
def Outcome.responses (o : Outcome) : List Line :=
  o.lines.filter Line.isResponse

theorem isResponse_log {e : Entry} (h : e.Plain) : (Line.log e).isResponse = false := by
  have hsorted : ∀ m ∈ e.sortedFields, m.1 ≠ "status" := fun m hm heq =>
    h (heq ▸ List.mem_map_of_mem ((Order.sortBy_perm _ _).mem_iff.mp hm))
  have hnone : (Line.log e).hasStatus = false := by
    simpa [Line.hasStatus, Entry.members] using hsorted
  rw [Line.isResponse, hnone, Bool.and_false]

/-- Log lines are no responses. -/
theorem filter_isResponse_logged {log : Log} (h : ∀ e ∈ log.entries, e.Plain) :
    (logged log).filter Line.isResponse = [] := by
  rw [List.filter_eq_nil_iff]
  intro l hl
  obtain ⟨e, he, rfl⟩ := List.mem_map.mp hl
  simp [isResponse_log (h e he)]

@[simp] theorem isResponse_success (data : Json) :
    (Line.answer (success data)).isResponse = true := by
  simp [Line.isResponse, Line.isError, Line.hasStatus, success, Json.member?, Json.ofMembers,
    Table.ofList, Table.get?_put_self, Table.get?_put_of_ne]

@[simp] theorem isResponse_refusal (f : Failure) :
    (Line.answer (refusal f)).isResponse = true := by
  simp [Line.isResponse, Line.isError, Line.hasStatus, refusal, Json.member?, Json.ofMembers,
    Table.ofList, Table.get?_put_self, Table.get?_put_of_ne]

@[simp] theorem documents_page (page : Page) :
    (Line.answer (success page.toJson)).documents = page.documents.map Document.toJson := by
  simp [Line.documents, success, Page.toJson, Json.member?, Json.items?, Json.ofMembers,
    Table.ofList, Table.get?_put_self, Table.get?_put_of_ne]

@[simp] theorem documents_refusal (f : Failure) :
    (Line.answer (refusal f)).documents = [] := by
  simp [Line.documents, refusal, Json.member?, Json.ofMembers, Table.ofList,
    Table.get?_put_of_ne]

/-- The last line of a service holds its counters. -/
theorem metrics_serviceEnd (s : Service) :
    (serviceEnd s).metrics =
      [("documents_returned", some s.counters.documentsReturned.toNat),
        ("queries_executed", some s.counters.queriesExecuted.toNat),
        ("queries_rejected", some s.counters.queriesRejected.toNat),
        ("stale_documents", some s.counters.staleDocuments.toNat),
        ("staleness_check_failures", some s.counters.stalenessCheckFailures.toNat),
        ("staleness_checks", some s.counters.stalenessChecks.toNat)] := by
  have hread (n : UInt64) : (Json.ofNat n.toNat).natUpTo? Count.max = some n.toNat := by
    have hle : n.toNat ≤ Count.max := Nat.le_of_lt_succ n.toNat_lt_size
    simp only [Json.ofNat, Json.natUpTo?]
    rw [if_pos (by omega), Int.toNat_natCast]
  have hwritten : s.counters.toJson.members? = some
      [("documents_returned", .ofNat s.counters.documentsReturned.toNat),
        ("queries_executed", .ofNat s.counters.queriesExecuted.toNat),
        ("queries_rejected", .ofNat s.counters.queriesRejected.toNat),
        ("stale_documents", .ofNat s.counters.staleDocuments.toNat),
        ("staleness_check_failures", .ofNat s.counters.stalenessCheckFailures.toNat),
        ("staleness_checks", .ofNat s.counters.stalenessChecks.toNat)] := by
    simp only [Counters.toJson, Json.members?, Json.ofMembers, Table.ofList, List.foldl, Table.put,
      String.reduceLT, String.reduceEq, if_true, if_false]
  simp [Line.metrics, serviceEnd, success, Json.member?, Json.ofMembers, Table.ofList,
    Table.get?_put_self, hwritten, hread]

/-! ## Loading -/

section Loading

variable {w : Surroundings} {log : Log}

theorem plain_event (h : ∀ e ∈ log.entries, e.Plain) {event : Event}
    {fields : List (String × String)} (hfields : (event.entry fields).Plain) :
    ∀ e ∈ (log.event event fields).entries, e.Plain := by
  intro e he
  rw [show log.event event fields = log.write (event.entry fields) from rfl,
    Log.entries_write] at he
  rcases List.mem_append.mp he with he | he
  · exact h e he
  · obtain rfl := List.mem_singleton.mp (List.mem_filter.mp he).1
    exact hfields

theorem plain_loadLimits (path? : Option String) (h : ∀ e ∈ log.entries, e.Plain) :
    ∀ e ∈ (loadLimits w path? log).2.entries, e.Plain := by
  unfold loadLimits Limits.load
  split
  · split
    · exact h
    · refine plain_event h ?_
      simp [Entry.Plain, Event.entry]
  · exact h

theorem plain_loadSchema (path? : Option String) (h : ∀ e ∈ log.entries, e.Plain) :
    ∀ e ∈ (loadSchema w path? log).2.entries, e.Plain := by
  unfold loadSchema Schema.load
  split
  · split
    · exact h
    · refine plain_event h ?_
      simp [Entry.Plain, Event.entry]
  · exact h

/-- What is logged of the files of an engine has no status. -/
theorem plain_loadEngine (w : Surroundings) (files : IndexFiles)
    (h : ∀ e ∈ log.entries, e.Plain) : ∀ e ∈ (loadEngine w files log).2.entries, e.Plain := by
  have hlimits := plain_loadLimits (w := w) files.config? h
  unfold loadEngine
  split
  · next heq => rwa [heq] at hlimits
  · next limits log' heq =>
    rw [heq] at hlimits
    have hschema := plain_loadSchema (w := w) files.schema? hlimits
    split
    · next heq => rwa [heq] at hschema
    · next heq => rwa [heq] at hschema

end Loading

/-! ## One line -/

variable {e : Engine} {threshold : Severity}

/-- The service `s'` is behind `s` on a way that has made the marks. -/
structure Service.Follows (s s' : Service) (ms : List Mark) : Prop where
  permitted : s'.settings.permitted = s.settings.permitted
  counted : ∀ c, s'.counters.value c = s.counters.value c + .ofNat (Mark.total c ms)

namespace Service.Follows

variable {s s' s'' : Service} {ms ms' : List Mark}

theorem refl (s : Service) : s.Follows s [] :=
  ⟨rfl, fun _ => (UInt64.add_zero _).symm⟩

theorem trans (h : s.Follows s' ms) (h' : s'.Follows s'' ms') : s.Follows s'' (ms ++ ms') where
  permitted := h'.permitted.trans h.permitted
  counted c := by
    rw [h'.counted, h.counted, Mark.total_append, UInt64.ofNat_add, UInt64.add_assoc]

end Service.Follows

/-- A request makes every setting but the permitted limit. -/
theorem foldl_changes (r : Request) (st : Settings) :
    r.changes.foldl Settings.change st
      = ⟨st.permitted, r.limit, r.noLimit, r.start, r.fields⟩ := rfl

/-- A text is served with a response, whatever was served before. The
queries that are run for it have the documents of the response, and make the
marks by which the service goes on. -/
structure Answers (e : Engine) (threshold : Severity) (text : List Char) (response : Line)
    (runs : List Run) (ms : List Mark) : Prop where
  isResponse : response.isResponse = true
  ledger : Ledger 0 [] runs ms
  started : runs.length = (Request.ofText text).isOk.toNat
  documents : response.documents.length = (runs.map Run.returned).sum
  served : ∀ s : Service, s.settings.permitted = Count.max →
    ∃ log s', (∀ entry ∈ log.entries, entry.Plain) ∧ s.Follows s' ms
      ∧ serveText e threshold text s = (logged log ++ [response], s')

theorem answers_text (e : Engine) (threshold : Severity) (text : List Char) :
    ∃ response runs ms, Answers e threshold text response runs ms := by
  cases hr : Request.ofText text with
  | error f =>
    refine ⟨.answer (refusal f), [], [], isResponse_refusal f, .nil, by rw [hr]; rfl, by simp,
      fun s _ => ⟨⟨threshold, []⟩, s, List.forall_mem_nil _, .refl s, ?_⟩⟩
    rw [serveText, hr]
    rfl
  | ok r =>
    obtain ⟨outcome, t, es, hes, hquery⟩ :=
      Engine.runsQuery_query e ⟨Count.max, r.limit, r.noLimit, r.start, r.fields⟩ r.query {}
    let ms := Engine.queryMarks r.query es outcome
    have hledger := Ledger.run r.query hes outcome
    refine ⟨.answer (answerTo outcome), [⟨r.query, outcome⟩], ms, ?_, hledger, by rw [hr]; rfl,
      ?_, fun s hs => ?_⟩
    · cases outcome <;> simp [answerTo]
    · cases outcome <;> simp [answerTo, Run.returned]
    · let j : Journal := ⟨⟨threshold, []⟩, s.counters⟩
      have hlog : (j.markAll ms).log.entries
          = (Mark.entries ms).filter fun entry => entry.severity.passes threshold :=
        Journal.entries_markAll j ms
      refine ⟨(j.markAll ms).log, ⟨⟨Count.max, r.limit, r.noLimit, r.start, r.fields⟩,
        (j.markAll ms).counters⟩, fun entry hentry => ?_, ⟨hs.symm, Journal.value_markAll j ms⟩, ?_⟩
      · rw [hlog] at hentry
        exact Engine.plain_queryMarks r.query hes outcome entry (List.mem_filter.mp hentry).1
      · rw [serveText, hr]
        dsimp only
        rw [serveRequest, foldl_changes, hs, hquery j]

/-! ## Lines of the input -/

/-- Whether a line of the input holds nothing but blanks. -/
def isBlankLine (line : List UInt8) : Bool :=
  (Text.Utf8.decode? line).any fun text => Text.allBlank text.toList

/-- The lines that ask for something. -/
def asking (lines : List (List UInt8)) : List (List UInt8) :=
  lines.filter fun line => !isBlankLine line

/-- Whether a line of the input is a well-formed request. -/
def isRequestLine (line : List UInt8) : Bool :=
  (Text.Utf8.decode? line).any fun text => (Request.ofText text.toList).isOk

theorem not_mem_of_mem_inputLines {input line : List UInt8} (h : line ∈ inputLines input) :
    10 ∉ line := by
  induction input generalizing line with
  | nil => cases h
  | cons b bs ih =>
    unfold inputLines at h
    split at h
    · rcases List.mem_cons.mp h with rfl | h
      · exact List.not_mem_nil
      · exact ih h
    next hb =>
      split at h
      · obtain rfl := List.mem_singleton.mp h
        exact fun hmem => hb (List.mem_singleton.mp hmem).symm
      next l ls hls =>
        rcases List.mem_cons.mp h with rfl | h
        · have hl : 10 ∉ l := ih (hls ▸ List.mem_cons_self)
          exact List.not_mem_cons_of_ne_of_not_mem (Ne.symm hb) hl
        · exact ih (hls ▸ List.mem_cons_of_mem _ h)

/-- A line by itself is an input of this line. -/
theorem inputLines_of_not_mem {line : List UInt8} (hne : line ≠ []) (h : 10 ∉ line) :
    inputLines line = [line] := by
  induction line with
  | nil => exact absurd rfl hne
  | cons b bs ih =>
    rw [List.mem_cons, not_or] at h
    unfold inputLines
    rw [if_neg (Ne.symm h.1)]
    cases bs with
    | nil => rfl
    | cons b' bs => rw [ih (List.cons_ne_nil _ _) h.2]

theorem inputLines_of_mem_asking {input line : List UInt8} (h : line ∈ asking (inputLines input)) :
    inputLines line = [line] := by
  obtain ⟨hmem, hblank⟩ := List.mem_filter.mp h
  refine inputLines_of_not_mem ?_ (not_mem_of_mem_inputLines hmem)
  rintro rfl
  cases hblank

/-- The response to a line of the input, whatever was served before. -/
def Responds (e : Engine) (threshold : Severity) (line : List UInt8) (response : Line) : Prop :=
  ∀ s : Service, s.settings.permitted = Count.max →
    ∃ printed s', serveLine e threshold line s = .ok (printed, s')
      ∧ printed.filter Line.isResponse = [response]

/-- Lines are served with responses to those that ask for something, whatever
was served before. The queries that are run for them have the documents of
the responses, and make the marks by which the service goes on. -/
structure Serves (e : Engine) (threshold : Severity) (lines : List (List UInt8))
    (responses : List Line) (runs : List Run) (ms : List Mark) : Prop where
  responds : List.Forall₂ (Responds e threshold) (asking lines) responses
  ledger : Ledger 0 [] runs ms
  started : runs.length = (asking lines).countP isRequestLine
  documents : (responses.map fun r => r.documents.length).sum = (runs.map Run.returned).sum
  served : ∀ s : Service, s.settings.permitted = Count.max →
    ∃ s', s.Follows s' ms ∧ (serve e threshold lines s).failure? = none
      ∧ (serve e threshold lines s).responses = responses ++ [serviceEnd s']

theorem serves_nil (e : Engine) (threshold : Severity) : Serves e threshold [] [] [] [] where
  responds := .nil
  ledger := .nil
  started := rfl
  documents := rfl
  served s _ := by
    refine ⟨s, .refl s, rfl, ?_⟩
    exact List.filter_cons_of_pos (isResponse_success _)

section Serving

variable {text : String} {line : List UInt8} {lines : List (List UInt8)} {response : Line}
  {responses : List Line} {runs runs' : List Run} {ms ms' : List Mark}

theorem serve_cons {printed : List Line} {s s' : Service}
    (h : serveLine e threshold line s = .ok (printed, s')) :
    serve e threshold (line :: lines) s = (serve e threshold lines s').after printed := by
  rw [serve, h]

theorem serveLine_of_blank (htext : Text.Utf8.decode? line = some text)
    (hblank : Text.allBlank text.toList = true) (s : Service) :
    serveLine e threshold line s = .ok ([], s) := by
  rw [serveLine, htext]
  exact if_pos hblank

theorem serveLine_of_not_blank (htext : Text.Utf8.decode? line = some text)
    (hblank : Text.allBlank text.toList = false) (s : Service) :
    serveLine e threshold line s = .ok (serveText e threshold text.toList s) := by
  rw [serveLine, htext]
  exact if_neg (by rw [hblank]; exact Bool.false_ne_true)

/-- A blank line is passed over. -/
theorem Serves.blank (h : Serves e threshold lines responses runs ms)
    (htext : Text.Utf8.decode? line = some text) (hblank : Text.allBlank text.toList = true) :
    Serves e threshold (line :: lines) responses runs ms := by
  have hasking : asking (line :: lines) = asking lines :=
    List.filter_cons_of_neg (by simp [isBlankLine, htext, hblank])
  refine ⟨hasking ▸ h.responds, h.ledger, hasking ▸ h.started, h.documents, fun s hs => ?_⟩
  rw [serve_cons (serveLine_of_blank htext hblank s)]
  exact h.served s hs

/-- The response to a line stands in front of those to the lines behind
it. -/
theorem Serves.cons (h : Serves e threshold lines responses runs ms)
    (htext : Text.Utf8.decode? line = some text) (hblank : Text.allBlank text.toList = false)
    (ha : Answers e threshold text.toList response runs' ms') :
    Serves e threshold (line :: lines) (response :: responses) (runs' ++ runs) (ms' ++ ms) := by
  have hasking : asking (line :: lines) = line :: asking lines :=
    List.filter_cons_of_pos (by simp [isBlankLine, htext, hblank])
  have hfilter {log : Log} (hlog : ∀ entry ∈ log.entries, entry.Plain) :
      (logged log ++ [response]).filter Line.isResponse = [response] := by
    rw [List.filter_append, filter_isResponse_logged hlog, List.nil_append,
      List.filter_cons_of_pos ha.isResponse]
    rfl
  refine ⟨?responds, ha.ledger.append h.ledger, ?started, ?documents, fun s hs => ?served⟩
  case responds =>
    rw [hasking]
    refine .cons (fun s hs => ?_) h.responds
    obtain ⟨log, s', hlog, -, hserve⟩ := ha.served s hs
    exact ⟨_, s', (serveLine_of_not_blank htext hblank s).trans (congrArg _ hserve), hfilter hlog⟩
  case started =>
    have hrequest : isRequestLine line = (Request.ofText text.toList).isOk := by
      rw [isRequestLine, htext]
      rfl
    rw [hasking, List.length_append, List.countP_cons, ha.started, h.started, hrequest,
      Nat.add_comm]
    cases (Request.ofText text.toList).isOk <;> rfl
  case documents =>
    rw [List.map_cons, List.sum_cons, List.map_append, List.sum_append, ha.documents, h.documents]
  case served =>
    obtain ⟨log, s', hlog, hfollows, hserve⟩ := ha.served s hs
    obtain ⟨s'', hfollows', hfailure, hresponses⟩ := h.served s' (hfollows.permitted.trans hs)
    refine ⟨s'', hfollows.trans hfollows', ?_⟩
    rw [serve_cons ((serveLine_of_not_blank htext hblank s).trans (congrArg _ hserve))]
    refine ⟨hfailure, ?_⟩
    rw [Outcome.responses, Outcome.after, List.filter_append, hfilter hlog]
    exact congrArg (response :: ·) hresponses

end Serving

/-- Readable lines are served one behind the other. -/
theorem serves_lines (e : Engine) (threshold : Severity) {lines : List (List UInt8)}
    (h : ∀ line ∈ lines, (Text.Utf8.decode? line).isSome = true) :
    ∃ responses runs ms, Serves e threshold lines responses runs ms := by
  induction lines with
  | nil => exact ⟨[], [], [], serves_nil e threshold⟩
  | cons line lines ih =>
    rw [List.forall_mem_cons] at h
    obtain ⟨text, htext⟩ := Option.isSome_iff_exists.mp h.1
    obtain ⟨responses, runs, ms, hserves⟩ := ih h.2
    cases hblank : Text.allBlank text.toList with
    | true => exact ⟨responses, runs, ms, hserves.blank htext hblank⟩
    | false =>
      obtain ⟨response, runs', ms', ha⟩ := answers_text e threshold text.toList
      exact ⟨_, _, _, hserves.cons htext hblank ha⟩

/-! ## The service as a whole -/

/-- What a service prints of its input, by what is loaded for it. -/
theorem responses_start {w : Surroundings} {files : IndexFiles}
    (hload : (loadEngine w files ⟨threshold, []⟩).1 = .ok e) (input : List UInt8) :
    (run { w with input := input } threshold (.start files)).responses
        = (serve e threshold (inputLines input) {}).responses
      ∧ (run { w with input := input } threshold (.start files)).failure?
        = (serve e threshold (inputLines input) {}).failure? := by
  have hplain : ∀ entry ∈ (loadEngine w files ⟨threshold, []⟩).2.entries, entry.Plain :=
    plain_loadEngine w files (List.forall_mem_nil _)
  have hrun : run { w with input := input } threshold (.start files)
      = (serve e threshold (inputLines input) {}).after
        (logged (loadEngine w files ⟨threshold, []⟩).2) := by
    show withEngine w threshold files _ = _
    unfold withEngine
    generalize loadEngine w files ⟨threshold, []⟩ = loaded at hload
    obtain ⟨r, log⟩ := loaded
    obtain rfl : r = .ok e := hload
    rfl
  rw [hrun]
  refine ⟨?_, rfl⟩
  rw [Outcome.responses, Outcome.after, List.filter_append, filter_isResponse_logged hplain]
  rfl

theorem counters_of_follows {s' : Service} {runs : List Run} {ms : List Mark}
    (hledger : Ledger 0 [] runs ms) (h : ({} : Service).Follows s' ms) :
    s'.counters =
      { queriesExecuted := .ofNat (runs.countP Run.succeeded)
        queriesRejected := .ofNat (runs.countP fun r => !r.succeeded)
        documentsReturned := .ofNat (runs.map Run.returned).sum } := by
  have hvalue (c : Counter) {n : Nat} (hn : Mark.total c ms = n) :
      s'.counters.value c = .ofNat n := by
    have hzero : ({} : Service).counters.value c = 0 := by cases c <;> rfl
    rw [h.counted, hzero, hn, UInt64.zero_add]
  refine Counters.eq_of_value fun c => ?_
  cases c with
  | queriesExecuted => exact hvalue _ hledger.executed
  | queriesRejected => exact hvalue _ hledger.rejected
  | documentsReturned => exact hvalue _ hledger.returned
  | stalenessChecks => exact hvalue _ hledger.checked
  | staleDocuments => exact hvalue _ hledger.stale
  | stalenessCheckFailures =>
    exact hvalue _ (Nat.le_zero.mp (hledger.failed.trans_eq hledger.stale))

/-- A line that asks for something is answered as if it were the whole
input. -/
theorem responses_alone {w : Surroundings} {files : IndexFiles} {line : List UInt8}
    {response : Line} (hload : (loadEngine w files ⟨threshold, []⟩).1 = .ok e)
    (hline : inputLines line = [line]) (h : Responds e threshold line response) :
    ∃ own : Service, (run { w with input := line } threshold (.start files)).responses
      = [response, serviceEnd own] := by
  obtain ⟨printed, own, hserve, hprinted⟩ := h {} rfl
  refine ⟨own, ?_⟩
  rw [(responses_start hload line).1, hline, serve_cons hserve, Outcome.responses, Outcome.after,
    List.filter_append, hprinted, serve]
  exact congrArg (response :: ·) (List.filter_cons_of_pos (isResponse_success _))

/-- Requests are served apart. A service whose files can be loaded and whose
lines can be read responds to each line that is not blank, in the order of
the lines, and then with its metrics. Each response is the one that its line
is given by a service that reads no other line. The metrics on the last line
count the well-formed requests and the documents of the responses; they are
words, which wrap. -/
theorem requests_are_isolated (w : Surroundings) (threshold : Severity) (files : IndexFiles)
    (e : Engine) (hload : (loadEngine w files ⟨threshold, []⟩).1 = .ok e)
    (hreadable : ∀ line ∈ inputLines w.input, (Text.Utf8.decode? line).isSome = true) :
    let served := run w threshold (.start files)
    let lines := asking (inputLines w.input)
    ∃ (responses : List Line) (behind : Service) (executed rejected : Nat),
      served.failure? = none
        ∧ served.responses = responses ++ [serviceEnd behind]
        ∧ List.Forall₂ (fun line response => ∃ own : Service,
            (run { w with input := line } threshold (.start files)).responses
              = [response, serviceEnd own]) lines responses
        ∧ executed + rejected = lines.countP isRequestLine
        ∧ behind.counters =
          { queriesExecuted := .ofNat executed
            queriesRejected := .ofNat rejected
            documentsReturned := .ofNat (responses.map fun r => r.documents.length).sum }
        ∧ (serviceEnd behind).metrics =
          [("documents_returned",
              some ((responses.map fun r => r.documents.length).sum % UInt64.size)),
            ("queries_executed", some (executed % UInt64.size)),
            ("queries_rejected", some (rejected % UInt64.size)), ("stale_documents", some 0),
            ("staleness_check_failures", some 0), ("staleness_checks", some 0)] := by
  intro served lines
  obtain ⟨responses, runs, ms, hserves⟩ := serves_lines e threshold hreadable
  obtain ⟨behind, hfollows, hfailure, hresponses⟩ := hserves.served {} rfl
  obtain ⟨hstart, hend⟩ := responses_start hload w.input
  have halone : ∀ line ∈ lines, inputLines line = [line] := fun line hline =>
    inputLines_of_mem_asking hline
  have hcounters := hserves.documents ▸ counters_of_follows hserves.ledger hfollows
  refine ⟨responses, behind, _, _, hend.trans hfailure, hstart.trans hresponses, ?_,
    (Run.countP_succeeded runs).trans hserves.started, hcounters, ?_⟩
  · exact ((List.forall₂_and_left _ _).mpr ⟨halone, hserves.responds⟩).imp fun line response h =>
      responses_alone hload h.1 h.2
  · rw [metrics_serviceEnd, hcounters]
    simp only [UInt64.toNat_ofNat']
    rfl

/-- Two records in a file, and on the input a page of one record, a blank
line, a line that is no JSON, a page of all records, and a query that cannot
be read. -/
def twoChanges : Surroundings where
  files path :=
    if path = "docs" then
      some (Text.Utf8.encode ("[\x7b\"id\":1,\"project\":\"core\"\x7d,"
        ++ "\x7b\"id\":2,\"project\":\"core\"\x7d]"))
    else none
  input := Text.Utf8.encode ("\x7b\"query\":\"project:core\",\"limit\":1\x7d\n\n\x7b\n"
    ++ "\x7b\"query\":\"project:core\"\x7d\n\x7b\"query\":\"(\"\x7d")

/-- The limit of the first request does not bound the page of the third
line that is served. -/
theorem requests_are_isolated_twoChanges :
    let files : IndexFiles := { docs? := some "docs" }
    let served := run twoChanges .trace (.start files)
    let lines := asking (inputLines twoChanges.input)
    lines.countP isRequestLine = 3
      ∧ served.responses.map (fun r => (r.documents.length, r.metrics))
        = [(1, []), (0, []), (2, []), (0, []),
          (0, [("documents_returned", some 3), ("queries_executed", some 2),
            ("queries_rejected", some 1), ("stale_documents", some 0),
            ("staleness_check_failures", some 0), ("staleness_checks", some 0)])]
      ∧ ∃ (responses : List Line) (behind : Service),
        served.responses = responses ++ [serviceEnd behind]
          ∧ behind.counters.documentsReturned = 3
          ∧ List.Forall₂ (fun line response => ∃ own : Service,
            (run { twoChanges with input := line } .trace (.start files)).responses
              = [response, serviceEnd own]) lines responses := by
  intro files served lines
  have hok : (loadEngine twoChanges files ⟨.trace, []⟩).1.isOk = true := by decide +kernel
  have hserved : served.responses.map (fun r => (r.documents.length, r.metrics))
      = [(1, []), (0, []), (2, []), (0, []),
        (0, [("documents_returned", some 3), ("queries_executed", some 2),
          ("queries_rejected", some 1), ("stale_documents", some 0),
          ("staleness_check_failures", some 0), ("staleness_checks", some 0)])] := by
    decide +kernel
  cases hload : (loadEngine twoChanges files ⟨.trace, []⟩).1 with
  | error f =>
    rw [hload] at hok
    cases hok
  | ok e =>
    obtain ⟨responses, behind, executed, rejected, -, hresponses, halone, -, hcounters, -⟩ :=
      requests_are_isolated twoChanges .trace files e hload (by decide +kernel)
    refine ⟨by decide +kernel, hserved, responses, behind, hresponses, ?_, halone⟩
    have hlengths : responses.map (fun r => r.documents.length) = [1, 0, 2, 0] := by
      have hall := congrArg (List.map Prod.fst) hserved
      rw [show served.responses = _ from hresponses, List.map_map, List.map_append] at hall
      exact List.append_inj_left' (hall.trans (List.append_assoc [1, 0, 2] [0] [0]).symm) rfl
    rw [hcounters, hlengths]
    rfl

end Command

end ReviewSearch
