/-
ReviewSearch.Proofs.Search.Threshold — a threshold only filters the log.

Two journals that differ in their thresholds may see the same marks. The
counters stay the same, and what stands in the quieter log is what stands
in the louder one, without the entries below its threshold
(`Journal.Quieter`). Nothing that an operation comes to depends on the
journal (`Engine.performAll_marks`), so a run of operations makes the same
marks whatever the threshold: `threshold_filters`.
-/
import ReviewSearch.Proofs.Search.Ledger

namespace ReviewSearch

namespace Journal

/-- A journal with the higher threshold of two, that is otherwise the
same. -/
structure Quieter (quiet loud : Journal) : Prop where
  thresholds : loud.log.threshold.rank ≤ quiet.log.threshold.rank
  counters : quiet.counters = loud.counters
  entries : quiet.log.entries
    = loud.log.entries.filter fun e => e.severity.passes quiet.log.threshold

variable {quiet loud : Journal}

/-- Journals without entries differ in their thresholds only. -/
theorem quieter_of_rank_le {a b : Severity} (hab : a.rank ≤ b.rank) (cs : Counters) :
    Quieter ⟨⟨b, []⟩, cs⟩ ⟨⟨a, []⟩, cs⟩ :=
  ⟨hab, rfl, rfl⟩

/-- The same marks keep one journal the quieter one. -/
theorem Quieter.markAll (h : Quieter quiet loud) (ms : List Mark) :
    Quieter (quiet.markAll ms) (loud.markAll ms) where
  thresholds := by
    rw [threshold_markAll, threshold_markAll]
    exact h.thresholds
  counters := counters_markAll_congr h.counters ms
  entries := by
    have hlouder : ∀ e ∈ Mark.entries ms,
        (e.severity.passes quiet.log.threshold && e.severity.passes loud.log.threshold)
          = e.severity.passes quiet.log.threshold := by
      intro e _
      rw [Bool.and_eq_left_iff_imp]
      exact Severity.passes_of_le h.thresholds
    rw [threshold_markAll, entries_markAll, entries_markAll, h.entries, List.filter_append,
      List.filter_filter, List.filter_congr hlouder]

end Journal

namespace Engine

open Operation (Performance)

/-- Run twice, from one state but for the threshold of the log, operations
answer the same, start the same queries, and leave the same settings, calls
to the index and counters. The log with the higher threshold has those
entries of the other that pass it, in the same order. -/
theorem threshold_filters (e : Engine) (ops : List Operation) (st : Settings)
    (t : Trace Consult) (cs : Counters) (a b : Severity) (hab : a.rank ≤ b.rank) :
    let run threshold := e.performAll ops ⟨st, ⟨t, ⟨⟨threshold, []⟩, cs⟩⟩⟩
    let logged threshold := (run threshold).state.session.journal.log.entries
    (run b).results = (run a).results
      ∧ (run b).started = (run a).started
      ∧ (run b).state.settings = (run a).state.settings
      ∧ (run b).state.session.trace = (run a).state.session.trace
      ∧ (run b).state.session.journal.counters = (run a).state.session.journal.counters
      ∧ logged b = (logged a).filter fun entry => entry.severity.passes b := by
  obtain ⟨d, -, hd⟩ := performAll_marks e ops st t
  have hquieter := (Journal.quieter_of_rank_le hab cs).markAll d.marks
  have hlogged := hquieter.entries
  rw [Journal.threshold_markAll] at hlogged
  dsimp only
  rw [hd, hd]
  exact ⟨rfl, rfl, rfl, rfl, hquieter.counters, hlogged⟩

/-- The run of queries, a plan and checks over six changes, with a log of
everything and a log of what went wrong. -/
theorem threshold_filters_sixChanges :
    let run threshold := ofSixChanges.performAll severalOperations ⟨{}, ⟨{}, ⟨⟨threshold, []⟩, {}⟩⟩⟩
    let logged threshold := (run threshold).state.session.journal.log.entries
    (logged .warn).map Entry.event
        = ["QUERY_REJECTED", "QUERY_REJECTED", "STALENESS_CHECK_FAILED", "STALENESS_CHECK_FAILED"]
      ∧ (logged .trace).length = 14
      ∧ logged .warn = (logged .trace).filter fun entry => entry.severity.passes .warn := by
  refine ⟨by decide +kernel, by decide +kernel, ?_⟩
  obtain ⟨-, -, -, -, -, hlogged⟩ :=
    threshold_filters ofSixChanges severalOperations {} {} {} .trace .warn (by decide)
  exact hlogged

end Engine

end ReviewSearch
