/-
ReviewSearch.Proofs.Log.Marks — what is written into a journal.

A MARK is one thing that is done to a journal: an entry is written to its
log, or something is added to a counter. Whoever writes to a journal makes
marks in turn, so that all that has become of it can be read off them:

* `entries_markAll` — the log has those entries of the marks that pass its
  threshold, in their order;
* `value_markAll` — a counter has grown by the total of what the marks add
  to it.
-/
import Mathlib.Algebra.BigOperators.Group.List.Basic
import Mathlib.Algebra.Ring.Nat
import ReviewSearch.Log.Journal

namespace ReviewSearch

/-! ## Thresholds -/

namespace Severity

variable {s a b : Severity}

theorem passes_iff : s.passes a = true ↔ a.rank ≤ s.rank :=
  decide_eq_true_iff

/-- What passes a threshold passes every lower one. -/
theorem passes_of_le (hab : a.rank ≤ b.rank) (h : s.passes b = true) : s.passes a = true :=
  passes_iff.mpr (Nat.le_trans hab (passes_iff.mp h))

end Severity

/-! ## Logs -/

/-- An event with its fields, as an entry. -/
def Event.entry (e : Event) (fields : List (String × String)) : Entry :=
  ⟨e.severity, e.text, fields⟩

namespace Log

variable {log : Log}

/-- Writes entries in turn. -/
def writeAll (log : Log) (es : List Entry) : Log :=
  es.foldl write log

@[simp] theorem threshold_write (log : Log) (e : Entry) :
    (log.write e).threshold = log.threshold := by
  unfold write
  split <;> rfl

theorem entries_write (log : Log) (e : Entry) :
    (log.write e).entries
      = log.entries ++ [e].filter fun e => e.severity.passes log.threshold := by
  by_cases h : e.severity.passes log.threshold
  · simp [write, enabled, entries, h]
  · simp [write, enabled, h]

theorem writeAll_append (log : Log) (es es' : List Entry) :
    log.writeAll (es ++ es') = (log.writeAll es).writeAll es' :=
  List.foldl_append

end Log

/-! ## Counters -/

namespace Counters

/-- The value of a counter. -/
def value (cs : Counters) : Counter → UInt64
  | .queriesExecuted => cs.queriesExecuted
  | .queriesRejected => cs.queriesRejected
  | .documentsReturned => cs.documentsReturned
  | .stalenessChecks => cs.stalenessChecks
  | .staleDocuments => cs.staleDocuments
  | .stalenessCheckFailures => cs.stalenessCheckFailures

/-- Counters are their values. -/
theorem eq_of_value {cs cs' : Counters} (h : ∀ c, cs.value c = cs'.value c) : cs = cs' := by
  obtain ⟨a, b, c, d, e, f⟩ := cs
  obtain ⟨a', b', c', d', e', f'⟩ := cs'
  obtain rfl : a = a' := h .queriesExecuted
  obtain rfl : b = b' := h .queriesRejected
  obtain rfl : c = c' := h .documentsReturned
  obtain rfl : d = d' := h .stalenessChecks
  obtain rfl : e = e' := h .staleDocuments
  obtain rfl : f = f' := h .stalenessCheckFailures
  rfl

theorem value_add (cs : Counters) (c c' : Counter) (n : Nat) :
    (cs.add c n).value c' = cs.value c' + .ofNat (if c' = c then n else 0) := by
  cases c <;> cases c' <;> simp [add, value]

end Counters

/-! ## Marks -/

/-- One thing that is done to a journal. -/
inductive Mark where
  | entry (e : Entry)
  | count (c : Counter) (n : Nat)

namespace Mark

/-- The mark of an event. -/
def ofEvent (e : Event) (fields : List (String × String)) : Mark :=
  .entry (e.entry fields)

def entry? : Mark → Option Entry
  | .entry e => some e
  | .count .. => none

/-- What a mark adds to a counter. -/
def amount (c : Counter) : Mark → Nat
  | .entry _ => 0
  | .count c' n => if c = c' then n else 0

/-- The entries of marks, in their order. -/
def entries (ms : List Mark) : List Entry :=
  ms.filterMap entry?

/-- What marks add to a counter in all. -/
def total (c : Counter) (ms : List Mark) : Nat :=
  (ms.map (amount c)).sum

variable {c : Counter} {ms ms' : List Mark}

@[simp] theorem entries_append : entries (ms ++ ms') = entries ms ++ entries ms' :=
  List.filterMap_append

@[simp] theorem entries_map_entry (es : List Entry) : entries (es.map .entry) = es := by
  rw [entries, List.filterMap_map]
  exact List.filterMap_some

@[simp] theorem total_append : total c (ms ++ ms') = total c ms + total c ms' := by
  simp [total]

@[simp] theorem total_map_entry (es : List Entry) : total c (es.map .entry) = 0 := by
  induction es with
  | nil => rfl
  | cons e es ih => simpa [total, amount] using ih

end Mark

namespace Journal

/-- Makes a mark. -/
def mark (j : Journal) : Mark → Journal
  | .entry e => { j with log := j.log.write e }
  | .count c n => j.count c n

/-- Makes marks in turn. -/
def markAll (j : Journal) (ms : List Mark) : Journal :=
  ms.foldl mark j

@[simp] theorem markAll_append (j : Journal) (ms ms' : List Mark) :
    j.markAll (ms ++ ms') = (j.markAll ms).markAll ms' :=
  List.foldl_append

/-- Entries that are written to the log are marks of the journal. -/
theorem markAll_map_entry (j : Journal) (es : List Entry) :
    j.markAll (es.map .entry) = { j with log := j.log.writeAll es } := by
  induction es generalizing j with
  | nil => rfl
  | cons e es ih => exact ih _

@[simp] theorem threshold_markAll (j : Journal) (ms : List Mark) :
    (j.markAll ms).log.threshold = j.log.threshold := by
  induction ms generalizing j with
  | nil => rfl
  | cons m ms ih =>
    refine (ih _).trans ?_
    cases m with
    | entry e => exact Log.threshold_write _ _
    | count c n => rfl

/-- The log has the entries that pass its threshold. -/
theorem entries_markAll (j : Journal) (ms : List Mark) :
    (j.markAll ms).log.entries = j.log.entries
      ++ (Mark.entries ms).filter fun e => e.severity.passes j.log.threshold := by
  induction ms generalizing j with
  | nil => exact (List.append_nil _).symm
  | cons m ms ih =>
    refine (ih _).trans ?_
    cases m with
    | entry e =>
      show (j.log.write e).entries ++ (Mark.entries ms).filter
        (fun e' => e'.severity.passes (j.log.write e).threshold) = _
      rw [Log.entries_write, Log.threshold_write, List.append_assoc, ← List.filter_append]
      rfl
    | count c n => rfl

/-- A counter has grown by the total of the marks. -/
theorem value_markAll (j : Journal) (ms : List Mark) (c : Counter) :
    (j.markAll ms).counters.value c = j.counters.value c + .ofNat (Mark.total c ms) := by
  induction ms generalizing j with
  | nil => exact (UInt64.add_zero _).symm
  | cons m ms ih =>
    refine (ih _).trans ?_
    have htotal : Mark.total c (m :: ms) = m.amount c + Mark.total c ms := List.sum_cons
    rw [htotal, UInt64.ofNat_add, ← UInt64.add_assoc]
    refine congrArg (· + _) ?_
    cases m with
    | entry e => exact (UInt64.add_zero _).symm
    | count c' n => exact Counters.value_add ..

/-- The counters do not depend on the log. -/
theorem counters_markAll_congr {j j' : Journal} (h : j.counters = j'.counters) (ms : List Mark) :
    (j.markAll ms).counters = (j'.markAll ms).counters := by
  induction ms generalizing j j' with
  | nil => exact h
  | cons m ms ih =>
    cases m with
    | entry e => exact ih h
    | count c n => exact ih (congrArg (Counters.add c n) h)

end Journal

end ReviewSearch
