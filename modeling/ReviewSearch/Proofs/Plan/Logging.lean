/-
ReviewSearch.Proofs.Plan.Logging — what planning writes to the log.

Planning asks the log only whether an entry would pass, and an entry that
would not pass is not written anyway (`Step.run_event`). So it comes to the
same from every log:

* `Detail` — the entries that planning writes, all of the quietest
  severity;
* `Step.Details` — from every log a step comes to the same and writes the
  same entries, all of them details; steps one behind the other write
  theirs one behind the other (`Step.Details.bind`);
* `plan_writes` — so does planning a query.
-/
import ReviewSearch.Proofs.Log.Marks
import ReviewSearch.Proofs.Plan.Outcome

namespace ReviewSearch.Planner

/-- The entries that planning writes: a leaf is outside the schema, a
branch is put under the scope, a query has a plan. -/
inductive Detail : Entry → Prop
  | fallback (operator version : String) :
      Detail (Event.schemaFallback.entry [("operator", operator), ("schema_version", version)])
  | scoped (scope branch : String) :
      Detail (Event.defaultScopeApplied.entry [("scope", scope), ("branch", branch)])
  | planned (query plan : String) :
      Detail (Event.queryPlanned.entry [("query", query), ("plan", plan)])

/-! ## Steps -/

namespace Step

variable {α β : Type}

/-- From every log, the step comes to the same and writes the same
entries, all of them details. -/
def Details (x : Step α) : Prop :=
  ∀ terms, ∃ (r : Except Fault α) (terms' : Nat) (es : List Entry), (∀ e ∈ es, Detail e)
    ∧ ∀ log, x.run ⟨terms, log⟩ = (r, ⟨terms', log.writeAll es⟩)

theorem details_pure (a : α) : (pure a : Step α).Details :=
  fun terms => ⟨.ok a, terms, [], List.forall_mem_nil _, fun _ => rfl⟩

theorem details_throw (f : Fault) : (throw f : Step α).Details :=
  fun terms => ⟨.error f, terms, [], List.forall_mem_nil _, fun _ => rfl⟩

theorem details_lift (r : Except Fault α) : (liftM r : Step α).Details := by
  cases r with
  | ok a => exact details_pure a
  | error f => exact details_throw f

theorem details_event {e : Event} {fields : Unit → List (String × String)}
    (h : Detail (e.entry (fields ()))) : (event e fields).Details :=
  fun terms => ⟨.ok (), terms, [e.entry (fields ())], List.forall_mem_singleton.mpr h,
    fun log => run_event e fields ⟨terms, log⟩⟩

/-- Steps write their entries one behind the other. -/
theorem Details.bind {x : Step α} {f : α → Step β} (hx : x.Details) (hf : ∀ a, (f a).Details) :
    (x >>= f).Details := by
  intro terms
  obtain ⟨r, terms', es, hes, hrun⟩ := hx terms
  cases r with
  | error e =>
    refine ⟨.error e, terms', es, hes, fun log => ?_⟩
    rw [run_bind, hrun]
  | ok a =>
    obtain ⟨r, terms'', es', hes', hrun'⟩ := hf a terms'
    refine ⟨r, terms'', es ++ es', List.forall_mem_append.mpr ⟨hes, hes'⟩, fun log => ?_⟩
    rw [run_bind, hrun, Log.writeAll_append]
    exact hrun' _

theorem Details.map {x : Step α} (hx : x.Details) (f : α → β) :
    (x >>= fun a => pure (f a)).Details :=
  hx.bind fun a => details_pure (f a)

end Step

open Step

variable {pl : Planner} {w : Window}

/-! ## Steps of planning -/

theorem details_countTerm : pl.countTerm.Details := by
  intro terms
  by_cases h : pl.limits.maxTerms < terms + 1
  · refine ⟨.error (.tooManyTerms pl.limits.maxTerms), terms + 1, [], List.forall_mem_nil _,
      fun log => ?_⟩
    show (if _ then _ else _ : Step Unit).run _ = _
    rw [if_pos h]
    rfl
  · refine ⟨.ok (), terms + 1, [], List.forall_mem_nil _, fun log => ?_⟩
    show (if _ then _ else _ : Step Unit).run _ = _
    rw [if_neg h]
    rfl

theorem details_underScope (p : Predicate) : (pl.underScope w p).Details := by
  unfold underScope
  cases pl.scope? with
  | none => exact details_throw _
  | some scope =>
    by_cases h : pl.answerable scope
    · simp only [h, Bool.not_true, Bool.false_eq_true, if_false]
      exact (details_event (.scoped _ _)).bind fun _ => details_pure _
    · simp only [h, Bool.not_false, if_true]
      exact details_throw _

theorem details_residual (p : Predicate) : (pl.residual w p).Details := by
  induction p with
  | leaf l =>
    rw [residual]
    split
    · exact details_pure _
    · exact details_countTerm.bind fun _ => details_pure _
  | conj ps ih =>
    rw [residual]
    exact (details_residualAll ih).bind fun _ => details_lift _
  | disj ps ih =>
    rw [residual]
    exact (details_residualAll ih).bind fun _ => details_lift _
  | neg p ih =>
    rw [residual]
    exact ih.bind fun _ => details_lift _
where
  details_residualAll {ps : List Predicate} (ih : ∀ p ∈ ps, (pl.residual w p).Details) :
      (pl.residualAll w ps).Details := by
    induction ps with
    | nil =>
      rw [residualAll]
      exact details_pure _
    | cons p ps ihs =>
      rw [residualAll]
      have hall := ihs fun q hq => ih q (List.mem_cons_of_mem _ hq)
      exact (ih p List.mem_cons_self).bind fun q => hall.map (q :: ·)

theorem details_disjChildren (merged? : Option Source) (parts : List Part) :
    (pl.disjChildren w merged? parts).Details := by
  induction parts generalizing merged? with
  | nil => exact details_pure _
  | cons part parts ih =>
    cases part with
    | indexed p => exact (ih none).map (merged?.toList ++ ·)
    | residual p => exact (details_underScope p).bind fun s => (ih merged?).map (s :: ·)
    | source s => exact (ih merged?).map (s :: ·)

theorem details_disjSource (parts : List Part) : (pl.disjSource w parts).Details :=
  (details_disjChildren _ parts).bind fun _ => details_lift _

theorem details_combine {p : Predicate} {normal : List Predicate → Predicate}
    {mixed : List Part → Step Source} (h : ∀ parts, (mixed parts).Details) (parts : List Part) :
    (combine p normal mixed parts).Details := by
  unfold combine
  dsimp only
  split
  · exact details_pure _
  · split
    · split
      · exact details_pure _
      · exact (details_lift _).map Part.residual
    · exact (h parts).map Part.source

theorem details_part (p : Predicate) : (pl.part w p).Details := by
  induction p with
  | leaf l =>
    rw [part]
    split
    · exact details_pure _
    · refine details_countTerm.bind fun _ => ?_
      split
      · exact details_pure _
      · exact (details_event (.fallback _ _)).bind fun _ => details_pure _
  | conj ps ih =>
    rw [part]
    exact (details_partAll ih).bind fun _ => details_combine (fun _ => details_pure _) _
  | disj ps ih =>
    rw [part]
    exact (details_partAll ih).bind fun parts => details_combine details_disjSource parts
  | neg p _ =>
    rw [part]
    exact (details_residual (.neg p)).map Part.residual
where
  details_partAll {ps : List Predicate} (ih : ∀ p ∈ ps, (pl.part w p).Details) :
      (pl.partAll w ps).Details := by
    induction ps with
    | nil =>
      rw [partAll]
      exact details_pure _
    | cons p ps ihs =>
      rw [partAll]
      have hall := ihs fun q hq => ih q (List.mem_cons_of_mem _ hq)
      exact (ih p List.mem_cons_self).bind fun q => hall.map (q :: ·)

theorem details_root (p : Predicate) : (pl.root w p).Details := by
  rw [root]
  refine (details_part p).bind fun q => ?_
  have hlogged (s : Source) : (do
      event .queryPlanned fun _ => [("query", p.display), ("plan", s.display)]
      return s : Step Source).Details :=
    (details_event (.planned _ _)).bind fun _ => details_pure s
  cases q with
  | indexed q => exact (details_pure (pl.query w q)).bind hlogged
  | residual q => exact (details_underScope q).bind hlogged
  | source s => exact (details_pure s).bind hlogged

/-- From every log, planning a query comes to the same and writes the same
entries, all of them details. -/
theorem plan_writes (pl : Planner) (w : Window) (p : Predicate) :
    ∃ (r : Except Fault Source) (es : List Entry), (∀ e ∈ es, Detail e)
      ∧ ∀ log, pl.plan w p log = (r, log.writeAll es) := by
  obtain ⟨r, terms, es, hes, hrun⟩ := @details_root pl w p 0
  refine ⟨r, es, hes, fun log => ?_⟩
  unfold plan
  rw [hrun]

end ReviewSearch.Planner
