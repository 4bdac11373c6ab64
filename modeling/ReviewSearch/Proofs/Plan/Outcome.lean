/-
ReviewSearch.Proofs.Plan.Outcome — planning without its bookkeeping.

Planning counts leaves and writes to the log on its way. What it comes to
depends on neither, but for a count beyond the bound:

* `Step.Comes` — from every progress within the bound, a step comes to an
  outcome and counts so many leaves, unless these exceed the bound;
* `Outcome.part`, `Outcome.root` — the outcomes of planning, in the plain
  monad of faults;
* `comes_part`, `comes_root` — the steps come to these, and count every
  leaf once that is no limit;
* `plan_eq_ok_iff` — so a query has a plan just if it has an outcome and
  no more leaves than the bound.
-/
import Mathlib.Data.List.Basic
import ReviewSearch.Plan.Planner
import ReviewSearch.Proofs.Predicate.Meaning

namespace ReviewSearch.Planner

/-! ## Steps -/

namespace Step

variable {α β : Type} {most m n : Nat} {x : Step α} {r : Except Fault α}

/-- How a step ends that comes to `r` with `terms` leaves counted in all.
Leaves beyond the bound `most` end it early, and may do so before a fault
of its own. -/
inductive Ends (most terms : Nat) : Except Fault α → Except Fault α × Progress → Prop where
  | done {a : α} {log : Log} (h : terms ≤ most) : Ends most terms (.ok a) (.ok a, ⟨terms, log⟩)
  | exceeded {a : α} {s : Progress} (h : most < terms) :
      Ends most terms (.ok a) (.error (.tooManyTerms most), s)
  | failed {f : Fault} {s : Progress} : Ends most terms (.error f) (.error f, s)
  | exceededFirst {f : Fault} {s : Progress} :
      Ends most terms (.error f) (.error (.tooManyTerms most), s)

/-- From every progress within the bound `most`, the step comes to `r`
and counts `n` leaves. -/
def Comes (most n : Nat) (x : Step α) (r : Except Fault α) : Prop :=
  ∀ s : Progress, s.terms ≤ most → Ends most (s.terms + n) r (x.run s)

theorem run_bind (x : Step α) (f : α → Step β) (s : Progress) :
    (x >>= f).run s =
      match x.run s with
      | (.ok a, s') => (f a).run s'
      | (.error e, s') => (.error e, s') := by
  show (match x.run s with | (r, s') => ExceptT.bindCont f r s') = _
  rcases x.run s with ⟨e | a, s'⟩ <;> rfl

/-- An event that does not pass the threshold leaves the log as it is, so
that asking beforehand changes nothing. -/
theorem run_event (e : Event) (fields : Unit → List (String × String)) (s : Progress) :
    (event e fields).run s = (.ok (), { s with log := s.log.event e (fields ()) }) := by
  show (if s.log.enabled e.severity then
      modify fun s => { s with log := s.log.event e (fields ()) }
    else pure () : Step Unit).run s = _
  split
  · rfl
  next h =>
    have hlog : s.log.event e (fields ()) = s.log := if_neg h
    rw [hlog]
    rfl

theorem comes_pure (a : α) : Comes most 0 (pure a) (.ok a) :=
  fun _ hs => .done hs

theorem comes_throw (f : Fault) : Comes most n (throw f : Step α) (.error f) :=
  fun _ _ => .failed

/-- A step that counts nothing and may fail. -/
theorem comes_lift (r : Except Fault α) : Comes most 0 (liftM r : Step α) r := by
  cases r with
  | ok a => exact comes_pure a
  | error f => exact comes_throw f

theorem comes_event (e : Event) (fields : Unit → List (String × String)) :
    Comes most 0 (event e fields) (.ok ()) := by
  intro s hs
  rw [run_event]
  exact .done hs

/-- Steps one after the other come to their outcomes one after the
other, and their leaves add up. -/
theorem Comes.bind {f : α → Step β} {g : α → Except Fault β} (hx : Comes most m x r)
    (hf : ∀ a, r = .ok a → Comes most n (f a) (g a)) :
    Comes most (m + n) (x >>= f) (r >>= g) := by
  intro s hs
  have hend := hx s hs
  rw [run_bind]
  generalize x.run s = result at hend
  cases hend with
  | @done a log hm =>
    rw [← Nat.add_assoc]
    exact hf a rfl ⟨s.terms + m, log⟩ hm
  | @exceeded a s' hm =>
    show Ends most (s.terms + (m + n)) (g a) _
    cases g a with
    | ok b => exact .exceeded (by omega)
    | error f => exact .exceededFirst
  | failed => exact .failed
  | exceededFirst => exact .exceededFirst

/-- A step behind one that counts nothing. -/
theorem Comes.bind_zero {f : α → Step β} {g : α → Except Fault β} (hx : Comes most 0 x r)
    (hf : ∀ a, r = .ok a → Comes most n (f a) (g a)) :
    Comes most n (x >>= f) (r >>= g) :=
  Nat.zero_add n ▸ hx.bind hf

/-- A change to the outcome of a step. -/
theorem Comes.map (hx : Comes most n x r) (f : α → β) :
    Comes most n (x >>= fun a => pure (f a)) (r.map f) := by
  have h := hx.bind (g := fun a => .ok (f a)) fun a _ => comes_pure (f a)
  cases r <;> exact h

end Step

variable (pl : Planner) (w : Window)

/-! ## Outcomes -/

namespace Outcome

/-- What becomes of a residual part that has to be readable. -/
def underScope (residual : Predicate) : Except Fault Source :=
  match pl.scope? with
  | none => .error (.refusedAt "query cannot be answered by the index" residual.display)
  | some scope =>
    if pl.answerable scope then .ok (.conj [pl.query w scope, .filter residual])
    else .error (.config ("default scope is not answerable by the index: " ++ scope.display))

/-- The readable children that the parts of an OR make. -/
def disjChildren (merged? : Option Source) : List Part → Except Fault (List Source)
  | [] => .ok []
  | .indexed _ :: parts => do return merged?.toList ++ (← disjChildren none parts)
  | .residual p :: parts => do
    let s ← underScope pl w p
    return s :: (← disjChildren merged? parts)
  | .source s :: parts => do return s :: (← disjChildren merged? parts)

/-- One query for the indexed parts of a node, joined in normal form. -/
def merged? (normal : List Predicate → Predicate) (parts : List Part) : Option Source :=
  match Part.indexedOnes parts with
  | [] => none
  | ps => some (pl.query w (normal ps))

def disjSource (parts : List Part) : Except Fault Source := do
  Source.or (← disjChildren pl w (merged? pl w .or parts) parts)

/-- A node over residual parts; an only part stands for itself. -/
def residualNode (node : List Predicate → Predicate) : List Predicate → Predicate
  | [p] => p
  | ps => node ps

/-- The parts of an AND or OR put together. -/
def combine (node normal : List Predicate → Predicate)
    (mixed : List Part → Except Fault Source) (children : List Predicate) (parts : List Part) :
    Except Fault Part :=
  let indexed := Part.indexedOnes parts
  let residual := Part.residualOnes parts
  if indexed.length = parts.length then
    .ok (.indexed (if indexed = children then node children else normal indexed))
  else if residual.length = parts.length then .ok (.residual (residualNode node residual))
  else (mixed parts).map .source

/-- The limit that limits in memory are raised to. -/
def raised : Nat :=
  (w.forBackend pl.limits.maxLimit).limit

mutual

/-- The part that a subtree becomes. -/
def part : Predicate → Except Fault Part
  | .leaf l =>
    .ok (if pl.schema.answers l then .indexed (.leaf l)
      else .residual ((Predicate.leaf l).withLimit (raised pl w)))
  | .neg p => .ok (.residual (.neg (p.withLimit (raised pl w))))
  | .conj ps => do
    let parts ← partAll ps
    combine .conj .and (fun parts => .ok (pl.conjSource w parts)) ps (Part.withoutLimits parts)
  | .disj ps => do
    let parts ← partAll ps
    combine .disj .or (disjSource pl w) ps parts

def partAll : List Predicate → Except Fault (List Part)
  | [] => .ok []
  | p :: ps => do
    let q ← part p
    return q :: (← partAll ps)

end

/-- The readable source of a part. -/
def sourceOf : Part → Except Fault Source
  | .indexed p => .ok (pl.query w p)
  | .residual p => underScope pl w p
  | .source s => .ok s

/-- The source of a whole query. -/
def root (p : Predicate) : Except Fault Source := do
  sourceOf pl w (← part pl w p)

end Outcome

/-! ## Steps come to their outcomes -/

open Step

variable {pl w}

theorem comes_countTerm : Comes pl.limits.maxTerms 1 pl.countTerm (.ok ()) := by
  intro s hs
  by_cases h : pl.limits.maxTerms < s.terms + 1
  · have hrun : pl.countTerm.run s
        = (.error (.tooManyTerms pl.limits.maxTerms), ⟨s.terms + 1, s.log⟩) := by
      show (if _ then _ else _ : Step Unit).run _ = _
      rw [if_pos h]
      rfl
    rw [hrun]
    exact .exceeded h
  · have hrun : pl.countTerm.run s = (.ok (), ⟨s.terms + 1, s.log⟩) := by
      show (if _ then _ else _ : Step Unit).run _ = _
      rw [if_neg h]
      rfl
    rw [hrun]
    exact .done (by omega)

theorem comes_underScope (p : Predicate) :
    Comes pl.limits.maxTerms 0 (pl.underScope w p) (Outcome.underScope pl w p) := by
  unfold underScope Outcome.underScope
  cases pl.scope? with
  | none => exact comes_throw _
  | some scope =>
    by_cases h : pl.answerable scope
    · simp only [h, Bool.not_true, Bool.false_eq_true, if_false, if_true]
      exact (comes_event _ _).bind_zero fun _ _ => comes_pure _
    · simp only [h, Bool.not_false, if_true]
      exact comes_throw _

theorem comes_residual (p : Predicate) :
    Comes pl.limits.maxTerms p.termCount (pl.residual w p)
      (.ok (p.withLimit (Outcome.raised pl w))) := by
  induction p with
  | leaf l =>
    rw [residual, Predicate.termCount_leaf]
    by_cases h : l.isLimit
    · rw [if_pos h, if_pos h, Predicate.withLimit_leaf_of_isLimit _ h]
      exact comes_pure _
    · rw [if_neg h, if_neg h, Predicate.withLimit_leaf_of_not_isLimit _ h]
      exact comes_countTerm.bind fun _ _ => comes_pure _
  | conj ps ih =>
    rw [residual, Predicate.termCount_conj, Predicate.withLimit_conj]
    exact (comes_residualAll ih).bind fun qs _ => comes_lift _
  | disj ps ih =>
    rw [residual, Predicate.termCount_disj, Predicate.withLimit_disj]
    exact (comes_residualAll ih).bind fun qs _ => comes_lift _
  | neg p ih =>
    rw [residual, Predicate.termCount_neg, Predicate.withLimit_neg]
    exact ih.bind fun q _ => comes_lift _
where
  comes_residualAll {ps : List Predicate}
      (ih : ∀ p ∈ ps, Comes pl.limits.maxTerms p.termCount (pl.residual w p)
        (.ok (p.withLimit (Outcome.raised pl w)))) :
      Comes pl.limits.maxTerms (Predicate.termCountOf ps) (pl.residualAll w ps)
        (.ok (ps.map (Predicate.withLimit (Outcome.raised pl w)))) := by
    induction ps with
    | nil =>
      rw [residualAll]
      exact comes_pure _
    | cons p ps ihs =>
      rw [residualAll, List.map_cons, Predicate.termCountOf_cons]
      have hall := ihs fun q hq => ih q (List.mem_cons_of_mem _ hq)
      exact (ih p List.mem_cons_self).bind fun q _ => hall.map (q :: ·)

theorem comes_disjChildren (merged? : Option Source) (parts : List Part) :
    Comes pl.limits.maxTerms 0 (pl.disjChildren w merged? parts)
      (Outcome.disjChildren pl w merged? parts) := by
  induction parts generalizing merged? with
  | nil => exact comes_pure _
  | cons q parts ih =>
    cases q with
    | indexed p => exact (ih none).map (merged?.toList ++ ·)
    | residual p => exact (comes_underScope p).bind_zero fun s _ => (ih merged?).map (s :: ·)
    | source s => exact (ih merged?).map (s :: ·)

theorem comes_disjSource (parts : List Part) :
    Comes pl.limits.maxTerms 0 (pl.disjSource w parts) (Outcome.disjSource pl w parts) := by
  exact (comes_disjChildren _ parts).bind_zero fun ss _ => comes_lift _

/-- A node takes any children, so that rebuilding it never fails. -/
theorem comes_combine {node normal : List Predicate → Predicate} {mixed : List Part → Step Source}
    {mixed' : List Part → Except Fault Source} {most : Nat} {p : Predicate}
    (hp : p = node p.children) (hnode : ∀ qs, p.withChildren qs = .ok (node qs))
    (h : ∀ parts, Comes most 0 (mixed parts) (mixed' parts)) (parts : List Part) :
    Comes most 0 (combine p normal mixed parts)
      (Outcome.combine node normal mixed' p.children parts) := by
  unfold combine Outcome.combine
  simp only [← hp]
  split
  · exact comes_pure _
  · split
    · generalize Part.residualOnes parts = residual
      have hrebuilt (qs : List Predicate) : Comes most 0
          (do return Part.residual (← p.withChildren qs) : Step Part)
          (.ok (.residual (node qs))) := by
        rw [hnode]
        exact (comes_lift _).map Part.residual
      rcases residual with _ | ⟨q, _ | ⟨q', qs⟩⟩
      · exact hrebuilt []
      · exact comes_pure _
      · exact hrebuilt (q :: q' :: qs)
    · exact (h parts).map Part.source

theorem comes_part (p : Predicate) :
    Comes pl.limits.maxTerms p.termCount (pl.part w p) (Outcome.part pl w p) := by
  induction p with
  | leaf l =>
    rw [part, Outcome.part, Predicate.termCount_leaf]
    by_cases h : l.isLimit
    · have hschema : ¬pl.schema.answers l := by simp [Schema.answers, h]
      rw [if_pos h, if_pos h, if_neg hschema, Predicate.withLimit_leaf_of_isLimit _ h]
      exact comes_pure _
    · rw [if_neg h, if_neg h, Predicate.withLimit_leaf_of_not_isLimit _ h]
      refine comes_countTerm.bind (n := 0) (g := fun _ => _) fun _ _ => ?_
      by_cases hschema : pl.schema.answers l
      · rw [if_pos hschema, if_pos hschema]
        exact comes_pure _
      · rw [if_neg hschema, if_neg hschema]
        exact (comes_event _ _).bind_zero fun _ _ => comes_pure _
  | conj ps ih =>
    rw [part, Outcome.part, Predicate.termCount_conj]
    exact (comes_partAll ih).bind fun parts _ =>
      comes_combine rfl (fun _ => rfl) (fun _ => comes_pure _) _
  | disj ps ih =>
    rw [part, Outcome.part, Predicate.termCount_disj]
    exact (comes_partAll ih).bind fun parts _ =>
      comes_combine rfl (fun _ => rfl) comes_disjSource parts
  | neg p _ =>
    rw [part, Outcome.part, ← Predicate.withLimit_neg]
    exact (comes_residual (.neg p)).map Part.residual
where
  comes_partAll {ps : List Predicate}
      (ih : ∀ p ∈ ps, Comes pl.limits.maxTerms p.termCount (pl.part w p) (Outcome.part pl w p)) :
      Comes pl.limits.maxTerms (Predicate.termCountOf ps) (pl.partAll w ps)
        (Outcome.partAll pl w ps) := by
    induction ps with
    | nil =>
      rw [partAll, Outcome.partAll]
      exact comes_pure _
    | cons p ps ihs =>
      rw [partAll, Outcome.partAll, Predicate.termCountOf_cons]
      have hall := ihs fun q hq => ih q (List.mem_cons_of_mem _ hq)
      exact (ih p List.mem_cons_self).bind fun q _ => hall.map (q :: ·)

theorem comes_root (pl : Planner) (w : Window) (p : Predicate) :
    Comes pl.limits.maxTerms p.termCount (pl.root w p) (Outcome.root pl w p) := by
  rw [root, ← Nat.add_zero p.termCount]
  refine (comes_part p).bind fun q _ => ?_
  have hlogged (s : Source) : Comes pl.limits.maxTerms 0
      (do
        event .queryPlanned fun _ => [("query", p.display), ("plan", s.display)]
        return s) (.ok s) :=
    (comes_event _ _).bind_zero fun _ _ => comes_pure s
  cases q with
  | indexed q => exact (comes_pure (pl.query w q)).bind_zero fun s _ => hlogged s
  | residual q =>
    have h := (comes_underScope (w := w) q).bind_zero fun s _ => hlogged s
    rw [show Outcome.sourceOf pl w (.residual q) = Outcome.underScope pl w q >>= .ok from
      (bind_pure _).symm]
    exact h
  | source s => exact (comes_pure s).bind_zero fun s _ => hlogged s

/-- A query has a plan just if it has an outcome and no more leaves than
the bound. -/
theorem plan_eq_ok_iff {p : Predicate} {s : Source} {log : Log} :
    (pl.plan w p log).1 = .ok s ↔
      Outcome.root pl w p = .ok s ∧ p.termCount ≤ pl.limits.maxTerms := by
  have hend := comes_root pl w p ⟨0, log⟩ (Nat.zero_le _)
  unfold plan
  rw [Nat.zero_add] at hend
  generalize (pl.root w p).run ⟨0, log⟩ = result at hend
  generalize Outcome.root pl w p = outcome at hend
  cases hend with
  | done h => simp [h]
  | exceeded h => simp [h]
  | failed => simp
  | exceededFirst => simp

/-- A query without a plan has more leaves than the bound, or its outcome
is the fault. -/
theorem plan_eq_error {p : Predicate} {f : Fault} {log : Log}
    (h : (pl.plan w p log).1 = .error f) :
    f = .tooManyTerms pl.limits.maxTerms ∨ Outcome.root pl w p = .error f := by
  have hend := comes_root pl w p ⟨0, log⟩ (Nat.zero_le _)
  unfold plan at h
  generalize (pl.root w p).run ⟨0, log⟩ = result at hend h
  generalize Outcome.root pl w p = outcome at hend
  cases hend with
  | done => cases h
  | exceeded => exact .inl (Except.error.inj h).symm
  | failed => exact .inr h
  | exceededFirst => exact .inl (Except.error.inj h).symm

end ReviewSearch.Planner
