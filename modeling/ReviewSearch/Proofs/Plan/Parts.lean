/-
ReviewSearch.Proofs.Plan.Parts — what the outcomes of planning look like.

* `combine_cases` — the parts of a node become one indexed part, one
  residual part, or a source of their own;
* `mem_disjChildren`, `conjSource_eq` — the children of these sources;
* `part_induction` — what holds of every part that a subtree becomes.
-/
import Mathlib.Data.List.Forall2
import ReviewSearch.Proofs.Plan.Outcome

namespace ReviewSearch.Planner

variable {pl : Planner} {w : Window}

/-! ## Kinds of parts -/

namespace Part

theorem eq_indexed_of_predicate? {part : Part} {p : Predicate} (h : part.predicate? = some p) :
    part = .indexed p := by
  cases part <;> simp_all [predicate?]

theorem eq_residual_of_residual? {part : Part} {p : Predicate} (h : part.residual? = some p) :
    part = .residual p := by
  cases part <;> simp_all [residual?]

theorem mem_indexedOnes {parts : List Part} {p : Predicate} :
    p ∈ indexedOnes parts ↔ .indexed p ∈ parts := by
  rw [indexedOnes, List.mem_filterMap]
  constructor
  · rintro ⟨part, hpart, h⟩
    exact eq_indexed_of_predicate? h ▸ hpart
  · exact fun h => ⟨_, h, rfl⟩

/-- If there are as many predicates as parts, the parts are these
predicates. -/
theorem eq_map_of_length_filterMap {f : Part → Option Predicate} {g : Predicate → Part}
    (hfg : ∀ {part p}, f part = some p → part = g p) {parts : List Part}
    (h : (parts.filterMap f).length = parts.length) : parts = (parts.filterMap f).map g := by
  induction parts with
  | nil => rfl
  | cons part parts ih =>
    cases hpart : f part with
    | none =>
      rw [List.filterMap_cons_none hpart, List.length_cons] at h
      have hle := List.length_filterMap_le f parts
      omega
    | some p =>
      rw [List.filterMap_cons_some hpart] at h ⊢
      rw [List.map_cons, ← ih (Nat.succ.inj h), ← hfg hpart]

/-- If there are fewer predicates than parts, some part has none. -/
theorem exists_of_length_filterMap {f : Part → Option Predicate} {parts : List Part}
    (h : (parts.filterMap f).length ≠ parts.length) : ∃ part ∈ parts, f part = none := by
  by_contra hall
  refine h ?_
  rw [List.length_filterMap_eq_countP, List.countP_eq_length]
  intro part hpart
  cases hf : f part with
  | none => exact absurd ⟨part, hpart, hf⟩ hall
  | some p => rfl

end Part

/-! ## Outcomes of a node -/

/-- The parts of a node all are indexed, or all are residual, or are of
several kinds and make a source. -/
theorem combine_cases {node normal : List Predicate → Predicate}
    {mixed : List Part → Except Fault Source} {children : List Predicate} {parts : List Part}
    {q : Part} (h : Outcome.combine node normal mixed children parts = .ok q) :
    (∃ ps, parts = ps.map .indexed
        ∧ q = .indexed (if ps = children then node children else normal ps))
      ∨ (∃ ps, parts = ps.map .residual ∧ q = .residual (Outcome.residualNode node ps))
      ∨ ∃ s, mixed parts = .ok s ∧ q = .source s
        ∧ (∃ part ∈ parts, part.predicate? = none) ∧ ∃ part ∈ parts, part.residual? = none := by
  unfold Outcome.combine at h
  dsimp only at h
  by_cases hindexed : (Part.indexedOnes parts).length = parts.length
  · rw [if_pos hindexed] at h
    refine .inl ⟨_, ?_, (Except.ok.inj h).symm⟩
    exact Part.eq_map_of_length_filterMap Part.eq_indexed_of_predicate? hindexed
  · rw [if_neg hindexed] at h
    by_cases hresidual : (Part.residualOnes parts).length = parts.length
    · rw [if_pos hresidual] at h
      refine .inr (.inl ⟨_, ?_, (Except.ok.inj h).symm⟩)
      exact Part.eq_map_of_length_filterMap Part.eq_residual_of_residual? hresidual
    · rw [if_neg hresidual] at h
      obtain ⟨s, hs, rfl⟩ := map_eq_ok_iff.mp h
      exact .inr (.inr ⟨s, hs, rfl, Part.exists_of_length_filterMap hindexed,
        Part.exists_of_length_filterMap hresidual⟩)

theorem underScope_eq_ok_iff {p : Predicate} {s : Source} :
    Outcome.underScope pl w p = .ok s ↔
      ∃ scope, pl.scope? = some scope ∧ pl.answerable scope = true
        ∧ s = .conj [pl.query w scope, .filter p] := by
  unfold Outcome.underScope
  cases pl.scope? with
  | none => simp
  | some scope =>
    by_cases h : pl.answerable scope
    · simp only [h, if_true, Except.ok.injEq, Option.some.injEq, true_and, exists_eq_left']
      exact eq_comm
    · simp [h]

theorem eq_query_of_merged? {normal : List Predicate → Predicate} {parts : List Part} {s : Source}
    (h : Outcome.merged? pl w normal parts = some s) :
    s = pl.query w (normal (Part.indexedOnes parts)) := by
  unfold Outcome.merged? at h
  split at h
  · cases h
  · exact (Option.some.inj h).symm

/-- A node with an indexed part has a query for its indexed parts. -/
theorem exists_merged? (pl : Planner) (w : Window) (normal : List Predicate → Predicate)
    {parts : List Part} {p : Predicate} (h : .indexed p ∈ parts) :
    ∃ s, Outcome.merged? pl w normal parts = some s := by
  have hmem := Part.mem_indexedOnes.mpr h
  unfold Outcome.merged?
  split
  · next hnil =>
    rw [hnil] at hmem
    exact absurd hmem List.not_mem_nil
  · exact ⟨_, rfl⟩

/-- The children that the parts of an OR make: the query for the indexed
ones, the residual ones under the scope, and the sources. -/
theorem mem_disjChildren {merged? : Option Source} {parts : List Part} {ss : List Source}
    (h : Outcome.disjChildren pl w merged? parts = .ok ss) {s : Source} :
    s ∈ ss ↔ (merged? = some s ∧ ∃ p, .indexed p ∈ parts)
      ∨ (∃ p, .residual p ∈ parts ∧ Outcome.underScope pl w p = .ok s) ∨ .source s ∈ parts := by
  induction parts generalizing merged? ss with
  | nil =>
    obtain rfl := Except.ok.inj h
    simp
  | cons part parts ih =>
    cases part with
    | indexed p =>
      obtain ⟨ss', hss, h⟩ := bind_eq_ok_iff.mp h
      obtain rfl := Except.ok.inj h
      simp [ih hss]
    | residual p =>
      obtain ⟨s', hs', h⟩ := bind_eq_ok_iff.mp h
      obtain ⟨ss', hss, h⟩ := bind_eq_ok_iff.mp h
      obtain rfl := Except.ok.inj h
      have hhead : s = s' ↔ Outcome.underScope pl w p = .ok s := by
        rw [hs']
        simp [eq_comm]
      simp only [List.mem_cons, reduceCtorEq, false_or, Part.residual.injEq, ih hss, hhead,
        or_and_right, exists_or, exists_eq_left]
      rw [or_left_comm, or_assoc]
    | source s' =>
      obtain ⟨ss', hss, h⟩ := bind_eq_ok_iff.mp h
      obtain rfl := Except.ok.inj h
      simp only [List.mem_cons, reduceCtorEq, false_or, Part.source.injEq, ih hss]
      rw [or_left_comm, @or_left_comm (s = s')]

/-- All residual parts of an OR that has children are readable under the
scope. -/
theorem exists_underScope {merged? : Option Source} {parts : List Part} {ss : List Source}
    (h : Outcome.disjChildren pl w merged? parts = .ok ss) {p : Predicate}
    (hp : .residual p ∈ parts) : ∃ s, Outcome.underScope pl w p = .ok s := by
  induction parts generalizing merged? ss with
  | nil => exact absurd hp List.not_mem_nil
  | cons part parts ih =>
    cases part with
    | indexed _ =>
      obtain ⟨ss', hss, _⟩ := bind_eq_ok_iff.mp h
      exact ih hss (by simpa using hp)
    | residual p' =>
      obtain ⟨s', hs', h⟩ := bind_eq_ok_iff.mp h
      obtain ⟨ss', hss, _⟩ := bind_eq_ok_iff.mp h
      rcases List.mem_cons.mp hp with heq | hp
      · exact ⟨s', Part.residual.inj heq ▸ hs'⟩
      · exact ih hss hp
    | source _ =>
      obtain ⟨ss', hss, _⟩ := bind_eq_ok_iff.mp h
      exact ih hss (by simpa using hp)

theorem disjSource_eq_ok_iff {parts : List Part} {s : Source} :
    Outcome.disjSource pl w parts = .ok s ↔
      ∃ ss, Outcome.disjChildren pl w (Outcome.merged? pl w .or parts) parts = .ok ss
        ∧ (∀ s ∈ ss, s.readable = true) ∧ s = .disj ss := by
  unfold Outcome.disjSource
  rw [bind_eq_ok_iff]
  refine exists_congr fun ss => and_congr_right fun _ => ?_
  unfold Source.or
  cases hbad : ss.find? fun s => !s.readable with
  | none =>
    have hall : ∀ s ∈ ss, s.readable = true := by simpa using hbad
    simp only [Except.ok.injEq]
    exact ⟨fun h => ⟨hall, h.symm⟩, fun h => h.2.symm⟩
  | some bad =>
    have hnot : bad.readable = false := by simpa using List.find?_some hbad
    have hmem := List.mem_of_find?_eq_some hbad
    simp only [reduceCtorEq, false_iff, not_and]
    intro hall
    rw [hall bad hmem] at hnot
    cases hnot

/-- What a part contributes to an AND besides the query for the indexed
parts. -/
def Part.other? : Part → Option Source
  | .indexed _ => none
  | .residual p => some (.filter p)
  | .source s => some s

theorem conjSource_eq (parts : List Part) :
    pl.conjSource w parts
      = .conj ((Outcome.merged? pl w .and parts).toList ++ parts.filterMap Part.other?) := by
  unfold conjSource Outcome.merged?
  cases Part.indexedOnes parts with
  | nil => exact congrArg Source.conj (List.filterMap_congr fun part _ => by cases part <;> rfl)
  | cons p ps =>
    exact congrArg (fun others => Source.conj (_ :: others))
      (List.filterMap_congr fun part _ => by cases part <;> rfl)

/-! ## Parts of a subtree -/

theorem partAll_eq_ok_iff {ps : List Predicate} {parts : List Part} :
    Outcome.partAll pl w ps = .ok parts ↔
      List.Forall₂ (fun p q => Outcome.part pl w p = .ok q) ps parts := by
  induction ps generalizing parts with
  | nil =>
    rw [Outcome.partAll, List.forall₂_nil_left_iff, Except.ok.injEq]
    exact eq_comm
  | cons p ps ih =>
    rw [Outcome.partAll, bind_eq_ok_iff, List.forall₂_cons_left_iff]
    refine exists_congr fun q => ?_
    rw [bind_eq_ok_iff]
    constructor
    · rintro ⟨hq, parts, hparts, h⟩
      exact ⟨parts, hq, ih.mp hparts, (Except.ok.inj h).symm⟩
    · rintro ⟨parts, hq, hparts, rfl⟩
      exact ⟨hq, parts, ih.mpr hparts, rfl⟩

theorem forall₂_of_partAll {motive : Predicate → Part → Prop} {ps : List Predicate}
    (ih : ∀ p ∈ ps, ∀ q, Outcome.part pl w p = .ok q → motive p q) {parts : List Part}
    (h : Outcome.partAll pl w ps = .ok parts) : List.Forall₂ motive ps parts := by
  have hparts := partAll_eq_ok_iff.mp h
  induction hparts with
  | nil => exact .nil
  | @cons p q ps parts hq hparts ihs =>
    refine .cons (ih p List.mem_cons_self q hq) ?_
    exact ihs (fun p hp => ih p (List.mem_cons_of_mem _ hp)) (partAll_eq_ok_iff.mpr hparts)

/-- What holds beside every subtree holds of every part. -/
theorem forall_of_forall₂ {P : Part → Prop} {ps : List Predicate} {parts : List Part}
    (h : List.Forall₂ (fun _ q => P q) ps parts) : ∀ part ∈ parts, P part := by
  induction h with
  | nil => exact List.forall_mem_nil _
  | cons hq _ ih => exact List.forall_mem_cons.mpr ⟨hq, ih⟩

/-- Induction over a subtree and the part that it becomes. -/
theorem part_induction {motive : Predicate → Part → Prop}
    (pushed : ∀ l, pl.schema.answers l = true → motive (.leaf l) (.indexed (.leaf l)))
    (kept : ∀ l, pl.schema.answers l = false →
      motive (.leaf l) (.residual ((Predicate.leaf l).withLimit (Outcome.raised pl w))))
    (neg : ∀ p, motive (.neg p) (.residual (.neg (p.withLimit (Outcome.raised pl w)))))
    (conj : ∀ ps parts q, List.Forall₂ motive ps parts →
      Outcome.combine .conj .and (fun parts => .ok (pl.conjSource w parts)) ps
        (Part.withoutLimits parts) = .ok q → motive (.conj ps) q)
    (disj : ∀ ps parts q, List.Forall₂ motive ps parts →
      Outcome.combine .disj .or (Outcome.disjSource pl w) ps parts = .ok q → motive (.disj ps) q)
    {p : Predicate} {q : Part} (h : Outcome.part pl w p = .ok q) : motive p q := by
  induction p generalizing q with
  | leaf l =>
    rw [Outcome.part] at h
    obtain rfl := Except.ok.inj h
    cases hl : pl.schema.answers l with
    | true => exact pushed l hl
    | false => exact kept l hl
  | neg p _ =>
    rw [Outcome.part] at h
    obtain rfl := Except.ok.inj h
    exact neg p
  | conj ps ih =>
    rw [Outcome.part] at h
    obtain ⟨parts, hparts, hq⟩ := bind_eq_ok_iff.mp h
    exact conj ps parts q (forall₂_of_partAll (fun p hp q h => ih p hp h) hparts) hq
  | disj ps ih =>
    rw [Outcome.part] at h
    obtain ⟨parts, hparts, hq⟩ := bind_eq_ok_iff.mp h
    exact disj ps parts q (forall₂_of_partAll (fun p hp q h => ih p hp h) hparts) hq

end ReviewSearch.Planner
