/-
ReviewSearch.Proofs.Plan.Meaning — a plan means what its query means.

`plan_keeps_meaning`: a plan accepts no record that its query does not
accept, and a record in the default scope just if the query does. The
scope is all that can be lost: it stands in front of branches that the
index cannot answer.

The induction is over the subtrees of the query and the parts that they
become, whose answers agree up to the scope (`UpToScope`). An AND keeps its
meaning exactly, with or without its limits (`satisfiedBy_combine_conj`); an
OR may put the scope on some of its children (`upToScope_combine_disj`).
-/
import ReviewSearch.Proofs.Plan.Judgement
import ReviewSearch.Proofs.Plan.Parts

namespace ReviewSearch.Planner

variable {pl : Planner} {w : Window} {d : Document}

/-- Whether a record satisfies the default scope, if there is one. -/
def InScope (pl : Planner) (d : Document) : Prop :=
  ∀ scope, pl.scope? = some scope → scope.satisfiedBy d = true

/-- Two answers about a record are the same up to the scope: the first
never accepts what the second does not, and in the scope they agree. -/
structure UpToScope (pl : Planner) (d : Document) (a b : Bool) : Prop where
  sound : a = true → b = true
  complete : pl.InScope d → b = true → a = true

namespace UpToScope

variable {a b c : Bool}

theorem of_eq (h : a = b) : UpToScope pl d a b :=
  ⟨fun ha => h ▸ ha, fun _ hb => h ▸ hb⟩

theorem trans (hab : UpToScope pl d a b) (hbc : UpToScope pl d b c) : UpToScope pl d a c :=
  ⟨fun ha => hbc.sound (hab.sound ha),
    fun hscope hc => hab.complete hscope (hbc.complete hscope hc)⟩

theorem eq_of_inScope (h : UpToScope pl d a b) (hscope : pl.InScope d) : a = b :=
  Bool.eq_iff_iff.mpr ⟨h.sound, h.complete hscope⟩

end UpToScope

/-! ## Parts -/

namespace Part

/-- Whether a record belongs to the results of a part. -/
def satisfiedBy (d : Document) : Part → Bool
  | .indexed p | .residual p => p.satisfiedBy d
  | .source s => s.satisfiedBy d

theorem satisfiedBy_of_isLimit {part : Part} (h : part.isLimit = true) :
    part.satisfiedBy d = true := by
  match part with
  | .residual (.leaf l) => exact Predicate.satisfiedBy_of_isLimit h

theorem all_map_indexed (ps : List Predicate) :
    (ps.map Part.indexed).all (satisfiedBy d) = ps.all (Predicate.satisfiedBy d) :=
  List.all_map

theorem all_map_residual (ps : List Predicate) :
    (ps.map Part.residual).all (satisfiedBy d) = ps.all (Predicate.satisfiedBy d) :=
  List.all_map

theorem any_map_indexed (ps : List Predicate) :
    (ps.map Part.indexed).any (satisfiedBy d) = ps.any (Predicate.satisfiedBy d) :=
  List.any_map

theorem any_map_residual (ps : List Predicate) :
    (ps.map Part.residual).any (satisfiedBy d) = ps.any (Predicate.satisfiedBy d) :=
  List.any_map

/-- Limits may be dropped from an AND. -/
theorem all_withoutLimits (parts : List Part) :
    (withoutLimits parts).all (satisfiedBy d) = parts.all (satisfiedBy d) := by
  unfold withoutLimits
  split
  · rfl
  · rw [List.all_filter]
    refine congrArg (parts.all ·) (funext fun part => ?_)
    cases h : part.isLimit with
    | false => rfl
    | true => exact (satisfiedBy_of_isLimit h).symm

end Part

/-! ## Sources -/

@[simp] theorem satisfiedBy_query (p : Predicate) :
    (pl.query w p).satisfiedBy d = p.satisfiedBy d := rfl

theorem satisfiedBy_residualNode_conj (ps : List Predicate) :
    (Outcome.residualNode .conj ps).satisfiedBy d = ps.all (Predicate.satisfiedBy d) := by
  unfold Outcome.residualNode
  split <;> simp

theorem satisfiedBy_residualNode_disj (ps : List Predicate) :
    (Outcome.residualNode .disj ps).satisfiedBy d = ps.any (Predicate.satisfiedBy d) := by
  unfold Outcome.residualNode
  split <;> simp

/-- The source of an AND accepts what all its parts accept. -/
theorem satisfiedBy_conjSource (parts : List Part) :
    (pl.conjSource w parts).satisfiedBy d = parts.all (Part.satisfiedBy d) := by
  have hmerged : (Outcome.merged? pl w .and parts).toList.all (Source.satisfiedBy d)
      = (Part.indexedOnes parts).all (Predicate.satisfiedBy d) := by
    unfold Outcome.merged?
    split
    · next h => rw [h]; rfl
    · simp
  rw [conjSource_eq, Source.satisfiedBy_conj, List.all_append, hmerged, Bool.eq_iff_iff,
    Bool.and_eq_true, List.all_eq_true, List.all_eq_true, List.all_eq_true]
  constructor
  · rintro ⟨hindexed, hothers⟩ part hpart
    cases part with
    | indexed p => exact hindexed p (Part.mem_indexedOnes.mpr hpart)
    | residual p => exact hothers (.filter p) (List.mem_filterMap.mpr ⟨_, hpart, rfl⟩)
    | source s => exact hothers s (List.mem_filterMap.mpr ⟨_, hpart, rfl⟩)
  · intro h
    refine ⟨fun p hp => h _ (Part.mem_indexedOnes.mp hp), fun s hs => ?_⟩
    obtain ⟨part, hpart, hother⟩ := List.mem_filterMap.mp hs
    cases part with
    | indexed p => cases hother
    | residual p => cases hother; exact h _ hpart
    | source s => cases hother; exact h _ hpart

/-- A residual part under the scope accepts what both accept. -/
theorem satisfiedBy_underScope {p : Predicate} {s : Source}
    (h : Outcome.underScope pl w p = .ok s) :
    ∃ scope, pl.scope? = some scope
      ∧ s.satisfiedBy d = (scope.satisfiedBy d && p.satisfiedBy d) := by
  obtain ⟨scope, hscope, _, rfl⟩ := underScope_eq_ok_iff.mp h
  exact ⟨scope, hscope, by simp⟩

/-- The query for the indexed parts of an OR accepts what one of them
accepts. -/
theorem satisfiedBy_merged? {parts : List Part} {s : Source}
    (h : Outcome.merged? pl w .or parts = some s) :
    s.satisfiedBy d = true ↔ ∃ p, .indexed p ∈ parts ∧ p.satisfiedBy d = true := by
  rw [eq_query_of_merged? h, satisfiedBy_query, Predicate.satisfiedBy_or, List.any_eq_true]
  exact exists_congr fun p => by rw [Part.mem_indexedOnes]

/-- The source of an OR accepts nothing that its parts do not accept, and
in the scope whatever one of them accepts. -/
theorem upToScope_disjSource {parts : List Part} {s : Source}
    (h : Outcome.disjSource pl w parts = .ok s) :
    UpToScope pl d (s.satisfiedBy d) (parts.any (Part.satisfiedBy d)) := by
  obtain ⟨ss, hss, _, rfl⟩ := disjSource_eq_ok_iff.mp h
  rw [Source.satisfiedBy_disj]
  constructor
  · intro h
    obtain ⟨s, hs, hsat⟩ := List.any_eq_true.mp h
    rw [List.any_eq_true]
    rcases (mem_disjChildren hss).mp hs with ⟨hmerged, _⟩ | ⟨p, hp, hunder⟩ | hsource
    · obtain ⟨p, hp, hpsat⟩ := (satisfiedBy_merged? hmerged).mp hsat
      exact ⟨_, hp, hpsat⟩
    · obtain ⟨scope, _, heq⟩ := satisfiedBy_underScope (d := d) hunder
      rw [heq, Bool.and_eq_true] at hsat
      exact ⟨_, hp, hsat.2⟩
    · exact ⟨_, hsource, hsat⟩
  · intro hscope h
    obtain ⟨part, hpart, hsat⟩ := List.any_eq_true.mp h
    rw [List.any_eq_true]
    cases part with
    | indexed p =>
      obtain ⟨s, hmerged⟩ := exists_merged? pl w .or hpart
      refine ⟨s, (mem_disjChildren hss).mpr (.inl ⟨hmerged, p, hpart⟩), ?_⟩
      exact (satisfiedBy_merged? hmerged).mpr ⟨p, hpart, hsat⟩
    | residual p =>
      obtain ⟨s, hunder⟩ := exists_underScope hss hpart
      refine ⟨s, (mem_disjChildren hss).mpr (.inr (.inl ⟨p, hpart, hunder⟩)), ?_⟩
      obtain ⟨scope, hsome, heq⟩ := satisfiedBy_underScope (d := d) hunder
      rw [heq, hscope scope hsome]
      exact hsat
    | source s => exact ⟨s, (mem_disjChildren hss).mpr (.inr (.inr hpart)), hsat⟩

/-! ## Nodes -/

/-- What an AND becomes accepts what all its parts accept. -/
theorem satisfiedBy_combine_conj {children : List Predicate} {parts : List Part} {q : Part}
    (h : Outcome.combine .conj .and (fun parts => .ok (pl.conjSource w parts)) children parts
      = .ok q) :
    q.satisfiedBy d = parts.all (Part.satisfiedBy d) := by
  rcases combine_cases h with ⟨ps, rfl, rfl⟩ | ⟨ps, rfl, rfl⟩ | ⟨s, hs, rfl, _⟩
  · rw [Part.all_map_indexed]
    show Predicate.satisfiedBy d (if _ then _ else _) = _
    split
    · next heq => rw [Predicate.satisfiedBy_conj, heq]
    · rw [Predicate.satisfiedBy_and]
  · rw [Part.all_map_residual]
    exact satisfiedBy_residualNode_conj ps
  · obtain rfl := Except.ok.inj hs
    exact satisfiedBy_conjSource parts

/-- What an OR becomes accepts what one of its parts accepts, but for the
scope. -/
theorem upToScope_combine_disj {children : List Predicate} {parts : List Part} {q : Part}
    (h : Outcome.combine .disj .or (Outcome.disjSource pl w) children parts = .ok q) :
    UpToScope pl d (q.satisfiedBy d) (parts.any (Part.satisfiedBy d)) := by
  rcases combine_cases h with ⟨ps, rfl, rfl⟩ | ⟨ps, rfl, rfl⟩ | ⟨s, hs, rfl, _⟩
  · refine .of_eq ?_
    rw [Part.any_map_indexed]
    show Predicate.satisfiedBy d (if _ then _ else _) = _
    split
    · next heq => rw [Predicate.satisfiedBy_disj, heq]
    · rw [Predicate.satisfiedBy_or]
  · refine .of_eq ?_
    rw [Part.any_map_residual]
    exact satisfiedBy_residualNode_disj ps
  · exact upToScope_disjSource hs

/-! ## Subtrees -/

theorem upToScope_all {ps : List Predicate} {parts : List Part}
    (h : List.Forall₂ (fun p q => UpToScope pl d (q.satisfiedBy d) (p.satisfiedBy d)) ps parts) :
    UpToScope pl d (parts.all (Part.satisfiedBy d)) (ps.all (Predicate.satisfiedBy d)) := by
  induction h with
  | nil => exact .of_eq rfl
  | cons hq _ ih =>
    simp only [List.all_cons]
    constructor
    · intro h
      rw [Bool.and_eq_true] at h ⊢
      exact ⟨hq.sound h.1, ih.sound h.2⟩
    · intro hscope h
      rw [Bool.and_eq_true] at h ⊢
      exact ⟨hq.complete hscope h.1, ih.complete hscope h.2⟩

theorem upToScope_any {ps : List Predicate} {parts : List Part}
    (h : List.Forall₂ (fun p q => UpToScope pl d (q.satisfiedBy d) (p.satisfiedBy d)) ps parts) :
    UpToScope pl d (parts.any (Part.satisfiedBy d)) (ps.any (Predicate.satisfiedBy d)) := by
  induction h with
  | nil => exact .of_eq rfl
  | cons hq _ ih =>
    simp only [List.any_cons]
    constructor
    · intro h
      rw [Bool.or_eq_true] at h ⊢
      exact h.imp hq.sound ih.sound
    · intro hscope h
      rw [Bool.or_eq_true] at h ⊢
      exact h.imp (hq.complete hscope) (ih.complete hscope)

/-- Every part keeps the meaning of its subtree, up to the scope. -/
theorem upToScope_part (d : Document) {p : Predicate} {q : Part}
    (h : Outcome.part pl w p = .ok q) :
    UpToScope pl d (q.satisfiedBy d) (p.satisfiedBy d) := by
  refine part_induction (motive := fun p q => UpToScope pl d (q.satisfiedBy d) (p.satisfiedBy d))
    ?pushed ?kept ?neg ?conj ?disj h
  case pushed => exact fun _ _ => .of_eq rfl
  case kept => exact fun _ _ => .of_eq (Predicate.satisfiedBy_withLimit _ _)
  case neg =>
    intro p
    refine .of_eq ?_
    show (!(p.withLimit _).satisfiedBy d) = !p.satisfiedBy d
    rw [Predicate.satisfiedBy_withLimit]
  case conj =>
    intro ps parts q hparts hq
    have hnode : q.satisfiedBy d = parts.all (Part.satisfiedBy d) := by
      rw [satisfiedBy_combine_conj hq, Part.all_withoutLimits]
    rw [Predicate.satisfiedBy_conj]
    exact (UpToScope.of_eq hnode).trans (upToScope_all hparts)
  case disj =>
    intro ps parts q hparts hq
    rw [Predicate.satisfiedBy_disj]
    exact (upToScope_combine_disj hq).trans (upToScope_any hparts)

/-- The readable source of a part keeps its meaning, up to the scope. -/
theorem upToScope_sourceOf {q : Part} {s : Source} (h : Outcome.sourceOf pl w q = .ok s) :
    UpToScope pl d (s.satisfiedBy d) (q.satisfiedBy d) := by
  cases q with
  | indexed p =>
    obtain rfl := Except.ok.inj h
    exact .of_eq rfl
  | source s =>
    obtain rfl := Except.ok.inj h
    exact .of_eq rfl
  | residual p =>
    obtain ⟨scope, hsome, heq⟩ := satisfiedBy_underScope (d := d) h
    constructor
    · intro hs
      rw [heq, Bool.and_eq_true] at hs
      exact hs.2
    · intro hscope hp
      rw [heq, hscope scope hsome]
      exact hp

/-! ## Plans -/

/-- The source of a whole query keeps its meaning, up to the scope. -/
theorem upToScope_root (d : Document) {p : Predicate} {s : Source}
    (h : Outcome.root pl w p = .ok s) : UpToScope pl d (s.satisfiedBy d) (p.satisfiedBy d) := by
  obtain ⟨q, hq, hs⟩ := bind_eq_ok_iff.mp h
  exact (upToScope_sourceOf hs).trans (upToScope_part d hq)

/-- A plan accepts only what its query accepts, and all of that in the
default scope; without a default scope, just what its query accepts. -/
theorem plan_keeps_meaning (pl : Planner) (w : Window) (p : Predicate) (log : Log) (s : Source)
    (h : (pl.plan w p log).1 = .ok s) :
    (∀ d, s.satisfiedBy d = true → p.satisfiedBy d = true)
      ∧ (∀ d, (∀ scope, pl.scope? = some scope → scope.satisfiedBy d = true) →
        s.satisfiedBy d = p.satisfiedBy d)
      ∧ (pl.scope? = none → ∀ d, s.satisfiedBy d = p.satisfiedBy d) := by
  have hkeeps (d : Document) : UpToScope pl d (s.satisfiedBy d) (p.satisfiedBy d) :=
    upToScope_root d (plan_eq_ok_iff.mp h).1
  refine ⟨fun d => (hkeeps d).sound, fun d => (hkeeps d).eq_of_inScope, fun hnone d => ?_⟩
  refine (hkeeps d).eq_of_inScope fun scope hsome => ?_
  rw [hnone] at hsome
  cases hsome

/-- A query of all kinds of parts: beside a limit, an OR of a topic and of
a file that the schema does not have, and so is put under the scope. -/
theorem plan_keeps_meaning_mixed :
    let pl : Planner :=
      ⟨⟨1, ["project", "status", "topic"]⟩, {}, some (.leaf .statusOpen)⟩
    let p : Predicate := .conj
      [.leaf (.exact "project" "core"), .leaf (.limit 3),
        .disj [.leaf (.exact "topic" "x"), .leaf (.exact "file" "a")]]
    let w : Window := ⟨0, 11, []⟩
    ∃ s, (pl.plan w p ⟨.fatal, []⟩).1 = .ok s
      ∧ (∀ d, s.satisfiedBy d = true → p.satisfiedBy d = true)
      ∧ ∀ d, Leaf.statusOpen.satisfiedBy d = true → s.satisfiedBy d = p.satisfiedBy d := by
  intro pl p w
  have hroot : Outcome.root pl w p = .ok (.conj
      [pl.query w (.leaf (.exact "project" "core")),
        .disj [pl.query w (.leaf (.exact "topic" "x")),
          .conj [pl.query w (.leaf .statusOpen), .filter (.leaf (.exact "file" "a"))]]]) := rfl
  have hplan : (pl.plan w p ⟨.fatal, []⟩).1 = .ok _ := plan_eq_ok_iff.mpr ⟨hroot, by decide⟩
  obtain ⟨hsound, hscoped, _⟩ := plan_keeps_meaning pl w p ⟨.fatal, []⟩ _ hplan
  refine ⟨_, hplan, hsound, fun d hd => hscoped d ?_⟩
  rintro scope ⟨⟩
  exact hd

end ReviewSearch.Planner
