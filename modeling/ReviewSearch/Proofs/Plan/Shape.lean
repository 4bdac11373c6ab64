/-
ReviewSearch.Proofs.Plan.Shape — plans can be read.

* `answerable_and`, `answerable_or` — normal form keeps a predicate
  answerable;
* `fit_of_part` — what planning makes of a subtree is FIT: an indexed part
  can be answered, and a source is readable and built from queries in the
  window of the whole query (`Planner.Makes`);
* `built_of_root` — so is the source of a whole query, and a store of the
  same schema can be read by it (`Makes.wellBuilt`).
-/
import ReviewSearch.Proofs.Plan.Listing
import ReviewSearch.Proofs.Plan.Parts

namespace ReviewSearch.Planner

variable {pl : Planner} {w : Window}

/-! ## Answerable predicates -/

theorem allAnswerable_eq_all (ps : List Predicate) :
    pl.allAnswerable ps = ps.all pl.answerable := by
  induction ps with
  | nil => rfl
  | cons p ps ih => simp [allAnswerable, ih]

@[simp] theorem answerable_leaf (l : Leaf) : pl.answerable (.leaf l) = pl.schema.answers l := rfl

@[simp] theorem answerable_conj (ps : List Predicate) :
    pl.answerable (.conj ps) = ps.all pl.answerable :=
  allAnswerable_eq_all ps

@[simp] theorem answerable_disj (ps : List Predicate) :
    pl.answerable (.disj ps) = ps.all pl.answerable :=
  allAnswerable_eq_all ps

theorem all_answerable_conjuncts (p : Predicate) :
    p.conjuncts.all pl.answerable = pl.answerable p := by
  cases p <;> simp [Predicate.conjuncts]

theorem all_answerable_disjuncts (p : Predicate) :
    p.disjuncts.all pl.answerable = pl.answerable p := by
  cases p <;> simp [Predicate.disjuncts]

@[simp] theorem answerable_and (ps : List Predicate) :
    pl.answerable (.and ps) = ps.all pl.answerable := by
  rw [Predicate.apply_and (g := fun ps => ps.all pl.answerable) (by simp) answerable_conj]
  simp only [List.all_flatMap, all_answerable_conjuncts]

@[simp] theorem answerable_or (ps : List Predicate) :
    pl.answerable (.or ps) = ps.all pl.answerable := by
  rw [Predicate.apply_or (g := fun ps => ps.all pl.answerable) (by simp) answerable_disj]
  simp only [List.all_flatMap, all_answerable_disjuncts]

/-- The schema has every leaf of an answerable predicate. -/
theorem answers_of_answerable {p : Predicate} (h : pl.answerable p = true) :
    ∀ l ∈ p.leaves, pl.schema.answers l = true := by
  induction p with
  | leaf l => simpa using h
  | conj ps ih =>
    rw [answerable_conj, List.all_eq_true] at h
    intro l hl
    obtain ⟨p, hp, hl⟩ := List.mem_flatMap.mp (Predicate.leaves_conj ps ▸ hl)
    exact ih p hp (h p hp) l hl
  | disj ps ih =>
    rw [answerable_disj, List.all_eq_true] at h
    intro l hl
    obtain ⟨p, hp, hl⟩ := List.mem_flatMap.mp (Predicate.leaves_disj ps ▸ hl)
    exact ih p hp (h p hp) l hl
  | neg p _ => cases h

/-- The predicates that an index of a schema answers in full: ANDs and ORs
over leaves on its fields, without a NOT and without a limit. -/
inductive Answerable (schema : Schema) : Predicate → Prop
  | leaf {l : Leaf} (h : l.isLimit = false) (hfield : schema.hasField l.field = true) :
      Answerable schema (.leaf l)
  | conj {ps : List Predicate} (h : ∀ p ∈ ps, Answerable schema p) : Answerable schema (.conj ps)
  | disj {ps : List Predicate} (h : ∀ p ∈ ps, Answerable schema p) : Answerable schema (.disj ps)

theorem answerable_iff {p : Predicate} : pl.answerable p = true ↔ Answerable pl.schema p := by
  induction p with
  | leaf l =>
    rw [answerable_leaf, Schema.answers, Bool.and_eq_true, Bool.not_eq_true']
    constructor
    · exact fun h => .leaf h.1 h.2
    · intro h
      cases h with
      | leaf h hfield => exact ⟨h, hfield⟩
  | conj ps ih =>
    rw [answerable_conj, List.all_eq_true, forall₂_congr ih]
    constructor
    · exact .conj
    · intro h
      cases h with
      | conj h => exact h
  | disj ps ih =>
    rw [answerable_disj, List.all_eq_true, forall₂_congr ih]
    constructor
    · exact .disj
    · intro h
      cases h with
      | disj h => exact h
  | neg p _ => constructor <;> intro h <;> cases h

/-! ## Fit parts -/

/-- The queries that a planner makes for a window: of answerable
predicates, in that window. -/
def Makes (pl : Planner) (w : Window) (q : IndexQuery) : Prop :=
  ∃ p, pl.answerable p = true ∧ q = .ofWindow p w pl.limits.maxLimit

theorem Makes.window_eq {q : IndexQuery} (h : pl.Makes w q) : q.window = w := by
  obtain ⟨_, _, rfl⟩ := h
  rfl

/-- A store of the planner's schema answers the queries that it makes. -/
theorem Makes.wellBuilt {store : Store} {s : Source} (hs : s.Built (pl.Makes w))
    (hschema : store.schema = pl.schema) (hmax : 0 < pl.limits.maxLimit) :
    s.WellBuilt store := by
  refine hs.mono fun q hq => ?_
  obtain ⟨p, hp, rfl⟩ := hq
  refine ⟨.ofWindow p w hmax, fun l hl => ?_⟩
  rw [hschema]
  exact answers_of_answerable hp l hl

/-- What planning may leave of a subtree. -/
def Part.Fit (pl : Planner) (w : Window) : Part → Prop
  | .indexed p => pl.answerable p = true
  | .residual _ => True
  | .source s => s.Built (pl.Makes w) ∧ s.readable = true

theorem built_query {p : Predicate} (h : pl.answerable p = true) :
    (pl.query w p).Built (pl.Makes w) :=
  .indexed ⟨p, h, rfl⟩

theorem readable_query (p : Predicate) : (pl.query w p).readable = true := rfl

theorem all_answerable_indexedOnes {parts : List Part} (h : ∀ part ∈ parts, part.Fit pl w) :
    (Part.indexedOnes parts).all pl.answerable = true := by
  rw [List.all_eq_true]
  exact fun p hp => h _ (Part.mem_indexedOnes.mp hp)

theorem built_underScope {p : Predicate} {s : Source} (h : Outcome.underScope pl w p = .ok s) :
    s.Built (pl.Makes w) ∧ s.readable = true := by
  obtain ⟨scope, _, hscope, rfl⟩ := underScope_eq_ok_iff.mp h
  refine ⟨.conj ?_, by simp [readable_query]⟩
  simp only [List.forall_mem_cons, List.not_mem_nil, false_implies, implies_true, and_true]
  exact ⟨built_query hscope, .filter p⟩

/-! ## Sources -/

/-- The source of an AND with an indexed part or a source among its parts
is fit. -/
theorem built_conjSource {parts : List Part} (h : ∀ part ∈ parts, part.Fit pl w)
    (hmixed : ∃ part ∈ parts, part.residual? = none) :
    (pl.conjSource w parts).Built (pl.Makes w) ∧ (pl.conjSource w parts).readable = true := by
  rw [conjSource_eq]
  constructor
  · refine .conj fun s hs => ?_
    rcases List.mem_append.mp hs with hs | hs
    · obtain rfl := eq_query_of_merged? (Option.mem_toList.mp hs)
      exact built_query (answerable_and _ ▸ all_answerable_indexedOnes h)
    · obtain ⟨part, hpart, hother⟩ := List.mem_filterMap.mp hs
      cases part with
      | indexed p => cases hother
      | residual p => cases hother; exact .filter p
      | source s => cases hother; exact (h _ hpart).1
  · rw [Source.readable_conj, List.any_append, Bool.or_eq_true, List.any_eq_true,
      List.any_eq_true]
    obtain ⟨part, hpart, hnot⟩ := hmixed
    cases part with
    | indexed p =>
      obtain ⟨s, hs⟩ := exists_merged? pl w .and hpart
      refine .inl ⟨s, Option.mem_toList.mpr hs, ?_⟩
      rw [eq_query_of_merged? hs, readable_query]
    | residual p => cases hnot
    | source s =>
      exact .inr ⟨s, List.mem_filterMap.mpr ⟨_, hpart, rfl⟩, (h _ hpart).2⟩

/-- The children that fit parts make of an OR are fit. -/
theorem built_of_mem_disjChildren {parts : List Part} (h : ∀ part ∈ parts, part.Fit pl w)
    {ss : List Source}
    (hss : Outcome.disjChildren pl w (Outcome.merged? pl w .or parts) parts = .ok ss) :
    ∀ s ∈ ss, s.Built (pl.Makes w) ∧ s.readable = true := by
  intro s hs
  rcases (mem_disjChildren hss).mp hs with ⟨hmerged, _⟩ | ⟨p, _, hunder⟩ | hsource
  · obtain rfl := eq_query_of_merged? hmerged
    exact ⟨built_query (answerable_or _ ▸ all_answerable_indexedOnes h), readable_query _⟩
  · exact built_underScope hunder
  · exact h _ hsource

/-- The source of an OR of fit parts is fit. -/
theorem built_disjSource {parts : List Part} (h : ∀ part ∈ parts, part.Fit pl w) {s : Source}
    (hs : Outcome.disjSource pl w parts = .ok s) :
    s.Built (pl.Makes w) ∧ s.readable = true := by
  obtain ⟨ss, hss, hr, rfl⟩ := disjSource_eq_ok_iff.mp hs
  exact ⟨.disj (fun s hs => (built_of_mem_disjChildren h hss s hs).1) hr, rfl⟩

/-- What a node becomes is fit if its parts are. -/
theorem fit_of_combine {node normal : List Predicate → Predicate}
    {mixed : List Part → Except Fault Source} {children : List Predicate} {parts : List Part}
    {q : Part} (hnode : ∀ ps, pl.answerable (node ps) = ps.all pl.answerable)
    (hnormal : ∀ ps, pl.answerable (normal ps) = ps.all pl.answerable)
    (hmixed : ∀ s, mixed parts = .ok s → (∃ part ∈ parts, part.residual? = none) →
      s.Built (pl.Makes w) ∧ s.readable = true)
    (h : ∀ part ∈ parts, part.Fit pl w)
    (hq : Outcome.combine node normal mixed children parts = .ok q) : q.Fit pl w := by
  rcases combine_cases hq with ⟨ps, rfl, rfl⟩ | ⟨ps, rfl, rfl⟩ | ⟨s, hs, rfl, _, hmix⟩
  · have hall : ps.all pl.answerable = true := by
      rw [List.all_eq_true]
      exact fun p hp => h _ (List.mem_map_of_mem hp)
    show pl.answerable (if _ then _ else _) = true
    split
    · next heq => rw [hnode, ← heq, hall]
    · rw [hnormal, hall]
  · trivial
  · exact hmixed s hs hmix

theorem mem_of_mem_withoutLimits {parts : List Part} {part : Part}
    (h : part ∈ Part.withoutLimits parts) : part ∈ parts := by
  unfold Part.withoutLimits at h
  split at h
  · exact h
  · exact (List.mem_filter.mp h).1

/-- Every subtree becomes a fit part. -/
theorem fit_of_part {p : Predicate} {q : Part} (h : Outcome.part pl w p = .ok q) :
    q.Fit pl w := by
  refine part_induction (motive := fun _ q => q.Fit pl w) ?pushed ?kept ?neg ?conj ?disj h
  case pushed => exact fun l hl => hl
  case kept => exact fun _ _ => trivial
  case neg => exact fun _ => trivial
  case conj =>
    intro ps parts q hparts hq
    have hfit : ∀ part ∈ Part.withoutLimits parts, part.Fit pl w :=
      fun part hpart => forall_of_forall₂ hparts part (mem_of_mem_withoutLimits hpart)
    refine fit_of_combine answerable_conj answerable_and (fun s hs hmix => ?_) hfit hq
    obtain rfl := Except.ok.inj hs
    exact built_conjSource hfit hmix
  case disj =>
    intro ps parts q hparts hq
    have hfit := forall_of_forall₂ hparts
    exact fit_of_combine answerable_disj answerable_or (fun s hs _ => built_disjSource hfit hs)
      hfit hq

/-! ## Plans -/

/-- A plan is readable and built from queries that the planner makes. -/
theorem built_of_root {p : Predicate} {s : Source} (h : Outcome.root pl w p = .ok s) :
    s.Built (pl.Makes w) ∧ s.readable = true := by
  obtain ⟨q, hq, hs⟩ := bind_eq_ok_iff.mp h
  have hfit := fit_of_part hq
  cases q with
  | indexed p =>
    obtain rfl := Except.ok.inj hs
    exact ⟨built_query hfit, rfl⟩
  | residual p => exact built_underScope hs
  | source s =>
    obtain rfl := Except.ok.inj hs
    exact hfit

end ReviewSearch.Planner
