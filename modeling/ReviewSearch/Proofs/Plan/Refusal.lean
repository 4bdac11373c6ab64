/-
ReviewSearch.Proofs.Plan.Refusal — which queries have no plan.

A query has branches that NEED THE SCOPE if it is RESIDUAL itself, or if
one of its ORs, outside its residual subtrees, MIXES residual children
with others: such a branch has to be readable, and no part of it is.

* `isResidual_of_part` — planning makes a residual part of the residual
  subtrees and of no other;
* `part_eq_error`, `exists_part_iff` — putting a branch under the scope is
  the only step that fails, and it is taken for the mixed ORs only;
* `plan_refused_iff` — so a query is refused for too many leaves, for a
  branch that needs a scope where there is none, or for a scope that the
  index does not answer, and for nothing else.
-/
import Mathlib.Data.List.Forall2
import ReviewSearch.Proofs.Plan.Shape

namespace ReviewSearch.Planner

/-! ## Branches that need the scope -/

/-- The children of an AND without its limits, if it has any other. -/
def withoutLimits (ps : List Predicate) : List Predicate :=
  if ps.all Predicate.isLimit then ps else ps.filter fun p => !p.isLimit

/-- The predicates of which an index of a schema answers no part: limits,
leaves outside the schema, NOTs, and the ANDs and ORs of such, of one at
least. A limit beside other children of an AND does not count. -/
inductive Residual (schema : Schema) : Predicate → Prop
  | limit {l : Leaf} (h : l.isLimit = true) : Residual schema (.leaf l)
  | foreign {l : Leaf} (h : schema.hasField l.field = false) : Residual schema (.leaf l)
  | neg (p : Predicate) : Residual schema (.neg p)
  | conj {ps : List Predicate} (hne : withoutLimits ps ≠ [])
      (h : ∀ p ∈ withoutLimits ps, Residual schema p) : Residual schema (.conj ps)
  | disj {ps : List Predicate} (hne : ps ≠ []) (h : ∀ p ∈ ps, Residual schema p) :
      Residual schema (.disj ps)

/-- `Outside schema p q`: `q` stands in `p`, and in no residual subtree of
it. -/
inductive Outside (schema : Schema) : Predicate → Predicate → Prop
  | here {p : Predicate} (h : ¬Residual schema p) : Outside schema p p
  | inside {p child q : Predicate} (h : ¬Residual schema p) (hchild : child ∈ p.children)
      (hq : Outside schema child q) : Outside schema p q

/-- An OR of these children has residual ones and others. -/
def Mixed (schema : Schema) (ps : List Predicate) : Prop :=
  (∃ p ∈ ps, Residual schema p) ∧ ∃ p ∈ ps, ¬Residual schema p

/-- Some OR outside the residual subtrees has residual children and
others. -/
def Mixes (schema : Schema) (p : Predicate) : Prop :=
  ∃ qs, Outside schema p (.disj qs) ∧ Mixed schema qs

/-- Some branch has to be readable, and no part of it is. -/
def NeedsScope (schema : Schema) (p : Predicate) : Prop :=
  Residual schema p ∨ Mixes schema p

variable {schema : Schema} {ps : List Predicate} {p : Predicate}

/-- What holds of every item that may be dropped holds of all items if it
holds of those that are kept. -/
theorem forall_dropUnlessAll {α : Type} {f : α → Bool} {P : α → Prop}
    (hP : ∀ x, f x = true → P x) (xs : List α) :
    ((if xs.all f then xs else xs.filter fun x => !f x) ≠ []
      ∧ ∀ x ∈ (if xs.all f then xs else xs.filter fun x => !f x), P x)
      ↔ xs ≠ [] ∧ ∀ x ∈ xs, P x := by
  by_cases hall : xs.all f = true
  · rw [if_pos hall]
  · rw [if_neg hall]
    obtain ⟨x, hx, hfx⟩ : ∃ x ∈ xs, f x = false := by simpa using hall
    have hkept : x ∈ xs.filter fun x => !f x := List.mem_filter.mpr ⟨hx, by simp [hfx]⟩
    simp only [ne_eq, List.ne_nil_of_mem hkept, List.ne_nil_of_mem hx, not_false_eq_true,
      true_and, List.mem_filter, Bool.not_eq_true', and_imp]
    refine ⟨fun h y hy => ?_, fun h y hy _ => h y hy⟩
    cases hfy : f y with
    | true => exact hP y hfy
    | false => exact h y hy hfy

/-- Lists whose items agree one by one agree in all. -/
theorem forall_mem_congr_of_forall₂ {α β : Type} {P : α → Prop} {Q : β → Prop} {xs : List α}
    {ys : List β} (h : List.Forall₂ (fun x y => Q y ↔ P x) xs ys) :
    (∀ y ∈ ys, Q y) ↔ ∀ x ∈ xs, P x := by
  induction h with
  | nil => simp
  | cons hxy _ ih => simp only [List.forall_mem_cons, hxy, ih]

theorem exists_mem_congr_of_forall₂ {α β : Type} {P : α → Prop} {Q : β → Prop} {xs : List α}
    {ys : List β} (h : List.Forall₂ (fun x y => Q y ↔ P x) xs ys) :
    (∃ y ∈ ys, Q y) ↔ ∃ x ∈ xs, P x := by
  induction h with
  | nil => simp
  | cons hxy _ ih => simp only [List.exists_mem_cons_iff, hxy, ih]

theorem residual_leaf_iff {l : Leaf} :
    Residual schema (.leaf l) ↔ schema.answers l = false := by
  rw [Schema.answers, Bool.and_eq_false_iff, Bool.not_eq_false']
  constructor
  · intro h
    cases h with
    | limit h => exact .inl h
    | foreign h => exact .inr h
  · exact fun h => h.elim .limit .foreign

theorem residual_of_isLimit (h : p.isLimit = true) : Residual schema p := by
  cases p with
  | leaf l => exact .limit h
  | _ => cases h

/-- Limits are residual, so it does not matter that they are left out. -/
theorem residual_conj_iff :
    Residual schema (.conj ps) ↔ ps ≠ [] ∧ ∀ p ∈ ps, Residual schema p := by
  rw [← forall_dropUnlessAll (f := Predicate.isLimit) (fun _ => residual_of_isLimit)]
  constructor
  · intro h
    cases h with
    | conj hne h => exact ⟨hne, h⟩
  · exact fun h => .conj h.1 h.2

theorem residual_disj_iff :
    Residual schema (.disj ps) ↔ ps ≠ [] ∧ ∀ p ∈ ps, Residual schema p := by
  constructor
  · intro h
    cases h with
    | disj hne h => exact ⟨hne, h⟩
  · exact fun h => .disj h.1 h.2

theorem not_mixes_of_residual (h : Residual schema p) : ¬Mixes schema p := by
  rintro ⟨qs, hqs, -⟩
  cases hqs with
  | here hnot => exact hnot h
  | inside hnot _ _ => exact hnot h

/-- Mixing is a matter of the node itself and of its children. -/
theorem mixes_iff (h : ¬Residual schema p) :
    Mixes schema p ↔
      (∃ qs, p = .disj qs ∧ Mixed schema qs) ∨ ∃ child ∈ p.children, Mixes schema child := by
  constructor
  · rintro ⟨qs, hqs, hmix⟩
    cases hqs with
    | here _ => exact .inl ⟨qs, rfl, hmix⟩
    | inside _ hchild hq => exact .inr ⟨_, hchild, qs, hq, hmix⟩
  · rintro (⟨qs, rfl, hmix⟩ | ⟨child, hchild, qs, hq, hmix⟩)
    · exact ⟨qs, .here h, hmix⟩
    · exact ⟨qs, .inside h hchild hq, hmix⟩

theorem not_mixes_leaf (l : Leaf) : ¬Mixes schema (.leaf l) := by
  by_cases h : Residual schema (.leaf l)
  · exact not_mixes_of_residual h
  · simp [mixes_iff h, Predicate.children]

theorem mixes_conj_iff : Mixes schema (.conj ps) ↔ ∃ p ∈ ps, Mixes schema p := by
  by_cases h : Residual schema (.conj ps)
  · have hnone : ¬∃ p ∈ ps, Mixes schema p := fun ⟨p, hp, hmix⟩ =>
      not_mixes_of_residual ((residual_conj_iff.mp h).2 p hp) hmix
    exact iff_of_false (not_mixes_of_residual h) hnone
  · simp [mixes_iff h, Predicate.children]

theorem mixes_disj_iff :
    Mixes schema (.disj ps) ↔ Mixed schema ps ∨ ∃ p ∈ ps, Mixes schema p := by
  by_cases h : Residual schema (.disj ps)
  · have hall := (residual_disj_iff.mp h).2
    refine iff_of_false (not_mixes_of_residual h) ?_
    rintro (⟨_, p, hp, hnot⟩ | ⟨p, hp, hmix⟩)
    · exact hnot (hall p hp)
    · exact not_mixes_of_residual (hall p hp) hmix
  · simp [mixes_iff h, Predicate.children]

/-! ## Residual parts -/

variable {pl : Planner} {w : Window}

def Part.IsResidual (part : Part) : Prop :=
  ∃ p, part = .residual p

theorem Part.isResidual_residual (p : Predicate) : (Part.residual p).IsResidual := ⟨p, rfl⟩

theorem Part.not_isResidual_indexed (p : Predicate) : ¬(Part.indexed p).IsResidual := by
  rintro ⟨q, h⟩
  cases h

theorem Part.not_isResidual_source (s : Source) : ¬(Part.source s).IsResidual := by
  rintro ⟨q, h⟩
  cases h

theorem Part.isResidual_of_isLimit {part : Part} (h : part.isLimit = true) :
    part.IsResidual := by
  cases part with
  | residual p => exact isResidual_residual p
  | _ => cases h

theorem isResidual_of_combine {node normal : List Predicate → Predicate}
    {mixed : List Part → Except Fault Source} {children : List Predicate} {parts : List Part}
    {q : Part} (h : Outcome.combine node normal mixed children parts = .ok q) :
    q.IsResidual ↔ parts ≠ [] ∧ ∀ part ∈ parts, part.IsResidual := by
  have hempty : parts = [] → ¬q.IsResidual := by
    rintro rfl
    simp only [Outcome.combine, Part.indexedOnes, List.filterMap_nil, List.length_nil, if_true,
      Except.ok.injEq] at h
    exact h ▸ Part.not_isResidual_indexed _
  by_cases hparts : parts = []
  · simp [hempty hparts, hparts]
  rcases combine_cases h with ⟨ps, rfl, rfl⟩ | ⟨ps, rfl, rfl⟩ | ⟨s, _, rfl, _, part, hpart, hnot⟩
  · refine iff_of_false (Part.not_isResidual_indexed _) fun hall => ?_
    obtain ⟨part, hpart⟩ := List.exists_mem_of_ne_nil _ hparts
    obtain ⟨p, -, rfl⟩ := List.mem_map.mp hpart
    exact Part.not_isResidual_indexed p (hall.2 _ hpart)
  · simp [Part.isResidual_residual, hparts]
  · refine iff_of_false (Part.not_isResidual_source s) fun hall => ?_
    obtain ⟨p, rfl⟩ := hall.2 part hpart
    cases hnot

/-- The residual subtrees, and no others, become residual parts. -/
theorem isResidual_of_part {q : Part} (h : Outcome.part pl w p = .ok q) :
    q.IsResidual ↔ Residual pl.schema p := by
  have hall {ps : List Predicate} {parts : List Part}
      (h : List.Forall₂ (fun p q => Part.IsResidual q ↔ Residual pl.schema p) ps parts) :
      (parts ≠ [] ∧ ∀ part ∈ parts, part.IsResidual)
        ↔ ps ≠ [] ∧ ∀ p ∈ ps, Residual pl.schema p := by
    rw [forall_mem_congr_of_forall₂ h, ← List.length_pos_iff, ← h.length_eq, List.length_pos_iff]
  refine part_induction (motive := fun p q => q.IsResidual ↔ Residual pl.schema p)
    ?pushed ?kept ?neg ?conj ?disj h
  case pushed =>
    intro l hl
    refine iff_of_false (Part.not_isResidual_indexed _) fun h => ?_
    rw [residual_leaf_iff, hl] at h
    cases h
  case kept =>
    exact fun l hl => iff_of_true (Part.isResidual_residual _) (residual_leaf_iff.mpr hl)
  case neg => exact fun p => iff_of_true (Part.isResidual_residual _) (.neg p)
  case conj =>
    intro ps parts q hparts hq
    rw [isResidual_of_combine hq, residual_conj_iff, ← hall hparts]
    exact forall_dropUnlessAll (fun _ => Part.isResidual_of_isLimit) parts
  case disj =>
    intro ps parts q hparts hq
    rw [isResidual_of_combine hq, residual_disj_iff, hall hparts]

/-! ## Faults of planning -/

/-- There is a default scope, and the index answers it. -/
def HasScope (pl : Planner) : Prop :=
  ∃ scope, pl.scope? = some scope ∧ pl.answerable scope = true

theorem exists_underScope_iff {p : Predicate} :
    (∃ s, Outcome.underScope pl w p = .ok s) ↔ pl.HasScope := by
  constructor
  · rintro ⟨s, hs⟩
    obtain ⟨scope, hscope, hanswer, -⟩ := underScope_eq_ok_iff.mp hs
    exact ⟨scope, hscope, hanswer⟩
  · rintro ⟨scope, hscope, hanswer⟩
    exact ⟨_, underScope_eq_ok_iff.mpr ⟨scope, hscope, hanswer, rfl⟩⟩

theorem disjChildren_eq_error {merged? : Option Source} {parts : List Part} {f : Fault}
    (h : Outcome.disjChildren pl w merged? parts = .error f) :
    ∃ p, .residual p ∈ parts ∧ Outcome.underScope pl w p = .error f := by
  have htail {parts : List Part} {part : Part}
      (h : ∃ p, .residual p ∈ parts ∧ Outcome.underScope pl w p = .error f) :
      ∃ p, .residual p ∈ part :: parts ∧ Outcome.underScope pl w p = .error f :=
    h.imp fun _ => And.imp_left (List.mem_cons_of_mem _)
  induction parts generalizing merged? with
  | nil => cases h
  | cons part parts ih =>
    cases part with
    | indexed p =>
      rcases bind_eq_error_iff.mp h with h | ⟨ss, -, h⟩
      · exact htail (ih h)
      · cases h
    | residual p =>
      rcases bind_eq_error_iff.mp h with h | ⟨s, -, h⟩
      · exact ⟨p, List.mem_cons_self, h⟩
      · rcases bind_eq_error_iff.mp h with h | ⟨ss, -, h⟩
        · exact htail (ih h)
        · cases h
    | source s =>
      rcases bind_eq_error_iff.mp h with h | ⟨ss, -, h⟩
      · exact htail (ih h)
      · cases h

/-- The children that fit parts make are readable, so an OR of them is no
fault. -/
theorem disjSource_eq_error {parts : List Part} (hfit : ∀ part ∈ parts, part.Fit pl w) {f : Fault}
    (h : Outcome.disjSource pl w parts = .error f) :
    ∃ p, .residual p ∈ parts ∧ Outcome.underScope pl w p = .error f := by
  rcases bind_eq_error_iff.mp h with hchildren | ⟨ss, hss, -⟩
  · exact disjChildren_eq_error hchildren
  · have hreadable : ∀ s ∈ ss, s.readable = true :=
      fun s hs => (built_of_mem_disjChildren hfit hss s hs).2
    rw [disjSource_eq_ok_iff.mpr ⟨ss, hss, hreadable, rfl⟩] at h
    cases h

theorem combine_eq_error {node normal : List Predicate → Predicate}
    {mixed : List Part → Except Fault Source} {children : List Predicate} {parts : List Part}
    {f : Fault} (h : Outcome.combine node normal mixed children parts = .error f) :
    mixed parts = .error f ∧ ∃ part ∈ parts, part.residual? = none := by
  unfold Outcome.combine at h
  dsimp only at h
  split at h
  · cases h
  · split at h
    · cases h
    next hresidual =>
      refine ⟨?_, Part.exists_of_length_filterMap hresidual⟩
      cases hmixed : mixed parts with
      | ok s => rw [hmixed] at h; cases h
      | error f' => rw [hmixed] at h; exact congrArg _ (Except.error.inj h)

theorem partAll_eq_error {ps : List Predicate} {f : Fault}
    (h : Outcome.partAll pl w ps = .error f) : ∃ p ∈ ps, Outcome.part pl w p = .error f := by
  induction ps with
  | nil => cases h
  | cons p ps ih =>
    rw [Outcome.partAll] at h
    rcases bind_eq_error_iff.mp h with h | ⟨q, -, h⟩
    · exact ⟨p, List.mem_cons_self, h⟩
    · rcases bind_eq_error_iff.mp h with h | ⟨parts, -, h⟩
      · obtain ⟨p', hp', h⟩ := ih h
        exact ⟨p', List.mem_cons_of_mem _ hp', h⟩
      · cases h

theorem fit_of_partAll {ps : List Predicate} {parts : List Part}
    (h : Outcome.partAll pl w ps = .ok parts) : ∀ part ∈ parts, part.Fit pl w :=
  forall_of_forall₂ (forall₂_of_partAll (fun _ _ _ hq => fit_of_part hq) h)

/-- The residual children of a node, and no others, become residual
parts. -/
theorem isResidual_of_partAll {ps : List Predicate} {parts : List Part}
    (h : Outcome.partAll pl w ps = .ok parts) :
    List.Forall₂ (fun p q => Part.IsResidual q ↔ Residual pl.schema p) ps parts :=
  forall₂_of_partAll (fun _ _ _ hq => isResidual_of_part hq) h

theorem mixed_iff {ps : List Predicate} {parts : List Part}
    (h : Outcome.partAll pl w ps = .ok parts) :
    Mixed pl.schema ps ↔
      (∃ part ∈ parts, part.IsResidual) ∧ ∃ part ∈ parts, ¬part.IsResidual := by
  have hparts := isResidual_of_partAll h
  exact (and_congr (exists_mem_congr_of_forall₂ hparts)
    (exists_mem_congr_of_forall₂ (hparts.imp fun _ _ => not_congr))).symm

/-- The only fault of planning a subtree is that of putting a branch under
the scope, and there is such a branch only if the subtree mixes. -/
theorem part_eq_error {p : Predicate} {f : Fault} (h : Outcome.part pl w p = .error f) :
    Mixes pl.schema p ∧ ∃ r, Outcome.underScope pl w r = .error f := by
  induction p with
  | leaf l => rw [Outcome.part] at h; cases h
  | neg p _ => rw [Outcome.part] at h; cases h
  | conj ps ih =>
    rw [Outcome.part] at h
    rcases bind_eq_error_iff.mp h with h | ⟨parts, -, h⟩
    · obtain ⟨p, hp, h⟩ := partAll_eq_error h
      exact ⟨mixes_conj_iff.mpr ⟨p, hp, (ih p hp h).1⟩, (ih p hp h).2⟩
    · obtain ⟨h, -⟩ := combine_eq_error h
      cases h
  | disj ps ih =>
    rw [Outcome.part] at h
    rcases bind_eq_error_iff.mp h with h | ⟨parts, hparts, h⟩
    · obtain ⟨p, hp, h⟩ := partAll_eq_error h
      exact ⟨mixes_disj_iff.mpr (.inr ⟨p, hp, (ih p hp h).1⟩), (ih p hp h).2⟩
    · obtain ⟨h, part, hpart, hnot⟩ := combine_eq_error h
      obtain ⟨r, hr, hunder⟩ := disjSource_eq_error (fit_of_partAll hparts) h
      have hmixed : Mixed pl.schema ps := by
        refine (mixed_iff hparts).mpr ⟨⟨_, hr, r, rfl⟩, part, hpart, ?_⟩
        rintro ⟨p, rfl⟩
        cases hnot
      exact ⟨mixes_disj_iff.mpr (.inl hmixed), r, hunder⟩

/-- Without a scope that can be asked, a subtree that mixes has no part. -/
theorem not_mixes_of_part (hscope : ¬pl.HasScope) {p : Predicate} {q : Part}
    (h : Outcome.part pl w p = .ok q) : ¬Mixes pl.schema p := by
  have hnone {ps : List Predicate} {parts : List Part}
      (ih : ∀ p ∈ ps, ∀ q, Outcome.part pl w p = .ok q → ¬Mixes pl.schema p)
      (h : Outcome.partAll pl w ps = .ok parts) : ¬∃ p ∈ ps, Mixes pl.schema p := by
    have hparts := forall₂_of_partAll (motive := fun p _ => False ↔ Mixes pl.schema p)
      (fun p hp q hq => (iff_false_intro (ih p hp q hq)).symm) h
    rw [← exists_mem_congr_of_forall₂ hparts]
    simp
  induction p generalizing q with
  | leaf l => exact not_mixes_leaf l
  | neg p _ => exact not_mixes_of_residual (.neg p)
  | conj ps ih =>
    rw [Outcome.part] at h
    obtain ⟨parts, hparts, -⟩ := bind_eq_ok_iff.mp h
    rw [mixes_conj_iff]
    exact hnone (fun p hp q hq => ih p hp hq) hparts
  | disj ps ih =>
    rw [Outcome.part] at h
    obtain ⟨parts, hparts, h⟩ := bind_eq_ok_iff.mp h
    rw [mixes_disj_iff, not_or]
    refine ⟨?_, hnone (fun p hp q hq => ih p hp hq) hparts⟩
    -- An OR that mixes has a source, so its residual children are under the scope.
    rintro hmixed
    obtain ⟨⟨part, hpart, r, rfl⟩, other, hother, hnot⟩ := (mixed_iff hparts).mp hmixed
    rcases combine_cases h with ⟨ps, rfl, -⟩ | ⟨ps, rfl, -⟩ | ⟨s, hs, -⟩
    · obtain ⟨p, -, hp⟩ := List.mem_map.mp hpart
      cases hp
    · obtain ⟨p, -, rfl⟩ := List.mem_map.mp hother
      exact hnot ⟨p, rfl⟩
    · obtain ⟨ss, hss, -⟩ := disjSource_eq_ok_iff.mp hs
      exact hscope (exists_underScope_iff.mp (exists_underScope hss hpart))

/-! ## Plans -/

theorem root_eq_error {p : Predicate} {f : Fault} (h : Outcome.root pl w p = .error f) :
    NeedsScope pl.schema p ∧ ∃ r, Outcome.underScope pl w r = .error f := by
  rcases bind_eq_error_iff.mp h with h | ⟨q, hq, h⟩
  · exact (part_eq_error h).imp_left .inr
  · cases q with
    | indexed p => cases h
    | residual r => exact ⟨.inl ((isResidual_of_part hq).mp ⟨r, rfl⟩), r, h⟩
    | source s => cases h

theorem not_needsScope_of_root (hscope : ¬pl.HasScope) {p : Predicate} {s : Source}
    (h : Outcome.root pl w p = .ok s) : ¬NeedsScope pl.schema p := by
  obtain ⟨q, hq, hs⟩ := bind_eq_ok_iff.mp h
  rintro (hresidual | hmixes)
  · obtain ⟨r, rfl⟩ := (isResidual_of_part hq).mpr hresidual
    exact hscope (exists_underScope_iff.mp ⟨s, hs⟩)
  · exact not_mixes_of_part hscope hq hmixes

/-- A query has an outcome just if its branches that need the scope, if it
has any, can be put under it. -/
theorem exists_root_iff (w : Window) (p : Predicate) :
    (∃ s, Outcome.root pl w p = .ok s) ↔ pl.HasScope ∨ ¬NeedsScope pl.schema p := by
  constructor
  · rintro ⟨s, hs⟩
    by_cases hscope : pl.HasScope
    · exact .inl hscope
    · exact .inr (not_needsScope_of_root hscope hs)
  · intro h
    cases hroot : Outcome.root pl w p with
    | ok s => exact ⟨s, rfl⟩
    | error f =>
      obtain ⟨hneeds, r, hr⟩ := root_eq_error hroot
      rcases h with hscope | hnot
      · obtain ⟨s, hs⟩ := exists_underScope_iff.mpr hscope
        rw [hs] at hr
        cases hr
      · exact absurd hneeds hnot

/-- A branch is not put under the scope if there is none, or if the index
does not answer it. -/
theorem code_of_underScope {p : Predicate} {f : Fault}
    (h : Outcome.underScope pl w p = .error f) :
    f.code = .queryParse
      ∨ f.code = .configInvalid
        ∧ ∃ scope, pl.scope? = some scope ∧ ¬Answerable pl.schema scope := by
  unfold Outcome.underScope at h
  split at h
  · obtain rfl := Except.error.inj h
    exact .inl rfl
  next scope hscope =>
    split at h
    · cases h
    next hnot =>
      obtain rfl := Except.error.inj h
      exact .inr ⟨rfl, scope, hscope, fun h => hnot (answerable_iff.mpr h)⟩

/-- Which queries are refused, and why. A default scope that the index
answers leaves no reason but too many leaves, limits not counted. Without
a default scope, the other reason is a branch that needs one. Every
refusal blames the query, or else a scope that the index does not
answer. -/
theorem plan_refused_iff (pl : Planner) (w : Window) (p : Predicate) (log : Log) :
    (∀ scope, pl.scope? = some scope → Answerable pl.schema scope →
      ((∃ s, (pl.plan w p log).1 = .ok s) ↔ p.termCount ≤ pl.limits.maxTerms)
        ∧ (pl.limits.maxTerms < p.termCount →
          (pl.plan w p log).1 = .error (.tooManyTerms pl.limits.maxTerms)))
    ∧ (pl.scope? = none →
      ((∃ s, (pl.plan w p log).1 = .ok s) ↔
        p.termCount ≤ pl.limits.maxTerms ∧ ¬NeedsScope pl.schema p))
    ∧ ∀ f, (pl.plan w p log).1 = .error f →
      f.code = .queryParse
        ∨ f.code = .configInvalid
          ∧ ∃ scope, pl.scope? = some scope ∧ ¬Answerable pl.schema scope := by
  have hplan : (∃ s, (pl.plan w p log).1 = .ok s) ↔
      (pl.HasScope ∨ ¬NeedsScope pl.schema p) ∧ p.termCount ≤ pl.limits.maxTerms := by
    rw [← exists_root_iff w p, ← exists_and_right]
    exact exists_congr fun s => plan_eq_ok_iff
  refine ⟨fun scope hscope hanswer => ?_, fun hnone => ?_, fun f hf => ?_⟩
  · have hhas : pl.HasScope := ⟨scope, hscope, answerable_iff.mpr hanswer⟩
    have hiff := hplan.trans (and_iff_right (.inl hhas))
    refine ⟨hiff, fun hmany => ?_⟩
    cases hp : (pl.plan w p log).1 with
    | ok s => exact absurd (hiff.mp ⟨s, hp⟩) (by omega)
    | error f =>
      rcases plan_eq_error hp with rfl | hroot
      · rfl
      · obtain ⟨s, hs⟩ := (exists_root_iff w p).mpr (.inl hhas)
        rw [hs] at hroot
        cases hroot
  · have hhas : ¬pl.HasScope := by
      rintro ⟨scope, hscope, -⟩
      rw [hnone] at hscope
      cases hscope
    rw [hplan, or_iff_right hhas, and_comm]
  · rcases plan_eq_error hf with rfl | hroot
    · exact .inl rfl
    · obtain ⟨-, r, hr⟩ := root_eq_error hroot
      exact code_of_underScope hr

/-- An OR of a topic and of a NOT beside a limit, which is residual: two
leaves that count, and a branch that needs a scope. -/
theorem plan_refused_iff_mixed :
    let p : Predicate := .disj [.leaf (.exact "topic" "x"),
      .conj [.leaf (.limit 3), .neg (.leaf (.exact "file" "a"))]]
    let pl (most : Nat) (scope? : Option Predicate) : Planner := ⟨.v1, { maxTerms := most }, scope?⟩
    let w : Window := ⟨0, 11, []⟩
    (∃ s, ((pl 2 (some (.leaf .statusOpen))).plan w p ⟨.fatal, []⟩).1 = .ok s)
      ∧ ((pl 1 (some (.leaf .statusOpen))).plan w p ⟨.fatal, []⟩).1 = .error (.tooManyTerms 1)
      ∧ ¬∃ s, ((pl 2 none).plan w p ⟨.fatal, []⟩).1 = .ok s := by
  intro p pl w
  have hscope : Answerable .v1 (.leaf .statusOpen) := .leaf rfl (by decide)
  have hneeds : NeedsScope .v1 p := by
    have htopic : ¬Residual .v1 (.leaf (.exact "topic" "x")) := by
      rw [residual_leaf_iff]
      decide
    have hor : ¬Residual .v1 p := fun h =>
      htopic ((residual_disj_iff.mp h).2 _ List.mem_cons_self)
    have hand : Residual .v1 (.conj [.leaf (.limit 3), .neg (.leaf (.exact "file" "a"))]) :=
      .conj (List.cons_ne_nil _ _) (by
        intro q hq
        obtain rfl := List.mem_singleton.mp hq
        exact .neg _)
    refine .inr ⟨_, .here hor, ⟨_, ?_, hand⟩, _, List.mem_cons_self, htopic⟩
    exact List.mem_cons_of_mem _ List.mem_cons_self
  obtain ⟨htwo, -, -⟩ := plan_refused_iff (pl 2 (some (.leaf .statusOpen))) w p ⟨.fatal, []⟩
  obtain ⟨hone, -, -⟩ := plan_refused_iff (pl 1 (some (.leaf .statusOpen))) w p ⟨.fatal, []⟩
  obtain ⟨-, hnone, -⟩ := plan_refused_iff (pl 2 none) w p ⟨.fatal, []⟩
  refine ⟨(htwo _ rfl hscope).1.mpr (by decide), (hone _ rfl hscope).2 (by decide), fun h => ?_⟩
  exact ((hnone rfl).mp h).2 hneeds

end ReviewSearch.Planner
