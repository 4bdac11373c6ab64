/-
ReviewSearch.Proofs.Plan.Rewindow — one plan in several windows.

`Source.atWindow` sets the window of every index query of a plan, and the
limits of its filters with it. Nothing else of a plan depends on the
window:

* `root_atWindow` — the plan of a query for another window is the same
  plan, set to that window;
* `listing_atWindow` — and it lists the same records, as long as its
  queries are read up to the same number.
-/
import ReviewSearch.Proofs.Plan.Remake
import ReviewSearch.Proofs.Plan.Shape

namespace ReviewSearch

namespace Source

variable {store : Store} {size : Predicate → Nat} {w : Window} {maxLimit : Nat}

mutual

/-- The plan with its queries set to a window. -/
def atWindow (w : Window) (maxLimit : Nat) : Source → Source
  | .indexed q => .indexed (.ofWindow q.predicate w maxLimit)
  | .conj ss => .conj (atWindowAll w maxLimit ss)
  | .disj ss => .disj (atWindowAll w maxLimit ss)
  | .filter p => .filter (p.withLimit (w.forBackend maxLimit).limit)
  | .matcher m => .matcher m

def atWindowAll (w : Window) (maxLimit : Nat) : List Source → List Source
  | [] => []
  | s :: ss => atWindow w maxLimit s :: atWindowAll w maxLimit ss

end

theorem atWindowAll_eq_map (ss : List Source) :
    atWindowAll w maxLimit ss = ss.map (atWindow w maxLimit) := by
  induction ss with
  | nil => rfl
  | cons s ss ih => simp [atWindowAll, ih]

@[simp] theorem atWindow_indexed (q : IndexQuery) :
    (indexed q).atWindow w maxLimit = .indexed (.ofWindow q.predicate w maxLimit) := by
  rw [atWindow]

@[simp] theorem atWindow_conj (ss : List Source) :
    (conj ss).atWindow w maxLimit = .conj (ss.map (atWindow w maxLimit)) := by
  rw [atWindow, atWindowAll_eq_map]

@[simp] theorem atWindow_disj (ss : List Source) :
    (disj ss).atWindow w maxLimit = .disj (ss.map (atWindow w maxLimit)) := by
  rw [atWindow, atWindowAll_eq_map]

@[simp] theorem atWindow_filter (p : Predicate) :
    (filter p).atWindow w maxLimit = .filter (p.withLimit (w.forBackend maxLimit).limit) := by
  rw [atWindow]

@[simp] theorem atWindow_matcher (m : Matcher) : (matcher m).atWindow w maxLimit = .matcher m := by
  rw [atWindow]

/-- Another window is a harmless change of a plan. -/
theorem atWindow_eq_remake (s : Source) :
    s.atWindow w maxLimit = s.remake (fun q => .ofWindow q.predicate w maxLimit)
      (Predicate.withLimit (w.forBackend maxLimit).limit) := by
  induction s with
  | conj ss ih => rw [atWindow_conj, remake_conj, List.map_congr_left ih]
  | disj ss ih => rw [atWindow_disj, remake_disj, List.map_congr_left ih]
  | _ => simp

theorem harmless_window (w : Window) (maxLimit n : Nat) :
    Harmless (fun q => .ofWindow q.predicate w maxLimit) (Predicate.withLimit n) :=
  ⟨fun _ => rfl, fun _ _ => by simp, fun p => Predicate.cost_withLimit n p⟩

theorem readable_atWindow (s : Source) : (s.atWindow w maxLimit).readable = s.readable := by
  rw [atWindow_eq_remake, readable_remake]

/-- A plan lists the same records in every window, as long as each query is
read up to the same number. -/
theorem listing_atWindow {cap cap' : IndexQuery → Nat} (s : Source)
    (hcap : ∀ q ∈ s.queries, cap' (.ofWindow q.predicate w maxLimit) = cap q) :
    (s.atWindow w maxLimit).listing store size cap' = s.listing store size cap := by
  rw [atWindow_eq_remake]
  exact listing_remake (harmless_window w maxLimit _) s hcap

end Source

/-! ## Planning -/

namespace Planner

variable {pl : Planner} {w w' : Window}

open Source

/-- A part for another window of the whole query. -/
def Part.atWindow (pl : Planner) (w : Window) : Part → Part
  | .indexed p => .indexed p
  | .residual p => .residual (p.withLimit (Outcome.raised pl w))
  | .source s => .source (s.atWindow w pl.limits.maxLimit)

theorem query_atWindow (p : Predicate) :
    (pl.query w p).atWindow w' pl.limits.maxLimit = pl.query w' p := by
  unfold query
  rw [atWindow_indexed]
  rfl

theorem indexedOnes_atWindow (parts : List Part) :
    Part.indexedOnes (parts.map (Part.atWindow pl w)) = Part.indexedOnes parts := by
  unfold Part.indexedOnes
  rw [List.filterMap_map]
  exact List.filterMap_congr fun part _ => by cases part <;> rfl

theorem residualOnes_atWindow (parts : List Part) :
    Part.residualOnes (parts.map (Part.atWindow pl w))
      = (Part.residualOnes parts).map (Predicate.withLimit (Outcome.raised pl w)) := by
  unfold Part.residualOnes
  rw [List.filterMap_map, List.map_filterMap]
  exact List.filterMap_congr fun part _ => by cases part <;> rfl

theorem withoutLimits_atWindow (parts : List Part) :
    Part.withoutLimits (parts.map (Part.atWindow pl w))
      = (Part.withoutLimits parts).map (Part.atWindow pl w) := by
  have hlimit : Part.isLimit ∘ Part.atWindow pl w = Part.isLimit := by
    funext part
    cases part with
    | residual p => exact Predicate.isLimit_withLimit _ p
    | _ => rfl
  have hnot : (fun part : Part => !part.isLimit) ∘ Part.atWindow pl w
      = fun part : Part => !part.isLimit :=
    congrArg (Bool.not ∘ ·) hlimit
  unfold Part.withoutLimits
  rw [List.all_map, hlimit, List.filter_map, hnot]
  split <;> rfl

theorem residualNode_atWindow {node : List Predicate → Predicate} {n : Nat}
    (hnode : ∀ ps, (node ps).withLimit n = node (ps.map (Predicate.withLimit n)))
    (ps : List Predicate) :
    Outcome.residualNode node (ps.map (Predicate.withLimit n))
      = (Outcome.residualNode node ps).withLimit n := by
  rcases ps with _ | ⟨p, _ | ⟨p', ps⟩⟩
  · exact (hnode []).symm
  · rfl
  · exact (hnode (p :: p' :: ps)).symm

theorem underScope_atWindow {p : Predicate} {s : Source}
    (h : Outcome.underScope pl w p = .ok s) :
    Outcome.underScope pl w' (p.withLimit (Outcome.raised pl w'))
      = .ok (s.atWindow w' pl.limits.maxLimit) := by
  obtain ⟨scope, hsome, hscope, rfl⟩ := underScope_eq_ok_iff.mp h
  refine underScope_eq_ok_iff.mpr ⟨scope, hsome, hscope, ?_⟩
  rw [atWindow_conj, List.map_cons, List.map_cons, List.map_nil, query_atWindow, atWindow_filter]
  rfl

theorem merged?_atWindow (normal : List Predicate → Predicate) (parts : List Part) :
    Outcome.merged? pl w' normal (parts.map (Part.atWindow pl w'))
      = (Outcome.merged? pl w normal parts).map (Source.atWindow w' pl.limits.maxLimit) := by
  unfold Outcome.merged?
  rw [indexedOnes_atWindow]
  cases Part.indexedOnes parts with
  | nil => rfl
  | cons p ps => exact congrArg some (query_atWindow _).symm

theorem conjSource_atWindow (parts : List Part) :
    pl.conjSource w' (parts.map (Part.atWindow pl w'))
      = (pl.conjSource w parts).atWindow w' pl.limits.maxLimit := by
  rw [conjSource_eq, conjSource_eq, atWindow_conj, List.map_append,
    merged?_atWindow (w := w), List.filterMap_map, List.map_filterMap]
  refine congrArg Source.conj (congrArg₂ (· ++ ·) ?_ (List.filterMap_congr fun part _ => ?_))
  · cases Outcome.merged? pl w .and parts <;> rfl
  · cases part with
    | indexed p => rfl
    | residual p => exact congrArg some (atWindow_filter _).symm
    | source s => rfl

theorem disjChildren_atWindow {merged? : Option Source} {parts : List Part} {ss : List Source}
    (h : Outcome.disjChildren pl w merged? parts = .ok ss) :
    Outcome.disjChildren pl w' (merged?.map (Source.atWindow w' pl.limits.maxLimit))
        (parts.map (Part.atWindow pl w'))
      = .ok (ss.map (Source.atWindow w' pl.limits.maxLimit)) := by
  induction parts generalizing merged? ss with
  | nil =>
    obtain rfl := Except.ok.inj h
    rfl
  | cons part parts ih =>
    cases part with
    | indexed p =>
      obtain ⟨ss', hss, h⟩ := bind_eq_ok_iff.mp h
      obtain rfl := Except.ok.inj h
      refine bind_eq_ok_iff.mpr ⟨_, ih hss, ?_⟩
      rw [List.map_append]
      cases merged? <;> rfl
    | residual p =>
      obtain ⟨s, hs, h⟩ := bind_eq_ok_iff.mp h
      obtain ⟨ss', hss, h⟩ := bind_eq_ok_iff.mp h
      obtain rfl := Except.ok.inj h
      exact bind_eq_ok_iff.mpr ⟨_, underScope_atWindow hs, bind_eq_ok_iff.mpr ⟨_, ih hss, rfl⟩⟩
    | source s =>
      obtain ⟨ss', hss, h⟩ := bind_eq_ok_iff.mp h
      obtain rfl := Except.ok.inj h
      exact bind_eq_ok_iff.mpr ⟨_, ih hss, rfl⟩

theorem disjSource_atWindow {parts : List Part} {s : Source}
    (h : Outcome.disjSource pl w parts = .ok s) :
    Outcome.disjSource pl w' (parts.map (Part.atWindow pl w'))
      = .ok (s.atWindow w' pl.limits.maxLimit) := by
  obtain ⟨ss, hss, hr, rfl⟩ := disjSource_eq_ok_iff.mp h
  refine disjSource_eq_ok_iff.mpr ⟨_, ?_, ?_, atWindow_disj ss⟩
  · rw [merged?_atWindow (w := w)]
    exact disjChildren_atWindow hss
  · rw [List.forall_mem_map]
    exact fun s hs => (readable_atWindow s).trans (hr s hs)

theorem combine_atWindow {node normal : List Predicate → Predicate}
    {mixed mixed' : List Part → Except Fault Source} {children : List Predicate}
    {parts : List Part} {q : Part}
    (hnode : ∀ n ps, (node ps).withLimit n = node (ps.map (Predicate.withLimit n)))
    (hmixed : ∀ s, mixed parts = .ok s → mixed' (parts.map (Part.atWindow pl w'))
      = .ok (s.atWindow w' pl.limits.maxLimit))
    (h : Outcome.combine node normal mixed children parts = .ok q) :
    Outcome.combine node normal mixed' children (parts.map (Part.atWindow pl w'))
      = .ok (q.atWindow pl w') := by
  unfold Outcome.combine at h ⊢
  dsimp only at h ⊢
  rw [indexedOnes_atWindow, residualOnes_atWindow, List.length_map, List.length_map,
    residualNode_atWindow (hnode _)]
  by_cases hindexed : (Part.indexedOnes parts).length = parts.length
  · rw [if_pos hindexed] at h ⊢
    obtain rfl := Except.ok.inj h
    rfl
  · rw [if_neg hindexed] at h ⊢
    by_cases hresidual : (Part.residualOnes parts).length = parts.length
    · rw [if_pos hresidual] at h ⊢
      obtain rfl := Except.ok.inj h
      rfl
    · rw [if_neg hresidual] at h ⊢
      obtain ⟨s, hs, rfl⟩ := map_eq_ok_iff.mp h
      exact map_eq_ok_iff.mpr ⟨_, hmixed s hs, rfl⟩

/-- A subtree becomes the same part for every window. -/
theorem part_atWindow {p : Predicate} {q : Part} (h : Outcome.part pl w p = .ok q) :
    Outcome.part pl w' p = .ok (q.atWindow pl w') := by
  have hall {ps : List Predicate} {parts : List Part}
      (h : List.Forall₂ (fun p q => Outcome.part pl w' p = .ok (q.atWindow pl w')) ps parts) :
      Outcome.partAll pl w' ps = .ok (parts.map (Part.atWindow pl w')) :=
    partAll_eq_ok_iff.mpr (List.forall₂_map_right_iff.mpr h)
  refine part_induction (motive := fun p q => Outcome.part pl w' p = .ok (q.atWindow pl w'))
    ?pushed ?kept ?neg ?conj ?disj h
  case pushed =>
    intro l hl
    rw [Outcome.part, if_pos hl]
    rfl
  case kept =>
    intro l hl
    rw [Outcome.part, if_neg (by simp [hl]), Part.atWindow, Predicate.withLimit_withLimit]
  case neg =>
    intro p
    rw [Outcome.part, Part.atWindow, Predicate.withLimit_neg, Predicate.withLimit_withLimit]
  case conj =>
    intro ps parts q hparts hq
    rw [Outcome.part]
    refine bind_eq_ok_iff.mpr ⟨_, hall hparts, ?_⟩
    rw [withoutLimits_atWindow]
    refine combine_atWindow Predicate.withLimit_conj (fun s hs => ?_) hq
    obtain rfl := Except.ok.inj hs
    exact congrArg Except.ok (conjSource_atWindow _)
  case disj =>
    intro ps parts q hparts hq
    rw [Outcome.part]
    refine bind_eq_ok_iff.mpr ⟨_, hall hparts, ?_⟩
    exact combine_atWindow Predicate.withLimit_disj (fun s hs => disjSource_atWindow hs) hq

/-- A query has the same plan for every window. -/
theorem root_atWindow (w' : Window) {p : Predicate} {s : Source} (h : Outcome.root pl w p = .ok s) :
    Outcome.root pl w' p = .ok (s.atWindow w' pl.limits.maxLimit) := by
  obtain ⟨q, hq, hs⟩ := bind_eq_ok_iff.mp h
  refine bind_eq_ok_iff.mpr ⟨_, part_atWindow hq, ?_⟩
  cases q with
  | indexed p =>
    obtain rfl := Except.ok.inj hs
    exact congrArg Except.ok (query_atWindow p).symm
  | residual p => exact underScope_atWindow hs
  | source s =>
    obtain rfl := Except.ok.inj hs
    rfl

end Planner

end ReviewSearch
