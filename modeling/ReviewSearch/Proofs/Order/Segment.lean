/-
ReviewSearch.Proofs.Order.Segment — stretches of a list in order.

In a list that is in order, what lies between two ends is found by going
to the first element that is not before the stretch and stopping at the
first behind it: that misses nothing, if the elements wanted lie between
two ends (`Segment`). The lists that begin with a given one do, in the
lexicographic order: they are neighbours, and none of them is smaller than
their common beginning (`isPrefix_of_not_lt_of_lt`).
-/
namespace ReviewSearch.Order

variable {α : Type} {r : α → α → Prop} {before wanted : α → Bool} {xs : List α}

/-! ## Found by their ends -/

/-- What is wanted lies between two ends of an order: an element is before
all of it or not, and of those that are not, each stands in front of the
ones that are not wanted. -/
structure Segment (r : α → α → Prop) (before wanted : α → Bool) : Prop where
  before_of_rel {a b : α} (h : r a b) (hb : before b = true) : before a = true
  not_before {a : α} (h : wanted a = true) : before a = false
  wanted_of_rel {a b : α} (h : r a b) (ha : before a = false) (hb : wanted b = true) :
    wanted a = true

/-- What lies before all that is wanted is the front of the list. -/
theorem dropWhile_eq_filter (hxs : xs.Pairwise fun a b => before b = true → before a = true) :
    xs.dropWhile before = xs.filter fun a => !before a := by
  induction xs with
  | nil => rfl
  | cons x xs ih =>
    obtain ⟨hx, hxs⟩ := List.pairwise_cons.mp hxs
    by_cases hbefore : before x = true
    · rw [List.dropWhile_cons_of_pos hbefore, List.filter_cons_of_neg (by simpa using hbefore),
        ih hxs]
    · have hall : ∀ a ∈ x :: xs, (!before a) = true := by
        intro a ha
        rcases List.mem_cons.mp ha with rfl | ha
        · simpa using hbefore
        · simpa using fun h => hbefore (hx a ha h)
      rw [List.dropWhile_cons_of_neg hbefore, List.filter_eq_self.mpr hall]

/-- The front of a list is all that is wanted of it, if nothing wanted
stands behind what is not. -/
theorem takeWhile_eq_filter (hxs : xs.Pairwise fun a b => wanted b = true → wanted a = true) :
    xs.takeWhile wanted = xs.filter wanted := by
  induction xs with
  | nil => rfl
  | cons x xs ih =>
    obtain ⟨hx, hxs⟩ := List.pairwise_cons.mp hxs
    by_cases hwanted : wanted x = true
    · rw [List.takeWhile_cons_of_pos hwanted, List.filter_cons_of_pos hwanted, ih hxs]
    · have hnone : ∀ a ∈ x :: xs, ¬wanted a = true := by
        intro a ha
        rcases List.mem_cons.mp ha with rfl | ha
        · exact hwanted
        · exact fun h => hwanted (hx a ha h)
      rw [List.takeWhile_cons_of_neg hwanted, List.filter_eq_nil_iff.mpr hnone]

/-- Going to the start of a segment and stopping behind it finds all of
it. -/
theorem Segment.takeWhile_dropWhile (h : Segment r before wanted) (hxs : xs.Pairwise r) :
    (xs.dropWhile before).takeWhile wanted = xs.filter wanted := by
  have hstart : xs.dropWhile before = xs.filter fun a => !before a :=
    dropWhile_eq_filter (hxs.imp h.before_of_rel)
  have hrest : (xs.filter fun a => !before a).Pairwise
      fun a b => wanted b = true → wanted a = true := by
    refine (hxs.filter _).imp_of_mem fun ha _ hr => ?_
    exact h.wanted_of_rel hr (by simpa using (List.mem_filter.mp ha).2)
  calc (xs.dropWhile before).takeWhile wanted
      = (xs.filter fun a => !before a).filter wanted := by rw [hstart, takeWhile_eq_filter hrest]
    _ = xs.filter fun a => wanted a && !before a := List.filter_filter
    _ = xs.filter wanted := List.filter_congr fun a _ => by
      cases hwanted : wanted a with
      | false => rfl
      | true => simp [h.not_before hwanted]

/-! ## Common beginnings -/

/-- A list that is not smaller than a beginning, but smaller than a list
that begins with it, begins with it too. -/
theorem isPrefix_of_not_lt_of_lt {β : Type} [LT β] {stem as bs : List β} (hstem : ¬as < stem)
    (hlt : as < bs) (hbs : stem <+: bs) : stem <+: as := by
  induction stem generalizing as bs with
  | nil => exact List.nil_prefix
  | cons c stem ih =>
    obtain ⟨bs, rfl⟩ := hbs
    cases as with
    | nil => exact absurd (List.nil_lt_cons c stem) hstem
    | cons a as =>
      rw [List.cons_lt_cons_iff, not_or] at hstem
      rw [List.cons_append, List.cons_lt_cons_iff] at hlt
      obtain ⟨rfl, hrest⟩ := hlt.resolve_left hstem.1
      refine (List.prefix_cons_inj a).mpr (ih (fun h => ?_) hrest (List.prefix_append stem bs))
      exact hstem.2 ⟨rfl, h⟩

end ReviewSearch.Order
