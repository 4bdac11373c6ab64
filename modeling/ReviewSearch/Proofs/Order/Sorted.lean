/-
ReviewSearch.Proofs.Order.Sorted — what stable sorting comes to.

An order `before` may leave elements undecided, of which neither goes
before the other; if that is so of two neighbours in a chain it must be so
of its ends (`Weak`). Sorting then gives a list in which no element stands
behind one that it goes before (`pairwise_sortBy`), and undecided elements
keep the places they had to each other (`filter_sortBy`).
-/
import Mathlib.Data.String.Basic
import ReviewSearch.Order.Stable

namespace ReviewSearch.Order

variable {α : Type} {before : α → α → Bool} {p : α → Bool}

/-- No two elements go before each other, and what does not go before what
does not go before a third does not go before that. -/
structure Weak (before : α → α → Bool) : Prop where
  asymm {a b : α} (h : before a b = true) : before b a = false
  trans {a b c : α} (hab : before a b = false) (hbc : before b c = false) : before a c = false

/-- Elements are ordered by a text that they carry. -/
theorem weak_of_text (key : α → String) : Weak fun a b => decide (key a < key b) where
  asymm h := decide_eq_false (String.lt_asymm (of_decide_eq_true h))
  trans hab hbc := by
    rw [decide_eq_false_iff_not, String.not_lt] at hab hbc ⊢
    exact String.le_trans hbc hab

/-- Elements are ordered by a number that they carry. -/
theorem weak_of_key (key : α → Nat) : Weak fun a b => decide (key a < key b) where
  asymm h := decide_eq_false (Nat.lt_asymm (of_decide_eq_true h))
  trans hab hbc := by
    rw [decide_eq_false_iff_not, Nat.not_lt] at hab hbc ⊢
    exact Nat.le_trans hbc hab

/-! ## In order -/

theorem mem_insertBy {x y : α} {xs : List α} :
    y ∈ insertBy before x xs ↔ y = x ∨ y ∈ xs := by
  rw [(insertBy_perm before x xs).mem_iff, List.mem_cons]

theorem pairwise_insertBy (h : Weak before) (x : α) {xs : List α}
    (hxs : xs.Pairwise fun a b => before b a = false) :
    (insertBy before x xs).Pairwise fun a b => before b a = false := by
  induction xs with
  | nil => exact List.pairwise_singleton _ x
  | cons y ys ih =>
    obtain ⟨hy, hys⟩ := List.pairwise_cons.mp hxs
    rw [insertBy]
    split
    · next hyx =>
      refine List.pairwise_cons.mpr ⟨fun z hz => ?_, ih hys⟩
      rcases mem_insertBy.mp hz with rfl | hz
      · exact h.asymm hyx
      · exact hy z hz
    · next hyx =>
      have hfirst : before y x = false := Bool.eq_false_of_not_eq_true hyx
      refine List.pairwise_cons.mpr ⟨fun z hz => ?_, hxs⟩
      rcases List.mem_cons.mp hz with rfl | hz
      · exact hfirst
      · exact h.trans (hy z hz) hfirst

/-- In a sorted list nothing stands behind what it goes before. -/
theorem pairwise_sortBy (h : Weak before) (xs : List α) :
    (sortBy before xs).Pairwise fun a b => before b a = false := by
  induction xs with
  | nil => exact .nil
  | cons x xs ih => exact pairwise_insertBy h x ih

/-! ## Stable -/

/-- Of elements that are undecided among each other, an inserted one comes
to stand in front. -/
theorem filter_insertBy (hp : ∀ a b, p a = true → p b = true → before a b = false) (x : α)
    (xs : List α) : (insertBy before x xs).filter p = (x :: xs).filter p := by
  induction xs with
  | nil => rfl
  | cons y ys ih =>
    rw [insertBy]
    split
    · next hyx =>
      rw [List.filter_cons, ih]
      by_cases hx : p x = true
      · -- what goes before `x` is not kept beside it
        have hy : ¬p y = true := fun hy => by simp [hp y x hy hx] at hyx
        simp [hx, hy]
      · simp [List.filter_cons, hx]
    · rfl

/-- Elements that are undecided among each other stand as they were
given. -/
theorem filter_sortBy (hp : ∀ a b, p a = true → p b = true → before a b = false)
    (xs : List α) : (sortBy before xs).filter p = xs.filter p := by
  induction xs with
  | nil => rfl
  | cons x xs ih => rw [sortBy, filter_insertBy hp, List.filter_cons, ih, List.filter_cons]

end ReviewSearch.Order
