/-
ReviewSearch.Order.Stable — stable sorting by a key.

`sortBy before` orders a list so that no element stands in front of one
that goes before it, and keeps the given order of the others: elements
with equal keys stay as they stood. It recurses on the list, so it
computes in closed proofs.
-/
namespace ReviewSearch.Order

variable {α : Type}

/-- Puts `x` in front of the first element that does not go before it. -/
def insertBy (before : α → α → Bool) (x : α) : List α → List α
  | [] => [x]
  | y :: ys => if before y x then y :: insertBy before x ys else x :: y :: ys

/-- Stable sorting: `before a b` says that `a` must stand in front of
`b`. -/
def sortBy (before : α → α → Bool) : List α → List α
  | [] => []
  | x :: xs => insertBy before x (sortBy before xs)

/-- Stable sorting by a natural key, smallest first. -/
def sortByKey (key : α → Nat) (xs : List α) : List α :=
  sortBy (fun a b => decide (key a < key b)) xs

theorem insertBy_perm (before : α → α → Bool) (x : α) (xs : List α) :
    (insertBy before x xs).Perm (x :: xs) := by
  induction xs with
  | nil => exact List.Perm.refl _
  | cons y ys ih =>
    unfold insertBy
    split
    · exact (ih.cons y).trans (List.Perm.swap x y ys)
    · exact List.Perm.refl _

theorem sortBy_perm (before : α → α → Bool) (xs : List α) : (sortBy before xs).Perm xs := by
  induction xs with
  | nil => exact List.Perm.refl _
  | cons x xs ih => exact (insertBy_perm before x _).trans (ih.cons x)

theorem mem_sortBy {before : α → α → Bool} {xs : List α} {x : α} :
    x ∈ sortBy before xs ↔ x ∈ xs :=
  (sortBy_perm before xs).mem_iff

/-- A change to the elements that leaves their order may be made before or
after sorting. -/
theorem insertBy_map {β : Type} {before : α → α → Bool} {before' : β → β → Bool} {f : α → β}
    (h : ∀ a b, before' (f a) (f b) = before a b) (x : α) (xs : List α) :
    insertBy before' (f x) (xs.map f) = (insertBy before x xs).map f := by
  induction xs with
  | nil => rfl
  | cons y ys ih =>
    rw [List.map_cons, insertBy, insertBy, h]
    split
    · rw [ih, List.map_cons]
    · rfl

theorem sortBy_map {β : Type} (before : α → α → Bool) {before' : β → β → Bool} {f : α → β}
    (h : ∀ a b, before' (f a) (f b) = before a b) (xs : List α) :
    sortBy before' (xs.map f) = (sortBy before xs).map f := by
  induction xs with
  | nil => rfl
  | cons x xs ih => rw [List.map_cons, sortBy, ih, insertBy_map h, sortBy]

end ReviewSearch.Order
