/-
ReviewSearch.Proofs.Order.Distinct — first occurrences.

`distinctBy key seen` keeps the first item of each key that has not been
seen. What it keeps has different keys (`nodup_map_distinctBy`) and
misses none (`exists_mem_distinctBy`).

It reads its list from the front: a longer list starts with what a
shorter one gives (`distinctBy_front`). So two lists with a common front
of `n` different keys give the same first `n` items, whatever follows
(`take_distinctBy`), and items put in front of the common front change
nothing about that (`length_distinctBy_append`).
-/
import Mathlib.Data.List.Nodup
import Mathlib.Data.List.Perm.Subperm

namespace ReviewSearch.Order

variable {α : Type} {key : α → Nat} {seen : List Nat} {xs ys : List α}

/-- The first items of each key that has not been seen. -/
def distinctBy (key : α → Nat) : List Nat → List α → List α
  | _, [] => []
  | seen, x :: xs =>
    if seen.contains (key x) then distinctBy key seen xs
    else x :: distinctBy key (key x :: seen) xs

theorem distinctBy_cons_of_mem {x : α} (h : key x ∈ seen) :
    distinctBy key seen (x :: xs) = distinctBy key seen xs := by
  simp [distinctBy, h]

theorem distinctBy_cons_of_not_mem {x : α} (h : key x ∉ seen) :
    distinctBy key seen (x :: xs) = x :: distinctBy key (key x :: seen) xs := by
  simp [distinctBy, h]

/-! ## What is kept -/

theorem mem_of_mem_distinctBy {x : α} (h : x ∈ distinctBy key seen xs) :
    x ∈ xs ∧ key x ∉ seen := by
  induction xs generalizing seen with
  | nil => simp [distinctBy] at h
  | cons y ys ih =>
    by_cases hy : key y ∈ seen
    · rw [distinctBy_cons_of_mem hy] at h
      obtain ⟨hmem, hnew⟩ := ih h
      exact ⟨List.mem_cons_of_mem _ hmem, hnew⟩
    · rw [distinctBy_cons_of_not_mem hy] at h
      rcases List.mem_cons.mp h with rfl | h
      · exact ⟨List.mem_cons_self, hy⟩
      · obtain ⟨hmem, hnew⟩ := ih h
        exact ⟨List.mem_cons_of_mem _ hmem, fun hs => hnew (List.mem_cons_of_mem _ hs)⟩

/-- No key is kept twice. -/
theorem nodup_map_distinctBy (key : α → Nat) (seen : List Nat) (xs : List α) :
    ((distinctBy key seen xs).map key).Nodup := by
  induction xs generalizing seen with
  | nil => simp [distinctBy]
  | cons x xs ih =>
    by_cases hx : key x ∈ seen
    · rw [distinctBy_cons_of_mem hx]
      exact ih seen
    · rw [distinctBy_cons_of_not_mem hx, List.map_cons, List.nodup_cons]
      refine ⟨?_, ih _⟩
      intro hmem
      obtain ⟨y, hy, hkey⟩ := List.mem_map.mp hmem
      exact (mem_of_mem_distinctBy hy).2 (by rw [hkey]; exact List.mem_cons_self)

/-- No new key is missed. -/
theorem exists_mem_distinctBy {x : α} (hx : x ∈ xs) (hnew : key x ∉ seen) :
    ∃ y ∈ distinctBy key seen xs, key y = key x := by
  induction xs generalizing seen with
  | nil => simp at hx
  | cons z zs ih =>
    by_cases hz : key z ∈ seen
    · rw [distinctBy_cons_of_mem hz]
      have hne : x ≠ z := fun h => hnew (h ▸ hz)
      exact ih ((List.mem_cons.mp hx).resolve_left hne) hnew
    · rw [distinctBy_cons_of_not_mem hz]
      by_cases hkey : key z = key x
      · exact ⟨z, List.mem_cons_self, hkey⟩
      · have hne : x ≠ z := fun h => hkey (h ▸ rfl)
        have hnew' : key x ∉ key z :: seen := by
          simp only [List.mem_cons, not_or]
          exact ⟨fun h => hkey h.symm, hnew⟩
        obtain ⟨y, hy, hyx⟩ := ih ((List.mem_cons.mp hx).resolve_left hne) hnew'
        exact ⟨y, List.mem_cons_of_mem _ hy, hyx⟩

theorem distinctBy_of_nodup (hnodup : (xs.map key).Nodup) (hnew : ∀ x ∈ xs, key x ∉ seen) :
    distinctBy key seen xs = xs := by
  induction xs generalizing seen with
  | nil => rfl
  | cons x xs ih =>
    obtain ⟨hx, hxs⟩ := List.nodup_cons.mp hnodup
    rw [distinctBy_cons_of_not_mem (hnew x List.mem_cons_self)]
    refine congrArg _ (ih hxs ?_)
    intro y hy hmem
    rcases List.mem_cons.mp hmem with h | h
    · exact hx (h ▸ List.mem_map_of_mem hy)
    · exact hnew y (List.mem_cons_of_mem _ hy) h

/-! ## Fronts -/

theorem distinctBy_front (h : xs <+: ys) : distinctBy key seen xs <+: distinctBy key seen ys := by
  obtain ⟨zs, rfl⟩ := h
  induction xs generalizing seen with
  | nil => exact List.nil_prefix
  | cons x xs ih =>
    by_cases hx : key x ∈ seen
    · rw [List.cons_append, distinctBy_cons_of_mem hx, distinctBy_cons_of_mem hx]
      exact ih
    · rw [List.cons_append, distinctBy_cons_of_not_mem hx, distinctBy_cons_of_not_mem hx]
      exact (List.prefix_cons_inj x).mpr ih

/-- More items in front leave no fewer keys. -/
theorem length_distinctBy_append (key : α → Nat) (seen : List Nat) (xs ys : List α) :
    (distinctBy key seen ys).length ≤ (distinctBy key seen (xs ++ ys)).length := by
  have hsub : (distinctBy key seen ys).map key ⊆ (distinctBy key seen (xs ++ ys)).map key := by
    intro k hk
    obtain ⟨y, hy, rfl⟩ := List.mem_map.mp hk
    obtain ⟨hmem, hnew⟩ := mem_of_mem_distinctBy hy
    obtain ⟨z, hz, hkey⟩ := exists_mem_distinctBy (List.mem_append_right xs hmem) hnew
    exact List.mem_map.mpr ⟨z, hz, hkey⟩
  simpa using ((nodup_map_distinctBy key seen ys).subperm hsub).length_le

theorem take_eq_of_front {n : Nat} (h : xs <+: ys) (hn : n ≤ xs.length) :
    ys.take n = xs.take n := by
  obtain ⟨zs, rfl⟩ := h
  exact List.take_append_of_le_length hn

/-- A common front of `n` different keys settles the first `n` items. -/
theorem take_distinctBy {n : Nat} (front : List α) (hxs : front <+: xs) (hys : front <+: ys)
    (hn : n ≤ (distinctBy key seen front).length) :
    (distinctBy key seen xs).take n = (distinctBy key seen ys).take n := by
  rw [take_eq_of_front (distinctBy_front hxs) hn, take_eq_of_front (distinctBy_front hys) hn]

/-- Lists that agree in their first `n` items, put one behind the other,
agree in their first `n` different ones: either all of a list is among the
items they agree in, or these alone are enough. -/
theorem take_distinctBy_flatMap {β : Type} {n : Nat} {f g : β → List α} {ls : List β}
    (front : List α) (h : ∀ l ∈ ls, (f l).take n = (g l).take n)
    (hnodup : ∀ l ∈ ls, ((f l).map key).Nodup) :
    (distinctBy key [] (front ++ ls.flatMap f)).take n
      = (distinctBy key [] (front ++ ls.flatMap g)).take n := by
  induction ls generalizing front with
  | nil => rfl
  | cons l ls ih =>
    have hl := h l List.mem_cons_self
    rw [List.flatMap_cons, List.flatMap_cons]
    by_cases hshort : (f l).length < n
    · have heq : f l = g l := by
        have hlen := congrArg List.length hl
        rw [List.length_take, List.length_take] at hlen
        rwa [List.take_of_length_le (by omega), List.take_of_length_le (by omega)] at hl
      rw [← heq, ← List.append_assoc, ← List.append_assoc]
      exact ih _ (fun l' hl' => h l' (List.mem_cons_of_mem _ hl'))
        fun l' hl' => hnodup l' (List.mem_cons_of_mem _ hl')
    · have hfirst : ((f l).take n).length = n := by
        rw [List.length_take]
        omega
      have hkeys : (((f l).take n).map key).Nodup :=
        (hnodup l List.mem_cons_self).sublist ((List.take_sublist n (f l)).map _)
      have hfront (xs ys : List α) : front ++ xs.take n <+: front ++ (xs ++ ys) := by
        rw [List.prefix_append_right_inj]
        exact List.IsPrefix.trans (List.take_prefix ..) (List.prefix_append ..)
      refine take_distinctBy (front ++ (f l).take n) (hfront _ _) ?_ ?_
      · rw [hl]
        exact hfront _ _
      · calc n = (distinctBy key [] ((f l).take n)).length := by
              rw [distinctBy_of_nodup hkeys (by simp), hfirst]
          _ ≤ _ := length_distinctBy_append key [] front _

end ReviewSearch.Order
