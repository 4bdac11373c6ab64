/-
ReviewSearch.Order.Table — tables kept in the order of their keys.

A table is a list of entries in strictly ascending order of their keys.
`put` keeps it one: a new key goes to its place and a known key gets the
new value. Text keys are ordered by code point, which is also the order
of their UTF-8 octets.
-/
namespace ReviewSearch

/-- Entries in ascending order of their keys, one for each key. -/
abbrev Table (κ ν : Type) : Type := List (κ × ν)

namespace Table

variable {κ ν : Type} [LT κ] [DecidableLT κ] [DecidableEq κ]

/-- Adds an entry, or replaces the value of a known key. -/
def put (k : κ) (v : ν) : Table κ ν → Table κ ν
  | [] => [(k, v)]
  | (k', v') :: t =>
    if k < k' then (k, v) :: (k', v') :: t
    else if k = k' then (k, v) :: t
    else (k', v') :: put k v t

/-- The value of a key. -/
def get? (k : κ) : Table κ ν → Option ν
  | [] => none
  | (k', v) :: t => if k = k' then some v else get? k t

/-- The table without a key. -/
def erase (k : κ) (t : Table κ ν) : Table κ ν :=
  t.filter fun e => decide (e.1 ≠ k)

/-- Changes the value of a key, which starts as `start` if it is new. -/
def update (k : κ) (start : ν) (f : ν → ν) (t : Table κ ν) : Table κ ν :=
  put k (f ((get? k t).getD start)) t

/-- The table of a list of entries; the last value of a key wins. -/
def ofList (es : List (κ × ν)) : Table κ ν :=
  es.foldl (fun t e => put e.1 e.2 t) []

def keys (t : Table κ ν) : List κ :=
  t.map Prod.fst

def values (t : Table κ ν) : List ν :=
  t.map Prod.snd

/-- The invariant: keys ascend strictly. -/
def Ordered (t : Table κ ν) : Prop :=
  t.Pairwise fun a b => a.1 < b.1

omit [LT κ] [DecidableLT κ] in
@[simp] theorem get?_nil (k : κ) : get? k ([] : Table κ ν) = none := rfl

/-- Putting a key sets its value. -/
theorem get?_put_self (k : κ) (v : ν) (t : Table κ ν) : get? k (put k v t) = some v := by
  induction t with
  | nil => simp [put, get?]
  | cons e t ih =>
    obtain ⟨k', v'⟩ := e
    unfold put
    split
    · simp [get?]
    · split
      · simp [get?]
      · next h => simp [get?, h, ih]

/-- Putting a key leaves the others alone. -/
theorem get?_put_of_ne {j k : κ} (h : j ≠ k) (v : ν) (t : Table κ ν) :
    get? j (put k v t) = get? j t := by
  induction t with
  | nil => simp [put, get?, h]
  | cons e t ih =>
    obtain ⟨k', v'⟩ := e
    unfold put
    split
    · simp [get?, h]
    · split
      · next hk => subst hk; simp [get?, h]
      · simp [get?, ih]

omit [LT κ] [DecidableLT κ] in
/-- Erasing a key unsets it and leaves the others alone. -/
theorem get?_erase (j k : κ) (t : Table κ ν) :
    get? j (erase k t) = if j = k then none else get? j t := by
  induction t with
  | nil => simp [erase]
  | cons e t ih =>
    obtain ⟨k', v'⟩ := e
    unfold erase at ih ⊢
    by_cases hk : k' = k
    · subst hk
      rw [List.filter_cons_of_neg (by simp), ih, get?]
      split <;> simp_all
    · rw [List.filter_cons_of_pos (by simpa using hk), get?, ih, get?]
      by_cases hj : j = k'
      · rw [if_pos hj, if_neg (hj ▸ hk), if_pos hj]
      · rw [if_neg hj, if_neg hj]

/-! ## The invariant -/

theorem mem_of_mem_put {k : κ} {v : ν} {t : Table κ ν} {e : κ × ν} (h : e ∈ put k v t) :
    e = (k, v) ∨ e ∈ t := by
  induction t with
  | nil => simpa [put] using h
  | cons e' t ih =>
    obtain ⟨k', v'⟩ := e'
    unfold put at h
    split at h
    · simpa using h
    · split at h
      · simp only [List.mem_cons] at h ⊢
        rcases h with h | h
        · exact .inl h
        · exact .inr (.inr h)
      · simp only [List.mem_cons] at h ⊢
        rcases h with h | h
        · exact .inr (.inl h)
        · rcases ih h with h | h
          · exact .inl h
          · exact .inr (.inr h)

theorem Ordered.put [Trans (α := κ) (· < ·) (· < ·) (· < ·)] [Std.Trichotomous (α := κ) (· < ·)]
    {t : Table κ ν} (ht : t.Ordered) (k : κ) (v : ν) : (Table.put k v t).Ordered := by
  induction t with
  | nil => simp [Table.put, Ordered]
  | cons e t ih =>
    obtain ⟨k', v'⟩ := e
    have htail : Ordered t := (List.pairwise_cons.mp ht).2
    have hhead : ∀ e ∈ t, k' < e.1 := (List.pairwise_cons.mp ht).1
    unfold Table.put
    split
    · next hlt =>
      refine List.pairwise_cons.mpr ⟨?_, ht⟩
      intro e he
      rcases List.mem_cons.mp he with rfl | he
      · exact hlt
      · exact Trans.trans hlt (hhead e he)
    · next hlt =>
      split
      · next heq => exact List.pairwise_cons.mpr ⟨heq ▸ hhead, htail⟩
      · next hne =>
        have hgt : k' < k := by
          rcases Std.Trichotomous.rel_or_eq_or_rel_swap (r := (· < ·)) (a := k) (b := k')
            with h | h | h
          · exact absurd h hlt
          · exact absurd h hne
          · exact h
        refine List.pairwise_cons.mpr ⟨?_, ih htail⟩
        intro e he
        rcases mem_of_mem_put he with rfl | he
        · exact hgt
        · exact hhead e he

omit [DecidableLT κ] in
/-- A table holds one value of a key. -/
theorem Ordered.get?_eq_some_iff [Std.Irrefl (α := κ) (· < ·)] {t : Table κ ν} (ht : t.Ordered)
    {k : κ} {v : ν} : get? k t = some v ↔ (k, v) ∈ t := by
  induction t with
  | nil => simp [get?]
  | cons e t ih =>
    obtain ⟨k', v'⟩ := e
    obtain ⟨hhead, htail⟩ := List.pairwise_cons.mp ht
    rw [get?, List.mem_cons]
    split
    · next heq =>
      subst heq
      constructor
      · exact fun h => .inl (by rw [Option.some.inj h])
      · rintro (h | h)
        · rw [(Prod.mk.inj h).2]
        · exact absurd (hhead _ h) (Std.Irrefl.irrefl k)
    · next hne =>
      rw [ih htail]
      exact ⟨.inr, fun h => h.resolve_left fun h => hne (Prod.mk.inj h).1⟩

omit [LT κ] [DecidableLT κ] in
theorem mem_of_get?_eq_some {k : κ} {v : ν} {t : Table κ ν} (h : get? k t = some v) :
    (k, v) ∈ t := by
  induction t with
  | nil => cases h
  | cons e t ih =>
    obtain ⟨k', v'⟩ := e
    rw [get?] at h
    split at h
    · next hk =>
      cases h
      exact hk ▸ List.mem_cons_self
    · exact List.mem_cons_of_mem _ (ih h)

theorem mem_of_mem_foldl_put {es : List (κ × ν)} {t : Table κ ν} {e : κ × ν}
    (h : e ∈ es.foldl (fun t e => put e.1 e.2 t) t) : e ∈ t ∨ e ∈ es := by
  induction es generalizing t with
  | nil => exact .inl h
  | cons e' es ih =>
    rcases ih h with h | h
    · rcases mem_of_mem_put h with rfl | h
      · exact .inr List.mem_cons_self
      · exact .inl h
    · exact .inr (List.mem_cons_of_mem _ h)

/-- The table of a list holds nothing else. -/
theorem mem_of_mem_ofList {es : List (κ × ν)} {e : κ × ν} (h : e ∈ ofList es) : e ∈ es :=
  (mem_of_mem_foldl_put h).resolve_left List.not_mem_nil

theorem ordered_ofList [Trans (α := κ) (· < ·) (· < ·) (· < ·)]
    [Std.Trichotomous (α := κ) (· < ·)] (es : List (κ × ν)) : (ofList es).Ordered := by
  have hfrom (t : Table κ ν) (ht : t.Ordered) :
      (es.foldl (fun t e => Table.put e.1 e.2 t) t).Ordered := by
    induction es generalizing t with
    | nil => exact ht
    | cons e es ih => exact ih _ (ht.put _ _)
  exact hfrom [] .nil

/-- Keys with what a function gives for them: the table holds that, and
nothing else. A key may be named more than once. -/
theorem get?_ofList_filterMap (f : κ → Option ν) (ks : List κ) (k : κ) :
    get? k (ofList (ks.filterMap fun k => (f k).map fun v => (k, v)))
      = if k ∈ ks then f k else none := by
  have hfrom (t : Table κ ν) :
      get? k ((ks.filterMap fun k => (f k).map fun v => (k, v)).foldl (fun t e => put e.1 e.2 t) t)
        = (if k ∈ ks then f k else none).or (get? k t) := by
    induction ks generalizing t with
    | nil => rfl
    | cons k' ks ih =>
      cases hf : f k' with
      | none =>
        rw [List.filterMap_cons_none (by rw [hf]; rfl), ih]
        by_cases hk : k = k'
        · subst hk
          simp [hf]
        · simp [hk]
      | some v =>
        rw [List.filterMap_cons_some (by rw [hf]; rfl), List.foldl_cons, ih]
        by_cases hk : k = k'
        · subst hk
          rw [get?_put_self]
          by_cases hmem : k ∈ ks <;> simp [hf, hmem]
        · rw [get?_put_of_ne hk]
          simp [hk]
  rw [ofList, hfrom, get?_nil, Option.or_none]

omit [DecidableLT κ] in
theorem Ordered.erase {t : Table κ ν} (ht : t.Ordered) (k : κ) : (Table.erase k t).Ordered :=
  List.Pairwise.filter _ ht

end Table

end ReviewSearch
