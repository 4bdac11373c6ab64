/-
ReviewSearch.Proofs.Index.Results — what a store holds and what its
searches find.

A store holds at most one record of each number (`eq_of_id_eq`), so a
list of its records with different numbers is no longer than the store
(`length_le_size`). The results of a predicate are the records of the
store that satisfy it, each once (`mem_results`, `nodup_ids_results`); a
search is a slice of them if the schema has every leaf
(`search_of_supports`).
-/
import Mathlib.Data.List.Nodup
import Mathlib.Data.List.Perm.Subperm
import ReviewSearch.Index.Store

namespace ReviewSearch.Store

variable {s : Store} {d d' : Document} {ds : List Document} {p : Predicate}

/-! ## Records -/

instance : Membership Document Store := ⟨fun s d => d ∈ Table.values s.documents⟩

theorem mem_iff_mem_values : d ∈ s ↔ d ∈ Table.values s.documents := Iff.rfl

theorem ids_values (s : Store) :
    (Table.values s.documents).map Document.id = Table.keys s.documents := by
  simp only [Table.values, Table.keys, List.map_map]
  exact List.map_congr_left fun e he => (s.keyed e he).symm

theorem nodup_ids (s : Store) : ((Table.values s.documents).map Document.id).Nodup := by
  rw [ids_values, Table.keys, List.nodup_iff_pairwise_ne, List.pairwise_map]
  exact s.ordered.imp fun h => Nat.ne_of_lt h

/-- A store holds at most one record of each number. -/
theorem eq_of_id_eq (hd : d ∈ s) (hd' : d' ∈ s) (h : d.id = d'.id) : d = d' :=
  List.inj_on_of_nodup_map s.nodup_ids hd hd' h

/-- Records of different numbers are no more than the store has. -/
theorem length_le_size (hds : ∀ d ∈ ds, d ∈ s) (hids : (ds.map Document.id).Nodup) :
    ds.length ≤ s.size := by
  have hsub : ds.map Document.id ⊆ (Table.values s.documents).map Document.id :=
    List.map_subset _ hds
  have hlen := (hids.subperm hsub).length_le
  simpa [Table.values, size] using hlen

/-! ## Results -/

theorem results_perm (s : Store) (p : Predicate) :
    (s.results p).Perm ((Table.values s.documents).filter fun d => p.satisfiedBy d) :=
  Order.sortBy_perm _ _

/-- The results of a predicate are the records that satisfy it. -/
theorem mem_results : d ∈ s.results p ↔ d ∈ s ∧ p.satisfiedBy d = true := by
  rw [(results_perm s p).mem_iff, List.mem_filter, mem_iff_mem_values]

/-- No number comes twice among results. -/
theorem nodup_ids_results (s : Store) (p : Predicate) :
    ((s.results p).map Document.id).Nodup := by
  rw [((results_perm s p).map Document.id).nodup_iff]
  exact s.nodup_ids.sublist (List.filter_sublist.map _)

theorem length_results_le (s : Store) (p : Predicate) : (s.results p).length ≤ s.size :=
  length_le_size (fun _ h => (mem_results.mp h).1) (nodup_ids_results s p)

/-! ## Searches -/

/-- Whether the schema of a store has every leaf of a predicate. -/
def Supports (s : Store) (p : Predicate) : Prop :=
  ∀ l ∈ p.leaves, s.schema.answers l = true

instance (s : Store) (p : Predicate) : Decidable (s.Supports p) :=
  inferInstanceAs (Decidable (∀ l ∈ p.leaves, s.schema.answers l = true))

theorem unsupported?_of_supports (h : s.Supports p) : s.unsupported? p = none := by
  unfold unsupported?
  rw [List.find?_eq_none]
  intro l hl
  simp [h l hl]

/-- A search is a slice of the results. -/
theorem search_of_supports (h : s.Supports p) (w : Window) :
    s.search p w = .ok (((s.results p).drop w.start).take w.limit) := by
  simp [search, unsupported?_of_supports h]

/-- The store as an index that estimates by `size`. Its own estimates are
exact; a statement about all estimates covers every choice of a driver. -/
def estimatedBy (s : Store) (size : Predicate → Nat) : Index :=
  { s.toIndex with cardinality := size }

theorem estimatedBy_cardinality (s : Store) : s.estimatedBy s.cardinality = s.toIndex := rfl

@[simp] theorem cardinality_estimatedBy (s : Store) (size : Predicate → Nat) :
    (s.estimatedBy size).cardinality = size := rfl

theorem search_estimatedBy (size : Predicate → Nat) (h : s.Supports p) (n : Nat) (w : Window) :
    (s.estimatedBy size).search n p w
      = .ok ((((s.results p).drop w.start).take w.limit).map .ok) := by
  have hs := search_of_supports h w
  simp only [estimatedBy, toIndex, hs]
  rfl

/-! ## A small store -/

/-- Six changes, latest last. Only the first is both of the project and of
the topic. -/
def sixChanges : Store :=
  (Store.empty .v1).insertAll
    [⟨1, [("project", .string "core"), ("topic", .string "x")]⟩,
      ⟨2, [("project", .string "core")]⟩, ⟨3, [("project", .string "core")]⟩,
      ⟨4, [("project", .string "core")]⟩, ⟨5, [("topic", .string "x")]⟩,
      ⟨6, [("topic", .string "x")]⟩]

end ReviewSearch.Store
