/-
ReviewSearch.Proofs.Index.Contents — a store is what its calls leave.

Records are inserted and removed in any order. What a store holds under a
number is up to the last call about that number (`Store.contents`), and
there is one store only with given contents (`eq_of_find?`), whatever calls
led to them.

Results stand in a strict order: of two records with different numbers just
one goes `Before` the other. Windows are slices of the results, and
consecutive windows neither skip nor repeat a record (`edited_answers`).
-/
import Mathlib.Algebra.Ring.Int.Defs
import Mathlib.Algebra.Ring.Nat
import Mathlib.Data.Finset.Card
import Mathlib.Data.List.Induction
import Mathlib.Data.List.Sort
import ReviewSearch.Proofs.Index.Results
import ReviewSearch.Proofs.Order.Sorted

namespace ReviewSearch

/-- A table is what it holds under each key. -/
theorem Table.Ordered.ext {ν : Type} {t t' : Table Nat ν} (ht : t.Ordered) (ht' : t'.Ordered)
    (h : ∀ k, Table.get? k t = Table.get? k t') : t = t' := by
  have hirrefl : Std.Irrefl fun a b : Nat × ν => a.1 < b.1 := ⟨fun a => Nat.lt_irrefl a.1⟩
  have hantisymm : Std.Antisymm fun a b : Nat × ν => a.1 < b.1 :=
    ⟨fun a b hab hba => absurd hab (Nat.lt_asymm hba)⟩
  refine List.Pairwise.eq_of_mem_iff ht ht' fun ⟨k, v⟩ => ?_
  rw [← ht.get?_eq_some_iff, ← ht'.get?_eq_some_iff, h]

namespace Store

variable {s s' : Store} {d a b : Document} {p : Predicate} {schema : Schema}

/-! ## Contents -/

/-- A call that changes what a store holds. -/
inductive Edit where
  | insert (d : Document)
  | remove (id : Nat)

/-- The number that a call is about. -/
def Edit.id : Edit → Nat
  | .insert d => d.id
  | .remove id => id

/-- What a call leaves under its number. -/
def Edit.leaves : Edit → Option Document
  | .insert d => some d
  | .remove _ => none

/-- A store after a call. -/
def edit (s : Store) : Edit → Store
  | .insert d => s.insert d
  | .remove id => s.remove id

/-- What a store of that schema is after calls, the first one first; it is
empty at first. -/
def edited (schema : Schema) (es : List Edit) : Store :=
  es.foldl edit (empty schema)

/-- What calls leave under a number: the last one about it decides. -/
def contents (es : List Edit) (id : Nat) : Option Document :=
  (es.reverse.find? fun e => e.id = id).bind Edit.leaves

theorem find?_edit (s : Store) (e : Edit) (id : Nat) :
    (s.edit e).find? id = if e.id = id then e.leaves else s.find? id := by
  cases e with
  | insert d =>
    split
    · next h =>
      subst h
      exact Table.get?_put_self _ _ _
    · next h => exact Table.get?_put_of_ne (Ne.symm h) _ _
  | remove id' =>
    refine (Table.get?_erase id id' s.documents).trans ?_
    simp only [Edit.id, Edit.leaves, eq_comm]
    rfl

theorem edited_concat (schema : Schema) (es : List Edit) (e : Edit) :
    edited schema (es ++ [e]) = (edited schema es).edit e := by
  rw [edited, List.foldl_append, List.foldl_cons, List.foldl_nil, edited]

/-- The last call of all decides about its number, and leaves the others to
the calls before it. -/
theorem contents_concat (es : List Edit) (e : Edit) (id : Nat) :
    contents (es ++ [e]) id = if e.id = id then e.leaves else contents es id := by
  rw [contents, List.reverse_append, List.reverse_singleton, List.singleton_append,
    List.find?_cons]
  split
  · next h =>
    rw [if_pos (of_decide_eq_true h)]
    rfl
  · next h =>
    rw [if_neg (of_decide_eq_false h)]
    rfl

theorem find?_edited (schema : Schema) (es : List Edit) (id : Nat) :
    (edited schema es).find? id = contents es id := by
  induction es using List.reverseRecOn with
  | nil => rfl
  | append_singleton es e ih => rw [edited_concat, find?_edit, ih, contents_concat]

theorem schema_edited (schema : Schema) (es : List Edit) : (edited schema es).schema = schema := by
  induction es using List.reverseRecOn with
  | nil => rfl
  | append_singleton es e ih =>
    rw [edited_concat]
    cases e <;> exact ih

/-- There is one store of a schema with given contents. -/
theorem eq_of_find? (hschema : s.schema = s'.schema) (h : ∀ id, s.find? id = s'.find? id) :
    s = s' := by
  obtain ⟨schema, documents, hordered, hkeyed⟩ := s
  obtain ⟨schema', documents', hordered', hkeyed'⟩ := s'
  obtain rfl : schema = schema' := hschema
  obtain rfl := hordered.ext hordered' h
  rfl

theorem mem_iff_find? : d ∈ s ↔ s.find? d.id = some d := by
  rw [mem_iff_mem_values, find?, s.ordered.get?_eq_some_iff, Table.values, List.mem_map]
  constructor
  · rintro ⟨e, he, rfl⟩
    rw [← s.keyed e he]
    exact he
  · exact fun h => ⟨_, h, rfl⟩

/-! ## The order of results -/

/-- When a record was last changed: what it stores in `updated`, if that is
an integer of the signed 64-bit range, and 0 otherwise. -/
inductive ChangedAt (d : Document) : Int → Prop
  | stored {n : Int} (h : d.field? "updated" = some (.number (.integer n)))
      (hn : -2 ^ 63 ≤ n ∧ n < 2 ^ 63) : ChangedAt d n
  | missing (h : ∀ n, d.field? "updated" = some (.number (.integer n)) →
      ¬(-2 ^ 63 ≤ n ∧ n < 2 ^ 63)) : ChangedAt d 0

theorem signed?_eq_some_iff {v : Json} {n : Int} :
    v.signed? = some n ↔ v = .number (.integer n) ∧ -2 ^ 63 ≤ n ∧ n < 2 ^ 63 := by
  have hrange (k : Int) : inSignedRange k = true ↔ -2 ^ 63 ≤ k ∧ k < 2 ^ 63 := by
    rw [inSignedRange, Bool.and_eq_true, decide_eq_true_eq, decide_eq_true_eq]
    rfl
  cases v with
  | number k =>
    cases k with
    | integer k =>
      simp only [Json.signed?, Json.Number.signed?, ← hrange]
      split
      · next hk =>
        constructor
        · rintro ⟨⟩
          exact ⟨rfl, hk⟩
        · rintro ⟨⟨⟩, -⟩
          rfl
      · next hk =>
        refine iff_of_false nofun ?_
        rintro ⟨⟨⟩, h⟩
        exact hk h
    | double x => exact iff_of_false nofun nofun
  | _ => exact iff_of_false nofun nofun

theorem changedAt_iff {n : Int} : ChangedAt d n ↔ d.updated = n := by
  have hstored (n : Int) : (d.field? "updated").bind Json.signed? = some n
      ↔ d.field? "updated" = some (.number (.integer n)) ∧ -2 ^ 63 ≤ n ∧ n < 2 ^ 63 := by
    simp only [Option.bind_eq_some_iff, signed?_eq_some_iff]
    constructor
    · rintro ⟨_, hfield, rfl, hn⟩
      exact ⟨hfield, hn⟩
    · exact fun h => ⟨_, h.1, rfl, h.2⟩
  rw [Document.updated]
  cases hsigned : (d.field? "updated").bind Json.signed? with
  | some m =>
    obtain ⟨hfield, hm⟩ := (hstored m).mp hsigned
    rw [Option.getD_some]
    constructor
    · rintro (⟨h, -⟩ | h)
      · cases hfield.symm.trans h
        rfl
      · exact absurd hm (h m hfield)
    · rintro rfl
      exact .stored hfield hm
  | none =>
    have hnone (n : Int) : ¬((d.field? "updated").bind Json.signed? = some n) := by
      rw [hsigned]
      exact nofun
    rw [Option.getD_none]
    constructor
    · rintro (⟨h, hn⟩ | -)
      · exact absurd ((hstored n).mpr ⟨h, hn⟩) (hnone n)
      · rfl
    · rintro rfl
      exact .missing fun n h hn => hnone n ((hstored n).mpr ⟨h, hn⟩)

/-- The order of results: latest change first, then greatest number. -/
def Before (a b : Document) : Prop :=
  ∃ m n, ChangedAt a m ∧ ChangedAt b n ∧ (n < m ∨ m = n ∧ b.id < a.id)

theorem precedes_iff : precedes a b = true
    ↔ b.updated < a.updated ∨ a.updated = b.updated ∧ b.id < a.id := by
  rw [precedes, Bool.or_eq_true, Bool.and_eq_true, decide_eq_true_eq, beq_iff_eq,
    decide_eq_true_eq]

theorem before_iff : Before a b ↔ precedes a b = true := by
  simp only [Before, changedAt_iff, precedes_iff, exists_eq_left', exists_and_left]

theorem weak_precedes : Order.Weak precedes where
  asymm h := by
    rw [← Bool.not_eq_true, precedes_iff]
    rw [precedes_iff] at h
    omega
  trans hab hbc := by
    rw [← Bool.not_eq_true, precedes_iff] at hab hbc ⊢
    omega

/-- Of two records with different numbers, one goes before the other. -/
theorem precedes_of_ne (hne : a.id ≠ b.id) (h : precedes b a = false) : precedes a b = true := by
  rw [← Bool.not_eq_true, precedes_iff] at h
  rw [precedes_iff]
  omega

theorem pairwise_results (s : Store) (p : Predicate) : (s.results p).Pairwise Before := by
  have hsorted : (s.results p).Pairwise fun a b => precedes b a = false :=
    Order.pairwise_sortBy weak_precedes _
  have hids : (s.results p).Pairwise fun a b => a.id ≠ b.id :=
    List.pairwise_map.mp (nodup_ids_results s p)
  exact (hsorted.and hids).imp fun h => before_iff.mpr (precedes_of_ne h.2 h.1)

/-! ## Consecutive windows -/

/-- Windows of given sizes, one behind the other. -/
def consecutive (fields : List String) : (start : Nat) → (sizes : List Nat) → List Window
  | _, [] => []
  | start, n :: ns => ⟨start, n, fields⟩ :: consecutive fields (start + n) ns

/-- Consecutive windows, put together, are one window of their sizes
together. -/
theorem flatMap_consecutive {α : Type} (xs : List α) (fields : List String) (start : Nat)
    (sizes : List Nat) : (consecutive fields start sizes).flatMap
      (fun w => (xs.drop w.start).take w.limit) = (xs.drop start).take sizes.sum := by
  induction sizes generalizing start with
  | nil => rw [consecutive, List.flatMap_nil, List.sum_nil, List.take_zero]
  | cons n ns ih =>
    rw [consecutive, List.flatMap_cons, ih, List.sum_cons, ← List.drop_drop, List.take_add]

/-! ## Answers -/

/-- A store answers questions about a predicate from a list of records:
searches with its slices, whole or cut down, the estimate with its
length. -/
structure AnswersFrom (s : Store) (p : Predicate) (ds : List Document) : Prop where
  search (w : Window) : s.search p w = .ok ((ds.drop w.start).take w.limit)
  searchFields (w : Window) : s.searchFields p w
    = .ok (((ds.drop w.start).take w.limit).map (·.project w.fields))
  /-- What is left of a record behind a search for fields. -/
  projected (w : Window) (d : Document) : d.CutTo w.fields (d.project w.fields)
  cardinality : s.cardinality p = ds.length
  /-- Pages of any sizes, one behind the other, are one slice. -/
  pages (fields : List String) (start : Nat) (sizes : List Nat) : ∃ pages,
    List.Forall₂ (fun w page => s.search p w = .ok page) (consecutive fields start sizes) pages
      ∧ pages.flatten = (ds.drop start).take sizes.sum ∧ (pages.flatten.map Document.id).Nodup

theorem answersFrom_results (h : s.Supports p) : s.AnswersFrom p (s.results p) where
  search := search_of_supports h
  searchFields w := by rw [searchFields, search_of_supports h]; rfl
  projected w := Document.cutTo_project w.fields
  cardinality := by rw [cardinality, unsupported?_of_supports h]
  pages fields start sizes := by
    refine ⟨(consecutive fields start sizes).map
      fun w => ((s.results p).drop w.start).take w.limit, ?_, ?_, ?_⟩
    · rw [List.forall₂_map_right_iff, List.forall₂_same]
      exact fun w _ => search_of_supports h w
    · rw [← List.flatMap_def, flatMap_consecutive]
    · rw [← List.flatMap_def, flatMap_consecutive]
      exact (nodup_ids_results s p).sublist
        (((List.take_sublist _ _).trans (List.drop_sublist _ _)).map _)

theorem exists_card_eq_size (s : Store) :
    ∃ ids : Finset Nat, (∀ id, id ∈ ids ↔ s.find? id ≠ none) ∧ s.size = ids.card := by
  have hnodup : (Table.keys s.documents).Nodup := by
    rw [← ids_values]
    exact s.nodup_ids
  refine ⟨(Table.keys s.documents).toFinset, fun id => ?_, ?_⟩
  · rw [Option.ne_none_iff_exists', List.mem_toFinset, Table.keys, List.mem_map]
    simp only [find?, s.ordered.get?_eq_some_iff, Prod.exists, exists_and_right, exists_eq_right]
  · rw [List.toFinset_card_of_nodup hnodup, Table.keys, List.length_map, size]

/-- What a store answers after calls, from what the calls leave.

It counts the numbers that hold a record. For a predicate that its schema
supports, it answers from the records left that satisfy the predicate, in
their strict order: windows are slices of this list, and consecutive windows
neither skip nor repeat a record. A search for fields gives the records of
its window, each with what it stores under the names requested and nothing
else. Calls that leave the same give the same store. -/
theorem edited_answers (schema : Schema) (es : List Edit) :
    (∃ ids : Finset Nat, (∀ id, id ∈ ids ↔ contents es id ≠ none)
        ∧ (edited schema es).size = ids.card)
      ∧ (∀ p : Predicate, (∀ l ∈ p.leaves, schema.answers l = true) → ∃ ds : List Document,
        (∀ d, d ∈ ds ↔ contents es d.id = some d ∧ p.satisfiedBy d = true)
          ∧ ds.Pairwise Before ∧ (edited schema es).AnswersFrom p ds)
      ∧ ∀ es', (∀ id, contents es id = contents es' id) →
        edited schema es = edited schema es' := by
  refine ⟨?_, fun p hp => ?_, fun es' hcontents => ?_⟩
  · simp only [← find?_edited schema]
    exact exists_card_eq_size _
  · have hsupports : (edited schema es).Supports p := by
      rwa [Supports, schema_edited]
    refine ⟨(edited schema es).results p, fun d => ?_, pairwise_results _ p,
      answersFrom_results hsupports⟩
    rw [mem_results, mem_iff_find?, find?_edited]
  · refine eq_of_find? ?_ fun id => ?_
    · rw [schema_edited, schema_edited]
    · rw [find?_edited, find?_edited, hcontents]

/-! ### Five calls -/

def coreChange (id : Nat) (updated : Int) : Document :=
  ⟨id, [("project", .string "core"), ("updated", .ofInt updated)]⟩

/-- A record is replaced by an older one, and another one is removed again. -/
def fiveCalls : List Edit :=
  [.insert (coreChange 1 30), .insert (coreChange 2 30), .insert (coreChange 1 10),
    .insert (coreChange 3 5), .remove 3]

/-- Two calls that leave the same. -/
def twoCalls : List Edit :=
  [.insert (coreChange 2 30), .insert (coreChange 1 10)]

/-- Windows of one record give change 2 first and change 1 behind it, cut
down if the window asks for fields. -/
theorem edited_answers_fiveCalls :
    let core : Predicate := .leaf (.exact "project" "core")
    (∃ ds : List Document, (∀ d, d ∈ ds ↔ contents fiveCalls d.id = some d
          ∧ core.satisfiedBy d = true)
        ∧ ds.Pairwise Before
        ∧ (edited .v1 fiveCalls).AnswersFrom core ds
        ∧ ds.map Document.id = [2, 1])
      ∧ ((edited .v1 fiveCalls).searchFields core ⟨1, 1, ["project"]⟩).map
        (List.map fun d => (d.id, d.fields.map Prod.fst)) = .ok [(1, ["project"])]
      ∧ edited .v1 fiveCalls = edited .v1 twoCalls := by
  intro core
  obtain ⟨-, hanswers, hsame⟩ := edited_answers .v1 fiveCalls
  obtain ⟨ds, hmem, hordered, hds⟩ := hanswers core (by decide)
  refine ⟨⟨ds, hmem, hordered, hds, ?_⟩, by decide +kernel, hsame twoCalls fun id => ?_⟩
  · have hlen : ds.length = 2 := hds.cardinality.symm.trans (by decide +kernel)
    have hall := hds.search ⟨0, 2, []⟩
    rw [List.drop_zero, List.take_of_length_le (Nat.le_of_eq hlen)] at hall
    have hids : ((edited .v1 fiveCalls).search core ⟨0, 2, []⟩).map (List.map Document.id)
        = .ok [2, 1] := by decide +kernel
    rw [hall] at hids
    exact Except.ok.inj hids
  · by_cases hid : id = 1 ∨ id = 2 ∨ id = 3
    · rcases hid with rfl | rfl | rfl <;> rfl
    · simp only [not_or] at hid
      simp [contents, fiveCalls, twoCalls, Edit.id, coreChange, Ne.symm hid.1, Ne.symm hid.2.1,
        Ne.symm hid.2.2]

end Store

end ReviewSearch
