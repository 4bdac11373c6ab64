/-
ReviewSearch.Proofs.Query.Operators — what the operators on change records
make of a value is read back from its text.

A leaf keeps the operator and the value that were typed, save that a
status word is in small letters, that `is` stands as `status`, and that a
count is without plus sign and leading zeros. In each case the operator
of the leaf makes the same leaf of the value of the leaf.

* `Rereads` — a leaf is what its own operator makes of its value;
* `changes_rereadsTerms` — every term of the dialect of change records
  gives such a leaf.
-/
import Mathlib.Data.List.Basic
import ReviewSearch.Query.Dialect
import ReviewSearch.Query.Token

namespace ReviewSearch.Dialect

/-- A leaf is what its own operator makes of its value; the operator is
written as a name. -/
structure Rereads (d : Dialect) (l : Leaf) : Prop where
  isName : l.operator.toList.all Query.isNameChar = true
  resolve : d.resolve l.operator l.value = .ok (.leaf l)

/-- Each term gives a leaf that is read back. -/
def RereadsTerms (d : Dialect) : Prop :=
  ∀ ⦃name value : String⦄ ⦃p : Predicate⦄, d.resolve name value = .ok p →
    ∃ l, p = .leaf l ∧ d.Rereads l

/-- Each predicate that an operator makes is a leaf that is read back. -/
def Faithful (d : Dialect) (op : Operator) : Prop :=
  ∀ ⦃value : String⦄ ⦃p : Predicate⦄, op value = .ok p → ∃ l, p = .leaf l ∧ d.Rereads l

/-! ## Tables of operators -/

theorem find?_add (d : Dialect) (name : String) (op : Operator) (other : String) :
    (d.add name op).find? other
      = if Text.lowerAscii other = Text.lowerAscii name then some op else d.find? other := by
  unfold add find?
  split_ifs with h
  · rw [h, Table.get?_put_self]
  · rw [Table.get?_put_of_ne h]

/-- What holds of all operators of a dialect. -/
def All (P : Operator → Prop) (d : Dialect) : Prop :=
  ∀ ⦃name : String⦄ ⦃op : Operator⦄, d.find? name = some op → P op

theorem All.empty {P : Operator → Prop} : empty.All P := by
  intro name op h
  cases h

theorem All.add {P : Operator → Prop} {d : Dialect} (h : d.All P) {op : Operator} (hop : P op)
    (name : String) : (d.add name op).All P := by
  intro other op' hfind
  rw [find?_add] at hfind
  split_ifs at hfind
  · exact Option.some.inj hfind ▸ hop
  · exact h hfind

theorem resolve_of_find? {d : Dialect} {name : String} {op : Operator}
    (h : d.find? name = some op) (value : String) : d.resolve name value = op value := by
  rw [resolve, h]

/-! ## The operators on change records -/

/-- Status words are in small letters. -/
theorem lowerAscii_of_statusWord? {word : String} {allowed : List Status}
    (h : statusWord? word = some allowed) : Text.lowerAscii word = word := by
  unfold statusWord? at h
  split_ifs at h with hopen hclosed hmerged habandoned
  · obtain rfl | rfl := hopen <;> rfl
  · exact hclosed ▸ rfl
  · exact hmerged ▸ rfl
  · exact habandoned ▸ rfl

theorem status_eq_ok {value : String} {p : Predicate} (h : status value = .ok p) :
    ∃ l, p = .leaf l ∧ l.operator = "status" ∧ status l.value = .ok (.leaf l) := by
  simp only [status] at h
  split at h
  · next allowed hword =>
    cases h
    refine ⟨_, rfl, rfl, ?_⟩
    simp only [status, lowerAscii_of_statusWord? hword, hword]
  · cases h

theorem faithful_status : changes.Faithful status := by
  intro value p h
  obtain ⟨l, rfl, hname, hread⟩ := status_eq_ok h
  refine ⟨l, rfl, hname ▸ rfl, ?_⟩
  rw [hname, ← hread]
  rfl

theorem faithful_isStatus : changes.Faithful isStatus := by
  intro value p h
  unfold isStatus at h
  split_ifs at h
  exact faithful_status h

/-- An operator that keeps what was typed. -/
theorem faithful_of_keeps {op : Operator} {name : String}
    (hname : name.toList.all Query.isNameChar = true)
    (hfind : changes.find? name = some op)
    (hkeeps : ∀ {value : String} {p : Predicate}, op value = .ok p →
      ∃ field operand, p = .leaf ⟨name, field, value, operand⟩) : changes.Faithful op := by
  intro value p h
  obtain ⟨field, operand, rfl⟩ := hkeeps h
  exact ⟨_, rfl, hname, (resolve_of_find? hfind value).trans h⟩

theorem faithful_exactField {field : String}
    (hname : field.toList.all Query.isNameChar = true)
    (hfind : changes.find? field = some (exactField field)) :
    changes.Faithful (exactField field) := by
  refine faithful_of_keeps hname hfind fun h => ?_
  cases h
  exact ⟨_, _, rfl⟩

theorem faithful_message : changes.Faithful message := by
  refine faithful_of_keeps rfl (rfl : changes.find? "message" = _) fun h => ?_
  cases h
  exact ⟨_, _, rfl⟩

theorem faithful_timestamp {name : String} {operand : Int → Operand}
    (hname : name.toList.all Query.isNameChar = true)
    (hfind : changes.find? name = some (timestamp name operand)) :
    changes.Faithful (timestamp name operand) := by
  refine faithful_of_keeps hname hfind fun h => ?_
  unfold timestamp at h
  split at h
  · cases h
    exact ⟨_, _, rfl⟩
  · cases h

/-- A count is read back from its digits. -/
theorem count?_toString {n : Nat} (h : n ≤ Count.max) : count? (toString n) = some n := by
  have hdigits : (Nat.toDigits 10 n).all Char.isDigit = true := by
    rw [List.all_eq_true]
    exact fun c hc => Nat.isDigit_of_mem_toDigits (by decide) (by decide) hc
  have hvalue : (Nat.toDigits 10 n).foldl (fun n c => n * 10 + (c.toNat - '0'.toNat)) 0 = n := by
    have hfold := Nat.ofDigitChars_ten_toDigits (n := n)
    rw [Nat.ofDigitChars_eq_foldl] at hfold
    simpa only [Nat.mul_comm] using hfold
  rw [count?, Nat.toString_eq_ofList_toDigits, String.toList_ofList]
  split
  · next cs hplus =>
    rw [hplus] at hdigits
    cases hdigits
  · simp only [List.isEmpty_iff, Nat.toDigits_ne_nil, hdigits, hvalue, h, Bool.not_true,
      Bool.or_false, if_false, if_true]

theorem count?_le {text : String} {n : Nat} (h : count? text = some n) : n ≤ Count.max := by
  simp only [count?] at h
  split_ifs at h with _ hle
  exact Option.some.inj h ▸ hle

theorem faithful_limit : changes.Faithful limit := by
  intro value p h
  unfold limit at h
  split at h
  · next n hcount =>
    cases h
    have hread : limit (toString (n + 1)) = .ok (.leaf (.limit (n + 1))) := by
      rw [limit, count?_toString (count?_le hcount)]
    have hname : "limit".toList.all Query.isNameChar = true := rfl
    refine ⟨_, rfl, hname, ?_⟩
    exact (resolve_of_find? (rfl : changes.find? "limit" = _) _).trans hread
  · cases h

theorem changes_rereadsTerms : changes.RereadsTerms := by
  intro name value p h
  have hall : changes.All changes.Faithful :=
    All.empty
      |>.add faithful_status "status"
      |>.add faithful_isStatus "is"
      |>.add (faithful_exactField rfl rfl) "project"
      |>.add (faithful_exactField rfl rfl) "branch"
      |>.add (faithful_exactField rfl rfl) "ref"
      |>.add (faithful_exactField rfl rfl) "file"
      |>.add (faithful_exactField rfl rfl) "owner"
      |>.add (faithful_exactField rfl rfl) "topic"
      |>.add (faithful_exactField rfl rfl) "hashtag"
      |>.add faithful_message "message"
      |>.add (faithful_timestamp rfl rfl) "after"
      |>.add (faithful_timestamp rfl rfl) "since"
      |>.add (faithful_timestamp rfl rfl) "before"
      |>.add (faithful_timestamp rfl rfl) "until"
      |>.add faithful_limit "limit"
  unfold resolve at h
  split at h
  · next op hfind => exact hall hfind h
  · cases h

end ReviewSearch.Dialect
