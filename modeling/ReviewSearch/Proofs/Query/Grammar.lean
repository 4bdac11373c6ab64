/-
ReviewSearch.Proofs.Query.Grammar — the grammar of queries.

    query        := alternatives
    alternatives := all ( OR all )*
    all          := operand ( [AND] operand )*
    operand      := - operand | NOT operand | ( alternatives ) | term

A `Phrase` of the grammar relates its tokens to its tree. The phrases say
nothing of how they are found: not where a phrase ends, nor which rule the
next token asks for. `IsOperand dialect levels` are the operands in which
at most so many minus signs, NOTs and parentheses are inside one another,
and `IsQuery dialect levels` the whole queries.

* `begins_operand`, `whole_operand` — with which tokens an operand begins,
  and that none of its tokens is broken;
* `IsAll.forall_mem`, `IsAlternatives.forall_mem` — what holds of the
  trees of all operands holds of those that they are put together from.
-/
import ReviewSearch.Proofs.Query.Spelling
import ReviewSearch.Query.Dialect

namespace ReviewSearch.Query

/-! ## The grammar -/

/-- Which tokens have which tree. -/
abbrev Phrase : Type := List Token → Predicate → Prop

/-- Operands side by side, or with AND between them. -/
inductive IsAll (operand : Phrase) : List Token → List Predicate → Prop
  | one {ts : List Token} {p : Predicate} (h : operand ts p) : IsAll operand ts [p]
  | beside {ts us : List Token} {p : Predicate} {ps : List Predicate} (h : operand ts p)
      (hs : IsAll operand us ps) : IsAll operand (ts ++ us) (p :: ps)
  | and {ts us : List Token} {p : Predicate} {ps : List Predicate} (h : operand ts p)
      (hs : IsAll operand us ps) : IsAll operand (ts ++ .word .and :: us) (p :: ps)

/-- Alternatives with OR between them. -/
inductive IsAlternatives (operand : Phrase) : List Token → List Predicate → Prop
  | one {ts : List Token} {ps : List Predicate} (h : IsAll operand ts ps) :
      IsAlternatives operand ts [.and ps]
  | or {ts us : List Token} {ps qs : List Predicate} (h : IsAll operand ts ps)
      (hs : IsAlternatives operand us qs) :
      IsAlternatives operand (ts ++ .word .or :: us) (.and ps :: qs)

/-- A term, or one level with `inner` operands in it. -/
inductive IsOperandWith (dialect : Dialect) (inner : Phrase) : Phrase
  | term {name value : List Char} {p : Predicate}
      (h : dialect.resolve (String.ofList name) (String.ofList value) = .ok p) :
      IsOperandWith dialect inner [.term name value] p
  | minus {ts : List Token} {p : Predicate} (h : inner ts p) :
      IsOperandWith dialect inner (.minus :: ts) p.not
  | not {ts : List Token} {p : Predicate} (h : inner ts p) :
      IsOperandWith dialect inner (.word .not :: ts) p.not
  | group {ts : List Token} {ps : List Predicate} (h : IsAlternatives inner ts ps) :
      IsOperandWith dialect inner (.openGroup :: (ts ++ [.closeGroup])) (.or ps)

/-- An operand with at most so many levels inside one another. -/
def IsOperand (dialect : Dialect) : Nat → Phrase
  | 0 => IsOperandWith dialect fun _ _ => False
  | levels + 1 => IsOperandWith dialect (IsOperand dialect levels)

/-- A whole query with at most so many levels inside one another. -/
def IsQuery (dialect : Dialect) (levels : Nat) : Phrase := fun ts p =>
  ∃ ps, IsAlternatives (IsOperand dialect levels) ts ps ∧ p = .or ps

/-- What may stand one level inside an operand. -/
def Inward (dialect : Dialect) : Nat → Phrase
  | 0 => fun _ _ => False
  | levels + 1 => IsOperand dialect levels

theorem isOperand_eq (dialect : Dialect) (levels : Nat) :
    IsOperand dialect levels = IsOperandWith dialect (Inward dialect levels) := by
  cases levels <;> rfl

/-! ## Where phrases begin -/

/-- Whether an operand begins with a token. -/
def Token.beginsOperand : Token → Bool
  | .minus | .word .not | .openGroup | .term .. => true
  | _ => false

/-- A phrase that begins as an operand does. -/
def Phrase.Begins (operand : Phrase) : Prop :=
  ∀ ⦃ts : List Token⦄ ⦃p : Predicate⦄, operand ts p → ∃ t ∈ ts.head?, t.beginsOperand = true

theorem begins_operandWith (dialect : Dialect) (inner : Phrase) :
    (IsOperandWith dialect inner).Begins := by
  intro ts p h
  cases h <;> exact ⟨_, rfl, rfl⟩

theorem begins_operand (dialect : Dialect) (levels : Nat) : (IsOperand dialect levels).Begins := by
  rw [isOperand_eq]
  exact begins_operandWith dialect _

variable {phrase : Phrase} {ts : List Token}

/-! ## Whole tokens -/

/-- No broken token is in a phrase. -/
def Phrase.Whole (operand : Phrase) : Prop :=
  ∀ ⦃ts : List Token⦄ ⦃p : Predicate⦄, operand ts p → ∀ t ∈ ts, t.isBroken = false

theorem IsAll.not_isBroken (hphrase : phrase.Whole) {ps : List Predicate}
    (h : IsAll phrase ts ps) : ∀ t ∈ ts, t.isBroken = false := by
  induction h with
  | one h => exact hphrase h
  | beside h _ ih => exact List.forall_mem_append.mpr ⟨hphrase h, ih⟩
  | and h _ ih =>
    exact List.forall_mem_append.mpr ⟨hphrase h, List.forall_mem_cons.mpr ⟨rfl, ih⟩⟩

theorem IsAlternatives.not_isBroken (hphrase : phrase.Whole) {ps : List Predicate}
    (h : IsAlternatives phrase ts ps) : ∀ t ∈ ts, t.isBroken = false := by
  induction h with
  | one h => exact h.not_isBroken hphrase
  | or h _ ih =>
    exact List.forall_mem_append.mpr ⟨h.not_isBroken hphrase, List.forall_mem_cons.mpr ⟨rfl, ih⟩⟩

theorem whole_operandWith (dialect : Dialect) (hphrase : phrase.Whole) :
    (IsOperandWith dialect phrase).Whole := by
  intro ts p h
  cases h with
  | term => simp [Token.isBroken]
  | minus h | not h => exact List.forall_mem_cons.mpr ⟨rfl, hphrase h⟩
  | group h =>
    refine List.forall_mem_cons.mpr ⟨rfl, List.forall_mem_append.mpr ⟨?_, ?_⟩⟩
    · exact h.not_isBroken hphrase
    · simp [Token.isBroken]

theorem whole_operand (dialect : Dialect) (levels : Nat) : (IsOperand dialect levels).Whole := by
  induction levels with
  | zero => exact whole_operandWith dialect fun _ _ h => h.elim
  | succ levels ih => exact whole_operandWith dialect ih

/-! ## Trees of phrases -/

/-- All trees of a phrase are of a kind. -/
def Phrase.Gives (phrase : Phrase) (kind : Predicate → Prop) : Prop :=
  ∀ ⦃ts : List Token⦄ ⦃p : Predicate⦄, phrase ts p → kind p

theorem IsAll.forall_mem {kind : Predicate → Prop} (hphrase : phrase.Gives kind)
    {ps : List Predicate} (h : IsAll phrase ts ps) : ps ≠ [] ∧ ∀ p ∈ ps, kind p := by
  induction h with
  | one h => exact ⟨List.cons_ne_nil _ _, List.forall_mem_singleton.mpr (hphrase h)⟩
  | beside h _ ih | and h _ ih =>
    exact ⟨List.cons_ne_nil _ _, List.forall_mem_cons.mpr ⟨hphrase h, ih.2⟩⟩

theorem IsAlternatives.forall_mem {kind kind' : Predicate → Prop} (hphrase : phrase.Gives kind)
    (hand : ∀ {ps : List Predicate}, ps ≠ [] → (∀ p ∈ ps, kind p) → kind' (.and ps))
    {qs : List Predicate} (h : IsAlternatives phrase ts qs) : qs ≠ [] ∧ ∀ q ∈ qs, kind' q := by
  induction h with
  | one h =>
    obtain ⟨hne, hkind⟩ := h.forall_mem hphrase
    exact ⟨List.cons_ne_nil _ _, List.forall_mem_singleton.mpr (hand hne hkind)⟩
  | or h _ ih =>
    obtain ⟨hne, hkind⟩ := h.forall_mem hphrase
    exact ⟨List.cons_ne_nil _ _, List.forall_mem_cons.mpr ⟨hand hne hkind, ih.2⟩⟩

theorem IsAlternatives.exists_operand {ps : List Predicate} (h : IsAlternatives phrase ts ps) :
    ∃ us q, phrase us q := by
  have hall {ts : List Token} {ps : List Predicate} (h : IsAll phrase ts ps) :
      ∃ us q, phrase us q := by
    cases h with
    | one h | beside h _ | and h _ => exact ⟨_, _, h⟩
  cases h with
  | one h | or h _ => exact hall h

end ReviewSearch.Query
