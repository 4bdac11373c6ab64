/-
ReviewSearch.Proofs.Predicate.Messages — which values a search of messages
finds wherever they stand.

`message:value` compares lower-case forms. Each is made of a whole text, so
the form of the value need not be a piece of that of a text in which the
value stands: a capital sigma at an edge of the value may end a word in one
of them and not in the other.

`message_finds_iff` — the values that are found in every record whose
message contains them are those that settle their capital sigmas
(`ReviewSearch.Proofs.Text.Casing`).
-/
import ReviewSearch.Proofs.Predicate.Meaning
import ReviewSearch.Proofs.Text.Casing
import ReviewSearch.Query.Dialect

namespace ReviewSearch

/-! ## Stored texts -/

/-- A stored value is a text, or an array with the text in it at any
depth. -/
inductive Json.HoldsText : Json → String → Prop
  | string (text : String) : HoldsText (.string text) text
  | array {items : List Json} {v : Json} {text : String} (hv : v ∈ items)
      (h : HoldsText v text) : HoldsText (.array items) text

/-- The message of a record contains a value as it is, case included. -/
def Document.MessageContains (d : Document) (value : String) : Prop :=
  ∃ stored text, d.field? "message" = some stored ∧ stored.HoldsText text
    ∧ value.toList <:+: text.toList

namespace Leaf

variable {test : String → Bool} {stored : Json} {text value : String}

theorem anyTextOf_eq_any (test : String → Bool) (items : List Json) :
    anyTextOf test items = items.any (anyText test) := by
  induction items with
  | nil => rfl
  | cons v vs ih => rw [anyTextOf, List.any_cons, ih]

/-- A test that accepts a stored text accepts the value. -/
theorem anyText_of_holdsText (h : stored.HoldsText text) (htest : test text = true) :
    anyText test stored = true := by
  induction h with
  | string text => exact htest
  | array hv _ ih =>
    rw [anyText, anyTextOf_eq_any, List.any_eq_true]
    exact ⟨_, hv, ih htest⟩

theorem isNull_of_holdsText (h : stored.HoldsText text) : stored.isNull = false := by
  cases h <;> rfl

theorem containsAnyCase_iff : containsAnyCase value text = true
    ↔ Text.lower value.toList <:+: Text.lower text.toList := by
  rw [containsAnyCase, Text.occursIn_iff]
  simp only [List.IsInfix, eq_comm]

/-! ## Searches of messages -/

/-- The leaf `message:value`. -/
def message (value : String) : Leaf :=
  ⟨"message", "message", value, .substring⟩

theorem satisfiedBy_message {d : Document} (hfield : d.field? "message" = some stored) :
    (message value).satisfiedBy d
      = (!stored.isNull && anyText (containsAnyCase value) stored) := by
  simp only [satisfiedBy, message, isLimit, limit?, hfield, accepts]
  rfl

/-- A value is found in a text that holds it if its lower-case form is a
piece of that of the text. -/
theorem message_finds {d : Document} (hfield : d.field? "message" = some stored)
    (h : stored.HoldsText text)
    (hlower : Text.lower value.toList <:+: Text.lower text.toList) :
    (message value).satisfiedBy d = true := by
  rw [satisfiedBy_message hfield, isNull_of_holdsText h,
    anyText_of_holdsText h (containsAnyCase_iff.mpr hlower)]
  rfl

/-- A record with nothing but a message. -/
def withMessage (text : String) : Document :=
  ⟨1, [("message", .string text)]⟩

theorem message_withMessage_iff : (message value).satisfiedBy (withMessage text) = true
    ↔ Text.lower value.toList <:+: Text.lower text.toList := by
  have hfield : (withMessage text).field? "message" = some (.string text) := rfl
  rw [satisfiedBy_message hfield, ← containsAnyCase_iff]
  rfl

/-- The operator `message` searches messages for its value. It finds the
value in every record whose message contains it just if the value settles
each of its capital sigmas: case-ignorable characters aside, what stands
next to the sigma in the value is a character on either side of it, or no
letter in front of it, or a letter behind it. A value without capital
sigmas is found wherever it stands. -/
theorem message_finds_iff (value : String) :
    Dialect.changes.resolve "message" value = .ok (.leaf (message value))
      ∧ ((∀ d : Document, d.MessageContains value → (message value).satisfiedBy d = true)
        ↔ Text.SettlesSigmas value.toList)
      ∧ (Text.capitalSigma ∉ value.toList → Text.SettlesSigmas value.toList) := by
  refine ⟨rfl, ⟨fun hfinds => ?_, ?_⟩, Text.settlesSigmas_of_not_mem⟩
  · by_contra hunsettled
    obtain ⟨front, back, hnot⟩ := Text.exists_not_infix_lower hunsettled
    let text := String.ofList (front ++ value.toList ++ back)
    have htext : text.toList = front ++ value.toList ++ back := String.toList_ofList
    refine hnot (htext ▸ message_withMessage_iff.mp (hfinds (withMessage text) ?_))
    exact ⟨_, text, rfl, .string text, front, back, htext.symm⟩
  · rintro hsettled d ⟨stored, text, hfield, hholds, front, back, htext⟩
    refine message_finds hfield hholds ?_
    rw [← htext, Text.lower_between, Text.lowerBetween_of_settled hsettled]
    exact ⟨_, _, rfl⟩

/-- The last letter of the value ends a word in the value, but not in the
message. -/
theorem sigma_inside_word_is_missed :
    (withMessage "ΑΣΑ").MessageContains "ΑΣ"
      ∧ (message "ΑΣ").satisfiedBy (withMessage "ΑΣΑ") = false := by
  refine ⟨⟨_, "ΑΣΑ", rfl, .string _, [], ['Α'], by decide⟩, by decide +kernel⟩

end Leaf

end ReviewSearch
