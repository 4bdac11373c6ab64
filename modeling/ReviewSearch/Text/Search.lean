/-
ReviewSearch.Text.Search — one text inside another.
-/
namespace ReviewSearch.Text

/-- Whether `needle` stands somewhere in the text, without gaps. -/
def occursIn (needle : List Char) : List Char → Bool
  | [] => needle.isEmpty
  | c :: cs => needle.isPrefixOf (c :: cs) || occursIn needle cs

/-- `occursIn` decides whether a list is a contiguous part of another. -/
theorem occursIn_iff (needle text : List Char) :
    occursIn needle text = true ↔ ∃ before after, text = before ++ needle ++ after := by
  induction text with
  | nil =>
    rw [occursIn, List.isEmpty_iff]
    constructor
    · rintro rfl; exact ⟨[], [], rfl⟩
    · rintro ⟨b, a, h⟩; simp at h; exact h.2.1
  | cons c cs ih =>
    rw [occursIn, Bool.or_eq_true, ih, List.isPrefixOf_iff_prefix]
    constructor
    · rintro (⟨a, h⟩ | ⟨b, a, rfl⟩)
      · exact ⟨[], a, by simp [← h]⟩
      · exact ⟨c :: b, a, by simp⟩
    · rintro ⟨b, a, h⟩
      cases b with
      | nil => exact .inl ⟨a, by simpa using h.symm⟩
      | cons d b =>
        simp only [List.cons_append, List.cons.injEq] at h
        exact .inr ⟨b, a, h.2⟩

/-- Pieces of a text with a separator between them. -/
def joinWith (separator : String) : List String → String
  | [] => ""
  | [s] => s
  | s :: ss => s ++ separator ++ joinWith separator ss

/-- Cuts a list at every `separator`; there is one piece more than there
are separators. -/
def splitAt (separator : Char) : List Char → List (List Char)
  | [] => [[]]
  | c :: cs =>
    if c = separator then [] :: splitAt separator cs
    else
      match splitAt separator cs with
      | [] => [[c]]
      | p :: ps => (c :: p) :: ps

end ReviewSearch.Text
