/-
ReviewSearch.Text.Blank — the characters that separate words.

Query text and request lines are cut at Unicode white space, which is a
larger set than the ASCII blanks. `isBlank` is the property
`White_Space`; `skipBlank` drops a leading run of it.
-/
namespace ReviewSearch.Text

/-- Unicode `White_Space`. -/
def isBlank (c : Char) : Bool :=
  let n := c.toNat
  (9 ≤ n && n ≤ 13) || n == 0x20 || n == 0x85 || n == 0xA0 || n == 0x1680
    || (0x2000 ≤ n && n ≤ 0x200A) || n == 0x2028 || n == 0x2029 || n == 0x202F
    || n == 0x205F || n == 0x3000

/-- Every blank that the core library knows is one here. -/
theorem isBlank_of_isWhitespace {c : Char} (h : c.isWhitespace = true) : isBlank c = true := by
  simp only [Char.isWhitespace, Bool.or_eq_true, decide_eq_true_eq] at h
  rcases h with ((rfl | rfl) | rfl) | rfl <;> decide

/-- The text without its leading blanks. -/
def skipBlank (cs : List Char) : List Char :=
  cs.dropWhile isBlank

/-- Whether a text holds nothing but blanks. -/
def allBlank (cs : List Char) : Bool :=
  cs.all isBlank

theorem skipBlank_length_le (cs : List Char) : (skipBlank cs).length ≤ cs.length :=
  (List.dropWhile_sublist isBlank).length_le

theorem skipBlank_eq_nil_iff (cs : List Char) : skipBlank cs = [] ↔ allBlank cs = true := by
  induction cs with
  | nil => simp [skipBlank, allBlank]
  | cons c cs ih =>
    rw [skipBlank, allBlank] at ih
    by_cases h : isBlank c = true
    · rw [skipBlank, allBlank, List.dropWhile_cons_of_pos h, List.all_cons, h, Bool.true_and]
      exact ih
    · simp [skipBlank, allBlank, h]

end ReviewSearch.Text
