/-
ReviewSearch.Load.Contents — the contents of files.
-/
import ReviewSearch.Json.Raw
import ReviewSearch.Text.Utf8

namespace ReviewSearch

/-- The octets of a file, or `none` if there is no such file. -/
abbrev Contents : Type := Option (List UInt8)

namespace Contents

/-- Reads a file of JSON in UTF-8. `what` names its kind in the reason
for a refusal. -/
def read {α : Type} (what : String) (meaning : Json.Raw → Option α) (file : Contents) :
    Except String α :=
  match file.bind Text.Utf8.decode? with
  | none => .error ("Failed to read " ++ what)
  | some text =>
    match (Json.Raw.read? text.toList).bind meaning with
    | none => .error ("Invalid " ++ what ++ " JSON")
    | some a => .ok a

/-- What is read is the meaning of the JSON in the file. -/
theorem read_eq_ok_iff {α : Type} {what : String} {meaning : Json.Raw → Option α} {file : Contents}
    {a : α} : file.read what meaning = .ok a ↔ ∃ text, file.bind Text.Utf8.decode? = some text
      ∧ ∃ v, Json.Raw.read? text.toList = some v ∧ meaning v = some a := by
  unfold read
  cases file.bind Text.Utf8.decode? with
  | none => exact ⟨nofun, nofun⟩
  | some text =>
    simp only [Option.some.injEq, exists_eq_left', ← Option.bind_eq_some_iff]
    cases (Json.Raw.read? text.toList).bind meaning with
    | none => exact ⟨nofun, nofun⟩
    | some b => simp

end Contents

end ReviewSearch
