/-
ReviewSearch.Proofs.Log.Lines — one entry is one line, whatever it says.

An entry carries texts that come from outside: a query, the message of a
fault. Quoting leaves no line feed in them (`not_mem_textObject`), so an
entry is one line and its end, and what is read from the line is the entry
again, key by key and in its order (`reads_back_written`). A log is cut at
its line feeds into the lines of its entries (`splitOn_written`): no entry
can pass for two, or for a part of another.
-/
import ReviewSearch.Log.Basic
import ReviewSearch.Proofs.Json.Reading
import ReviewSearch.Proofs.Order.Sorted

namespace ReviewSearch

/-! ## Printable text -/

namespace Json

variable {c : Char} (h : c.toNat < 0x20)
include h

theorem not_mem_quote (text : String) : c ∉ quote text := by
  have hmark : c ≠ '"' := by
    rintro rfl
    exact absurd h (by decide)
  simp only [quote, List.mem_cons, List.mem_append, List.not_mem_nil, or_false, not_or]
  exact ⟨⟨hmark, not_mem_escape h text.toList⟩, hmark⟩

theorem not_mem_textMember (m : String × String) : c ∉ textMember m := by
  have hcolon : c ≠ ':' := by
    rintro rfl
    exact absurd h (by decide)
  simp only [textMember, List.mem_append, List.mem_cons, not_or]
  exact ⟨not_mem_quote h m.1, hcolon, not_mem_quote h m.2⟩

theorem not_mem_commaJoin (parts : List (List Char)) (hparts : ∀ part ∈ parts, c ∉ part) :
    c ∉ commaJoin parts := by
  have hcomma : c ≠ ',' := by
    rintro rfl
    exact absurd h (by decide)
  induction parts with
  | nil => exact List.not_mem_nil
  | cons part parts ih =>
    obtain ⟨hpart, hrest⟩ := List.forall_mem_cons.mp hparts
    cases parts with
    | nil => exact hpart
    | cons next parts =>
      simp only [commaJoin, List.mem_append, List.mem_cons, not_or]
      exact ⟨hpart, hcomma, ih hrest⟩

/-- An object of texts is written in printable characters. -/
theorem not_mem_textObject (ms : List (String × String)) : c ∉ textObject ms := by
  have hopen : c ≠ '\x7b' := by
    rintro rfl
    exact absurd h (by decide)
  have hclose : c ≠ '\x7d' := by
    rintro rfl
    exact absurd h (by decide)
  have hinner : c ∉ commaJoin (ms.map textMember) := by
    refine not_mem_commaJoin h _ fun part hpart => ?_
    obtain ⟨m, -, rfl⟩ := List.mem_map.mp hpart
    exact not_mem_textMember h m
  simp only [textObject, List.cons_append, List.mem_cons, List.mem_append, List.not_mem_nil,
    or_false, not_or]
  exact ⟨hopen, hinner, hclose⟩

end Json

/-! ## One entry -/

namespace Entry

theorem chars_eq_textObject (e : Entry) : e.chars = Json.textObject e.members :=
  rfl

theorem toList_line (e : Entry) : e.line.toList = e.chars :=
  String.toList_ofList

theorem toList_written (e : Entry) : e.written.toList = e.chars ++ ['\n'] := by
  rw [written, String.toList_append, toList_line]
  rfl

theorem not_mem_chars (e : Entry) : '\n' ∉ e.chars :=
  Json.not_mem_textObject (by decide) e.members

theorem sortedFields_perm (e : Entry) : e.sortedFields.Perm e.fields :=
  Order.sortBy_perm _ e.fields

theorem pairwise_sortedFields (e : Entry) :
    e.sortedFields.Pairwise fun a b => a.1 ≤ b.1 := by
  refine (Order.pairwise_sortBy (Order.weak_of_text Prod.fst) e.fields).imp fun hab => ?_
  exact String.not_lt.mp (of_decide_eq_false hab)

/-- Fields of one key stay as they were given. -/
theorem filter_sortedFields (e : Entry) (key : String) :
    e.sortedFields.filter (fun f => f.1 = key) = e.fields.filter fun f => f.1 = key := by
  refine Order.filter_sortBy (fun a b ha hb => ?_) e.fields
  rw [of_decide_eq_true ha, of_decide_eq_true hb]
  exact decide_eq_false (String.lt_irrefl key)

/-- An entry is written as one line: its only line feed is its last
character. The line is an object of texts, which is read as the event, the
severity and the fields, each of them as it was given; the fields are in the
order of their keys, with equal keys in the order in which they were
given. -/
theorem reads_back_written (e : Entry) : ∃ v members,
    e.written.toList = e.line.toList ++ ['\n'] ∧ e.written.toList.count '\n' = 1
      ∧ Json.Raw.read? e.line.toList = some v ∧ v.members? = some members
      ∧ members.map (fun m => (m.1, m.2.text?))
          = ("event", some e.event) :: ("severity", some e.severity.text)
            :: e.sortedFields.map (fun f => (f.1, some f.2))
      ∧ e.sortedFields.Perm e.fields
      ∧ e.sortedFields.Pairwise (fun a b => a.1 ≤ b.1)
      ∧ ∀ key, e.sortedFields.filter (fun f => f.1 = key) = e.fields.filter fun f => f.1 = key := by
  obtain ⟨v, members, hread, hmembers, htexts⟩ := Json.exists_read?_textObject e.members
  have hcount : e.written.toList.count '\n' = 1 := by
    rw [toList_written, List.count_append, List.count_eq_zero.mpr e.not_mem_chars]
    rfl
  refine ⟨v, members, ?_, hcount, ?_, hmembers, htexts, e.sortedFields_perm,
    e.pairwise_sortedFields, e.filter_sortedFields⟩
  · rw [toList_written, toList_line]
  · rw [toList_line, chars_eq_textObject, hread]

example : (Entry.mk .warn "E" [("query", "message:\"a b\"\nnext")]).written
    = "\x7b\"event\":\"E\",\"severity\":\"WARN\",\"query\":\"message:\\\"a b\\\"\\nnext\"\x7d\n" := by
  decide

end Entry

/-! ## A log -/

/-- Entries that are written one behind the other are cut at the line feeds
into their lines, with nothing behind the last. -/
theorem splitOn_written (es : List Entry) :
    (es.flatMap fun e => e.written.toList).splitOn '\n' = es.map Entry.chars ++ [[]] := by
  induction es with
  | nil => rfl
  | cons e es ih =>
    rw [List.flatMap_cons, Entry.toList_written, List.append_assoc, List.singleton_append,
      List.splitOn_append_cons_self_of_not_mem e.not_mem_chars, ih]
    rfl

end ReviewSearch
