/-
ReviewSearch.Proofs.Refs.Entries — which entries are read, and as what.

A state is stored as `project:ref:id` and a glob as `project:glob`, where
project and ref are PLAIN: not empty, and without colons
(`RefState.Writes`, `Glob.Writes`).

* `splitAt_eq_iff`, `ofHex?_eq_some_iff` — what the readers of the parts
  accept;
* `RefState.ofEntry_eq_ok_iff`, `Glob.ofEntry_eq_ok_iff` — an entry is
  read just if it has the form, and as what it says;
* `mapM_eq_ok_iff` — entries are read all or none, one by one.
-/
import Mathlib.Data.List.Forall2
import ReviewSearch.Proofs.Text.Utf8
import ReviewSearch.Refs.Glob

namespace ReviewSearch

namespace Text

/-! ## Texts with separators -/

theorem splitAt_eq_splitOn (separator : Char) (cs : List Char) :
    splitAt separator cs = cs.splitOn separator := by
  induction cs with
  | nil => rfl
  | cons c cs ih =>
    rw [splitAt, ih, List.splitOn_cons_eq_if_modifyHead]
    simp only [beq_iff_eq]
    split
    · rfl
    · split
      · next h => exact absurd h (List.splitOn_ne_nil _ _)
      · next h => rw [h, List.modifyHead_cons]

theorem not_mem_of_mem_splitAt {separator : Char} {cs part : List Char}
    (h : part ∈ splitAt separator cs) : separator ∉ part := by
  induction cs generalizing part with
  | nil =>
    obtain rfl := List.mem_singleton.mp h
    exact List.not_mem_nil
  | cons c cs ih =>
    rw [splitAt] at h
    split at h
    · rcases List.mem_cons.mp h with rfl | h
      · exact List.not_mem_nil
      · exact ih h
    next hc =>
      split at h
      · obtain rfl := List.mem_singleton.mp h
        simpa using Ne.symm hc
      · next p ps hsplit =>
        rw [hsplit] at ih
        rcases List.mem_cons.mp h with rfl | h
        · simpa [Ne.symm hc] using ih List.mem_cons_self
        · exact ih (List.mem_cons_of_mem _ h)

/-- The pieces of a text have no separator in them, and make the text when
they are joined. -/
theorem splitAt_eq_iff {separator : Char} {cs : List Char} {parts : List (List Char)}
    (hparts : parts ≠ []) : splitAt separator cs = parts ↔
      (∀ part ∈ parts, separator ∉ part) ∧ cs = [separator].intercalate parts := by
  constructor
  · rintro rfl
    refine ⟨fun part => not_mem_of_mem_splitAt, ?_⟩
    rw [splitAt_eq_splitOn, List.intercalate_splitOn]
  · rintro ⟨hnot, rfl⟩
    rw [splitAt_eq_splitOn, List.splitOn_intercalate _ hnot hparts]

/-! ## Hexadecimal digits -/

namespace Hex

/-- What holds of the characters below a bound holds of each of them. -/
theorem forall_char_of_lt {b : Nat} {P : Char → Prop} (h : ∀ n < b, P (Char.ofNat n)) {c : Char}
    (hc : c.toNat < b) : P c := by
  have hp := h c.toNat hc
  rwa [Char.ofNat_toNat] at hp

/-- A digit of either case has the value of the digit in lower case. -/
theorem value?_eq_some_iff {c : Char} {n : Nat} :
    value? c = some n ↔ n < 16 ∧ c.toLower = digit n := by
  by_cases hc : c.toNat < 128
  · have hvalue : ∀ n ∈ value? c, n < 16 ∧ c.toLower = digit n :=
      forall_char_of_lt (P := fun c => ∀ n ∈ value? c, n < 16 ∧ c.toLower = digit n)
        (by decide +kernel) hc
    have hdigit : ∀ n < 16, c.toLower = digit n → value? c = some n :=
      forall_char_of_lt (P := fun c => ∀ n < 16, c.toLower = digit n → value? c = some n)
        (by decide +kernel) hc
    exact ⟨fun h => hvalue n h, fun ⟨hn, h⟩ => hdigit n hn h⟩
  · -- Beyond ASCII there are no digits, and lower case changes nothing.
    have hle (d : Char) (hd : d.toNat < 128) : ¬c ≤ d := fun h => hc (Nat.lt_of_le_of_lt h hd)
    have hnone : value? c = none := by simp [value?, hle]
    have hlower : c.toLower = c := dif_neg fun h => hle 'Z' (by decide) h.2
    rw [hnone, hlower]
    refine iff_of_false nofun ?_
    rintro ⟨hn, rfl⟩
    have hdigits : ∀ n < 16, (digit n).toNat < 128 := by decide
    exact hc (hdigits n hn)

/-- Two digits make an octet. -/
theorem exists_values_iff {a b : Char} {octet : UInt8} :
    (∃ m n, value? a = some m ∧ value? b = some n ∧ UInt8.ofNat (m * 16 + n) = octet)
      ↔ a.toLower = digit (octet.toNat / 16) ∧ b.toLower = digit (octet.toNat % 16) := by
  have hsize := octet.toNat_lt
  constructor
  · rintro ⟨m, n, hm, hn, rfl⟩
    rw [value?_eq_some_iff] at hm hn
    rw [UInt8.toNat_ofNat_of_lt' (show m * 16 + n < 256 by omega),
      show (m * 16 + n) / 16 = m by omega, show (m * 16 + n) % 16 = n by omega]
    exact ⟨hm.2, hn.2⟩
  · rintro ⟨ha, hb⟩
    refine ⟨_, _, value?_eq_some_iff.mpr ⟨by omega, ha⟩,
      value?_eq_some_iff.mpr ⟨by omega, hb⟩, ?_⟩
    rw [Nat.div_add_mod', UInt8.ofNat_toNat]

/-- Digits of either case are read as the octets that they write in lower
case. -/
theorem octets?_eq_some_iff {cs : List Char} {bs : List UInt8} :
    octets? cs = some bs ↔ cs.map Char.toLower = ofOctets bs := by
  induction cs using octets?.induct generalizing bs with
  | case1 => cases bs <;> simp [octets?, ofOctets]
  | case2 c =>
    refine iff_of_false nofun fun h => ?_
    have hlen := congrArg List.length h
    cases bs <;> simp [ofOctets] at hlen
  | case3 a b cs ih =>
    cases bs with
    | nil => simp [octets?, ofOctets, Option.bind_eq_some_iff]
    | cons octet bs =>
      have hcons : octets? (a :: b :: cs) = some (octet :: bs) ↔
          (∃ m n, value? a = some m ∧ value? b = some n ∧ UInt8.ofNat (m * 16 + n) = octet)
            ∧ octets? cs = some bs := by
        simp only [octets?, Option.bind_eq_bind, Option.bind_eq_some_iff, Option.pure_def,
          Option.some.injEq, List.cons.injEq]
        constructor
        · rintro ⟨m, hm, n, hn, bs', hbs, hoctet, rfl⟩
          exact ⟨⟨m, n, hm, hn, hoctet⟩, hbs⟩
        · rintro ⟨⟨m, n, hm, hn, hoctet⟩, hbs⟩
          exact ⟨m, hm, n, hn, bs, hbs, hoctet, rfl⟩
      rw [hcons, exists_values_iff, ih]
      simp only [ofOctets, List.map_cons, List.flatMap_cons, List.cons_append, List.nil_append,
        List.cons.injEq, and_assoc]

end Hex

end Text

/-- An object id is read from its forty digits, in either case. -/
theorem ObjectId.ofHex?_eq_some_iff {cs : List Char} {id : ObjectId} :
    ObjectId.ofHex? cs = some id ↔ cs.map Char.toLower = id.hexChars := by
  obtain ⟨octets, hlength⟩ := id
  rw [ObjectId.ofHex?, ObjectId.hexChars, ← Text.Hex.octets?_eq_some_iff, Option.bind_eq_bind,
    Option.bind_eq_some_iff]
  constructor
  · rintro ⟨octets', hoctets, h⟩
    split at h
    · cases h
      exact hoctets
    · cases h
  · exact fun h => ⟨octets, h, dif_pos hlength⟩

/-! ## Entries -/

/-- A part of an entry that says what it is about: not empty, and without
colons. -/
def IsPlain (part : String) : Prop :=
  part ≠ "" ∧ ':' ∉ part.toList

/-- The entry of a state: the project, the ref, and the id in forty digits
of either case. -/
def RefState.Writes (text : String) (e : String × RefState) : Prop :=
  ∃ hex : String, text = e.1 ++ ":" ++ e.2.name ++ ":" ++ hex ∧ IsPlain e.1 ∧ IsPlain e.2.name
    ∧ hex.toList.map Char.toLower = e.2.id.hexChars

/-- The entry of a glob: the project and the glob. -/
def Glob.Writes (text : String) (e : String × Glob) : Prop :=
  text = e.1 ++ ":" ++ e.2.display ∧ IsPlain e.1

theorem isPlain_iff {cs : List Char} :
    IsPlain (String.ofList cs) ↔ cs ≠ [] ∧ ':' ∉ cs := by
  rw [IsPlain, String.toList_ofList, ne_eq, ne_eq, ← String.ofList_nil, String.ofList_inj]

theorem IsPlain.isEmpty_toList {part : String} (h : IsPlain part) :
    part.toList.isEmpty = false := by
  rw [List.isEmpty_eq_false_iff, ne_eq, String.toList_eq_nil_iff]
  exact h.1

/-! ### States -/

theorem ObjectId.colon_not_mem_of_hexChars {cs : List Char} {id : ObjectId}
    (h : cs.map Char.toLower = id.hexChars) : ':' ∉ cs := by
  intro hcolon
  have hmem : ':' ∈ id.hexChars := h ▸ List.mem_map_of_mem (f := Char.toLower) hcolon
  obtain ⟨octet, -, hdigit⟩ := List.mem_flatMap.mp hmem
  have hdigits : ∀ n < 16, ':' ≠ Text.Hex.digit n := by decide
  have hsize := octet.toNat_lt
  simp only [List.mem_cons, List.not_mem_nil, or_false] at hdigit
  rcases hdigit with hdigit | hdigit
  · exact hdigits _ (by omega) hdigit
  · exact hdigits _ (by omega) hdigit

namespace RefState

theorem ofText?_eq_some_iff {text : String} {e : String × RefState} :
    ofText? text = some e ↔ Writes text e := by
  constructor
  · intro h
    unfold ofText? at h
    split at h
    next project name hex hsplit =>
      obtain ⟨hplain, htext⟩ := (Text.splitAt_eq_iff (by simp)).mp hsplit
      simp only [List.forall_mem_cons] at hplain
      split at h
      · cases h
      next hne =>
        simp only [Bool.or_eq_true, List.isEmpty_iff, not_or] at hne
        obtain ⟨id, hid, rfl⟩ := Option.map_eq_some_iff.mp h
        refine ⟨String.ofList hex, ?_, isPlain_iff.mpr ⟨hne.1, hplain.1⟩,
          isPlain_iff.mpr ⟨hne.2, hplain.2.1⟩, ?_⟩
        · rw [← String.toList_inj, htext]
          simp [List.intercalate]
        · rw [String.toList_ofList]
          exact ObjectId.ofHex?_eq_some_iff.mp hid
    · cases h
  · obtain ⟨project, name, id⟩ := e
    rintro ⟨hex, rfl, hproject, hname, hhex⟩
    have hsplit : Text.splitAt ':' (project ++ ":" ++ name ++ ":" ++ hex).toList
        = [project.toList, name.toList, hex.toList] := by
      rw [Text.splitAt_eq_iff (by simp)]
      refine ⟨?_, by simp [List.intercalate]⟩
      simp only [List.forall_mem_cons]
      exact ⟨hproject.2, hname.2, ObjectId.colon_not_mem_of_hexChars hhex, by simp⟩
    simp only [ofText?, hsplit, hproject.isEmpty_toList, hname.isEmpty_toList, Bool.or_false,
      Bool.false_eq_true, if_false, ObjectId.ofHex?_eq_some_iff.mpr hhex, Option.map_some,
      String.ofList_toList]

theorem ofEntry_eq_ok_iff {text : String} {e : String × RefState} :
    ofEntry (Text.Utf8.encode text) = .ok e ↔ Writes text e := by
  rw [← ofText?_eq_some_iff, ofEntry, Text.Utf8.decode?_encode, Option.bind_some]
  cases ofText? text <;> simp

/-- An empty text is no entry. -/
theorem not_writes_empty (e : String × RefState) : ¬Writes "" e := by
  rintro ⟨hex, h, -⟩
  simpa using congrArg String.toList h

end RefState

/-! ### Globs -/

/-- No character of a name is a forbidden one. -/
theorem RefName.not_isForbidden_of_scan {previous : Char} {slash : Bool} {cs : List Char}
    (h : RefName.scan previous slash cs = true) : ∀ c ∈ cs, RefName.isForbidden c = false := by
  induction cs generalizing previous slash with
  | nil => exact fun _ h => absurd h List.not_mem_nil
  | cons c cs ih =>
    rw [RefName.scan, Bool.and_eq_true, Bool.and_eq_true, Bool.not_eq_true'] at h
    exact List.forall_mem_cons.mpr ⟨h.1.1, ih h.2⟩

namespace Glob

/-- A glob would be a name if its stars were letters, so it has no
colon. -/
theorem colon_not_mem_text (g : Glob) : ':' ∉ g.text := by
  intro hcolon
  have hglob := g.isGlob_text
  simp only [isGlob, RefName.isValid, Bool.and_eq_true] at hglob
  have hmem : ':' ∈ g.text.map fun c => if c = '*' then 'x' else c :=
    List.mem_map.mpr ⟨':', hcolon, rfl⟩
  have hnot := RefName.not_isForbidden_of_scan hglob.2.1.1 ':' hmem
  exact absurd hnot (by decide)

theorem ofText?_eq_some_iff {cs : List Char} {g : Glob} : ofText? cs = some g ↔ g.text = cs := by
  obtain ⟨text, htext⟩ := g
  unfold ofText?
  constructor
  · intro h
    split at h
    · exact (congrArg Glob.text (Option.some.inj h)).symm
    · cases h
  · rintro rfl
    exact dif_pos htext

theorem ofEntryText_eq_ok_iff {text : String} {e : String × Glob} :
    ofEntryText text = .ok e ↔ Writes text e := by
  constructor
  · intro h
    unfold ofEntryText at h
    split at h
    next project glob hsplit =>
      obtain ⟨hplain, htext⟩ := (Text.splitAt_eq_iff (by simp)).mp hsplit
      split at h
      · cases h
      next hne =>
        split at h
        next g hg =>
          obtain rfl := Except.ok.inj h
          rw [List.isEmpty_iff] at hne
          refine ⟨?_, isPlain_iff.mpr ⟨hne, hplain _ List.mem_cons_self⟩⟩
          rw [← String.toList_inj, htext, display, ofText?_eq_some_iff.mp hg]
          simp [List.intercalate]
        · cases h
    · cases h
  · obtain ⟨project, g⟩ := e
    rintro ⟨rfl, hproject⟩
    have hsplit : Text.splitAt ':' (project ++ ":" ++ g.display).toList
        = [project.toList, g.text] := by
      rw [Text.splitAt_eq_iff (by simp)]
      refine ⟨?_, by simp [List.intercalate, display]⟩
      simp only [List.forall_mem_cons]
      exact ⟨hproject.2, g.colon_not_mem_text, by simp⟩
    simp only [ofEntryText, hsplit, hproject.isEmpty_toList, Bool.false_eq_true, if_false,
      ofText?_eq_some_iff.mpr rfl, String.ofList_toList]

theorem ofEntry_eq_ok_iff {text : String} {e : String × Glob} :
    ofEntry (Text.Utf8.encode text) = .ok e ↔ Writes text e := by
  rw [← ofEntryText_eq_ok_iff, ofEntry, Text.Utf8.decode?_encode]

theorem not_writes_empty (e : String × Glob) : ¬Writes "" e := by
  rintro ⟨h, -⟩
  simpa using congrArg String.toList h

end Glob

/-! ## All entries -/

/-- Steps along a list succeed just if each of them does. -/
theorem mapM_eq_ok_iff {ε α β : Type} {f : α → Except ε β} {xs : List α} {ys : List β} :
    xs.mapM f = .ok ys ↔ List.Forall₂ (fun x y => f x = .ok y) xs ys := by
  induction xs generalizing ys with
  | nil =>
    rw [List.mapM_nil, List.forall₂_nil_left_iff]
    exact ⟨fun h => (Except.ok.inj h).symm, fun h => h ▸ rfl⟩
  | cons x xs ih =>
    rw [List.mapM_cons, bind_eq_ok_iff, List.forall₂_cons_left_iff]
    refine exists_congr fun y => ?_
    rw [bind_eq_ok_iff]
    constructor
    · rintro ⟨hy, ys, hys, h⟩
      exact ⟨ys, hy, ih.mp hys, (Except.ok.inj h).symm⟩
    · rintro ⟨ys, hy, hys, rfl⟩
      exact ⟨hy, ys, ih.mpr hys, rfl⟩

/-- The same of steps that fail without a reason. -/
theorem mapM_eq_some_iff {α β : Type} {f : α → Option β} {xs : List α} {ys : List β} :
    xs.mapM f = some ys ↔ List.Forall₂ (fun x y => f x = some y) xs ys := by
  induction xs generalizing ys with
  | nil => simp [eq_comm]
  | cons x xs ih =>
    simp only [List.mapM_cons, Option.bind_eq_bind, Option.pure_def, Option.bind_eq_some_iff,
      Option.some.injEq, ih, List.forall₂_cons_left_iff]
    constructor
    · rintro ⟨y, hy, ys, hys, rfl⟩
      exact ⟨y, ys, hy, hys, rfl⟩
    · rintro ⟨y, ys, hy, hys, rfl⟩
      exact ⟨y, hy, ys, hys, rfl⟩

theorem exists_mem_of_forall₂ {α β : Type} {R : α → β → Prop} {xs : List α} {ys : List β} {y : β}
    (h : List.Forall₂ R xs ys) (hy : y ∈ ys) : ∃ x ∈ xs, R x y := by
  induction h with
  | nil => cases hy
  | cons hxy _ ih =>
    rcases List.mem_cons.mp hy with rfl | hy
    · exact ⟨_, List.mem_cons_self, hxy⟩
    · obtain ⟨x, hx, hR⟩ := ih hy
      exact ⟨x, List.mem_cons_of_mem _ hx, hR⟩

end ReviewSearch
