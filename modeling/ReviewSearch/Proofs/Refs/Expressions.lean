/-
ReviewSearch.Proofs.Refs.Expressions — globs and the regular expressions
that say the same.

The pieces `p0`, …, `pn` between the stars of a glob make the expression
`^p0.*p1.* … .*pn$`, in which each piece is escaped. `Engine` is whatever
compiles and searches such expressions. Of an engine only this is used
(`Engine.Documented`): an expression that is written of the two anchors,
runs `.*` and escaped texts finds what these stand for, one behind the
other.

* `Engine.Documented.finds_iff` — the expression of a glob finds just the
  names that consist of its pieces with runs between them;
* `covers_iff_pieces` — so does the glob, and the expression of the glob
  finds what the glob covers.
-/
import Mathlib.Data.List.Infix
import ReviewSearch.Proofs.Refs.Covering
import ReviewSearch.Proofs.Refs.Entries

namespace ReviewSearch.Glob

variable {whole text first : List Char} {rest : List (List Char)}

/-! ## Expressions -/

/-- What an expression is written of. -/
inductive Item where
  /-- The beginning of the searched text. -/
  | start
  /-- Its end. -/
  | finish
  /-- Any number of characters that are no line feeds. -/
  | run
  /-- A text that stands for itself. -/
  | literal (text : List Char)

def Item.write (escape : List Char → List Char) : Item → List Char
  | .start => ['^']
  | .finish => ['$']
  | .run => ".*".toList
  | .literal text => escape text

/-- Items, one behind the other, stand for the front of a text, which is the
end of the whole one. -/
def Matches (whole : List Char) : (items : List Item) → (text : List Char) → Prop
  | [], _ => True
  | .start :: items, text => text = whole ∧ Matches whole items text
  | .finish :: items, text => text = [] ∧ Matches whole items text
  | .run :: items, text => ∃ w tail, '\n' ∉ w ∧ text = w ++ tail ∧ Matches whole items tail
  | .literal p :: items, text => ∃ tail, text = p ++ tail ∧ Matches whole items tail

/-- An engine for regular expressions. It may refuse to compile one. -/
structure Engine where
  /-- A text as an expression that stands for just this text. -/
  escape : List Char → List Char
  /-- Whether a compiled expression is found in a text. -/
  compile? : (expression : List Char) → Option ((text : List Char) → Bool)

namespace Engine

/-- What is relied on: an expression is found in a text if what it is
written of stands for a part of the text. -/
def Documented (e : Engine) : Prop :=
  ∀ items finds, e.compile? (items.flatMap (Item.write e.escape)) = some finds →
    ∀ whole, finds whole = true ↔ ∃ text, text <:+ whole ∧ Matches whole items text

/-- The expression of the pieces of a glob. -/
def expression (e : Engine) (pieces : List (List Char)) : List Char :=
  ['^'] ++ ".*".toList.intercalate (pieces.map e.escape) ++ ['$']

/-- What the expression of a glob is written of. -/
def itemsOf (first : List Char) (rest : List (List Char)) : List Item :=
  .start :: .literal first :: rest.flatMap (fun piece => [.run, .literal piece]) ++ [.finish]

theorem expression_eq (e : Engine) (first : List Char) (rest : List (List Char)) :
    e.expression (first :: rest) = (itemsOf first rest).flatMap (Item.write e.escape) := by
  have hpieces : ".*".toList.intercalate ((first :: rest).map e.escape)
      = e.escape first ++ (rest.flatMap fun piece => [.run, .literal piece]).flatMap
        (Item.write e.escape) := by
    induction rest generalizing first with
    | nil => simp [List.intercalate_singleton]
    | cons piece rest ih =>
      rw [List.map_cons, List.map_cons, List.intercalate_cons_cons, ← List.map_cons, ih]
      simp [Item.write]
  rw [expression, hpieces, itemsOf]
  simp [Item.write]

theorem matches_pieces_iff : Matches whole
    (.literal first :: rest.flatMap (fun piece => [.run, .literal piece]) ++ [.finish]) text
      ↔ RunsBetween first rest text := by
  induction rest generalizing first text with
  | nil =>
    rw [runsBetween_nil_iff]
    simp [Matches]
  | cons piece rest ih =>
    rw [runsBetween_cons_iff]
    simp only [← ih, List.flatMap_cons, List.cons_append, List.nil_append, Matches]
    constructor
    · rintro ⟨_, rfl, w, tail, hw, rfl, h⟩
      exact ⟨w, tail, hw, rfl, h⟩
    · rintro ⟨w, tail, hw, rfl, h⟩
      exact ⟨_, rfl, w, tail, hw, rfl, h⟩

/-- The anchors leave nothing in front of the pieces and nothing behind
them. -/
theorem Documented.finds_iff {e : Engine} (he : e.Documented) {finds : List Char → Bool}
    (h : e.compile? (e.expression (first :: rest)) = some finds) (name : List Char) :
    finds name = true ↔ RunsBetween first rest name := by
  rw [expression_eq] at h
  rw [he _ _ h]
  constructor
  · rintro ⟨_, -, rfl, hmatches⟩
    exact matches_pieces_iff.mp hmatches
  · intro hruns
    exact ⟨name, List.suffix_refl name, rfl, matches_pieces_iff.mpr hruns⟩

/-! ## An engine -/

/-- The characters that do not stand for themselves. -/
def isMeta (c : Char) : Bool :=
  "\\.+*?()|[]\x7b\x7d^$#&-~".toList.contains c

def escapeChar (c : Char) : List Char :=
  if isMeta c then ['\\', c] else [c]

/-- What a run at the front of a text may leave. -/
def behindRuns : List Char → List (List Char)
  | [] => [[]]
  | c :: cs => (c :: cs) :: if c = '\n' then [] else behindRuns cs

/-- Whether an expression stands for a front of `text`, the end of a text of
`size` characters. -/
def standsFor (size : Nat) : (expression text : List Char) → Bool
  | [], _ => true
  | '^' :: e, text => text.length == size && standsFor size e text
  | '$' :: e, text => text.isEmpty && standsFor size e text
  | '.' :: '*' :: e, text => (behindRuns text).any (standsFor size e)
  | '\\' :: c :: e, text => text.head? == some c && standsFor size e text.tail
  | c :: e, text => text.head? == some c && standsFor size e text.tail

/-- An engine for expressions of anchors, runs and escaped texts. -/
def plain : Engine where
  escape text := text.flatMap escapeChar
  compile? expression := some fun whole => whole.tails.any (standsFor whole.length expression)

theorem mem_behindRuns_iff {tail : List Char} :
    tail ∈ behindRuns text ↔ ∃ w, '\n' ∉ w ∧ text = w ++ tail := by
  induction text with
  | nil =>
    rw [behindRuns, List.mem_singleton]
    constructor
    · rintro rfl
      exact ⟨[], List.not_mem_nil, rfl⟩
    · rintro ⟨w, -, h⟩
      exact (List.append_eq_nil_iff.mp h.symm).2
  | cons c cs ih =>
    rw [behindRuns, List.mem_cons]
    constructor
    · rintro (rfl | h)
      · exact ⟨[], List.not_mem_nil, rfl⟩
      · split at h
        · cases h
        · next hc =>
          obtain ⟨w, hw, rfl⟩ := ih.mp h
          exact ⟨c :: w, List.not_mem_cons_of_ne_of_not_mem (Ne.symm hc) hw, rfl⟩
    · rintro ⟨w, hw, h⟩
      cases w with
      | nil => exact .inl h.symm
      | cons d w =>
        obtain ⟨rfl, rfl⟩ := List.cons.inj h
        obtain ⟨hc, hw⟩ := List.ne_and_not_mem_of_not_mem_cons hw
        rw [if_neg (Ne.symm hc)]
        exact .inr (ih.mpr ⟨w, hw, rfl⟩)

theorem standsFor_escapeChar (size : Nat) (c : Char) (e text : List Char) :
    standsFor size (escapeChar c ++ e) text
      = (text.head? == some c && standsFor size e text.tail) := by
  unfold escapeChar
  split
  · rfl
  · next hc =>
    have hne (m : Char) (hm : isMeta m = true) : c ≠ m := fun h => hc (h ▸ hm)
    rw [List.cons_append, List.nil_append, standsFor]
    · exact hne '^' (by decide)
    · exact hne '$' (by decide)
    · exact fun _ h _ => hne '.' (by decide) h
    · exact fun _ _ h _ => hne '\\' (by decide) h

/-- An escaped text stands for itself. -/
theorem standsFor_escape {size : Nat} {p e : List Char} :
    standsFor size (p.flatMap escapeChar ++ e) text = true
      ↔ ∃ tail, text = p ++ tail ∧ standsFor size e tail = true := by
  induction p generalizing text with
  | nil => simp
  | cons c p ih =>
    rw [List.flatMap_cons, List.append_assoc, standsFor_escapeChar, Bool.and_eq_true, ih]
    cases text with
    | nil => simp
    | cons d text =>
      simp only [List.head?_cons, List.tail_cons, beq_iff_eq, Option.some.injEq, List.cons_append,
        List.cons.injEq]
      constructor
      · rintro ⟨rfl, tail, rfl, h⟩
        exact ⟨tail, ⟨rfl, rfl⟩, h⟩
      · rintro ⟨tail, ⟨rfl, rfl⟩, h⟩
        exact ⟨rfl, tail, rfl, h⟩

theorem standsFor_write {items : List Item} (h : text <:+ whole) :
    standsFor whole.length (items.flatMap (Item.write plain.escape)) text = true
      ↔ Matches whole items text := by
  induction items generalizing text with
  | nil => exact iff_of_true rfl trivial
  | cons item items ih =>
    rw [List.flatMap_cons]
    cases item with
    | start =>
      have hstart : text.length = whole.length ↔ text = whole :=
        ⟨h.eq_of_length, congrArg List.length⟩
      simp [Item.write, standsFor, Matches, ih h, hstart]
    | finish => simp [Item.write, standsFor, Matches, ih h]
    | run =>
      have hrun : standsFor whole.length
          (".*".toList ++ items.flatMap (Item.write plain.escape)) text
            = (behindRuns text).any
              (standsFor whole.length (items.flatMap (Item.write plain.escape))) := rfl
      simp only [Item.write, hrun, List.any_eq_true, mem_behindRuns_iff, Matches]
      constructor
      · rintro ⟨tail, ⟨w, hw, rfl⟩, htail⟩
        exact ⟨w, tail, hw, rfl, (ih ((List.suffix_append w tail).trans h)).mp htail⟩
      · rintro ⟨w, tail, hw, rfl, htail⟩
        exact ⟨tail, ⟨w, hw, rfl⟩, (ih ((List.suffix_append w tail).trans h)).mpr htail⟩
    | literal p =>
      have hescape : Item.write plain.escape (.literal p) = p.flatMap escapeChar := rfl
      rw [hescape, standsFor_escape, Matches]
      refine exists_congr fun tail => and_congr_right ?_
      rintro rfl
      exact ih ((List.suffix_append p tail).trans h)

theorem documented_plain : plain.Documented := by
  rintro items finds hfinds whole
  obtain rfl := Option.some.inj hfinds
  simp only [List.any_eq_true, List.mem_tails]
  exact exists_congr fun text => and_congr_right standsFor_write

end Engine

/-! ## Accepted globs -/

/-- The stars cut a glob into two pieces or more, and the first of them is
not empty. -/
theorem exists_pieces (g : Glob) : ∃ first piece rest, g.text.splitOn '*' = first :: piece :: rest
    ∧ first ≠ [] ∧ g.stem = first ∧ (∀ p ∈ first :: piece :: rest, '*' ∉ p)
    ∧ g.text = ['*'].intercalate (first :: piece :: rest) := by
  obtain ⟨first, rest, hcut⟩ := List.exists_cons_of_ne_nil (List.splitOn_ne_nil '*' g.text)
  have hglob := g.isGlob_text
  simp only [isGlob, Bool.and_eq_true, List.contains_iff_mem, bne_iff_ne] at hglob
  obtain ⟨⟨hstar, hhead⟩, -⟩ := hglob
  have hpieces : ∀ p ∈ first :: rest, '*' ∉ p := by
    rw [← hcut, ← Text.splitAt_eq_splitOn]
    exact fun p hp => Text.not_mem_of_mem_splitAt hp
  have htext : g.text = ['*'].intercalate (first :: rest) := by
    rw [← hcut, List.intercalate_splitOn]
  cases rest with
  | nil =>
    rw [htext, List.intercalate_singleton] at hstar
    exact absurd hstar (hpieces first List.mem_cons_self)
  | cons piece rest =>
    have hfront : g.text = first ++ '*' :: ['*'].intercalate (piece :: rest) := by
      rw [htext, List.intercalate_cons_cons, List.append_assoc, List.singleton_append]
    refine ⟨first, piece, rest, hcut, ?_, ?_, hpieces, htext⟩
    · rintro rfl
      exact hhead (by rw [hfront]; rfl)
    · have hplain : ∀ c ∈ first, (c != '*') = true := fun c hc =>
        bne_iff_ne.mpr fun h => hpieces first List.mem_cons_self (h ▸ hc)
      rw [stem, hfront, List.takeWhile_append_of_pos hplain, List.takeWhile_cons_of_neg (by decide),
        List.append_nil]

/-- What a glob covers. Its stars cut it into pieces, of which the first is
its stem and not empty. It covers just the names that consist of these
pieces with runs between them; all of them begin with the stem. The
expression of the pieces finds the same names, whatever engine searches. -/
theorem covers_iff_pieces {text : List Char} {g : Glob} (h : ofText? text = some g) :
    ∃ first piece rest, text.splitOn '*' = first :: piece :: rest ∧ first ≠ [] ∧ g.stem = first
      ∧ (∀ name : String, g.covers name = true
        ↔ RunsBetween first (piece :: rest) name.toList)
      ∧ (∀ name : String, g.covers name = true → g.stem <+: name.toList)
      ∧ ∀ (e : Engine), e.Documented → ∀ finds,
        e.compile? (e.expression (text.splitOn '*')) = some finds →
          ∀ name : String, finds name.toList = g.covers name := by
  obtain rfl := ofText?_eq_some_iff.mp h
  obtain ⟨first, piece, rest, hcut, hne, hstem, hpieces, htext⟩ := g.exists_pieces
  have hcovers (name : String) :
      g.covers name = true ↔ RunsBetween first (piece :: rest) name.toList := by
    rw [covers_iff, htext, covers_iff_runsBetween hpieces]
  refine ⟨first, piece, rest, hcut, hne, hstem, hcovers,
    fun name hname => stem_isPrefix_of_covers hname, fun e he finds hfinds name => ?_⟩
  rw [hcut] at hfinds
  rw [Bool.eq_iff_iff, he.finds_iff hfinds, hcovers]

/-- A piece with a dot in it, between two stars. -/
def dotted : Glob :=
  ⟨"refs/*v1.0*".toList, by decide⟩

/-- The first star takes what looks like the piece but has another character
for its dot. -/
theorem covers_iff_pieces_dotted : ofText? "refs/*v1.0*".toList = some dotted
    ∧ dotted.covers "refs/v1x0/v1.0/a" = true ∧ ∃ finds,
      Engine.plain.compile? (Engine.plain.expression ("refs/*v1.0*".toList.splitOn '*'))
          = some finds
        ∧ finds "refs/v1x0/v1.0/a".toList = true := by
  have hglob : ofText? "refs/*v1.0*".toList = some dotted := ofText?_eq_some_iff.mpr rfl
  obtain ⟨first, piece, rest, hcut, -, -, hcovers, -, hfinds⟩ := covers_iff_pieces hglob
  have hpieces : "refs/*v1.0*".toList.splitOn '*' = ["refs/".toList, "v1.0".toList, []] := by
    decide
  rw [hpieces] at hcut
  simp only [List.cons.injEq] at hcut
  obtain ⟨rfl, rfl, rfl⟩ := hcut
  have hname : dotted.covers "refs/v1x0/v1.0/a" = true :=
    (hcovers _).mpr ⟨["v1x0/".toList, "/a".toList], rfl, by decide, by decide⟩
  exact ⟨hglob, hname, _, rfl,
    (hfinds Engine.plain Engine.documented_plain _ rfl _).trans hname⟩

end ReviewSearch.Glob
