/-
ReviewSearch.Proofs.Query.RoundTrip — what the parser makes of the text of
a tree that it made itself.

The text of such a tree is a text of the grammar with just that tree: it
is accepted and gives the tree again, or it nests deeper than 100 levels
and is refused for that. It can nest deeper than the text that was parsed,
since each AND inside an OR gets parentheses of its own, but at most twice
as deep and one level more; the texts of `ladder` reach that bound.

* `normal_of_parse` — the parser makes trees in normal form, of leaves
  that the dialect reads back;
* `changes_parse_display` — what becomes of the text of a parsed tree;
* `changes_display_too_deep_iff` — when it is refused, and how deep it
  nests.
-/
import ReviewSearch.Proofs.Query.Printing

namespace ReviewSearch

/-! ## How many levels the builders add -/

namespace Predicate

variable {p : Predicate} {ps : List Predicate} {n : Nat}

theorem levels_le_childLevels (p : Predicate) : p.levels ≤ p.childLevels := by
  unfold childLevels
  split_ifs <;> omega

theorem childLevels_le (p : Predicate) : p.childLevels ≤ p.levels + 1 := by
  unfold childLevels
  split_ifs <;> omega

theorem levels_unlessOnly_le {node : List Predicate → Predicate}
    (hnode : ∀ ps, (node ps).levels = levelsOf ps) (h : ∀ p ∈ ps, p.childLevels ≤ n) :
    (unlessOnly node ps).levels ≤ n := by
  unfold unlessOnly
  split
  · next p => exact Nat.le_trans (levels_le_childLevels p) (h p List.mem_cons_self)
  · rw [hnode]
    exact levelsOf_le_iff.mpr h

/-- The parts of an AND nest no deeper than it does as a child. -/
theorem childLevels_conjuncts_le (h : p.childLevels ≤ n) :
    ∀ q ∈ p.conjuncts, q.childLevels ≤ n := by
  cases p with
  | conj ps => exact levelsOf_le_iff.mp (Nat.le_of_succ_le h)
  | leaf | disj | neg => exact List.forall_mem_singleton.mpr h

theorem childLevels_disjuncts_le (h : p.childLevels ≤ n) :
    ∀ q ∈ p.disjuncts, q.childLevels ≤ n := by
  cases p with
  | disj ps => exact levelsOf_le_iff.mp (Nat.le_of_succ_le h)
  | leaf | conj | neg => exact List.forall_mem_singleton.mpr h

theorem levels_and_le (h : ∀ p ∈ ps, p.childLevels ≤ n) : (Predicate.and ps).levels ≤ n := by
  rw [and_eq]
  refine levels_unlessOnly_le (fun _ => rfl) fun q hq => ?_
  obtain ⟨p, hp, hq⟩ := List.mem_flatMap.mp hq
  exact childLevels_conjuncts_le (h p hp) q hq

theorem levels_or_le (h : ∀ p ∈ ps, p.childLevels ≤ n) : (Predicate.or ps).levels ≤ n := by
  rw [or_eq]
  refine levels_unlessOnly_le (fun _ => rfl) fun q hq => ?_
  obtain ⟨p, hp, hq⟩ := List.mem_flatMap.mp hq
  exact childLevels_disjuncts_le (h p hp) q hq

theorem childLevels_not_le (p : Predicate) : p.not.childLevels ≤ p.childLevels + 1 := by
  cases p with
  | neg p => exact Nat.le_trans (Nat.le_succ _) (Nat.le_succ _)
  | leaf | conj | disj => exact Nat.le_refl _

end Predicate

namespace Query

/-! ## Parsed trees -/

variable {dialect : Dialect} {phrase : Phrase} {ts : List Token} {p : Predicate}

/-! ### Normal form -/

theorem IsAlternatives.normal {kind : Leaf → Prop}
    (hphrase : phrase.Gives (Predicate.Normal kind)) {qs : List Predicate}
    (h : IsAlternatives phrase ts qs) : (Predicate.or qs).Normal kind := by
  obtain ⟨hne, hnormal⟩ := h.forall_mem hphrase Predicate.Normal.and
  exact Predicate.Normal.or hne hnormal

theorem Phrase.Gives.normal_operandWith (hterms : dialect.RereadsTerms)
    (hinner : phrase.Gives (Predicate.Normal dialect.Rereads)) :
    Phrase.Gives (IsOperandWith dialect phrase) (Predicate.Normal dialect.Rereads) := by
  intro ts p h
  cases h with
  | term h =>
    obtain ⟨l, rfl, hl⟩ := hterms h
    exact .leaf hl
  | minus h | not h => exact (hinner h).not
  | group h => exact h.normal hinner

theorem normal_operand (hterms : dialect.RereadsTerms) (levels : Nat) :
    (IsOperand dialect levels).Gives (Predicate.Normal dialect.Rereads) := by
  induction levels with
  | zero => exact Phrase.Gives.normal_operandWith hterms fun _ _ h => h.elim
  | succ levels ih => exact Phrase.Gives.normal_operandWith hterms ih

/-- A query has a tree in normal form. -/
theorem IsQuery.normal (hterms : dialect.RereadsTerms) {levels : Nat}
    (h : IsQuery dialect levels ts p) : p.Normal dialect.Rereads := by
  obtain ⟨ps, halt, rfl⟩ := h
  exact halt.normal (normal_operand hterms levels)

/-! ### Levels -/

theorem IsAlternatives.levels_le {n : Nat} (hphrase : phrase.Gives fun q => q.childLevels ≤ n)
    {qs : List Predicate} (h : IsAlternatives phrase ts qs) :
    (Predicate.or qs).levels ≤ n + 1 := by
  have hand {ps : List Predicate} (_ : ps ≠ []) (hps : ∀ p ∈ ps, p.childLevels ≤ n) :
      (Predicate.and ps).childLevels ≤ n + 1 :=
    Nat.le_trans (Predicate.childLevels_le _) (Nat.succ_le_succ (Predicate.levels_and_le hps))
  exact Predicate.levels_or_le (h.forall_mem hphrase hand).2

theorem childLevels_operand_le (hterms : dialect.RereadsTerms) (levels : Nat) :
    (IsOperand dialect levels).Gives fun p => p.childLevels ≤ 2 * levels := by
  have hterm {name value : List Char} {q : Predicate}
      (h : dialect.resolve (String.ofList name) (String.ofList value) = .ok q) :
      q.childLevels = 0 := by
    obtain ⟨l, rfl, _⟩ := hterms h
    rfl
  induction levels with
  | zero =>
    intro ts p h
    cases h with
    | term h => exact Nat.le_of_eq (hterm h)
    | minus h | not h => exact h.elim
    | group h =>
      obtain ⟨_, _, h⟩ := h.exists_operand
      exact h.elim
  | succ levels ih =>
    intro ts p h
    cases h with
    | term h => exact Nat.le_trans (Nat.le_of_eq (hterm h)) (Nat.zero_le _)
    | @minus _ q h | @not _ q h =>
      have hq := ih h
      have hnot := q.childLevels_not_le
      omega
    | @group _ qs h =>
      have hor := h.levels_le ih
      have hgroup := (Predicate.or qs).childLevels_le
      omega

/-- Printing at most doubles the levels of a query and adds one. -/
theorem IsQuery.levels_le (hterms : dialect.RereadsTerms) {levels : Nat}
    (h : IsQuery dialect levels ts p) : p.levels ≤ 2 * levels + 1 := by
  obtain ⟨ps, halt, rfl⟩ := h
  exact halt.levels_le (childLevels_operand_le hterms levels)

/-! ## Texts of trees -/

/-- The text of a tree in normal form is a query with that tree. -/
theorem display_isQuery (h : p.Normal dialect.Rereads) :
    ∃ ts, Lexes p.display.toList ts ∧ Prints dialect p.levels p ts := by
  obtain ⟨ts, hprints, hlexes⟩ := ((spells h).1 p.levels (Nat.le_refl _)).lexes
  rw [Predicate.display, String.toList_ofList]
  exact ⟨ts, hlexes, hprints⟩

theorem nesting_display (h : p.Normal dialect.Rereads) :
    nesting p.display.toList = p.levels := by
  obtain ⟨ts, hlexes, _, hdepth⟩ := display_isQuery h
  rw [nesting_eq_of_lexes hlexes, hdepth]

/-- The text of a tree in normal form gives the tree, or nests too
deep. -/
theorem parse_display (h : p.Normal dialect.Rereads) : dialect.parse p.display
    = if nesting p.display.toList ≤ 100 then .ok p
      else .error (.refused "query nesting too deep") := by
  obtain ⟨ts, hlexes, hquery, _⟩ := display_isQuery h
  exact parse_of_isQuery hlexes hquery

/-- The tree of an accepted text is in normal form, and its text nests at
most twice as deep as the other and one level more. -/
theorem normal_of_parse (hterms : dialect.RereadsTerms) {text : String}
    (h : dialect.parse text = .ok p) :
    p.Normal dialect.Rereads ∧ p.levels ≤ 2 * nesting text.toList + 1 := by
  rw [parse_eq_ok_iff_parseText, parseText_eq_ok_iff] at h
  obtain ⟨ts, hlexes, hquery⟩ := h
  have hleast : IsQuery dialect (nesting text.toList) ts p := by
    rw [isQuery_iff_deepest hquery, nesting_eq_of_lexes hlexes]
  exact ⟨hquery.normal hterms, hleast.levels_le hterms⟩

/-! ## Ladders -/

/-- A text of `n` levels, each of which printing makes two: an AND inside
an OR gets parentheses of its own. -/
def ladder : Nat → List Char
  | 0 => "ref:c OR ref:d ref:e".toList
  | n + 1 => "ref:a OR ref:b (".toList ++ (ladder n ++ [')'])

def rung (value : String) : Predicate :=
  .leaf (.exact "ref" value)

def ladderTree : Nat → Predicate
  | 0 => .disj [rung "c", .conj [rung "d", rung "e"]]
  | n + 1 => .disj [rung "a", .conj [rung "b", ladderTree n]]

theorem needsGroup_ladderTree (n : Nat) : (ladderTree n).needsGroup = true := by
  cases n <;> rfl

theorem levels_ladderTree (n : Nat) : (ladderTree n).levels = 2 * n + 1 := by
  induction n with
  | zero => rfl
  | succ n ih =>
    have hchild : (ladderTree n).childLevels = 2 * n + 1 + 1 := by
      rw [Predicate.childLevels, if_pos (needsGroup_ladderTree n), ih]
    show max 0 (max (max 0 (max (ladderTree n).childLevels 0) + 1) 0) = _
    rw [hchild]
    omega

theorem spells_ladder (n : Nat) :
    Spells (ladder n) fun ts => IsQuery Dialect.changes n ts (ladderTree n) := by
  have hrung (n : Nat) (value : String) : Spells (rung value).chars
      fun ts => IsOperand Dialect.changes n ts (rung value) := by
    have hname : "ref".toList.all isNameChar = true := rfl
    have hread : Dialect.changes.resolve "ref" value = .ok (rung value) := by rfl
    have hleaf : Dialect.changes.Rereads (.exact "ref" value) := ⟨hname, hread⟩
    exact ((spells (.leaf hleaf)).2 n (Nat.zero_le n)).imp fun ts h => h.1
  induction n with
  | zero =>
    have hall : Spells _ fun ts => IsAll (IsOperand Dialect.changes 0) ts [rung "d", rung "e"] :=
      (hrung 0 "d").beside (hrung 0 "e") fun ts us hd he => .beside hd (.one he)
    exact (hrung 0 "c").or hall fun ts us hc hall => ⟨_, .or (.one hc) (.one hall), rfl⟩
  | succ n ih =>
    have hgroup : Spells (Predicate.group (ladder n))
        fun ts => IsOperand Dialect.changes (n + 1) ts (ladderTree n) :=
      ih.group fun ts ⟨ps, halt, heq⟩ => heq ▸ .group halt
    have hall : Spells _
        fun ts => IsAll (IsOperand Dialect.changes (n + 1)) ts [rung "b", ladderTree n] :=
      (hrung (n + 1) "b").beside hgroup fun ts us hb h => .beside hb (.one h)
    have htree : ladderTree (n + 1) = .or [.and [rung "a"], .and [rung "b", ladderTree n]] := by
      cases n <;> rfl
    exact (hrung (n + 1) "a").or hall
      fun ts us ha hall => ⟨_, .or (.one ha) (.one hall), htree⟩

theorem parse_ladder {n : Nat} (hn : n ≤ 100) :
    Dialect.changes.parse (String.ofList (ladder n)) = .ok (ladderTree n) := by
  obtain ⟨ts, hquery, hlexes⟩ := (spells_ladder n).lexes
  rw [parse_of_isQuery ((String.toList_ofList).symm ▸ hlexes) hquery, String.toList_ofList,
    nesting_eq_of_lexes hlexes]
  exact if_pos (Nat.le_trans ((isQuery_iff_deepest hquery n).mp hquery) hn)

theorem normal_ladderTree (n : Nat) : (ladderTree n).Normal Dialect.changes.Rereads := by
  obtain ⟨ts, hquery, _⟩ := (spells_ladder n).lexes
  exact hquery.normal Dialect.changes_rereadsTerms

/-- The text of a ladder's tree nests as deep as the text of any tree
can. -/
theorem nesting_ladder (n : Nat) : nesting (ladder n) = n
    ∧ nesting (ladderTree n).display.toList = 2 * n + 1 := by
  obtain ⟨ts, hquery, hlexes⟩ := (spells_ladder n).lexes
  have hmost := (isQuery_iff_deepest hquery n).mp hquery
  have hleast := ((isQuery_iff_deepest hquery _).mpr (Nat.le_refl _)).levels_le
    Dialect.changes_rereadsTerms
  rw [levels_ladderTree] at hleast
  refine ⟨?_, by rw [nesting_display (normal_ladderTree n), levels_ladderTree]⟩
  rw [nesting_eq_of_lexes hlexes]
  omega

end Query

namespace Dialect

open Query

/-- Printing and parsing again gives the tree of an accepted query, unless
the text that is printed nests more than 100 levels deep, and then it is
refused for that. -/
theorem changes_parse_display {text : String} {p : Predicate} (h : changes.parse text = .ok p) :
    (nesting p.display.toList ≤ 100 → changes.parse p.display = .ok p)
      ∧ (100 < nesting p.display.toList →
        changes.parse p.display = .error (.refused "query nesting too deep")) := by
  obtain ⟨hnormal, _⟩ := normal_of_parse changes_rereadsTerms h
  rw [parse_display hnormal]
  exact ⟨fun hle => if_pos hle, fun hlt => if_neg (Nat.not_le_of_lt hlt)⟩

/-- A NOT over an OR, values that need quotes or braces, a NOT over a
minus sign, and a count with a plus sign. -/
def mixedText : String :=
  "-(topic:\"say \\\"hi\\\"\" OR is:OPEN file:\x7ba (b)\x7d) NOT -limit:+05"

def mixedTree : Predicate :=
  .conj [.neg (.disj [.leaf (.exact "topic" "say \"hi\""),
    .conj [.leaf .statusOpen, .leaf (.exact "file" "a (b)")]]), .leaf (.limit 5)]

theorem changes_parse_display_mixed :
    changes.parse mixedText = .ok mixedTree
      ∧ changes.parse mixedTree.display = .ok mixedTree
      ∧ changes.parse (ladderTree 50).display
        = .error (.refused "query nesting too deep") := by
  have hmixed : changes.parse mixedText = .ok mixedTree := by decide +kernel
  have hladder := parse_ladder (by decide : 50 ≤ 100)
  refine ⟨hmixed, (changes_parse_display hmixed).1 (by decide +kernel), ?_⟩
  exact (changes_parse_display hladder).2 (by rw [(nesting_ladder 50).2]; decide)

/-- Printing makes an accepted query too deep just if its printed text
nests more than 100 levels, which takes a query of at least 50. -/
theorem changes_display_too_deep_iff {text : String} {p : Predicate}
    (h : changes.parse text = .ok p) :
    (changes.parse p.display = .error (.refused "query nesting too deep")
        ↔ 100 < nesting p.display.toList)
      ∧ nesting p.display.toList ≤ 2 * nesting text.toList + 1 := by
  obtain ⟨hnormal, hle⟩ := normal_of_parse changes_rereadsTerms h
  refine ⟨?_, nesting_display hnormal ▸ hle⟩
  rw [parse_display hnormal]
  split_ifs with hdepth
  · exact ⟨fun h => (nomatch h), fun hlt => absurd hdepth (Nat.not_le_of_lt hlt)⟩
  · exact ⟨fun _ => Nat.lt_of_not_le hdepth, fun _ => rfl⟩

theorem changes_display_too_deep_iff_ladder :
    changes.parse (String.ofList (ladder 50)) = .ok (ladderTree 50)
      ∧ (changes.parse (ladderTree 50).display = .error (.refused "query nesting too deep")
        ↔ 100 < nesting (ladderTree 50).display.toList)
      ∧ nesting (ladderTree 50).display.toList
        ≤ 2 * nesting (String.ofList (ladder 50)).toList + 1 :=
  ⟨parse_ladder (by decide), changes_display_too_deep_iff (parse_ladder (by decide))⟩

/-- A query of 50 levels that is accepted, and is not when it has been
printed. -/
theorem ladder_display_too_deep :
    changes.parse (String.ofList (ladder 50)) = .ok (ladderTree 50)
      ∧ changes.parse (ladderTree 50).display
        = .error (.refused "query nesting too deep") := by
  refine ⟨parse_ladder (by decide), ?_⟩
  rw [parse_display (normal_ladderTree 50), (nesting_ladder 50).2]
  rfl

end Dialect

end ReviewSearch
