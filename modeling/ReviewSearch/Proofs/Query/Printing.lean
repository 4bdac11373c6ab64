/-
ReviewSearch.Proofs.Query.Printing — the text of a tree is written from
tokens that have the tree.

`Spells` says of a text that it is written from tokens of a kind wherever
it may stand: at the end, or before whatever ends a bare value. Each piece
of the printer adds its tokens to those of the texts it is put together
from.

* `tokenForm_leaf` — a leaf is one term, whatever its value;
* `spells` — a tree in normal form, over leaves that the dialect reads
  back, is spelled from the tokens of a query with that tree. They nest
  as deep as `Predicate.levels` says.
-/
import ReviewSearch.Predicate.Printer
import ReviewSearch.Proofs.Predicate.NormalForm
import ReviewSearch.Proofs.Query.Depth
import ReviewSearch.Proofs.Query.Operators

namespace ReviewSearch

namespace Predicate

/-! ## Levels of a tree -/

mutual

/-- How many minus signs and parentheses are inside one another in the
text of a tree. -/
def levels : Predicate → Nat
  | .leaf _ => 0
  | .conj ps | .disj ps => levelsOf ps
  | .neg p => (if p.needsGroup then levels p + 1 else levels p) + 1

def levelsOf : List Predicate → Nat
  | [] => 0
  | p :: ps => max (if p.needsGroup then levels p + 1 else levels p) (levelsOf ps)

end

/-- How many there are where the tree is a child. -/
def childLevels (p : Predicate) : Nat :=
  if p.needsGroup then p.levels + 1 else p.levels

/-- The text of a tree where it is a child. -/
def childText (p : Predicate) : List Char :=
  if p.needsGroup then group p.chars else p.chars

theorem childChars_eq_map (ps : List Predicate) : childChars ps = ps.map childText := by
  induction ps with
  | nil => rfl
  | cons p ps ih =>
    rw [childChars, ih]
    rfl

theorem levelsOf_le_iff {ps : List Predicate} {n : Nat} :
    levelsOf ps ≤ n ↔ ∀ p ∈ ps, p.childLevels ≤ n := by
  induction ps with
  | nil => simp [levelsOf]
  | cons p ps ih =>
    rw [levelsOf, Nat.max_le, ih, List.forall_mem_cons]
    rfl

end Predicate

namespace Query

/-! ## Leaves -/

theorem quotedForm_escape (value : List Char) :
    QuotedForm value (value.flatMap fun c => if c = '"' ∨ c = '\\' then ['\\', c] else [c]) := by
  induction value with
  | nil => exact .nil
  | cons c value ih =>
    rw [List.flatMap_cons]
    split_ifs with hc
    · exact .escaped c ih
    · obtain ⟨hquote, hslash⟩ := not_or.mp hc
      exact .plain hquote hslash ih

/-- A value that needs no quotes is bare. -/
theorem valueForm_of_not_needsQuotes {value rest : List Char}
    (h : Leaf.needsQuotes value = false) (hstop : ∀ c ∈ rest.head?, isBareChar c = false) :
    ValueForm value value rest := by
  simp only [Leaf.needsQuotes, Bool.or_eq_false_iff, List.isEmpty_eq_false_iff, beq_eq_false_iff_ne,
    List.any_eq_false, Bool.or_eq_true, beq_iff_eq, not_or] at h
  obtain ⟨⟨⟨hne, hquote⟩, hbrace⟩, hall⟩ := h
  refine .bare hne (fun c hc => ⟨?_, ?_⟩) (fun c hc => ?_) hstop
  · rintro rfl
    exact hquote hc
  · rintro rfl
    exact hbrace hc
  · simp [isBareChar, hall c hc]

/-- The text of a leaf is a term with its operator and its value. -/
theorem tokenForm_leaf {l : Leaf} (hname : l.operator.toList.all isNameChar = true)
    {rest : List Char} (hstop : ∀ c ∈ rest.head?, isBareChar c = false) :
    TokenForm (.term l.operator.toList l.value.toList) l.chars rest := by
  unfold Leaf.chars
  refine .term (List.all_eq_true.mp hname) ?_
  split_ifs with h
  · exact .quoted (quotedForm_escape _)
  · exact valueForm_of_not_needsQuotes (Bool.eq_false_iff.mpr h) hstop

/-! ## Texts of a kind of tokens -/

/-- A text that is written from tokens of a kind, before anything that
ends a bare value. -/
def Spells (cs : List Char) (kind : List Token → Prop) : Prop :=
  ∃ ts, kind ts ∧ ∀ ⦃rest : List Char⦄ ⦃us : List Token⦄,
    (∀ c ∈ rest.head?, isBareChar c = false) → Lexes rest us → Lexes (cs ++ rest) (ts ++ us)

variable {cs cs' : List Char} {kind kind' kind'' : List Token → Prop}

theorem Spells.imp (h : Spells cs kind) (himp : ∀ ts, kind ts → kind' ts) : Spells cs kind' := by
  obtain ⟨ts, hts, hlexes⟩ := h
  exact ⟨ts, himp ts hts, hlexes⟩

/-- A whole text. -/
theorem Spells.lexes (h : Spells cs kind) : ∃ ts, kind ts ∧ Lexes cs ts := by
  obtain ⟨ts, hts, hlexes⟩ := h
  have hwhole : Lexes (cs ++ []) (ts ++ []) := hlexes (by simp) (@Lexes.done [] (by simp))
  rw [List.append_nil, List.append_nil] at hwhole
  exact ⟨ts, hts, hwhole⟩

theorem spells_leaf {l : Leaf} (hname : l.operator.toList.all isNameChar = true) :
    Spells l.chars (· = [.term l.operator.toList l.value.toList]) :=
  ⟨_, rfl, fun _ _ hstop h => .cons (tokenForm_leaf hname hstop) h⟩

theorem Spells.minus (h : Spells cs kind) (himp : ∀ ts, kind ts → kind' (.minus :: ts)) :
    Spells ('-' :: cs) kind' := by
  obtain ⟨ts, hts, hlexes⟩ := h
  refine ⟨.minus :: ts, himp ts hts, fun rest us hstop h => ?_⟩
  show Lexes (['-'] ++ (cs ++ rest)) _
  exact .cons .minus (hlexes hstop h)

theorem Spells.group (h : Spells cs kind)
    (himp : ∀ ts, kind ts → kind' (.openGroup :: (ts ++ [.closeGroup]))) :
    Spells (Predicate.group cs) kind' := by
  obtain ⟨ts, hts, hlexes⟩ := h
  refine ⟨.openGroup :: (ts ++ [.closeGroup]), himp ts hts, fun rest us _ h => ?_⟩
  have hclose : Lexes (')' :: rest) (.closeGroup :: us) := .cons .closeGroup h
  have hinner : Lexes (cs ++ ')' :: rest) (ts ++ .closeGroup :: us) :=
    hlexes (by simp [isBareChar]) hclose
  have hopen : Lexes ('(' :: (cs ++ ')' :: rest)) (.openGroup :: (ts ++ .closeGroup :: us)) :=
    .cons .openGroup hinner
  simpa [Predicate.group] using hopen

theorem Spells.beside (h : Spells cs kind) (h' : Spells cs' kind')
    (himp : ∀ ts us, kind ts → kind' us → kind'' (ts ++ us)) :
    Spells (cs ++ [' '] ++ cs') kind'' := by
  obtain ⟨ts, hts, hlexes⟩ := h
  obtain ⟨us, hus, hlexes'⟩ := h'
  refine ⟨ts ++ us, himp ts us hts hus, fun rest vs hstop h => ?_⟩
  have hback : Lexes (' ' :: (cs' ++ rest)) (us ++ vs) := .blank rfl (hlexes' hstop h)
  have hall := hlexes (by simp [isBareChar, Text.isBlank]) hback
  simpa using hall

theorem Spells.or (h : Spells cs kind) (h' : Spells cs' kind')
    (himp : ∀ ts us, kind ts → kind' us → kind'' (ts ++ .word .or :: us)) :
    Spells (cs ++ [' ', 'O', 'R', ' '] ++ cs') kind'' := by
  obtain ⟨ts, hts, hlexes⟩ := h
  obtain ⟨us, hus, hlexes'⟩ := h'
  refine ⟨ts ++ .word .or :: us, himp ts us hts hus, fun rest vs hstop h => ?_⟩
  have hback : Lexes (' ' :: (cs' ++ rest)) (us ++ vs) := .blank rfl (hlexes' hstop h)
  have hor : Lexes (' ' :: 'O' :: 'R' :: ' ' :: (cs' ++ rest)) (.word .or :: (us ++ vs)) :=
    .blank rfl (.cons (.word .or rfl) hback)
  have hall := hlexes (by simp [isBareChar, Text.isBlank]) hor
  simpa using hall

/-! ## Trees -/

variable {dialect : Dialect} {p : Predicate} {ps : List Predicate}

/-- The tokens of the text of a tree. -/
def Prints (dialect : Dialect) (levels : Nat) (p : Predicate) (ts : List Token) : Prop :=
  IsQuery dialect levels ts p ∧ deepest [] ts = p.levels

/-- The tokens of its text where it is a child. -/
def PrintsChild (dialect : Dialect) (levels : Nat) (p : Predicate) (ts : List Token) : Prop :=
  IsOperand dialect levels ts p ∧ deepest [] ts = p.childLevels

/-- The texts of children, with blanks between them. -/
theorem spells_all {n : Nat} (hne : ps ≠ [])
    (h : ∀ p ∈ ps, Spells p.childText (PrintsChild dialect n p)) :
    Spells (Predicate.intersperse [' '] (ps.map Predicate.childText)) fun ts =>
      IsAll (IsOperand dialect n) ts ps ∧ deepest [] ts = Predicate.levelsOf ps := by
  induction ps with
  | nil => exact absurd rfl hne
  | cons p ps ih =>
    obtain ⟨hfront, hback⟩ := List.forall_mem_cons.mp h
    cases ps with
    | nil =>
      refine hfront.imp fun ts ⟨hp, hdepth⟩ => ⟨.one hp, ?_⟩
      rw [hdepth]
      exact (Nat.max_eq_left (Nat.zero_le _)).symm
    | cons q ps =>
      refine hfront.beside (ih (List.cons_ne_nil _ _) hback) fun ts us hp hps => ?_
      refine ⟨.beside hp.1 hps.1, ?_⟩
      have hnests := nestsBelow_operand dialect n
      obtain ⟨_, hdepth⟩ := (hnests hp.1).1.inside.append (hps.1.nestsInside hnests).1
      rw [hdepth, hp.2, hps.2]
      rfl

/-- The texts of children, with OR between them. -/
theorem spells_alternatives {n : Nat} (hne : ps ≠ [])
    (h : ∀ p ∈ ps, Spells p.childText (PrintsChild dialect n p)) :
    Spells (Predicate.intersperse [' ', 'O', 'R', ' '] (ps.map Predicate.childText)) fun ts =>
      IsAlternatives (IsOperand dialect n) ts (ps.map fun p => .and [p])
        ∧ deepest [] ts = Predicate.levelsOf ps := by
  induction ps with
  | nil => exact absurd rfl hne
  | cons p ps ih =>
    obtain ⟨hfront, hback⟩ := List.forall_mem_cons.mp h
    cases ps with
    | nil =>
      refine hfront.imp fun ts ⟨hp, hdepth⟩ => ⟨.one (.one hp), ?_⟩
      rw [hdepth]
      exact (Nat.max_eq_left (Nat.zero_le _)).symm
    | cons q ps =>
      refine hfront.or (ih (List.cons_ne_nil _ _) hback) fun ts us hp hps => ?_
      refine ⟨.or (.one hp.1) hps.1, ?_⟩
      have hnests := nestsBelow_operand dialect n
      obtain ⟨_, hdepth⟩ := (hnests hp.1).1.inside.joined (hps.1.nestsInside hnests).1
        (by decide : Keyword.or ≠ .not)
      rw [hdepth, hp.2, hps.2]
      rfl

/-- The tokens of an only operand are a query. -/
theorem PrintsChild.prints {n : Nat} {l : Leaf → Prop} (h : p.Normal l)
    (hplain : p.needsGroup = false) {ts : List Token} (hts : PrintsChild dialect n p ts) :
    Prints dialect n p ts := by
  obtain ⟨hp, hdepth⟩ := hts
  refine ⟨⟨[.and [p]], .one (.one hp), ?_⟩, ?_⟩
  · rw [h.and_singleton, h.or_singleton]
  · rw [hdepth, Predicate.childLevels, hplain]
    rfl

/-- The tokens of a query are an operand in parentheses. -/
theorem Prints.group {n : Nat} (hgroup : p.needsGroup = true) {ts : List Token}
    (hts : Prints dialect n p ts) :
    PrintsChild dialect (n + 1) p (.openGroup :: (ts ++ [.closeGroup])) := by
  obtain ⟨⟨ps, halt, rfl⟩, hdepth⟩ := hts
  refine ⟨.group halt, ?_⟩
  obtain ⟨_, hdepth'⟩ := (halt.nestsInside (nestsBelow_operand dialect n)).1.group
  rw [hdepth', hdepth, Predicate.childLevels, if_pos hgroup]

/-- A tree whose text stands in parentheses where it is a child. -/
theorem spells_child_of_group (hgroup : p.needsGroup = true)
    (h : ∀ n, p.levels ≤ n → Spells p.chars (Prints dialect n p)) (n : Nat)
    (hn : p.childLevels ≤ n) : Spells p.childText (PrintsChild dialect n p) := by
  rw [Predicate.childLevels, if_pos hgroup] at hn
  rw [Predicate.childText, if_pos hgroup]
  obtain ⟨n, rfl⟩ := Nat.exists_eq_add_one.mpr (Nat.zero_lt_of_lt hn)
  exact (h n (Nat.le_of_succ_le_succ hn)).group fun ts hts => hts.group hgroup

/-- The text of a tree in normal form is spelled from the tokens of the
tree, alone and as a child. -/
theorem spells (h : p.Normal dialect.Rereads) :
    (∀ n, p.levels ≤ n → Spells p.chars (Prints dialect n p))
      ∧ ∀ n, p.childLevels ≤ n → Spells p.childText (PrintsChild dialect n p) := by
  induction h with
  | @leaf l hl =>
    have hchild (n : Nat) : Spells l.chars (PrintsChild dialect n (.leaf l)) := by
      refine (spells_leaf hl.isName).imp ?_
      rintro _ rfl
      refine ⟨?_, rfl⟩
      rw [isOperand_eq]
      exact .term (by simpa using hl.resolve)
    exact ⟨fun n _ => (hchild n).imp fun ts => PrintsChild.prints (.leaf hl) rfl,
      fun n _ => hchild n⟩
  | @conj ps hmany hflat h ih =>
    have hne : ps ≠ [] := List.ne_nil_of_length_pos (Nat.lt_of_succ_lt hmany)
    have hquery (n : Nat) (hn : (Predicate.conj ps).levels ≤ n) :
        Spells (Predicate.conj ps).chars (Prints dialect n (.conj ps)) := by
      have hall := spells_all hne fun p hp => (ih p hp).2 n (Predicate.levelsOf_le_iff.mp hn p hp)
      rw [Predicate.chars, Predicate.childChars_eq_map]
      refine hall.imp fun ts ⟨hps, hdepth⟩ => ⟨⟨[.and ps], .one hps, ?_⟩, hdepth⟩
      rw [Predicate.and_eq_conj hmany hflat, (Predicate.Normal.conj hmany hflat h).or_singleton]
    exact ⟨hquery, spells_child_of_group rfl hquery⟩
  | @disj ps hmany hflat h ih =>
    have hne : ps ≠ [] := List.ne_nil_of_length_pos (Nat.lt_of_succ_lt hmany)
    have hquery (n : Nat) (hn : (Predicate.disj ps).levels ≤ n) :
        Spells (Predicate.disj ps).chars (Prints dialect n (.disj ps)) := by
      have hall := spells_alternatives hne
        fun p hp => (ih p hp).2 n (Predicate.levelsOf_le_iff.mp hn p hp)
      rw [Predicate.chars, Predicate.childChars_eq_map]
      refine hall.imp fun ts ⟨hps, hdepth⟩ => ⟨⟨_, hps, ?_⟩, hdepth⟩
      rw [List.map_congr_left fun p hp => (h p hp).and_singleton, List.map_id',
        Predicate.or_eq_disj hmany hflat]
    exact ⟨hquery, spells_child_of_group rfl hquery⟩
  | @neg p hplain h ih =>
    have hchild (n : Nat) (hn : (Predicate.neg p).levels ≤ n) :
        Spells (Predicate.neg p).chars (PrintsChild dialect n (.neg p)) := by
      obtain ⟨n, rfl⟩ := Nat.exists_eq_add_one.mpr (Nat.zero_lt_of_lt hn)
      rw [Predicate.levels] at hn
      have hinner := ih.2 n (Nat.le_of_succ_le_succ hn)
      refine hinner.minus fun ts hts => ⟨?_, ?_⟩
      · rw [← hplain]
        exact .minus hts.1
      · obtain ⟨_, hdepth⟩ := Nests.sign (.inl rfl) (nestsBelow_operand dialect n hts.1).1
        rw [hdepth, hts.2]
        rfl
    exact ⟨fun n hn => (hchild n hn).imp fun ts => PrintsChild.prints (.neg hplain h) rfl, hchild⟩

end Query

end ReviewSearch
