/-
ReviewSearch.Proofs.Query.Depth — how deep a query nests, and what becomes
of one that nests too deep.

`nesting` counts, in the tokens of a text, how many minus signs, NOTs and
parentheses are open at once: a parenthesis until it is closed, a sign
until its operand has ended. It needs no grammar.

* `isQuery_iff_deepest` — of a query it is the least number of levels that
  the grammar gives it;
* `parse_of_isQuery` — a text of the grammar, whatever its depth, is
  accepted with its tree if it nests at most 100 levels, and otherwise is
  refused for its depth and for nothing else.
-/
import ReviewSearch.Proofs.Query.Acceptance

namespace ReviewSearch.Query

/-! ## Nesting -/

/-- What is open at some point of a text. -/
inductive Opener where
  | group
  | sign
  deriving DecidableEq

/-- Signs end with their operand. -/
def endOperand (opened : List Opener) : List Opener :=
  opened.dropWhile (· == .sign)

/-- What is open behind a token. -/
def Token.openedBehind : Token → List Opener → List Opener
  | .openGroup, opened => .group :: opened
  | .minus, opened | .word .not, opened => .sign :: opened
  | .term .., opened => endOperand opened
  | .closeGroup, opened => endOperand opened.tail
  | _, opened => opened

/-- The most that is open at once, from a point on where something is open
already. -/
def deepest : List Opener → List Token → Nat
  | opened, [] => opened.length
  | opened, t :: ts => max opened.length (deepest (t.openedBehind opened) ts)

/-- How many minus signs, NOTs and parentheses of a text are inside one
another. -/
def nesting (cs : List Char) : Nat :=
  deepest [] (tokens (lexemes cs))

theorem nesting_eq_of_lexes {cs : List Char} {ts : List Token}
    (h : Lexes cs ts) : nesting cs = deepest [] ts := by
  obtain ⟨rfl, _⟩ := lexes_iff.mp h
  rfl

theorem length_le_deepest (opened : List Opener) (ts : List Token) :
    opened.length ≤ deepest opened ts := by
  cases ts with
  | nil => exact Nat.le_refl _
  | cons t ts => exact Nat.le_max_left ..

/-- The tokens of an operand: what is open before it stays open throughout,
and the signs in front of it end with it. -/
def Nests (ts : List Token) : Prop :=
  ∀ opened rest, deepest opened (ts ++ rest)
    = max (opened.length + deepest [] ts) (deepest (endOperand opened) rest)

/-- The tokens of a group: what is open before them stays open. -/
def NestsInside (ts : List Token) : Prop :=
  ∀ opened rest, endOperand opened = opened →
    deepest opened (ts ++ rest) = max (opened.length + deepest [] ts) (deepest opened rest)

theorem Nests.inside {ts : List Token} (h : Nests ts) : NestsInside ts := by
  intro opened rest hopened
  rw [h, hopened]

theorem NestsInside.append {ts us : List Token} (hts : NestsInside ts) (hus : NestsInside us) :
    NestsInside (ts ++ us) ∧ deepest [] (ts ++ us) = max (deepest [] ts) (deepest [] us) := by
  have hdepth : deepest [] (ts ++ us) = max (deepest [] ts) (deepest [] us) := by
    simpa using hts [] us rfl
  refine ⟨fun opened rest hopened => ?_, hdepth⟩
  rw [List.append_assoc, hts _ _ hopened, hus _ _ hopened, hdepth]
  omega

/-- A word between operands opens nothing. -/
theorem NestsInside.joined {ts us : List Token} (hts : NestsInside ts) (hus : NestsInside us)
    {k : Keyword} (hk : k ≠ .not) : NestsInside (ts ++ .word k :: us)
      ∧ deepest [] (ts ++ .word k :: us) = max (deepest [] ts) (deepest [] us) := by
  have hword (opened : List Opener) (ts : List Token) :
      deepest opened (.word k :: ts) = deepest opened ts := by
    cases k with
    | not => exact absurd rfl hk
    | or | and => exact Nat.max_eq_right (length_le_deepest opened ts)
  have hback : NestsInside (.word k :: us) := by
    intro opened rest hopened
    rw [List.cons_append, hword, hword, hus _ _ hopened]
  rw [← hword [] us]
  exact hts.append hback

theorem Nests.term (name value : List Char) :
    Nests [.term name value] ∧ deepest [] [.term name value] = 0 :=
  ⟨fun _ _ => rfl, rfl⟩

/-- What tokens add to whatever is open before them is what they nest by
themselves. -/
theorem Nests.of_adds {ts : List Token} {n : Nat} (h : ∀ opened rest, deepest opened (ts ++ rest)
    = max (opened.length + n) (deepest (endOperand opened) rest)) :
    Nests ts ∧ deepest [] ts = n := by
  have hdepth : deepest [] ts = n := by
    have halone := h [] []
    rw [List.append_nil] at halone
    rw [halone]
    exact Nat.max_eq_left (Nat.zero_le _) |>.trans (Nat.zero_add n)
  exact ⟨fun opened rest => hdepth ▸ h opened rest, hdepth⟩

theorem Nests.sign {t : Token} {ts : List Token} (ht : t = .minus ∨ t = .word .not)
    (hts : Nests ts) : Nests (t :: ts) ∧ deepest [] (t :: ts) = deepest [] ts + 1 := by
  refine Nests.of_adds fun opened rest => ?_
  have hsign : deepest opened (t :: (ts ++ rest))
      = max opened.length (deepest (.sign :: opened) (ts ++ rest)) := by
    obtain rfl | rfl := ht <;> rfl
  have hend : endOperand (.sign :: opened) = endOperand opened := rfl
  rw [List.cons_append, hsign, hts, hend, List.length_cons]
  omega

theorem NestsInside.group {ts : List Token} (hts : NestsInside ts) :
    Nests (.openGroup :: (ts ++ [.closeGroup]))
      ∧ deepest [] (.openGroup :: (ts ++ [.closeGroup])) = deepest [] ts + 1 := by
  refine Nests.of_adds fun opened rest => ?_
  have hinside := hts (.group :: opened) (.closeGroup :: rest) rfl
  have hclose : deepest (.group :: opened) (.closeGroup :: rest)
      = max (opened.length + 1) (deepest (endOperand opened) rest) := rfl
  show max opened.length (deepest (.group :: opened) (ts ++ [.closeGroup] ++ rest)) = _
  rw [List.append_assoc, List.cons_append, List.nil_append, hinside, hclose, List.length_cons]
  omega

/-! ## Levels of the grammar -/

variable {dialect : Dialect} {phrase : Phrase} {ts : List Token} {p : Predicate}

/-- The phrases of a kind nest less deep than so. -/
def Phrase.NestsBelow (phrase : Phrase) (levels : Nat) : Prop :=
  ∀ ⦃ts : List Token⦄ ⦃p : Predicate⦄, phrase ts p → Nests ts ∧ deepest [] ts < levels

theorem IsAll.nestsInside {levels : Nat} (hphrase : phrase.NestsBelow levels)
    {ps : List Predicate} (h : IsAll phrase ts ps) :
    NestsInside ts ∧ deepest [] ts < levels := by
  induction h with
  | one h => exact (hphrase h).imp_left Nests.inside
  | beside h _ ih =>
    obtain ⟨hfront, hlt⟩ := hphrase h
    obtain ⟨hall, hdepth⟩ := hfront.inside.append ih.1
    exact ⟨hall, hdepth ▸ Nat.max_lt.mpr ⟨hlt, ih.2⟩⟩
  | and h _ ih =>
    obtain ⟨hfront, hlt⟩ := hphrase h
    obtain ⟨hall, hdepth⟩ := hfront.inside.joined ih.1 (by decide : Keyword.and ≠ .not)
    exact ⟨hall, hdepth ▸ Nat.max_lt.mpr ⟨hlt, ih.2⟩⟩

theorem IsAlternatives.nestsInside {levels : Nat} (hphrase : phrase.NestsBelow levels)
    {ps : List Predicate} (h : IsAlternatives phrase ts ps) :
    NestsInside ts ∧ deepest [] ts < levels := by
  induction h with
  | one h => exact h.nestsInside hphrase
  | or h _ ih =>
    obtain ⟨hfront, hlt⟩ := h.nestsInside hphrase
    obtain ⟨hall, hdepth⟩ := hfront.joined ih.1 (by decide : Keyword.or ≠ .not)
    exact ⟨hall, hdepth ▸ Nat.max_lt.mpr ⟨hlt, ih.2⟩⟩

theorem Phrase.NestsBelow.operandWith {levels : Nat} (hinner : phrase.NestsBelow levels) :
    Phrase.NestsBelow (IsOperandWith dialect phrase) (levels + 1) := by
  intro ts p h
  cases h with
  | term =>
    obtain ⟨hnests, hdepth⟩ := Nests.term _ _
    exact ⟨hnests, hdepth ▸ Nat.zero_lt_succ _⟩
  | minus h =>
    obtain ⟨hts, hlt⟩ := hinner h
    obtain ⟨hnests, hdepth⟩ := Nests.sign (.inl rfl) hts
    exact ⟨hnests, hdepth ▸ Nat.succ_lt_succ hlt⟩
  | not h =>
    obtain ⟨hts, hlt⟩ := hinner h
    obtain ⟨hnests, hdepth⟩ := Nests.sign (.inr rfl) hts
    exact ⟨hnests, hdepth ▸ Nat.succ_lt_succ hlt⟩
  | group h =>
    obtain ⟨hts, hlt⟩ := h.nestsInside hinner
    obtain ⟨hnests, hdepth⟩ := hts.group
    exact ⟨hnests, hdepth ▸ Nat.succ_lt_succ hlt⟩

theorem nestsBelow_operand (dialect : Dialect) (levels : Nat) :
    (IsOperand dialect levels).NestsBelow (levels + 1) := by
  induction levels with
  | zero => exact Phrase.NestsBelow.operandWith fun _ _ h => h.elim
  | succ levels ih => exact Phrase.NestsBelow.operandWith ih

/-- Operands that nest less deep than so may be taken from another
phrase. -/
theorem IsAll.imp {phrase' : Phrase} {levels n : Nat} (hphrase : phrase.NestsBelow levels)
    (himp : ∀ {us : List Token} {q : Predicate}, phrase us q → deepest [] us < n → phrase' us q)
    {ps : List Predicate} (h : IsAll phrase ts ps) (hlt : deepest [] ts < n) :
    IsAll phrase' ts ps := by
  induction h with
  | one h => exact .one (himp h hlt)
  | beside h hs ih =>
    obtain ⟨_, hdepth⟩ := (hphrase h).1.inside.append (hs.nestsInside hphrase).1
    obtain ⟨hfront, hback⟩ := Nat.max_lt.mp (hdepth ▸ hlt)
    exact .beside (himp h hfront) (ih hback)
  | and h hs ih =>
    obtain ⟨_, hdepth⟩ := (hphrase h).1.inside.joined (hs.nestsInside hphrase).1
      (by decide : Keyword.and ≠ .not)
    obtain ⟨hfront, hback⟩ := Nat.max_lt.mp (hdepth ▸ hlt)
    exact .and (himp h hfront) (ih hback)

theorem IsAlternatives.imp {phrase' : Phrase} {levels n : Nat}
    (hphrase : phrase.NestsBelow levels)
    (himp : ∀ {us : List Token} {q : Predicate}, phrase us q → deepest [] us < n → phrase' us q)
    {ps : List Predicate} (h : IsAlternatives phrase ts ps) (hlt : deepest [] ts < n) :
    IsAlternatives phrase' ts ps := by
  induction h with
  | one h => exact .one (h.imp hphrase himp hlt)
  | or h hs ih =>
    obtain ⟨_, hdepth⟩ := (h.nestsInside hphrase).1.joined (hs.nestsInside hphrase).1
      (by decide : Keyword.or ≠ .not)
    obtain ⟨hfront, hback⟩ := Nat.max_lt.mp (hdepth ▸ hlt)
    exact .or (h.imp hphrase himp hfront) (ih hback)

theorem nestsBelow_inward (dialect : Dialect) (levels : Nat) :
    (Inward dialect levels).NestsBelow levels := by
  cases levels with
  | zero => exact fun _ _ h => h.elim
  | succ levels => exact nestsBelow_operand dialect levels

theorem IsOperandWith.imp {inner inner' : Phrase} {levels n : Nat}
    (hinner : inner.NestsBelow levels)
    (himp : ∀ {us : List Token} {q : Predicate}, inner us q → deepest [] us < n → inner' us q)
    (h : IsOperandWith dialect inner ts p) (hle : deepest [] ts ≤ n) :
    IsOperandWith dialect inner' ts p := by
  cases h with
  | term h => exact .term h
  | minus h =>
    obtain ⟨_, hdepth⟩ := Nests.sign (.inl rfl) (hinner h).1
    rw [hdepth] at hle
    exact .minus (himp h hle)
  | not h =>
    obtain ⟨_, hdepth⟩ := Nests.sign (.inr rfl) (hinner h).1
    rw [hdepth] at hle
    exact .not (himp h hle)
  | group h =>
    obtain ⟨_, hdepth⟩ := (h.nestsInside hinner).1.group
    rw [hdepth] at hle
    exact .group (h.imp hinner himp hle)

/-- An operand needs no more levels than it nests deep. -/
theorem isOperand_of_deepest_le {levels : Nat} (h : IsOperand dialect levels ts p) {n : Nat}
    (hle : deepest [] ts ≤ n) : IsOperand dialect n ts p := by
  induction levels generalizing n ts p with
  | zero =>
    rw [isOperand_eq] at h ⊢
    exact h.imp (nestsBelow_inward dialect 0) (fun h => h.elim) hle
  | succ levels ih =>
    rw [isOperand_eq] at h ⊢
    refine h.imp (nestsBelow_inward dialect (levels + 1)) (fun {us q} hq hlt => ?_) hle
    obtain ⟨n, rfl⟩ := Nat.exists_eq_add_one.mpr (Nat.zero_lt_of_lt hlt)
    exact ih hq (Nat.le_of_lt_succ hlt)

/-- The levels that a query needs are those that it nests deep. -/
theorem isQuery_iff_deepest {levels : Nat} (h : IsQuery dialect levels ts p) (n : Nat) :
    IsQuery dialect n ts p ↔ deepest [] ts ≤ n := by
  obtain ⟨ps, halt, rfl⟩ := h
  constructor
  · rintro ⟨qs, hqs, _⟩
    exact Nat.le_of_lt_succ (hqs.nestsInside (nestsBelow_operand dialect n)).2
  · intro hle
    exact ⟨ps, halt.imp (nestsBelow_operand dialect levels)
      (fun h hlt => isOperand_of_deepest_le h (Nat.le_of_lt_succ hlt))
      (Nat.lt_succ_of_le hle), rfl⟩

/-! ## Too deep -/

/-- The first outcome is the second, unless it is that the text nests too
deep. -/
def GivesUpOr {α : Type} (x y : Except ParseFault α) : Prop :=
  x = .error (.defect .tooDeep) ∨ x = y

theorem GivesUpOr.refl {α : Type} (x : Except ParseFault α) : GivesUpOr x x :=
  .inr rfl

theorem GivesUpOr.bind {α β : Type} {x y : Except ParseFault α} {f g : α → Except ParseFault β}
    (h : GivesUpOr x y) (hf : ∀ a, GivesUpOr (f a) (g a)) : GivesUpOr (x >>= f) (y >>= g) := by
  obtain rfl | rfl := h
  · exact .inl rfl
  · cases x with
    | error e => exact .refl _
    | ok a => exact hf a

variable {operand operand' : Reader} {inner inner' : Option Reader}

theorem givesUpOr_moreConjuncts (h : ∀ ls, GivesUpOr (operand ls) (operand' ls)) (fuel : Nat)
    (ls : List Lexeme) :
    GivesUpOr (moreConjuncts operand fuel ls) (moreConjuncts operand' fuel ls) := by
  induction fuel generalizing ls with
  | zero => exact .refl _
  | succ fuel ih =>
    have hmore (ls : List Lexeme) :
        GivesUpOr (operandAndMore operand fuel ls) (operandAndMore operand' fuel ls) :=
      (h ls).bind fun r => (ih r.2).bind fun _ => .refl _
    by_cases hends : EndsAll ls
    · rw [moreConjuncts_of_endsAll hends, moreConjuncts_of_endsAll hends]
      exact .refl _
    cases ls with
    | nil => exact .refl _
    | cons l ls =>
      by_cases hl : l.token = .word .and
      · rw [moreConjuncts_of_and hl, moreConjuncts_of_and hl]
        exact (GivesUpOr.refl _).bind fun _ => hmore ls
      · rw [moreConjuncts_of_not_ends hends hl, moreConjuncts_of_not_ends hends hl]
        exact hmore (l :: ls)

theorem givesUpOr_conjunction (h : ∀ ls, GivesUpOr (operand ls) (operand' ls))
    (ls : List Lexeme) : GivesUpOr (conjunction operand ls) (conjunction operand' ls) :=
  (h ls).bind fun r => (givesUpOr_moreConjuncts h r.2.length r.2).bind fun _ => .refl _

theorem givesUpOr_moreDisjuncts (h : ∀ ls, GivesUpOr (operand ls) (operand' ls)) (fuel : Nat)
    (ls : List Lexeme) :
    GivesUpOr (moreDisjuncts operand fuel ls) (moreDisjuncts operand' fuel ls) := by
  induction fuel generalizing ls with
  | zero => exact .refl _
  | succ fuel ih =>
    by_cases hor : ∀ l ∈ ls.head?, l.token ≠ .word .or
    · rw [moreDisjuncts_of_not_or hor, moreDisjuncts_of_not_or hor]
      exact .refl _
    cases ls with
    | nil => exact .refl _
    | cons l ls =>
      have hl : l.token = .word .or := by simpa using hor
      rw [moreDisjuncts_of_or hl, moreDisjuncts_of_or hl]
      exact (GivesUpOr.refl _).bind fun _ => (givesUpOr_conjunction h ls).bind fun r =>
        (ih r.2).bind fun _ => .refl _

theorem givesUpOr_disjunction (h : ∀ ls, GivesUpOr (operand ls) (operand' ls))
    (ls : List Lexeme) : GivesUpOr (disjunction operand ls) (disjunction operand' ls) :=
  (givesUpOr_conjunction h ls).bind fun r =>
    (givesUpOr_moreDisjuncts h r.2.length r.2).bind fun _ => .refl _

theorem givesUpOr_operandWith
    (h : ∀ ls, GivesUpOr (oneLevelIn inner ls) (oneLevelIn inner' ls)) (ls : List Lexeme) :
    GivesUpOr (operandWith dialect inner ls) (operandWith dialect inner' ls) := by
  have hnegation (operator : List Char) (ls : List Lexeme) :
      GivesUpOr (negation inner operator ls) (negation inner' operator ls) :=
    (GivesUpOr.refl _).bind fun _ => (h ls).bind fun _ => .refl _
  cases ls with
  | nil => exact .refl _
  | cons l ls =>
    rw [operandWith, operandWith]
    split
    · exact hnegation _ ls
    · exact hnegation _ ls
    · rw [nested_disjunction, nested_disjunction]
      exact (givesUpOr_disjunction h ls).bind fun _ => .refl _
    all_goals exact .refl _

/-- With fewer levels the reader of operands does the same or gives up. -/
theorem givesUpOr_operand {n m : Nat} (hle : n ≤ m) (ls : List Lexeme) :
    GivesUpOr (Query.operand dialect n ls) (Query.operand dialect m ls) := by
  induction n generalizing m ls with
  | zero =>
    cases m with
    | zero => exact .refl _
    | succ m => exact givesUpOr_operandWith (fun _ => .inl rfl) ls
  | succ n ih =>
    obtain ⟨m, rfl⟩ := Nat.exists_eq_add_one.mpr (Nat.zero_lt_of_lt hle)
    have hinner (ls : List Lexeme) : GivesUpOr (oneLevelIn (some (Query.operand dialect n)) ls)
        (oneLevelIn (some (Query.operand dialect m)) ls) := ih (Nat.le_of_succ_le_succ hle) ls
    exact givesUpOr_operandWith hinner ls

/-- A text of the grammar gives its tree if it does not nest too deep, and
is refused for its depth otherwise. -/
theorem parseText_of_isQuery {levels : Nat} {cs : List Char} (hlexes : Lexes cs ts)
    (h : IsQuery dialect levels ts p) : parseText dialect cs
      = if nesting cs ≤ maxLevels then .ok p else .error (.defect .tooDeep) := by
  have hok : parseText dialect cs = .ok p ↔ nesting cs ≤ maxLevels := by
    obtain ⟨rfl, _⟩ := lexes_iff.mp hlexes
    rw [parseText, parseLexemes_eq_ok_iff, isQuery_iff_deepest h, nesting]
  split_ifs with hdepth
  · exact hok.mpr hdepth
  have hle : maxLevels ≤ levels := by
    have hlevels := (isQuery_iff_deepest h levels).mp h
    rw [← nesting_eq_of_lexes hlexes] at hlevels
    exact Nat.le_trans (Nat.le_of_not_le hdepth) hlevels
  obtain ⟨rfl, _⟩ := lexes_iff.mp hlexes
  obtain ⟨ps, halt, rfl⟩ := h
  have hbegins := begins_operand dialect levels
  have hread : disjunction (Query.operand dialect levels) (lexemes cs ++ []) = .ok (.or ps, []) :=
    complete_disjunction (reads_operand dialect levels) hbegins endsAlternatives_nil halt
  rw [List.append_nil] at hread
  obtain ⟨l, ls, hls, _⟩ := hbegins.exists_cons_of_isAlternatives halt
  have hne : ¬(lexemes cs).isEmpty = true := by simp [hls]
  rw [parseText, parseLexemes, if_neg hne] at hok ⊢
  -- the reader with more levels accepts, so this one does too or gives up
  obtain hdeep | hshallow := givesUpOr_disjunction (givesUpOr_operand hle) (lexemes cs)
  · rw [hdeep]
  · rw [hshallow, hread] at hok
    exact absurd (hok.mp rfl) hdepth

theorem parse_of_isQuery {levels : Nat} {text : String} (hlexes : Lexes text.toList ts)
    (h : IsQuery dialect levels ts p) : dialect.parse text
      = if nesting text.toList ≤ 100 then .ok p
        else .error (.refused "query nesting too deep") := by
  rw [Dialect.parse, parseText_of_isQuery hlexes h, maxLevels]
  split_ifs <;> rfl

end ReviewSearch.Query
