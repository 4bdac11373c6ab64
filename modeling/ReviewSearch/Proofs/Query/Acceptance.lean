/-
ReviewSearch.Proofs.Query.Acceptance — the parser accepts just the texts
of the grammar.

* `Reads` — a reader finds a phrase wherever one begins, and leaves the
  text behind it alone; what it finds is one;
* `reads_operand` — so does the reader of operands, level by level;
* `parse_eq_ok_iff` — the parser accepts a text just if it is written from
  the tokens of a query with at most 100 levels, and gives its tree.
-/
import ReviewSearch.Proofs.Query.Grammar
import ReviewSearch.Query.Parser

namespace ReviewSearch.Query

/-! ## Operands side by side -/

/-- A reader finds what a phrase allows, and all that it allows. -/
structure Reads (reader : Reader) (phrase : Phrase) : Prop where
  sound {ls rest : List Lexeme} {p : Predicate} (h : reader ls = .ok (p, rest)) :
    ∃ used, ls = used ++ rest ∧ phrase (tokens used) p
  complete {used : List Lexeme} {p : Predicate} (h : phrase (tokens used) p)
    (rest : List Lexeme) : reader (used ++ rest) = .ok (p, rest)

@[simp] theorem tokens_append (ls ls' : List Lexeme) :
    tokens (ls ++ ls') = tokens ls ++ tokens ls' :=
  List.map_append

@[simp] theorem tokens_cons (l : Lexeme) (ls : List Lexeme) :
    tokens (l :: ls) = l.token :: tokens ls := rfl

theorem tokens_eq_append_iff {ls : List Lexeme} {ts us : List Token} :
    tokens ls = ts ++ us ↔ ∃ ls₁ ls₂, ls = ls₁ ++ ls₂ ∧ tokens ls₁ = ts ∧ tokens ls₂ = us :=
  List.map_eq_append_iff

theorem tokens_eq_cons_iff {ls : List Lexeme} {t : Token} {ts : List Token} :
    tokens ls = t :: ts ↔ ∃ l ls', ls = l :: ls' ∧ l.token = t ∧ tokens ls' = ts :=
  List.map_eq_cons_iff

variable {operand : Reader} {phrase : Phrase} {l : Lexeme} {ls rest : List Lexeme}

/-- An operand, and what more there is behind it. -/
def operandAndMore (operand : Reader) (fuel : Nat) (ls : List Lexeme) :
    Except ParseFault (List Predicate × List Lexeme) :=
  operand ls >>= fun r =>
    moreConjuncts operand fuel r.2 >>= fun rs => .ok (r.1 :: rs.1, rs.2)

theorem conjunction_eq (ls : List Lexeme) : conjunction operand ls
    = (operand ls >>= fun r =>
      moreConjuncts operand r.2.length r.2 >>= fun rs => .ok (.and (r.1 :: rs.1), rs.2)) := rfl

/-- What ends a run of operands: a closing parenthesis, an OR or the end. -/
def EndsAll (ls : List Lexeme) : Prop :=
  ∀ l ∈ ls.head?, l.token = .closeGroup ∨ l.token = .word .or

theorem moreConjuncts_of_endsAll (h : EndsAll rest) (fuel : Nat) :
    moreConjuncts operand fuel rest = .ok ([], rest) := by
  cases fuel with
  | zero => rfl
  | succ fuel =>
    cases rest with
    | nil => rfl
    | cons l rest => obtain hl | hl := h l rfl <;> rw [moreConjuncts, hl]

theorem moreConjuncts_of_and (hl : l.token = .word .and) (fuel : Nat) :
    moreConjuncts operand (fuel + 1) (l :: ls)
      = (expectOperand Keyword.and.chars ls >>= fun _ => operandAndMore operand fuel ls) := by
  rw [moreConjuncts, hl]
  rfl

theorem moreConjuncts_of_not_ends (hends : ¬EndsAll (l :: ls)) (hl : l.token ≠ .word .and)
    (fuel : Nat) :
    moreConjuncts operand (fuel + 1) (l :: ls) = operandAndMore operand fuel (l :: ls) := by
  have hends : l.token ≠ .closeGroup ∧ l.token ≠ .word .or := by simpa [EndsAll] using hends
  rw [moreConjuncts]
  split
  · exact absurd ‹_› hends.1
  · exact absurd ‹_› hends.2
  · exact absurd ‹_› hl
  · rfl

theorem expectOperand_of_begins (hl : l.token.beginsOperand = true) (operator : List Char) :
    expectOperand operator (l :: ls) = .ok () := by
  rw [expectOperand, if_neg]
  intro h
  rw [h] at hl
  cases hl

/-- The first lexeme of what reads as a phrase. -/
theorem Phrase.Begins.exists_cons (hbegins : phrase.Begins) {used : List Lexeme} {p : Predicate}
    (h : phrase (tokens used) p) :
    ∃ l ls, used = l :: ls ∧ l.token.beginsOperand = true := by
  obtain ⟨t, ht, hbegin⟩ := hbegins h
  cases used with
  | nil => cases ht
  | cons l ls =>
    obtain rfl := Option.some.inj ht
    exact ⟨l, ls, rfl, hbegin⟩

theorem Phrase.Begins.exists_cons_of_isAll (hbegins : phrase.Begins) {used : List Lexeme}
    {ps : List Predicate} (h : IsAll phrase (tokens used) ps) :
    ∃ l ls, used = l :: ls ∧ l.token.beginsOperand = true := by
  have hfront {front : List Lexeme} {p : Predicate} (hp : phrase (tokens front) p)
      (back : List Lexeme) : ∃ l ls, front ++ back = l :: ls ∧ l.token.beginsOperand = true := by
    obtain ⟨l, ls, rfl, hl⟩ := hbegins.exists_cons hp
    exact ⟨l, ls ++ back, rfl, hl⟩
  generalize hts : tokens used = ts at h
  cases h with
  | one h =>
    subst hts
    exact hbegins.exists_cons h
  | beside h _ | and h _ =>
    obtain ⟨front, back, rfl, rfl, _⟩ := tokens_eq_append_iff.mp hts
    exact hfront h back

/-- What is left behind an operand in a run of them: nothing, or more
operands, which may have AND before them. -/
def MoreAll (phrase : Phrase) (ls : List Lexeme) (ps : List Predicate) (rest : List Lexeme) :
    Prop :=
  (ps = [] ∧ ls = rest) ∨ ∃ used, IsAll phrase (tokens used) ps
    ∧ (ls = used ++ rest ∨ ∃ l, l.token = .word .and ∧ ls = l :: (used ++ rest))

/-- A run of operands is one of them and what is left behind it. -/
theorem isAll_iff {ps : List Predicate} :
    (∃ used, ls = used ++ rest ∧ IsAll phrase (tokens used) ps) ↔
      ∃ front ls' p ps', ls = front ++ ls' ∧ ps = p :: ps' ∧ phrase (tokens front) p
        ∧ MoreAll phrase ls' ps' rest := by
  constructor
  · rintro ⟨used, rfl, h⟩
    generalize hts : tokens used = ts at h
    cases h with
    | one h =>
      subst hts
      exact ⟨used, rest, _, [], rfl, rfl, h, .inl ⟨rfl, rfl⟩⟩
    | beside h hs =>
      obtain ⟨front, back, rfl, rfl, rfl⟩ := tokens_eq_append_iff.mp hts
      exact ⟨front, back ++ rest, _, _, List.append_assoc .., rfl, h, .inr ⟨back, hs, .inl rfl⟩⟩
    | and h hs =>
      obtain ⟨front, back, rfl, rfl, hback⟩ := tokens_eq_append_iff.mp hts
      obtain ⟨l, back, rfl, hl, rfl⟩ := tokens_eq_cons_iff.mp hback
      exact ⟨front, l :: (back ++ rest), _, _, List.append_assoc .., rfl, h,
        .inr ⟨back, hs, .inr ⟨l, hl, rfl⟩⟩⟩
  · rintro ⟨front, ls', p, ps', rfl, rfl, h, hmore⟩
    obtain ⟨rfl, rfl⟩ | ⟨more, hall, rfl | ⟨l, hl, rfl⟩⟩ := hmore
    · exact ⟨front, rfl, .one h⟩
    · exact ⟨front ++ more, (List.append_assoc ..).symm, tokens_append .. ▸ .beside h hall⟩
    · refine ⟨front ++ l :: more, by simp, ?_⟩
      rw [tokens_append, tokens_cons, hl]
      exact .and h hall

theorem sound_moreConjuncts (hreads : Reads operand phrase) {fuel : Nat} {ps : List Predicate}
    (h : moreConjuncts operand fuel ls = .ok (ps, rest)) : MoreAll phrase ls ps rest := by
  induction fuel generalizing ls ps with
  | zero =>
    cases h
    exact .inl ⟨rfl, rfl⟩
  | succ fuel ih =>
    have hstep {ls : List Lexeme} (h : operandAndMore operand fuel ls = .ok (ps, rest)) :
        ∃ used, ls = used ++ rest ∧ IsAll phrase (tokens used) ps := by
      obtain ⟨⟨p, ls'⟩, hp, h⟩ := bind_eq_ok_iff.mp h
      obtain ⟨⟨ps', rest'⟩, hps, h⟩ := bind_eq_ok_iff.mp h
      cases h
      obtain ⟨front, rfl, hfront⟩ := hreads.sound hp
      exact isAll_iff.mpr ⟨front, ls', p, ps', rfl, rfl, hfront, ih hps⟩
    by_cases hends : EndsAll ls
    · rw [moreConjuncts_of_endsAll hends] at h
      cases h
      exact .inl ⟨rfl, rfl⟩
    cases ls with
    | nil => exact absurd (fun _ h => nomatch h) hends
    | cons l ls =>
      by_cases hl : l.token = .word .and
      · rw [moreConjuncts_of_and hl] at h
        obtain ⟨_, _, h⟩ := bind_eq_ok_iff.mp h
        obtain ⟨used, rfl, hall⟩ := hstep h
        exact .inr ⟨used, hall, .inr ⟨l, hl, rfl⟩⟩
      · rw [moreConjuncts_of_not_ends hends hl] at h
        obtain ⟨used, hused, hall⟩ := hstep h
        exact .inr ⟨used, hall, .inl hused⟩

/-- What begins an operand neither ends a run nor is an AND. -/
theorem not_ends_of_begins (hl : l.token.beginsOperand = true) :
    ¬EndsAll (l :: ls) ∧ l.token ≠ .word .and := by
  constructor
  · intro h
    obtain hclose | hor := h l rfl
    · rw [hclose] at hl
      cases hl
    · rw [hor] at hl
      cases hl
  · intro hand
    rw [hand] at hl
    cases hl

/-- Where more operands stand, the reader goes on with them. -/
theorem moreConjuncts_of_isAll (hbegins : phrase.Begins) {used : List Lexeme}
    {ps : List Predicate} (h : IsAll phrase (tokens used) ps)
    (hls : ls = used ++ rest ∨ ∃ l, l.token = .word .and ∧ ls = l :: (used ++ rest))
    (fuel : Nat) :
    moreConjuncts operand (fuel + 1) ls = operandAndMore operand fuel (used ++ rest) := by
  obtain ⟨l, used, rfl, hl⟩ := hbegins.exists_cons_of_isAll h
  obtain rfl | ⟨l', hand, rfl⟩ := hls
  · obtain ⟨hends, hand⟩ : ¬EndsAll (l :: used ++ rest) ∧ _ := not_ends_of_begins hl
    exact moreConjuncts_of_not_ends hends hand fuel
  · rw [moreConjuncts_of_and hand, List.cons_append, expectOperand_of_begins hl]
    rfl

theorem complete_moreConjuncts (hreads : Reads operand phrase) (hbegins : phrase.Begins)
    (hends : EndsAll rest) {ps : List Predicate} (h : MoreAll phrase ls ps rest) {fuel : Nat}
    (hfuel : ls.length ≤ fuel) : moreConjuncts operand fuel ls = .ok (ps, rest) := by
  induction fuel generalizing ls ps with
  | zero =>
    obtain ⟨rfl, rfl⟩ | ⟨used, hall, hls⟩ := h
    · exact moreConjuncts_of_endsAll hends 0
    · obtain ⟨l, used, rfl, _⟩ := hbegins.exists_cons_of_isAll hall
      obtain rfl | ⟨_, _, rfl⟩ := hls <;> cases hfuel
  | succ fuel ih =>
    obtain ⟨rfl, rfl⟩ | ⟨used, hall, hls⟩ := h
    · exact moreConjuncts_of_endsAll hends _
    have hlen : (used ++ rest).length ≤ fuel + 1 := by
      obtain rfl | ⟨_, _, rfl⟩ := hls
      · exact hfuel
      · exact Nat.le_of_succ_le hfuel
    obtain ⟨front, ls', p, ps', heq, rfl, hfront, hmore⟩ := isAll_iff.mp ⟨used, rfl, hall⟩
    obtain ⟨l, front', rfl, _⟩ := hbegins.exists_cons hfront
    have hshort : ls'.length ≤ fuel := by
      rw [heq] at hlen
      simp only [List.length_append, List.length_cons] at hlen
      omega
    rw [moreConjuncts_of_isAll hbegins hall hls, operandAndMore, heq, hreads.complete hfront]
    show (moreConjuncts operand fuel ls' >>= _) = _
    rw [ih hmore hshort]
    rfl

/-- Operands side by side are read as a run, up to where it ends. -/
theorem sound_conjunction (hreads : Reads operand phrase) {p : Predicate}
    (h : conjunction operand ls = .ok (p, rest)) :
    ∃ used ps, ls = used ++ rest ∧ IsAll phrase (tokens used) ps ∧ p = .and ps := by
  rw [conjunction_eq] at h
  obtain ⟨⟨p', ls'⟩, hp, h⟩ := bind_eq_ok_iff.mp h
  obtain ⟨⟨ps, rest'⟩, hps, h⟩ := bind_eq_ok_iff.mp h
  cases h
  obtain ⟨front, rfl, hfront⟩ := hreads.sound hp
  obtain ⟨used, hused, hall⟩ :=
    isAll_iff.mpr ⟨front, ls', _, _, rfl, rfl, hfront, sound_moreConjuncts hreads hps⟩
  exact ⟨used, _, hused, hall, rfl⟩

theorem complete_conjunction (hreads : Reads operand phrase) (hbegins : phrase.Begins)
    (hends : EndsAll rest) {used : List Lexeme} {ps : List Predicate}
    (h : IsAll phrase (tokens used) ps) :
    conjunction operand (used ++ rest) = .ok (.and ps, rest) := by
  obtain ⟨front, ls', p, ps', heq, rfl, hfront, hmore⟩ := isAll_iff.mp ⟨used, rfl, h⟩
  rw [conjunction_eq, heq, hreads.complete hfront]
  show (moreConjuncts operand ls'.length ls' >>= _) = _
  rw [complete_moreConjuncts hreads hbegins hends hmore (Nat.le_refl _)]
  rfl

/-! ## Alternatives -/

/-- An alternative, and what more there are behind it. -/
def alternativeAndMore (operand : Reader) (fuel : Nat) (ls : List Lexeme) :
    Except ParseFault (List Predicate × List Lexeme) :=
  conjunction operand ls >>= fun r =>
    moreDisjuncts operand fuel r.2 >>= fun rs => .ok (r.1 :: rs.1, rs.2)

theorem disjunction_eq (ls : List Lexeme) : disjunction operand ls
    = (conjunction operand ls >>= fun r =>
      moreDisjuncts operand r.2.length r.2 >>= fun rs => .ok (.or (r.1 :: rs.1), rs.2)) := rfl

theorem moreDisjuncts_of_or (hl : l.token = .word .or) (fuel : Nat) :
    moreDisjuncts operand (fuel + 1) (l :: ls)
      = (expectOperand Keyword.or.chars ls >>= fun _ => alternativeAndMore operand fuel ls) := by
  rw [moreDisjuncts, hl]
  rfl

theorem moreDisjuncts_of_not_or (h : ∀ l ∈ ls.head?, l.token ≠ .word .or) (fuel : Nat) :
    moreDisjuncts operand fuel ls = .ok ([], ls) := by
  cases fuel with
  | zero => rfl
  | succ fuel =>
    cases ls with
    | nil => rfl
    | cons l ls =>
      rw [moreDisjuncts]
      split
      · exact absurd ‹_› (h l rfl)
      · rfl

/-- What ends alternatives: a closing parenthesis or the end. -/
def EndsAlternatives (ls : List Lexeme) : Prop :=
  ∀ l ∈ ls.head?, l.token = .closeGroup

theorem endsAlternatives_nil : EndsAlternatives [] :=
  fun _ h => nomatch h

theorem EndsAlternatives.endsAll (h : EndsAlternatives rest) : EndsAll rest :=
  fun l hl => .inl (h l hl)

theorem EndsAlternatives.not_or (h : EndsAlternatives rest) :
    ∀ l ∈ rest.head?, l.token ≠ .word .or := by
  intro l hl hor
  rw [h l hl] at hor
  cases hor

/-- What is left behind an alternative: nothing, or more of them behind an
OR. -/
def MoreAlternatives (phrase : Phrase) (ls : List Lexeme) (ps : List Predicate)
    (rest : List Lexeme) : Prop :=
  (ps = [] ∧ ls = rest) ∨ ∃ used l, IsAlternatives phrase (tokens used) ps
    ∧ l.token = .word .or ∧ ls = l :: (used ++ rest)

/-- Alternatives are one of them and what is left behind it. -/
theorem isAlternatives_iff {qs : List Predicate} :
    (∃ used, ls = used ++ rest ∧ IsAlternatives phrase (tokens used) qs) ↔
      ∃ front ls' ps qs', ls = front ++ ls' ∧ qs = .and ps :: qs' ∧ IsAll phrase (tokens front) ps
        ∧ MoreAlternatives phrase ls' qs' rest := by
  constructor
  · rintro ⟨used, rfl, h⟩
    generalize hts : tokens used = ts at h
    cases h with
    | one h =>
      subst hts
      exact ⟨used, rest, _, [], rfl, rfl, h, .inl ⟨rfl, rfl⟩⟩
    | or h hs =>
      obtain ⟨front, back, rfl, rfl, hback⟩ := tokens_eq_append_iff.mp hts
      obtain ⟨l, back, rfl, hl, rfl⟩ := tokens_eq_cons_iff.mp hback
      exact ⟨front, l :: (back ++ rest), _, _, List.append_assoc .., rfl, h,
        .inr ⟨back, l, hs, hl, rfl⟩⟩
  · rintro ⟨front, ls', ps, qs', rfl, rfl, h, hmore⟩
    obtain ⟨rfl, rfl⟩ | ⟨more, l, halt, hl, rfl⟩ := hmore
    · exact ⟨front, rfl, .one h⟩
    · refine ⟨front ++ l :: more, by simp, ?_⟩
      rw [tokens_append, tokens_cons, hl]
      exact .or h halt

theorem Phrase.Begins.exists_cons_of_isAlternatives (hbegins : phrase.Begins)
    {used : List Lexeme} {qs : List Predicate} (h : IsAlternatives phrase (tokens used) qs) :
    ∃ l ls, used = l :: ls ∧ l.token.beginsOperand = true := by
  obtain ⟨front, back, ps, qs', rfl, rfl, hfront, _⟩ :=
    isAlternatives_iff.mp ⟨used, (List.append_nil used).symm, h⟩
  obtain ⟨l, ls, rfl, hl⟩ := hbegins.exists_cons_of_isAll hfront
  exact ⟨l, ls ++ back, rfl, hl⟩

theorem sound_moreDisjuncts (hreads : Reads operand phrase) {fuel : Nat} {qs : List Predicate}
    (h : moreDisjuncts operand fuel ls = .ok (qs, rest)) : MoreAlternatives phrase ls qs rest := by
  induction fuel generalizing ls qs with
  | zero =>
    cases h
    exact .inl ⟨rfl, rfl⟩
  | succ fuel ih =>
    by_cases hor : ∀ l ∈ ls.head?, l.token ≠ .word .or
    · rw [moreDisjuncts_of_not_or hor] at h
      cases h
      exact .inl ⟨rfl, rfl⟩
    cases ls with
    | nil => exact absurd (fun _ h => nomatch h) hor
    | cons l ls =>
      have hl : l.token = .word .or := by simpa using hor
      rw [moreDisjuncts_of_or hl] at h
      obtain ⟨_, _, h⟩ := bind_eq_ok_iff.mp h
      obtain ⟨⟨p, ls'⟩, hp, h⟩ := bind_eq_ok_iff.mp h
      obtain ⟨⟨qs', rest'⟩, hqs, h⟩ := bind_eq_ok_iff.mp h
      cases h
      obtain ⟨front, ps, rfl, hfront, rfl⟩ := sound_conjunction hreads hp
      obtain ⟨used, hused, halt⟩ :=
        isAlternatives_iff.mpr ⟨front, ls', ps, qs', rfl, rfl, hfront, ih hqs⟩
      exact .inr ⟨used, l, halt, hl, hused ▸ rfl⟩

/-- Behind an OR, the reader goes on with the next alternative. -/
theorem moreDisjuncts_of_isAlternatives (hbegins : phrase.Begins) {used : List Lexeme}
    {qs : List Predicate} (h : IsAlternatives phrase (tokens used) qs)
    (hl : l.token = .word .or) (fuel : Nat) :
    moreDisjuncts operand (fuel + 1) (l :: (used ++ rest))
      = alternativeAndMore operand fuel (used ++ rest) := by
  obtain ⟨l', used, rfl, hl'⟩ := hbegins.exists_cons_of_isAlternatives h
  rw [moreDisjuncts_of_or hl, List.cons_append, expectOperand_of_begins hl']
  rfl

theorem MoreAlternatives.endsAll {qs : List Predicate} (h : MoreAlternatives phrase ls qs rest)
    (hends : EndsAlternatives rest) : EndsAll ls := by
  obtain ⟨_, rfl⟩ | ⟨used, l, _, hl, rfl⟩ := h
  · exact hends.endsAll
  · rintro l' ⟨⟩
    exact .inr hl

theorem complete_moreDisjuncts (hreads : Reads operand phrase) (hbegins : phrase.Begins)
    (hends : EndsAlternatives rest) {qs : List Predicate}
    (h : MoreAlternatives phrase ls qs rest) {fuel : Nat} (hfuel : ls.length ≤ fuel) :
    moreDisjuncts operand fuel ls = .ok (qs, rest) := by
  induction fuel generalizing ls qs with
  | zero =>
    obtain ⟨rfl, rfl⟩ | ⟨_, _, _, _, rfl⟩ := h
    · exact moreDisjuncts_of_not_or hends.not_or 0
    · cases hfuel
  | succ fuel ih =>
    obtain ⟨rfl, rfl⟩ | ⟨used, l, halt, hl, rfl⟩ := h
    · exact moreDisjuncts_of_not_or hends.not_or _
    obtain ⟨front, ls', ps, qs', heq, rfl, hfront, hmore⟩ :=
      isAlternatives_iff.mp ⟨used, rfl, halt⟩
    have hshort : ls'.length ≤ fuel := by
      rw [heq] at hfuel
      simp only [List.length_cons, List.length_append] at hfuel
      omega
    rw [moreDisjuncts_of_isAlternatives hbegins halt hl, alternativeAndMore, heq,
      complete_conjunction hreads hbegins (hmore.endsAll hends) hfront]
    show (moreDisjuncts operand fuel ls' >>= _) = _
    rw [ih hmore hshort]
    rfl

/-- Alternatives are read up to where they end. -/
theorem sound_disjunction (hreads : Reads operand phrase) {p : Predicate}
    (h : disjunction operand ls = .ok (p, rest)) :
    ∃ used qs, ls = used ++ rest ∧ IsAlternatives phrase (tokens used) qs ∧ p = .or qs := by
  rw [disjunction_eq] at h
  obtain ⟨⟨p', ls'⟩, hp, h⟩ := bind_eq_ok_iff.mp h
  obtain ⟨⟨qs, rest'⟩, hqs, h⟩ := bind_eq_ok_iff.mp h
  cases h
  obtain ⟨front, ps, rfl, hfront, rfl⟩ := sound_conjunction hreads hp
  obtain ⟨used, hused, halt⟩ :=
    isAlternatives_iff.mpr ⟨front, ls', ps, qs, rfl, rfl, hfront, sound_moreDisjuncts hreads hqs⟩
  exact ⟨used, _, hused, halt, rfl⟩

theorem complete_disjunction (hreads : Reads operand phrase) (hbegins : phrase.Begins)
    (hends : EndsAlternatives rest) {used : List Lexeme} {qs : List Predicate}
    (h : IsAlternatives phrase (tokens used) qs) :
    disjunction operand (used ++ rest) = .ok (.or qs, rest) := by
  obtain ⟨front, ls', ps, qs', heq, rfl, hfront, hmore⟩ := isAlternatives_iff.mp ⟨used, rfl, h⟩
  rw [disjunction_eq, heq, complete_conjunction hreads hbegins (hmore.endsAll hends) hfront]
  show (moreDisjuncts operand ls'.length ls' >>= _) = _
  rw [complete_moreDisjuncts hreads hbegins hends hmore (Nat.le_refl _)]
  rfl

/-! ## Levels -/

/-- Reads an operand one level further in, if there is a level left. -/
def oneLevelIn (inner : Option Reader) : Reader :=
  nested inner id

theorem nested_disjunction (inner : Option Reader) :
    nested inner disjunction = disjunction (oneLevelIn inner) := by
  cases inner <;> rfl

variable {dialect : Dialect} {inner : Option Reader}

theorem sound_operandWith (hinner : Reads (oneLevelIn inner) phrase) {p : Predicate}
    (h : operandWith dialect inner ls = .ok (p, rest)) :
    ∃ used, ls = used ++ rest ∧ IsOperandWith dialect phrase (tokens used) p := by
  have hnegation {ls : List Lexeme} {operator : List Char}
      (h : negation inner operator ls = .ok (p, rest)) :
      ∃ used q, ls = used ++ rest ∧ phrase (tokens used) q ∧ p = q.not := by
    obtain ⟨_, _, h⟩ := bind_eq_ok_iff.mp h
    obtain ⟨⟨q, ls'⟩, hq, h⟩ := bind_eq_ok_iff.mp h
    cases h
    obtain ⟨used, rfl, hused⟩ := hinner.sound hq
    exact ⟨used, q, rfl, hused, rfl⟩
  cases ls with
  | nil => cases h
  | cons l ls =>
    rw [operandWith] at h
    split at h
    · next hl =>
      obtain ⟨used, q, rfl, hused, rfl⟩ := hnegation h
      exact ⟨l :: used, rfl, by rw [tokens_cons, hl]; exact .minus hused⟩
    · next hl =>
      obtain ⟨used, q, rfl, hused, rfl⟩ := hnegation h
      exact ⟨l :: used, rfl, by rw [tokens_cons, hl]; exact .not hused⟩
    · next hl =>
      rw [nested_disjunction] at h
      obtain ⟨⟨q, ls'⟩, hq, h⟩ := bind_eq_ok_iff.mp h
      obtain ⟨used, qs, rfl, hused, rfl⟩ := sound_disjunction hinner hq
      cases ls' with
      | nil => cases h
      | cons close ls' =>
        by_cases hclose : close.token = .closeGroup
        · simp only [if_pos hclose] at h
          cases h
          refine ⟨l :: (used ++ [close]), by simp, ?_⟩
          simp only [tokens_cons, tokens_append, hl, hclose]
          exact .group hused
        · simp only [if_neg hclose] at h
          cases h
    · cases h
    · cases h
    · cases h
    · next name value hl =>
      split at h
      · next hresolve =>
        cases h
        exact ⟨[l], rfl, by rw [tokens_cons, hl]; exact .term hresolve⟩
      · cases h

theorem complete_operandWith (hinner : Reads (oneLevelIn inner) phrase) (hbegins : phrase.Begins)
    {used : List Lexeme} {p : Predicate} (h : IsOperandWith dialect phrase (tokens used) p)
    (rest : List Lexeme) : operandWith dialect inner (used ++ rest) = .ok (p, rest) := by
  have hnegation {used : List Lexeme} {q : Predicate} (hq : phrase (tokens used) q)
      (operator : List Char) :
      negation inner operator (used ++ rest) = .ok (q.not, rest) := by
    have hread := hinner.complete hq rest
    obtain ⟨l, used, rfl, hl⟩ := hbegins.exists_cons hq
    rw [negation, List.cons_append, expectOperand_of_begins hl]
    show (oneLevelIn inner (l :: used ++ rest) >>= _) = _
    rw [hread]
    rfl
  generalize hts : tokens used = ts at h
  cases h with
  | term hresolve =>
    obtain ⟨l, used, rfl, hl, hnil⟩ := tokens_eq_cons_iff.mp hts
    obtain rfl := List.map_eq_nil_iff.mp hnil
    rw [List.cons_append, operandWith, hl]
    simp only [hresolve]
    rfl
  | minus hq =>
    obtain ⟨l, used, rfl, hl, rfl⟩ := tokens_eq_cons_iff.mp hts
    rw [List.cons_append, operandWith, hl]
    exact hnegation hq _
  | not hq =>
    obtain ⟨l, used, rfl, hl, rfl⟩ := tokens_eq_cons_iff.mp hts
    rw [List.cons_append, operandWith, hl]
    exact hnegation hq _
  | @group ts qs halt =>
    obtain ⟨l, used, rfl, hl, hrest⟩ := tokens_eq_cons_iff.mp hts
    obtain ⟨used, closing, rfl, rfl, hclosing⟩ := tokens_eq_append_iff.mp hrest
    obtain ⟨close, nothing, rfl, hclose, hnil⟩ := tokens_eq_cons_iff.mp hclosing
    obtain rfl := List.map_eq_nil_iff.mp hnil
    have hends : EndsAlternatives (close :: rest) := by
      rintro l' ⟨⟩
      exact hclose
    have hread := complete_disjunction hinner hbegins hends halt
    rw [List.cons_append, operandWith, hl]
    simp only [nested_disjunction, List.append_assoc, List.cons_append, List.nil_append, hread]
    show (if close.token = .closeGroup then _ else _) = _
    rw [if_pos hclose]
    rfl

/-- The reader of operands reads the operands of its levels. -/
theorem reads_operand (dialect : Dialect) (levels : Nat) :
    Reads (Query.operand dialect levels) (IsOperand dialect levels) := by
  induction levels with
  | zero =>
    have hinner : Reads (oneLevelIn none) fun _ _ => False :=
      ⟨fun h => (nomatch h), fun h _ => h.elim⟩
    exact ⟨sound_operandWith hinner, complete_operandWith hinner fun _ _ h => h.elim⟩
  | succ levels ih =>
    have hinner : Reads (oneLevelIn (some (Query.operand dialect levels)))
        (IsOperand dialect levels) := ih
    exact ⟨sound_operandWith hinner, complete_operandWith hinner (begins_operand dialect levels)⟩

/-! ## Whole queries -/

/-- Lexemes are accepted just if their tokens are a query. -/
theorem parseLexemes_eq_ok_iff {ls : List Lexeme} {p : Predicate} :
    parseLexemes dialect ls = .ok p ↔ IsQuery dialect maxLevels (tokens ls) p := by
  have hreads := reads_operand dialect maxLevels
  have hbegins := begins_operand dialect maxLevels
  unfold parseLexemes
  constructor
  · intro h
    split_ifs at h
    split at h
    · cases h
    · next q hq =>
      cases h
      obtain ⟨used, ps, rfl, halt, rfl⟩ := sound_disjunction hreads hq
      exact ⟨ps, by simpa using halt, rfl⟩
    · cases h
  · rintro ⟨ps, halt, rfl⟩
    have hread : disjunction _ (ls ++ []) = .ok (.or ps, []) :=
      complete_disjunction hreads hbegins endsAlternatives_nil halt
    obtain ⟨l, ls, rfl, _⟩ := hbegins.exists_cons_of_isAlternatives halt
    rw [List.append_nil] at hread
    rw [if_neg (by simp), hread]

/-- What the parser makes of a text is what its tokens say. -/
theorem parse_eq_ok_iff_parseText {text : String} {p : Predicate} :
    dialect.parse text = .ok p ↔ parseText dialect text.toList = .ok p := by
  unfold Dialect.parse
  cases parseText dialect text.toList <;> simp [Except.mapError]

/-- An accepted text is written from the tokens of its query. -/
theorem parseText_eq_ok_iff {cs : List Char} {p : Predicate} :
    parseText dialect cs = .ok p ↔ ∃ ts, Lexes cs ts ∧ IsQuery dialect maxLevels ts p := by
  rw [parseText, parseLexemes_eq_ok_iff]
  constructor
  · rintro ⟨ps, halt, rfl⟩
    exact ⟨_, lexes_iff.mpr ⟨rfl, halt.not_isBroken (whole_operand dialect _)⟩, ps, halt, rfl⟩
  · rintro ⟨ts, hlexes, hquery⟩
    obtain ⟨rfl, _⟩ := lexes_iff.mp hlexes
    exact hquery

/-- A text is accepted just if it is written from the tokens of a query
with at most 100 levels of minus signs, NOTs and parentheses inside one
another, each term of which the dialect accepts; and what it gives is the
tree of that query. -/
theorem parse_eq_ok_iff (dialect : Dialect) (text : String) (p : Predicate) :
    dialect.parse text = .ok p ↔
      ∃ ts, Lexes text.toList ts ∧ IsQuery dialect 100 ts p := by
  rw [parse_eq_ok_iff_parseText, parseText_eq_ok_iff, maxLevels]

end ReviewSearch.Query
