/-
ReviewSearch.Proofs.Query.Spelling — how the tokens of a query are
written.

`Lexes` relates a text to its tokens: each is written in its own form
(`TokenForm`), with blanks before it, and blanks may end the text. Some
forms depend on what follows: a keyword must end there, and a bare value
must not go on.

`lexes_iff` — the scanner finds just the tokens that a text is written
from, and a broken one in a text that is written from none.
-/
import Mathlib.Data.List.TakeWhile
import ReviewSearch.Query.Token

namespace ReviewSearch.Query

/-! ## Forms -/

/-- What stands between quotes for a value: a backslash takes the next
character as it is. -/
inductive QuotedForm : (value cs : List Char) → Prop
  | nil : QuotedForm [] []
  | escaped (c : Char) {value cs : List Char} (h : QuotedForm value cs) :
      QuotedForm (c :: value) ('\\' :: c :: cs)
  | plain {c : Char} {value cs : List Char} (hquote : c ≠ '"') (hslash : c ≠ '\\')
      (h : QuotedForm value cs) : QuotedForm (c :: value) (c :: cs)

/-- How a value is written before a text: between quotes, between braces,
or bare, and then as far as it goes. -/
inductive ValueForm : (value cs rest : List Char) → Prop
  | quoted {value cs rest : List Char} (h : QuotedForm value cs) :
      ValueForm value ('"' :: (cs ++ ['"'])) rest
  | braced {value rest : List Char} (h : ∀ c ∈ value, c ≠ '\x7d') :
      ValueForm value ('\x7b' :: (value ++ ['\x7d'])) rest
  | bare {value rest : List Char} (hne : value ≠ [])
      (hfirst : ∀ c ∈ value.head?, c ≠ '"' ∧ c ≠ '\x7b')
      (hbare : ∀ c ∈ value, isBareChar c = true)
      (hstop : ∀ c ∈ rest.head?, isBareChar c = false) : ValueForm value value rest

/-- How a token is written before a text. A name may be empty. -/
inductive TokenForm : Token → (cs rest : List Char) → Prop
  | openGroup {rest : List Char} : TokenForm .openGroup ['('] rest
  | closeGroup {rest : List Char} : TokenForm .closeGroup [')'] rest
  | minus {rest : List Char} : TokenForm .minus ['-'] rest
  | word (k : Keyword) {rest : List Char} (h : endsWord rest = true) :
      TokenForm (.word k) k.chars rest
  | term {name value cs rest : List Char} (hname : ∀ c ∈ name, isNameChar c = true)
      (hvalue : ValueForm value cs rest) : TokenForm (.term name value) (name ++ ':' :: cs) rest

/-- The tokens that a whole text is written from. -/
inductive Lexes : List Char → List Token → Prop
  | done {blanks : List Char} (h : ∀ c ∈ blanks, Text.isBlank c = true) : Lexes blanks []
  | token {blanks cs rest : List Char} {t : Token} {ts : List Token}
      (hblanks : ∀ c ∈ blanks, Text.isBlank c = true) (ht : TokenForm t cs rest)
      (h : Lexes rest ts) : Lexes (blanks ++ (cs ++ rest)) (t :: ts)

/-- Blanks before a text add no token. -/
theorem Lexes.blank {c : Char} {cs : List Char} {ts : List Token} (hc : Text.isBlank c = true)
    (h : Lexes cs ts) : Lexes (c :: cs) ts := by
  cases h with
  | done hblanks => exact .done (List.forall_mem_cons.mpr ⟨hc, hblanks⟩)
  | token hblanks ht h => exact .token (List.forall_mem_cons.mpr ⟨hc, hblanks⟩) ht h

/-- A text behind a token, without blanks between. -/
theorem Lexes.cons {cs rest : List Char} {t : Token} {ts : List Token} (ht : TokenForm t cs rest)
    (h : Lexes rest ts) : Lexes (cs ++ rest) (t :: ts) :=
  @Lexes.token [] cs rest t ts (by simp) ht h

/-! ## Runs -/

/-- A run of characters ends where it cannot go on. -/
theorem takeWhile_run {q : Char → Bool} {run rest : List Char} (hrun : ∀ c ∈ run, q c = true)
    (hstop : ∀ c ∈ rest.head?, q c = false) : (run ++ rest).takeWhile q = run := by
  rw [List.takeWhile_append_of_pos hrun]
  cases rest with
  | nil => simp
  | cons c rest => rw [List.takeWhile_cons_of_neg (by simp [hstop c rfl]), List.append_nil]

theorem dropWhile_run {q : Char → Bool} {run rest : List Char} (hrun : ∀ c ∈ run, q c = true)
    (hstop : ∀ c ∈ rest.head?, q c = false) : (run ++ rest).dropWhile q = rest := by
  rw [List.dropWhile_append_of_pos hrun]
  cases rest with
  | nil => rfl
  | cons c rest => exact List.dropWhile_cons_of_neg (by simp [hstop c rfl])

/-- What is left behind a run does not go on with it. -/
theorem stop_dropWhile (q : Char → Bool) (cs : List Char) :
    ∀ c ∈ (cs.dropWhile q).head?, q c = false := by
  intro c hc
  have h := List.head?_dropWhile_not q cs
  rw [Option.mem_def.mp hc] at h
  exact h

/-! ## Values -/

theorem scanQuoted_eq_some_iff {cs value rest : List Char} :
    scanQuoted cs = some (value, rest) ↔
      ∃ body, cs = body ++ '"' :: rest ∧ QuotedForm value body := by
  constructor
  · intro h
    fun_induction scanQuoted cs generalizing value with
    | case1 => cases h
    | case2 cs =>
      cases h
      exact ⟨[], rfl, .nil⟩
    | case3 c cs ih =>
      obtain ⟨⟨v, r⟩, hscan, heq⟩ := Option.map_eq_some_iff.mp h
      cases heq
      obtain ⟨body, rfl, hbody⟩ := ih hscan
      exact ⟨'\\' :: c :: body, rfl, .escaped c hbody⟩
    | case4 => cases h
    | case5 c cs hquote hslash hlast ih =>
      obtain ⟨⟨v, r⟩, hscan, heq⟩ := Option.map_eq_some_iff.mp h
      cases heq
      obtain ⟨body, rfl, hbody⟩ := ih hscan
      refine ⟨c :: body, rfl, .plain hquote (fun hc => ?_) hbody⟩
      cases body with
      | nil => exact hslash _ _ hc rfl
      | cons b body => exact hslash _ _ hc rfl
  · rintro ⟨body, rfl, hbody⟩
    induction hbody with
    | nil => rfl
    | escaped c _ ih => simp [scanQuoted, ih]
    | @plain c value cs hquote hslash _ ih =>
      rw [List.cons_append, scanQuoted, ih]
      · rfl
      · exact hquote
      · intro d ds hc
        exact absurd hc hslash
      · intro hc
        exact absurd hc hslash

theorem scanBraced_eq_some_iff {cs value rest : List Char} :
    scanBraced cs = some (value, rest) ↔
      cs = value ++ '\x7d' :: rest ∧ ∀ c ∈ value, c ≠ '\x7d' := by
  induction cs generalizing value with
  | nil => simp [scanBraced]
  | cons c cs ih =>
    unfold scanBraced
    split
    · next hc =>
      subst hc
      cases value with
      | nil => simp
      | cons d value =>
        simp only [Option.some.injEq, Prod.mk.injEq, List.nil_eq, reduceCtorEq, false_and,
          List.cons_append, List.cons.injEq, List.forall_mem_cons, false_iff]
        rintro ⟨⟨rfl, _⟩, hne, _⟩
        exact hne rfl
    · next hc =>
      cases value with
      | nil => simp [hc]
      | cons d value =>
        simp only [Option.map_eq_some_iff, Prod.exists, Prod.mk.injEq, List.cons.injEq]
        constructor
        · rintro ⟨v, r, hscan, ⟨rfl, rfl⟩, rfl⟩
          obtain ⟨rfl, hv⟩ := ih.mp hscan
          exact ⟨rfl, List.forall_mem_cons.mpr ⟨hc, hv⟩⟩
        · rintro ⟨hcs, hv⟩
          obtain ⟨rfl, rfl⟩ := List.cons.inj hcs
          exact ⟨value, rest, ih.mpr ⟨rfl, (List.forall_mem_cons.mp hv).2⟩, ⟨rfl, rfl⟩, rfl⟩

theorem scanValue_eq_ok_iff {name cs value rest : List Char} :
    scanValue name cs = .ok (value, rest) ↔
      ∃ form, cs = form ++ rest ∧ ValueForm value form rest := by
  constructor
  · intro h
    unfold scanValue at h
    split at h
    · cases h
    · next c cs =>
      split_ifs at h with hquote hbrace hbare
      · split at h
        · next r hscan =>
          cases h
          obtain ⟨body, rfl, hbody⟩ := scanQuoted_eq_some_iff.mp hscan
          exact ⟨_, by simp [hquote], .quoted hbody⟩
        · cases h
      · split at h
        · next r hscan =>
          cases h
          obtain ⟨rfl, hvalue⟩ := scanBraced_eq_some_iff.mp hscan
          exact ⟨_, by simp [hbrace], .braced hvalue⟩
        · cases h
      · cases h
        refine ⟨_, List.takeWhile_append_dropWhile.symm, .bare ?_ ?_ ?_ ?_⟩
        · simp [List.takeWhile_cons_of_pos hbare]
        · simpa [List.takeWhile_cons_of_pos hbare] using ⟨hquote, hbrace⟩
        · exact fun d hd => List.mem_takeWhile_imp hd
        · exact stop_dropWhile _ _
  · rintro ⟨form, rfl, hform⟩
    cases hform with
    | @quoted body _ hbody =>
      have hscan : scanQuoted (body ++ '"' :: rest) = some (value, rest) :=
        scanQuoted_eq_some_iff.mpr ⟨body, rfl, hbody⟩
      simp [scanValue, hscan]
    | braced hvalue =>
      have hscan : scanBraced (value ++ '\x7d' :: rest) = some (value, rest) :=
        scanBraced_eq_some_iff.mpr ⟨rfl, hvalue⟩
      simp [scanValue, hscan]
    | bare hne hfirst hbare hstop =>
      obtain ⟨c, cs, rfl⟩ := List.exists_cons_of_ne_nil hne
      obtain ⟨hquote, hbrace⟩ := hfirst c rfl
      have htake := takeWhile_run hbare hstop
      have hdrop := dropWhile_run hbare hstop
      rw [List.cons_append] at htake hdrop ⊢
      rw [scanValue, if_neg hquote, if_neg hbrace, if_pos (hbare c List.mem_cons_self), htake,
        hdrop]

/-! ## Tokens -/

theorem isNameChar_bounds {c : Char} (h : isNameChar c = true) :
    48 ≤ c.toNat ∧ c.toNat ≤ 122 := by
  have hclass : ((c.isUpper = true ∨ c.isLower = true) ∨ c.isDigit = true) ∨ c = '_' := by
    have h : (c.isUpper || c.isLower || c.isDigit || c == '_') = true := h
    simpa only [Bool.or_eq_true, beq_iff_eq] using h
  obtain ((h | h) | h) | rfl := hclass
  · have h : 'A'.val ≤ c.val ∧ c.val ≤ 'Z'.val := of_decide_eq_true h
    exact ⟨Nat.le_trans (by decide) h.1, Nat.le_trans h.2 (by decide)⟩
  · obtain ⟨hlow, hhigh⟩ := Bool.and_eq_true_iff.mp h
    exact ⟨Nat.le_trans (by decide) (of_decide_eq_true hlow), of_decide_eq_true hhigh⟩
  · obtain ⟨hlow, hhigh⟩ := Char.isDigit_iff_toNat.mp h
    exact ⟨hlow, Nat.le_trans hhigh (by decide)⟩
  · decide

/-- The characters of a name, and the colon behind it, are between `0` and
`z`, where there is no blank, parenthesis or minus sign. -/
theorem inTerm {c : Char} (h : isNameChar c = true ∨ c = ':') :
    Text.isBlank c = false ∧ c ≠ '(' ∧ c ≠ ')' ∧ c ≠ '-' := by
  have hrange : 48 ≤ c.toNat ∧ c.toNat ≤ 122 := by
    obtain h | rfl := h
    · exact isNameChar_bounds h
    · decide
  refine ⟨?_, ?_, ?_, ?_⟩
  · simp [Text.isBlank]
    omega
  all_goals
    rintro rfl
    exact absurd hrange (by decide)

theorem isNameChar_of_mem_chars (k : Keyword) : ∀ c ∈ k.chars, isNameChar c = true := by
  rw [← List.all_eq_true]
  cases k <;> rfl

/-- A word that goes on with a letter or a colon is no keyword. -/
theorem not_endsWord_inTerm {c : Char} (h : isNameChar c = true ∨ c = ':') (cs : List Char) :
    endsWord (c :: cs) = false := by
  obtain ⟨hblank, hopen, hclose, hminus⟩ := inTerm h
  simp [endsWord, hblank, hopen, hclose, hminus]

theorem afterKeyword?_eq_some_iff {k : Keyword} {cs rest : List Char} :
    afterKeyword? k cs = some rest ↔ cs = k.chars ++ rest ∧ endsWord rest = true := by
  constructor
  · intro h
    simp only [afterKeyword?] at h
    split_ifs at h with hk
    cases h
    rw [Bool.and_eq_true, List.isPrefixOf_iff_prefix] at hk
    exact ⟨(List.prefix_iff_eq_append.mp hk.1).symm, hk.2⟩
  · rintro ⟨rfl, hends⟩
    simp [afterKeyword?, hends]

/-- No keyword stands at the start of a term. -/
theorem afterKeyword?_term (k : Keyword) {name : List Char} (cs : List Char)
    (hname : ∀ c ∈ name, isNameChar c = true) : afterKeyword? k (name ++ ':' :: cs) = none := by
  rw [Option.eq_none_iff_forall_ne_some]
  intro rest h
  obtain ⟨heq, hends⟩ := afterKeyword?_eq_some_iff.mp h
  obtain ⟨more, rfl, rfl⟩ | ⟨more, hk, hmore⟩ := List.append_eq_append_iff.mp heq.symm
  · cases more with
    | nil => exact absurd hends (by simp [not_endsWord_inTerm (.inr rfl)])
    | cons c more =>
      have hc : isNameChar c = true := hname c (by simp)
      exact absurd hends (by simp [not_endsWord_inTerm (.inl hc)])
  · cases more with
    | nil =>
      rw [List.nil_append] at hmore
      exact absurd hends (by simp [← hmore, not_endsWord_inTerm (.inr rfl)])
    | cons c more =>
      obtain rfl := (List.cons.inj hmore).1
      exact absurd (isNameChar_of_mem_chars k ':' (by simp [hk])) (by decide)

def Token.isBroken : Token → Bool
  | .broken _ => true
  | _ => false

/-- No token is empty or begins with a blank. -/
theorem TokenForm.exists_cons {t : Token} {cs rest : List Char} (h : TokenForm t cs rest) :
    ∃ c cs', cs = c :: cs' ∧ Text.isBlank c = false := by
  cases h with
  | openGroup => exact ⟨_, _, rfl, rfl⟩
  | closeGroup => exact ⟨_, _, rfl, rfl⟩
  | minus => exact ⟨_, _, rfl, rfl⟩
  | word k => cases k <;> exact ⟨_, _, rfl, rfl⟩
  | @term name value cs _ hname _ =>
    cases name with
    | nil => exact ⟨_, _, rfl, rfl⟩
    | cons c name => exact ⟨_, _, rfl, (inTerm (.inl (hname c List.mem_cons_self))).1⟩

theorem TokenForm.not_isBroken {t : Token} {cs rest : List Char} (h : TokenForm t cs rest) :
    t.isBroken = false := by
  cases h <;> rfl

/-- A term is read as its name and its value. -/
theorem scanTerm_eq_iff {cs rest : List Char} {t : Token} (ht : t.isBroken = false) :
    scanTerm cs = (t, rest) ↔ ∃ name value form, t = .term name value
      ∧ cs = (name ++ ':' :: form) ++ rest ∧ (∀ c ∈ name, isNameChar c = true)
      ∧ ValueForm value form rest := by
  constructor
  · intro h
    simp only [scanTerm] at h
    split at h
    · next r hr =>
      split at h
      · next value rest' hscan =>
        cases h
        obtain ⟨form, rfl, hform⟩ := scanValue_eq_ok_iff.mp hscan
        refine ⟨_, _, form, rfl, ?_, fun c hc => List.mem_takeWhile_imp hc, hform⟩
        rw [List.append_assoc, List.cons_append, ← hr, List.takeWhile_append_dropWhile]
      · cases h
        cases ht
    · cases h
      cases ht
  · rintro ⟨name, value, form, rfl, rfl, hname, hform⟩
    have hstop : ∀ c ∈ (':' :: (form ++ rest)).head?, isNameChar c = false := by
      rintro c ⟨⟩
      rfl
    have htake := takeWhile_run hname hstop
    have hdrop := dropWhile_run hname hstop
    have hscan : scanValue name (form ++ rest) = .ok (value, rest) :=
      scanValue_eq_ok_iff.mpr ⟨form, rfl, hform⟩
    simp only [scanTerm, List.append_assoc, List.cons_append, htake, hdrop, hscan]

/-- A name with a colon behind it starts a term and nothing else. -/
theorem scanToken_term {name : List Char} (cs : List Char)
    (hname : ∀ c ∈ name, isNameChar c = true) :
    scanToken (name ++ ':' :: cs) = scanTerm (name ++ ':' :: cs) := by
  have hfirst : ∀ c ∈ (name ++ ':' :: cs).head?, c ≠ '(' ∧ c ≠ ')' ∧ c ≠ '-' := by
    cases name with
    | nil => simp
    | cons c name => simpa using (inTerm (.inl (hname c List.mem_cons_self))).2
  unfold scanToken
  split
  · next h => exact absurd rfl (hfirst '(' (by rw [h]; rfl)).1
  · next h => exact absurd rfl (hfirst ')' (by rw [h]; rfl)).2.1
  · next h => exact absurd rfl (hfirst '-' (by rw [h]; rfl)).2.2
  · simp only [afterKeyword?_term _ cs hname]

/-- The scanner finds a token just where its form stands. -/
theorem scanToken_eq_iff {cs rest : List Char} {t : Token} (ht : t.isBroken = false) :
    scanToken cs = (t, rest) ↔ ∃ form, cs = form ++ rest ∧ TokenForm t form rest := by
  constructor
  · intro h
    unfold scanToken at h
    split at h
    · cases h
      exact ⟨_, rfl, .openGroup⟩
    · cases h
      exact ⟨_, rfl, .closeGroup⟩
    · cases h
      exact ⟨_, rfl, .minus⟩
    · have hword {k : Keyword} {r : List Char} (hk : afterKeyword? k cs = some r) :
          ∃ form, cs = form ++ r ∧ TokenForm (.word k) form r := by
        obtain ⟨rfl, hends⟩ := afterKeyword?_eq_some_iff.mp hk
        exact ⟨_, rfl, .word k hends⟩
      split at h
      · cases h
        exact hword ‹_›
      · cases h
        exact hword ‹_›
      · cases h
        exact hword ‹_›
      · obtain ⟨name, value, form, rfl, rfl, hname, hform⟩ := (scanTerm_eq_iff ht).mp h
        exact ⟨_, rfl, .term hname hform⟩
  · rintro ⟨form, rfl, hform⟩
    cases hform with
    | openGroup => rfl
    | closeGroup => rfl
    | minus => rfl
    | word k hends => cases k <;> simp [scanToken, afterKeyword?, Keyword.chars, hends]
    | @term name value form _ hname hvalue =>
      rw [List.append_assoc, List.cons_append, scanToken_term _ hname, scanTerm_eq_iff rfl]
      refine ⟨name, value, form, rfl, ?_, hname, hvalue⟩
      rw [List.append_assoc, List.cons_append]

/-! ## Texts -/

/-- The tokens of a sequence of lexemes. -/
def tokens (ls : List Lexeme) : List Token :=
  ls.map Lexeme.token

theorem skipBlank_run {blanks cs : List Char} (hblanks : ∀ c ∈ blanks, Text.isBlank c = true)
    (hstop : ∀ c ∈ cs.head?, Text.isBlank c = false) : Text.skipBlank (blanks ++ cs) = cs :=
  dropWhile_run hblanks hstop

theorem scanAll_of_nil {cs : List Char} (h : Text.skipBlank cs = []) (fuel : Nat) :
    scanAll fuel cs = [] := by
  cases fuel with
  | zero => rfl
  | succ fuel => rw [scanAll, h]

theorem scanAll_of_cons {c : Char} {cs cs' : List Char} (h : Text.skipBlank cs = c :: cs')
    (fuel : Nat) : scanAll (fuel + 1) cs
      = ⟨(scanToken (c :: cs')).1, c :: cs'⟩ :: scanAll fuel (scanToken (c :: cs')).2 := by
  rw [scanAll, h]

/-- A text that is written from tokens is scanned into them. -/
theorem tokens_scanAll {cs : List Char} {ts : List Token} (h : Lexes cs ts) {fuel : Nat}
    (hfuel : cs.length ≤ fuel) : tokens (scanAll fuel cs) = ts := by
  induction h generalizing fuel with
  | @done blanks hblanks =>
    have hskip : Text.skipBlank (blanks ++ []) = [] := skipBlank_run hblanks (by simp)
    rw [List.append_nil] at hskip
    rw [scanAll_of_nil hskip]
    rfl
  | @token blanks cs rest t ts hblanks ht _ ih =>
    obtain ⟨c, cs', rfl, hc⟩ := ht.exists_cons
    have hskip : Text.skipBlank (blanks ++ (c :: cs' ++ rest)) = c :: (cs' ++ rest) :=
      skipBlank_run hblanks (by simpa using hc)
    have hscan : scanToken (c :: (cs' ++ rest)) = (t, rest) :=
      (scanToken_eq_iff ht.not_isBroken).mpr ⟨_, rfl, ht⟩
    simp only [List.length_append, List.length_cons] at hfuel
    obtain ⟨fuel, rfl⟩ := Nat.exists_eq_add_one.mpr (by omega : 0 < fuel)
    rw [scanAll_of_cons hskip, hscan]
    exact congrArg (t :: ·) (ih (by omega))

/-- A text in which no broken token is scanned is written from what is
scanned. -/
theorem lexes_scanAll {cs : List Char} {fuel : Nat} (hfuel : cs.length ≤ fuel)
    (h : ∀ t ∈ tokens (scanAll fuel cs), t.isBroken = false) :
    Lexes cs (tokens (scanAll fuel cs)) := by
  induction fuel generalizing cs with
  | zero =>
    obtain rfl := List.eq_nil_of_length_eq_zero (Nat.le_zero.mp hfuel)
    exact .done (by simp)
  | succ fuel ih =>
    have hsplit : cs.takeWhile Text.isBlank ++ Text.skipBlank cs = cs :=
      List.takeWhile_append_dropWhile
    have hblanks : ∀ c ∈ cs.takeWhile Text.isBlank, Text.isBlank c = true :=
      fun c hc => List.mem_takeWhile_imp hc
    cases hskip : Text.skipBlank cs with
    | nil =>
      rw [hskip, List.append_nil] at hsplit
      rw [scanAll_of_nil hskip]
      exact .done (hsplit ▸ hblanks)
    | cons c cs' =>
      rcases hscan : scanToken (c :: cs') with ⟨t, rest⟩
      rw [scanAll_of_cons hskip, hscan] at h ⊢
      obtain ⟨hfirst, hrest⟩ := List.forall_mem_cons.mp h
      obtain ⟨form, heq, ht⟩ := (scanToken_eq_iff hfirst).mp hscan
      have hlen := congrArg List.length hsplit
      rw [hskip, heq] at hlen hsplit
      obtain ⟨d, form', hform, _⟩ := ht.exists_cons
      simp only [List.length_append, hform, List.length_cons] at hlen
      have hlexes : Lexes rest (tokens (scanAll fuel rest)) := ih (by omega) hrest
      exact hsplit ▸ .token hblanks ht hlexes

/-- The scanner finds the tokens that a text is written from, and some
broken one in a text that is written from none. -/
theorem lexes_iff {cs : List Char} {ts : List Token} :
    Lexes cs ts ↔ tokens (lexemes cs) = ts ∧ ∀ t ∈ ts, t.isBroken = false := by
  constructor
  · intro h
    refine ⟨tokens_scanAll h (Nat.le_refl _), ?_⟩
    induction h with
    | done => simp
    | token _ ht _ ih => exact List.forall_mem_cons.mpr ⟨ht.not_isBroken, ih⟩
  · rintro ⟨rfl, hts⟩
    exact lexes_scanAll (Nat.le_refl _) hts

end ReviewSearch.Query
