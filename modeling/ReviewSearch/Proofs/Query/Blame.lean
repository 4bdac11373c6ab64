/-
ReviewSearch.Proofs.Query.Blame — which piece of a refused text is blamed.

* `standsIn_lexemes` — a token is written in the text that it is scanned
  from, and what is wrong with a broken one is a piece of that text;
* `keepsTo_operand` — so a reader of operands that is given lexemes of a
  text leaves lexemes of it, blames a piece of it, or passes on what the
  dialect refuses (`KeepsTo`), at every level;
* `rejection_blames_text` — the rejections of the dialect of change
  records: their code, their fragment and their message, and which texts
  are empty queries.
-/
import Mathlib.Data.List.Infix
import ReviewSearch.Proofs.Query.Acceptance
import ReviewSearch.Proofs.Query.Operators

namespace ReviewSearch.Query

variable {dialect : Dialect} {text cs rest : List Char} {d : Defect} {l : Lexeme}
  {ls : List Lexeme} {α β : Type}

/-! ## Pieces of a text -/

/-- A piece of a text that is not empty. -/
def IsPiece (text piece : List Char) : Prop :=
  piece ≠ [] ∧ piece <:+: text

theorem IsPiece.of_infix {piece : List Char} (h : IsPiece cs piece) (htext : cs <:+: text) :
    IsPiece text piece :=
  ⟨h.1, h.2.trans htext⟩

/-- A defect that blames a piece of a text. -/
def Defect.PointsInto (text : List Char) (d : Defect) : Prop :=
  ∃ f, d.fragment? = some f ∧ IsPiece text f

theorem Defect.PointsInto.of_infix (h : d.PointsInto cs) (htext : cs <:+: text) :
    d.PointsInto text := by
  obtain ⟨f, hf, hpiece⟩ := h
  exact ⟨f, hf, hpiece.of_infix htext⟩

/-- What may be wrong with a text that is more than blanks: it ends too
early, nests too deep, or has a piece that is to blame. -/
inductive Defect.Blames (text : List Char) : Defect → Prop
  | endOfQuery : Blames text .endOfQuery
  | tooDeep : Blames text .tooDeep
  | piece {d : Defect} (h : d.PointsInto text) : Blames text d

/-! ## Tokens in their text -/

/-- A token that is written in a text, or is broken by a piece of it. -/
inductive Token.StandsIn (text : List Char) : Token → Prop
  | whole {t : Token} {form rest : List Char} (h : TokenForm t form rest)
      (hform : form <:+: text) : StandsIn text t
  | broken {d : Defect} (h : d.PointsInto text) : StandsIn text (.broken d)

structure Lexeme.StandsIn (text : List Char) (l : Lexeme) : Prop where
  token : l.token.StandsIn text
  source : IsPiece text l.source

/-- All lexemes of a sequence stand in a text. -/
def AllStandIn (text : List Char) (ls : List Lexeme) : Prop :=
  ∀ l ∈ ls, l.StandsIn text

theorem Token.StandsIn.isPiece_closeGroup (h : Token.closeGroup.StandsIn text) :
    IsPiece text [')'] := by
  cases h with
  | whole h hform =>
    cases h
    exact ⟨List.cons_ne_nil _ _, hform⟩

theorem Token.StandsIn.isPiece_minus (h : Token.minus.StandsIn text) : IsPiece text ['-'] := by
  cases h with
  | whole h hform =>
    cases h
    exact ⟨List.cons_ne_nil _ _, hform⟩

theorem Token.StandsIn.isPiece_word {k : Keyword} (h : (Token.word k).StandsIn text) :
    IsPiece text k.chars := by
  cases h with
  | whole h hform =>
    cases h
    exact ⟨by cases k <;> exact List.cons_ne_nil _ _, hform⟩

theorem Token.StandsIn.pointsInto (h : (Token.broken d).StandsIn text) : d.PointsInto text := by
  cases h with
  | whole h => cases h
  | broken h => exact h

/-- A value that is not there is blamed on the term, and an open phrase on
itself. -/
theorem pointsInto_of_scanValue {name : List Char} (h : scanValue name cs = .error d) :
    d.PointsInto (name ++ ':' :: cs) := by
  have hterm : IsPiece (name ++ ':' :: cs) (name ++ [':']) :=
    ⟨by simp, [], cs, by simp⟩
  have hphrase (hne : cs ≠ []) : IsPiece (name ++ ':' :: cs) cs :=
    ⟨hne, name ++ [':'], [], by simp⟩
  unfold scanValue at h
  split at h
  · cases h
    exact ⟨_, rfl, hterm⟩
  · split_ifs at h with hquote hbrace hbare
    · split at h
      · cases h
      · cases h
        exact ⟨_, rfl, hphrase (List.cons_ne_nil _ _)⟩
    · split at h
      · cases h
      · cases h
        exact ⟨_, rfl, hphrase (List.cons_ne_nil _ _)⟩
    · cases h
      exact ⟨_, rfl, hterm⟩

/-- What is no term is blamed as far as a bare value would go, which is one
character at least. -/
theorem pointsInto_of_scanTerm {c : Char} (hc : isBareChar c = true)
    (h : scanTerm (c :: cs) = (.broken d, rest)) : d.PointsInto (c :: cs) ∧ rest = [] := by
  have hsplit : (c :: cs).takeWhile isNameChar ++ (c :: cs).dropWhile isNameChar = c :: cs :=
    List.takeWhile_append_dropWhile
  unfold scanTerm at h
  generalize (c :: cs).takeWhile isNameChar = name at h hsplit
  generalize (c :: cs).dropWhile isNameChar = behind at h hsplit
  have hword : IsPiece (c :: cs) (name ++ behind.takeWhile isBareChar) := by
    constructor
    · intro hnil
      obtain ⟨rfl, hbare⟩ := List.append_eq_nil_iff.mp hnil
      rw [← List.nil_append behind, hsplit, List.takeWhile_cons_of_pos hc] at hbare
      cases hbare
    · rw [← hsplit]
      exact ((List.prefix_append_right_inj name).mpr (List.takeWhile_prefix _)).isInfix
  dsimp only at h
  split at h
  · next behind =>
    split at h
    · cases h
    · next d' hvalue =>
      cases h
      exact ⟨hsplit ▸ pointsInto_of_scanValue hvalue, rfl⟩
  · cases h
    refine ⟨?_, rfl⟩
    split
    · exact ⟨_, rfl, hword⟩
    · exact ⟨_, rfl, hword⟩

/-- A token that is scanned stands in its text, and a tail of the text is
left. -/
theorem standsIn_of_scanToken {c : Char} {t : Token} (hc : Text.isBlank c = false)
    (h : scanToken (c :: cs) = (t, rest)) : t.StandsIn (c :: cs) ∧ rest <:+ c :: cs := by
  cases ht : t.isBroken with
  | false =>
    obtain ⟨form, hcs, hform⟩ := (scanToken_eq_iff ht).mp h
    rw [hcs]
    exact ⟨.whole hform (List.prefix_append form rest).isInfix, List.suffix_append form rest⟩
  | true =>
    obtain ⟨d, rfl⟩ : ∃ d, t = .broken d := by
      cases t with
      | broken d => exact ⟨d, rfl⟩
      | _ => cases ht
    unfold scanToken at h
    split at h
    · cases h
    · cases h
    · cases h
    · next hclose _ =>
      have hbare : isBareChar c = true := by
        have hne : c ≠ ')' := by
          rintro rfl
          exact hclose cs rfl
        simpa [isBareChar, hc] using hne
      split at h
      · cases h
      · cases h
      · cases h
      · obtain ⟨hpoints, rfl⟩ := pointsInto_of_scanTerm hbare h
        exact ⟨.broken hpoints, List.nil_suffix⟩

theorem standsIn_scanAll (h : cs <:+ text) (fuel : Nat) : AllStandIn text (scanAll fuel cs) := by
  induction fuel generalizing cs with
  | zero => exact fun l hl => absurd hl List.not_mem_nil
  | succ fuel ih =>
    cases hskip : Text.skipBlank cs with
    | nil =>
      rw [scanAll_of_nil hskip]
      exact fun l hl => absurd hl List.not_mem_nil
    | cons c cs' =>
      have hc : Text.isBlank c = false := stop_dropWhile Text.isBlank cs c (by
        rw [show cs.dropWhile Text.isBlank = c :: cs' from hskip]
        rfl)
      have hsource : c :: cs' <:+ text := hskip ▸ (List.dropWhile_suffix _).trans h
      rcases hscan : scanToken (c :: cs') with ⟨t, rest⟩
      obtain ⟨htoken, hrest⟩ := standsIn_of_scanToken hc hscan
      rw [scanAll_of_cons hskip, hscan]
      refine List.forall_mem_cons.mpr ⟨⟨?_, List.cons_ne_nil _ _, hsource.isInfix⟩,
        ih (hrest.trans hsource)⟩
      cases htoken with
      | whole h hform => exact .whole h (hform.trans hsource.isInfix)
      | broken h => exact .broken (h.of_infix hsource.isInfix)

theorem standsIn_lexemes (cs : List Char) : AllStandIn cs (lexemes cs) :=
  standsIn_scanAll (List.suffix_refl cs) cs.length

/-- A text without tokens is a text of blanks. -/
theorem lexemes_eq_nil_iff : lexemes cs = [] ↔ Text.allBlank cs = true := by
  rw [← Text.skipBlank_eq_nil_iff]
  refine ⟨fun h => ?_, fun h => scanAll_of_nil h _⟩
  by_contra hne
  obtain ⟨c, cs', hskip⟩ := List.exists_cons_of_ne_nil hne
  have hlen : 0 < cs.length := by
    have hle := Text.skipBlank_length_le cs
    rw [hskip] at hle
    exact Nat.lt_of_lt_of_le (Nat.succ_pos _) hle
  obtain ⟨fuel, hfuel⟩ := Nat.exists_eq_add_one.mpr hlen
  rw [lexemes, hfuel, scanAll_of_cons hskip] at h
  cases h

/-! ## Readers that keep to a text -/

/-- A refusal with a warrant: a defect that blames the text, or what the
dialect refuses. -/
inductive Warranted (dialect : Dialect) (text : List Char) : ParseFault → Prop
  | defect {d : Defect} (h : d.Blames text) : Warranted dialect text (.defect d)
  | operator {name value : String} {f : Fault} (h : dialect.resolve name value = .error f) :
      Warranted dialect text (.operator f)

/-- An outcome that is good or a refusal with a warrant. -/
inductive Keeps (dialect : Dialect) (text : List Char) (good : α → Prop) :
    Except ParseFault α → Prop
  | ok {a : α} (h : good a) : Keeps dialect text good (.ok a)
  | error {e : ParseFault} (h : Warranted dialect text e) : Keeps dialect text good (.error e)

theorem Keeps.bind {good : α → Prop} {good' : β → Prop} {x : Except ParseFault α}
    {f : α → Except ParseFault β} (hx : Keeps dialect text good x)
    (hf : ∀ a, good a → Keeps dialect text good' (f a)) : Keeps dialect text good' (x >>= f) := by
  cases hx with
  | ok h => exact hf _ h
  | error h => exact .error h

/-- What is left stands in the text. -/
def LeavesText (text : List Char) (r : α × List Lexeme) : Prop :=
  AllStandIn text r.2

/-- A reader that, given lexemes of a text, leaves lexemes of it or refuses
with a warrant. -/
def KeepsTo (dialect : Dialect) (text : List Char) (reader : Reader) : Prop :=
  ∀ ⦃ls : List Lexeme⦄, AllStandIn text ls → Keeps dialect text (LeavesText text) (reader ls)

theorem keeps_expectOperand {operator : List Char} (h : IsPiece text operator)
    (ls : List Lexeme) : Keeps dialect text (fun _ => True) (expectOperand operator ls) := by
  have hdangling : Warranted dialect text (.defect (.dangling operator)) :=
    .defect (.piece ⟨_, rfl, h⟩)
  unfold expectOperand
  split
  · exact .error hdangling
  · split
    · exact .error hdangling
    · exact .ok trivial

variable {operand : Reader} {inner : Option Reader}

theorem keeps_moreConjuncts (h : KeepsTo dialect text operand) (fuel : Nat)
    (hls : AllStandIn text ls) :
    Keeps dialect text (LeavesText text) (moreConjuncts operand fuel ls) := by
  induction fuel generalizing ls with
  | zero => exact .ok hls
  | succ fuel ih =>
    have hmore {ls : List Lexeme} (hls : AllStandIn text ls) :
        Keeps dialect text (LeavesText text) (operandAndMore operand fuel ls) :=
      (h hls).bind fun _ hrest => (ih hrest).bind fun _ hrest => .ok hrest
    by_cases hends : EndsAll ls
    · rw [moreConjuncts_of_endsAll hends]
      exact .ok hls
    cases ls with
    | nil => exact .ok hls
    | cons l ls =>
      by_cases hl : l.token = .word .and
      · obtain ⟨hfirst, hback⟩ := List.forall_mem_cons.mp hls
        rw [moreConjuncts_of_and hl]
        exact (keeps_expectOperand (hl ▸ hfirst.token).isPiece_word ls).bind
          fun _ _ => hmore hback
      · rw [moreConjuncts_of_not_ends hends hl]
        exact hmore hls

theorem keepsTo_conjunction (h : KeepsTo dialect text operand) :
    KeepsTo dialect text (conjunction operand) :=
  fun _ hls => (h hls).bind fun _ hrest =>
    (keeps_moreConjuncts h _ hrest).bind fun _ hrest => .ok hrest

theorem keeps_moreDisjuncts (h : KeepsTo dialect text operand) (fuel : Nat)
    (hls : AllStandIn text ls) :
    Keeps dialect text (LeavesText text) (moreDisjuncts operand fuel ls) := by
  induction fuel generalizing ls with
  | zero => exact .ok hls
  | succ fuel ih =>
    by_cases hor : ∀ l ∈ ls.head?, l.token ≠ .word .or
    · rw [moreDisjuncts_of_not_or hor]
      exact .ok hls
    cases ls with
    | nil => exact .ok hls
    | cons l ls =>
      have hl : l.token = .word .or := by simpa using hor
      obtain ⟨hfirst, hback⟩ := List.forall_mem_cons.mp hls
      rw [moreDisjuncts_of_or hl]
      refine (keeps_expectOperand (hl ▸ hfirst.token).isPiece_word ls).bind fun _ _ => ?_
      exact (keepsTo_conjunction h hback).bind fun _ hrest =>
        (ih hrest).bind fun _ hrest => .ok hrest

theorem keepsTo_disjunction (h : KeepsTo dialect text operand) :
    KeepsTo dialect text (disjunction operand) :=
  fun _ hls => (keepsTo_conjunction h hls).bind fun _ hrest =>
    (keeps_moreDisjuncts h _ hrest).bind fun _ hrest => .ok hrest

theorem keeps_negation (h : KeepsTo dialect text (oneLevelIn inner)) {operator : List Char}
    (hoperator : IsPiece text operator) (hls : AllStandIn text ls) :
    Keeps dialect text (LeavesText text) (negation inner operator ls) :=
  (keeps_expectOperand hoperator ls).bind fun _ _ => (h hls).bind fun _ hrest => .ok hrest

/-- One operand, if what is one level further in keeps to the text. -/
theorem keepsTo_operandWith (h : KeepsTo dialect text (oneLevelIn inner)) :
    KeepsTo dialect text (operandWith dialect inner) := by
  intro ls hls
  cases ls with
  | nil => exact .error (.defect .endOfQuery)
  | cons l ls =>
    obtain ⟨hfirst, hback⟩ := List.forall_mem_cons.mp hls
    have htoken := hfirst.token
    rw [operandWith]
    split
    · next hl => exact keeps_negation h (hl ▸ htoken).isPiece_minus hback
    · next hl => exact keeps_negation h (hl ▸ htoken).isPiece_word hback
    · have hopen : Warranted dialect text (.defect (.unbalanced l.source)) :=
        .defect (.piece ⟨_, rfl, hfirst.source⟩)
      rw [nested_disjunction]
      refine (keepsTo_disjunction h hback).bind ?_
      rintro ⟨p, rest⟩ hrest
      cases rest with
      | nil => exact .error hopen
      | cons close rest =>
        dsimp only
        split
        · exact .ok (List.forall_mem_cons.mp hrest).2
        · exact .error hopen
    · next hl => exact .error (.defect (.piece ⟨_, rfl, (hl ▸ htoken).isPiece_closeGroup⟩))
    · next hl => exact .error (.defect (.piece ⟨_, rfl, (hl ▸ htoken).isPiece_word⟩))
    · next hl => exact .error (.defect (.piece (hl ▸ htoken).pointsInto))
    · split
      · exact .ok hback
      · next hresolve => exact .error (.operator hresolve)

theorem keepsTo_operand (dialect : Dialect) (text : List Char) (levels : Nat) :
    KeepsTo dialect text (Query.operand dialect levels) := by
  induction levels with
  | zero =>
    have hinner : KeepsTo dialect text (oneLevelIn none) := fun _ _ => .error (.defect .tooDeep)
    exact keepsTo_operandWith hinner
  | succ levels ih =>
    have hinner : KeepsTo dialect text (oneLevelIn (some (Query.operand dialect levels))) := ih
    exact keepsTo_operandWith hinner

/-! ## Whole texts -/

/-- A text is refused for being empty just if it is a text of blanks, and
otherwise with a warrant. -/
theorem parseText_eq_error_cases {e : ParseFault} (h : parseText dialect cs = .error e) :
    (Text.allBlank cs = true ∧ e = .defect .emptyQuery)
      ∨ (Text.allBlank cs = false ∧ Warranted dialect cs e) := by
  unfold parseText parseLexemes at h
  split_ifs at h with hempty
  · cases h
    exact .inl ⟨lexemes_eq_nil_iff.mp (List.isEmpty_iff.mp hempty), rfl⟩
  · have hnot : Text.allBlank cs = false := by
      rw [← Bool.not_eq_true, ← lexemes_eq_nil_iff]
      exact fun hnil => hempty (List.isEmpty_iff.mpr hnil)
    have hkeeps := keepsTo_disjunction (keepsTo_operand dialect cs maxLevels)
      (standsIn_lexemes cs)
    refine .inr ⟨hnot, ?_⟩
    split at h
    · next e' hread =>
      cases h
      rw [hread] at hkeeps
      cases hkeeps with
      | error h => exact h
    · cases h
    · next p l rest hread =>
      cases h
      rw [hread] at hkeeps
      cases hkeeps with
      | ok h => exact .defect (.piece ⟨_, rfl, (h l List.mem_cons_self).source⟩)

theorem parseText_of_allBlank (h : Text.allBlank cs = true) :
    parseText dialect cs = .error (.defect .emptyQuery) := by
  rw [parseText, lexemes_eq_nil_iff.mpr h]
  rfl

/-! ## The dialect of change records -/

/-- An operator blames the value that it refuses. -/
def RefusesAt (op : Operator) : Prop :=
  ∀ ⦃value : String⦄ ⦃f : Fault⦄, op value = .error f →
    ∃ reason fragment, f = .refusedAt reason fragment

theorem refusesAt_status : RefusesAt Dialect.status := by
  intro value f h
  unfold Dialect.status at h
  dsimp only at h
  split at h
  · cases h
  · cases h
    exact ⟨_, _, rfl⟩

theorem refusesAt_isStatus : RefusesAt Dialect.isStatus := by
  intro value f h
  unfold Dialect.isStatus at h
  split_ifs at h
  · exact refusesAt_status h
  · cases h
    exact ⟨_, _, rfl⟩

theorem refusesAt_exactField (field : String) : RefusesAt (Dialect.exactField field) := by
  intro value f h
  cases h

theorem refusesAt_message : RefusesAt Dialect.message := by
  intro value f h
  cases h

theorem refusesAt_timestamp (name : String) (operand : Int → Operand) :
    RefusesAt (Dialect.timestamp name operand) := by
  intro value f h
  unfold Dialect.timestamp at h
  split at h
  · cases h
  · cases h
    exact ⟨_, _, rfl⟩

theorem refusesAt_limit : RefusesAt Dialect.limit := by
  intro value f h
  unfold Dialect.limit at h
  split at h
  · cases h
  · cases h
    exact ⟨_, _, rfl⟩

/-- What the dialect refuses it refuses at a term, a value or a name. -/
theorem changes_resolve_refusesAt {name value : String} {f : Fault}
    (h : Dialect.changes.resolve name value = .error f) :
    ∃ reason fragment, f = .refusedAt reason fragment := by
  have hall : Dialect.changes.All RefusesAt :=
    Dialect.All.empty
      |>.add refusesAt_status "status"
      |>.add refusesAt_isStatus "is"
      |>.add (refusesAt_exactField _) "project"
      |>.add (refusesAt_exactField _) "branch"
      |>.add (refusesAt_exactField _) "ref"
      |>.add (refusesAt_exactField _) "file"
      |>.add (refusesAt_exactField _) "owner"
      |>.add (refusesAt_exactField _) "topic"
      |>.add (refusesAt_exactField _) "hashtag"
      |>.add refusesAt_message "message"
      |>.add (refusesAt_timestamp _ _) "after"
      |>.add (refusesAt_timestamp _ _) "since"
      |>.add (refusesAt_timestamp _ _) "before"
      |>.add (refusesAt_timestamp _ _) "until"
      |>.add refusesAt_limit "limit"
  unfold Dialect.resolve at h
  split at h
  · next op hfind => exact hall hfind h
  · cases h
    exact ⟨_, _, rfl⟩

theorem parse_eq_error_iff {text : String} {f : Fault} : dialect.parse text = .error f
    ↔ ∃ e, parseText dialect text.toList = .error e ∧ e.toFault = f := by
  unfold Dialect.parse
  cases parseText dialect text.toList <;> simp [Except.mapError]

/-- The fault of a defect without a fragment, and of one with a fragment. -/
theorem Defect.toFault_of_none (h : d.fragment? = none) : d.toFault = .refused d.reason := by
  rw [toFault, h]

theorem Defect.toFault_of_some {f : List Char} (h : d.fragment? = some f) :
    d.toFault = .refusedAt d.reason (String.ofList f) := by
  rw [toFault, h]

theorem Defect.code_toFault (d : Defect) : d.toFault.code = .queryParse := by
  cases hd : d.fragment? with
  | none => rw [toFault_of_none hd, Fault.code]
  | some f => rw [toFault_of_some hd, Fault.code]

/-- A defect that a text is blamed for is not the one of empty queries. -/
theorem Defect.Blames.ne_emptyQuery (h : d.Blames text) : d ≠ .emptyQuery := by
  rintro rfl
  cases h with
  | piece h =>
    obtain ⟨f, hf, -⟩ := h
    cases hf

theorem Defect.toFault_eq_emptyQuery_iff :
    d.toFault = .refused "empty query" ↔ d = .emptyQuery := by
  refine ⟨fun h => ?_, fun h => h ▸ rfl⟩
  cases d with
  | emptyQuery => rfl
  | _ => simp [toFault, fragment?, reason] at h

/-- The fault of a defect: no fragment and one of three reasons, or a
fragment, which is a piece of the text, behind the reason. -/
theorem Defect.shape_toFault {text : String}
    (h : d = .emptyQuery ∨ d.Blames text.toList) :
    (d.toFault.fragment? = none
      ∧ d.toFault.message
        ∈ ["empty query", "unexpected end of query", "query nesting too deep"])
      ∨ ∃ front fragment back, text = front ++ fragment ++ back ∧ fragment ≠ ""
        ∧ d.toFault.fragment? = some fragment
        ∧ d.toFault.message = d.reason ++ ": " ++ fragment := by
  rcases h with rfl | h
  · exact .inl ⟨rfl, by decide⟩
  cases h with
  | endOfQuery => exact .inl ⟨rfl, by decide⟩
  | tooDeep => exact .inl ⟨rfl, by decide⟩
  | piece h =>
    obtain ⟨f, hf, hne, front, back, htext⟩ := h
    rw [toFault_of_some hf]
    refine .inr ⟨.ofList front, .ofList f, .ofList back, ?_, ?_, rfl, rfl⟩
    · rw [← String.toList_inj]
      simp [← htext]
    · simpa [String.ext_iff] using hne

/-- Every rejection of a query is a parse error that points into its text.

* What is refused has the code of parse errors.
* What the parser refuses by itself has no fragment, for one of three
  reasons, or a fragment that is a piece of the text, not empty, and the
  message is the reason, a colon and the fragment. What it does not refuse
  by itself is refused by the operators of the dialect.
* The texts of blanks, and no others, are refused as empty queries. -/
theorem rejection_blames_text (text : String) :
    (∀ f, Dialect.changes.parse text = .error f → f.code.text = "AERO_QUERY_PARSE")
    ∧ (∀ d, parseText Dialect.changes text.toList = .error (.defect d) →
        ∃ f, Dialect.changes.parse text = .error f
          ∧ ((f.fragment? = none
              ∧ f.message ∈ ["empty query", "unexpected end of query", "query nesting too deep"])
            ∨ ∃ front fragment back, text = front ++ fragment ++ back ∧ fragment ≠ ""
              ∧ f.fragment? = some fragment ∧ f.message = d.reason ++ ": " ++ fragment))
    ∧ (∀ f, parseText Dialect.changes text.toList = .error (.operator f) →
        Dialect.changes.parse text = .error f
          ∧ ∃ name value, Dialect.changes.resolve name value = .error f)
    ∧ (Dialect.changes.parse text = .error (.refused "empty query")
        ↔ ∀ c ∈ text.toList, Text.isBlank c = true) := by
  refine ⟨fun f hf => ?_, fun d hd => ?_, fun f hf => ?_, ?_⟩
  · obtain ⟨e, he, rfl⟩ := parse_eq_error_iff.mp hf
    rcases parseText_eq_error_cases he with ⟨-, rfl⟩ | ⟨-, hwarrant⟩
    · rfl
    · cases hwarrant with
      | defect h => exact congrArg Code.text (Defect.code_toFault _)
      | operator h =>
        obtain ⟨reason, fragment, rfl⟩ := changes_resolve_refusesAt h
        rfl
  · refine ⟨d.toFault, parse_eq_error_iff.mpr ⟨_, hd, rfl⟩, Defect.shape_toFault ?_⟩
    rcases parseText_eq_error_cases hd with ⟨-, h⟩ | ⟨-, hwarrant⟩
    · cases h
      exact .inl rfl
    · cases hwarrant with
      | defect h => exact .inr h
  · refine ⟨parse_eq_error_iff.mpr ⟨_, hf, rfl⟩, ?_⟩
    rcases parseText_eq_error_cases hf with ⟨-, h⟩ | ⟨-, hwarrant⟩
    · cases h
    · cases hwarrant with
      | operator h => exact ⟨_, _, h⟩
  · rw [show (∀ c ∈ text.toList, Text.isBlank c = true) ↔ Text.allBlank text.toList = true from
      List.all_eq_true.symm]
    refine ⟨fun h => ?_, fun h => parse_eq_error_iff.mpr ⟨_, parseText_of_allBlank h, rfl⟩⟩
    obtain ⟨e, he, hfault⟩ := parse_eq_error_iff.mp h
    rcases parseText_eq_error_cases he with ⟨hblank, -⟩ | ⟨-, hwarrant⟩
    · exact hblank
    · cases hwarrant with
      | defect h => exact absurd (Defect.toFault_eq_emptyQuery_iff.mp hfault) h.ne_emptyQuery
      | operator h =>
        obtain ⟨reason, fragment, rfl⟩ := changes_resolve_refusesAt h
        cases hfault

end ReviewSearch.Query
