/-
ReviewSearch.Proofs.Text.Casing — lower-casing a piece of a text.

`lowerBetween` is the lower-case form of a piece between what stands in
front of it and behind it, and a text is lower-cased piece by piece
(`lower_between`). Of what stands around a character, only a capital sigma
takes notice, and of that only of the NEAREST character on either side
that is not case-ignorable, and whether that is a letter: a character that
is cased.

A capital sigma is SETTLED by the characters around it if no others beyond
them can change its form (`Settled`).

* `lowerBetween_of_settled` — a piece that settles its capital sigmas has
  the same form in every text;
* `exists_not_infix_lower` — any other piece stands in some text whose
  lower-case form does not contain that of the piece.
-/
import Mathlib.Data.List.Infix
import ReviewSearch.Text.Lower

namespace ReviewSearch.Text

variable {before after before' after' cs : List Char} {x : Char}

/-! ## Pieces -/

/-- The form of a capital sigma between two texts, the first in reverse. -/
def sigmaForm (before after : List Char) : Char :=
  if endsWord before after then finalSigma else smallSigma

/-- The lower-case form of a character between two texts, the first in
reverse. -/
def lowerAt (before after : List Char) (c : Char) : List Char :=
  if c = capitalSigma then [sigmaForm before after] else lowerChar c

/-- The lower-case form of a piece between two texts, the first in
reverse. -/
def lowerBetween (before after : List Char) : List Char → List Char
  | [] => []
  | c :: cs => lowerAt before (cs ++ after) c ++ lowerBetween (c :: before) after cs

@[simp] theorem lowerAt_capitalSigma (before after : List Char) :
    lowerAt before after capitalSigma = [sigmaForm before after] :=
  if_pos rfl

theorem lowerAt_of_ne {c : Char} (hc : c ≠ capitalSigma) (before after : List Char) :
    lowerAt before after c = lowerChar c :=
  if_neg hc

theorem lowerFrom_eq_lowerBetween (before cs : List Char) :
    lowerFrom before cs = lowerBetween before [] cs := by
  induction cs generalizing before with
  | nil => rfl
  | cons c cs ih =>
    rw [lowerFrom, lowerBetween, ih, List.append_nil]
    rfl

theorem lowerBetween_append (before after xs ys : List Char) :
    lowerBetween before after (xs ++ ys)
      = lowerBetween before (ys ++ after) xs
        ++ lowerBetween (xs.reverse ++ before) after ys := by
  induction xs generalizing before with
  | nil => rfl
  | cons x xs ih =>
    rw [List.cons_append, lowerBetween, lowerBetween, ih, List.append_assoc, List.append_assoc,
      List.reverse_cons, List.append_assoc, List.singleton_append]

/-- A text is lower-cased piece by piece. -/
theorem lower_between (front piece back : List Char) :
    lower (front ++ piece ++ back)
      = lowerBetween [] (piece ++ back) front ++ lowerBetween front.reverse back piece
        ++ lowerBetween (front ++ piece).reverse [] back := by
  rw [lower, lowerFrom_eq_lowerBetween, lowerBetween_append, lowerBetween_append,
    List.append_nil, List.append_nil, List.append_nil]

/-! ## The nearest character that counts -/

/-- The first character that is not case-ignorable. -/
def nearest? (cs : List Char) : Option Char :=
  cs.find? fun c => !isCaseIgnorable c

theorem meetsCased_eq (cs : List Char) : meetsCased cs = (nearest? cs).any isCased := by
  unfold meetsCased nearest?
  induction cs with
  | nil => rfl
  | cons c cs ih =>
    cases hc : isCaseIgnorable c with
    | true => simpa [hc] using ih
    | false => simp [hc]

theorem nearest?_append (xs ys : List Char) :
    nearest? (xs ++ ys) = (nearest? xs).or (nearest? ys) :=
  List.find?_append

theorem endsWord_eq (before after : List Char) :
    endsWord before after
      = ((nearest? before).any isCased && !(nearest? after).any isCased) := by
  rw [endsWord, meetsCased_eq, meetsCased_eq]

/-- What settles the form of a capital sigma between two texts, the first
in reverse: no letter in front of it or a letter behind it, so that it
ends no word, or a character that counts on either side. -/
inductive Settled (before after : List Char) : Prop
  | noLetterBefore {c : Char} (h : nearest? before = some c) (hc : isCased c = false)
  | letterBehind {c : Char} (h : nearest? after = some c) (hc : isCased c = true)
  | both {c d : Char} (hbefore : nearest? before = some c) (hafter : nearest? after = some d)

/-- Nothing beyond what settles a sigma changes its form. -/
theorem Settled.endsWord_append (h : Settled before after) (front back : List Char) :
    endsWord (before ++ front) (after ++ back) = endsWord before after := by
  simp only [endsWord_eq, nearest?_append]
  cases h with
  | noLetterBefore h hc => simp [h, hc]
  | letterBehind h hc => simp [h, hc]
  | both hbefore hafter => simp [hbefore, hafter]

theorem nearest?_a : nearest? ['a'] = some 'a' := by decide +kernel

theorem isCased_a : isCased 'a' = true := by decide +kernel

/-- A sigma that is not settled takes another form behind a letter, or in
front of one. -/
theorem endsWord_of_not_settled (h : ¬Settled before after) :
    (endsWord before after = false ∧ endsWord (before ++ ['a']) after = true)
      ∨ (endsWord before after = true ∧ endsWord before (after ++ ['a']) = false) := by
  simp only [endsWord_eq, nearest?_append, nearest?_a]
  cases hbefore : nearest? before with
  | none =>
    -- nothing in front counts, so the sigma ends no word unless a letter comes to stand there
    left
    cases hafter : nearest? after with
    | none => simp [isCased_a]
    | some d =>
      have hd : isCased d = false := by
        simpa using fun hd => h (.letterBehind hafter hd)
      simp [isCased_a, hd]
  | some c =>
    -- the sigma ends a word unless a letter comes to stand behind it
    right
    have hc : isCased c = true := by
      simpa using fun hc => h (.noLetterBefore hbefore hc)
    cases hafter : nearest? after with
    | none => simp [hc, isCased_a]
    | some d => exact absurd (.both hbefore hafter) h

/-! ## Settled pieces -/

/-- A piece that by itself settles each of its capital sigmas. -/
def SettlesSigmas (piece : List Char) : Prop :=
  ∀ xs ys, piece = xs ++ capitalSigma :: ys → Settled xs.reverse ys

theorem settlesSigmas_of_not_mem (h : capitalSigma ∉ cs) : SettlesSigmas cs := by
  rintro xs ys rfl
  exact absurd (List.mem_append_right xs List.mem_cons_self) h

/-- Where the same sigmas end a word, a piece has the same form. -/
theorem lowerBetween_congr (h : ∀ xs ys, cs = xs ++ capitalSigma :: ys →
      endsWord (xs.reverse ++ before) (ys ++ after)
        = endsWord (xs.reverse ++ before') (ys ++ after')) :
    lowerBetween before after cs = lowerBetween before' after' cs := by
  induction cs generalizing before before' with
  | nil => rfl
  | cons c cs ih =>
    have htail : lowerBetween (c :: before) after cs = lowerBetween (c :: before') after' cs := by
      refine ih fun xs ys hcs => ?_
      simpa using h (c :: xs) ys (congrArg (c :: ·) hcs)
    rw [lowerBetween, lowerBetween, htail]
    refine congrArg (· ++ _) ?_
    by_cases hc : c = capitalSigma
    · subst hc
      have hends : endsWord before (cs ++ after) = endsWord before' (cs ++ after') := h [] cs rfl
      rw [lowerAt_capitalSigma, lowerAt_capitalSigma, sigmaForm, sigmaForm, hends]
    · rw [lowerAt_of_ne hc, lowerAt_of_ne hc]

/-- A piece that settles its capital sigmas has the same form in every
text. -/
theorem lowerBetween_of_settled (h : SettlesSigmas cs) (front back : List Char) :
    lowerBetween front back cs = lower cs := by
  rw [lower, lowerFrom_eq_lowerBetween]
  refine lowerBetween_congr fun xs ys hcs => ?_
  rw [(h xs ys hcs).endsWord_append, List.append_nil, List.append_nil]

/-! ## Unsettled pieces -/

/-- Where no sigma takes a form that it did not have, there are no more of
that form. -/
theorem count_lowerBetween_le
    (h : ∀ xs ys, sigmaForm (xs ++ before') (ys ++ after') = x →
      sigmaForm (xs ++ before) (ys ++ after) = x) (cs : List Char) :
    (lowerBetween before' after' cs).count x ≤ (lowerBetween before after cs).count x := by
  induction cs generalizing before before' with
  | nil => exact Nat.le_refl _
  | cons c cs ih =>
    rw [lowerBetween, lowerBetween, List.count_append, List.count_append]
    refine Nat.add_le_add ?_ (ih fun xs ys hform => ?_)
    · by_cases hc : c = capitalSigma
      · subst hc
        rw [lowerAt_capitalSigma, lowerAt_capitalSigma, List.count_singleton, List.count_singleton]
        split_ifs with hform hform'
        · exact Nat.le_refl _
        · exact absurd (h [] cs (beq_iff_eq.mp hform)) (by simpa using hform')
        all_goals exact Nat.zero_le _
      · rw [lowerAt_of_ne hc, lowerAt_of_ne hc]
    · simpa using h (xs ++ [c]) ys (by simpa using hform)

/-- If moreover some sigma loses the form, there are less of it. -/
theorem count_lowerBetween_lt
    (h : ∀ xs ys, sigmaForm (xs ++ before') (ys ++ after') = x →
      sigmaForm (xs ++ before) (ys ++ after) = x) (xs ys : List Char)
    (hform : sigmaForm (xs.reverse ++ before) (ys ++ after) = x)
    (hform' : sigmaForm (xs.reverse ++ before') (ys ++ after') ≠ x) :
    (lowerBetween before' after' (xs ++ capitalSigma :: ys)).count x
      < (lowerBetween before after (xs ++ capitalSigma :: ys)).count x := by
  have hfront : (lowerBetween before' (capitalSigma :: ys ++ after') xs).count x
      ≤ (lowerBetween before (capitalSigma :: ys ++ after) xs).count x :=
    count_lowerBetween_le (fun us vs => by simpa using h us (vs ++ capitalSigma :: ys)) xs
  have hback : (lowerBetween (capitalSigma :: (xs.reverse ++ before')) after' ys).count x
      ≤ (lowerBetween (capitalSigma :: (xs.reverse ++ before)) after ys).count x :=
    count_lowerBetween_le
      (fun us vs => by simpa using h (us ++ capitalSigma :: xs.reverse) vs) ys
  rw [lowerBetween_append, lowerBetween_append, lowerBetween, lowerBetween,
    lowerAt_capitalSigma, lowerAt_capitalSigma]
  simp only [List.count_append, List.count_singleton, hform, beq_self_eq_true, if_true,
    beq_eq_false_iff_ne.mpr hform', Bool.false_eq_true, if_false]
  omega

theorem sigmaForm_eq_finalSigma_iff : sigmaForm before after = finalSigma
    ↔ endsWord before after = true := by
  unfold sigmaForm
  cases endsWord before after <;> decide

theorem sigmaForm_eq_smallSigma_iff : sigmaForm before after = smallSigma
    ↔ endsWord before after = false := by
  unfold sigmaForm
  cases endsWord before after <;> decide

/-- A sigma that ends no word behind a letter ends none without it. -/
theorem endsWord_of_letter_before (h : endsWord (before ++ ['a']) after = false) :
    endsWord before after = false := by
  simp only [endsWord_eq, nearest?_append, nearest?_a, Bool.and_eq_false_iff] at h ⊢
  refine h.imp_left fun h => ?_
  cases hbefore : nearest? before with
  | none => rfl
  | some c => simpa [hbefore] using h

/-- A sigma that ends a word in front of a letter ends one without it. -/
theorem endsWord_of_letter_behind (h : endsWord before (after ++ ['a']) = true) :
    endsWord before after = true := by
  simp only [endsWord_eq, nearest?_append, nearest?_a, Bool.and_eq_true] at h ⊢
  refine ⟨h.1, ?_⟩
  cases hafter : nearest? after with
  | none => rfl
  | some c => simpa [hafter] using h.2

theorem lowerChar_a : lowerChar 'a' = ['a'] := by decide +kernel

theorem lowerAt_a (before after : List Char) : lowerAt before after 'a' = ['a'] :=
  (lowerAt_of_ne (by decide) before after).trans lowerChar_a

/-- A piece that does not settle one of its capital sigmas stands in a text
whose lower-case form does not contain that of the piece: it has too few
sigmas of one of the two forms. -/
theorem exists_not_infix_lower (h : ¬SettlesSigmas cs) :
    ∃ front back, ¬lower cs <:+: lower (front ++ cs ++ back) := by
  simp only [SettlesSigmas, not_forall] at h
  obtain ⟨xs, ys, hcs, hxs⟩ := h
  obtain ⟨hform, hform'⟩ | ⟨hform, hform'⟩ := endsWord_of_not_settled hxs
  · -- a letter in front takes a small sigma away
    refine ⟨['a'], [], fun hinfix => ?_⟩
    have hlt : (lowerBetween ['a'] [] cs).count smallSigma
        < (lowerBetween [] [] cs).count smallSigma := by
      rw [hcs]
      refine count_lowerBetween_lt (fun us vs hsmall => ?_) xs ys ?_ ?_
      · simp only [List.append_nil, sigmaForm_eq_smallSigma_iff] at hsmall ⊢
        exact endsWord_of_letter_before hsmall
      · simpa [sigmaForm_eq_smallSigma_iff] using hform
      · simpa [sigmaForm_eq_smallSigma_iff] using hform'
    have ha : ['a'].count smallSigma = 0 := by decide
    have hle := hinfix.sublist.count_le smallSigma
    rw [lower_between, lower, lowerFrom_eq_lowerBetween] at hle
    simp only [lowerBetween, lowerAt_a, List.count_append, List.append_nil, ha] at hle
    exact Nat.not_le_of_lt hlt (by simpa using hle)
  · -- a letter behind takes a final sigma away
    refine ⟨[], ['a'], fun hinfix => ?_⟩
    have hlt : (lowerBetween [] ['a'] cs).count finalSigma
        < (lowerBetween [] [] cs).count finalSigma := by
      rw [hcs]
      refine count_lowerBetween_lt (fun us vs hfinal => ?_) xs ys ?_ ?_
      · simp only [List.append_nil, sigmaForm_eq_finalSigma_iff] at hfinal ⊢
        exact endsWord_of_letter_behind hfinal
      · simpa [sigmaForm_eq_finalSigma_iff] using hform
      · simpa [sigmaForm_eq_finalSigma_iff] using hform'
    have ha : ['a'].count finalSigma = 0 := by decide
    have hle := hinfix.sublist.count_le finalSigma
    rw [lower_between, lower, lowerFrom_eq_lowerBetween] at hle
    simp only [lowerBetween, lowerAt_a, List.count_append, List.nil_append, ha] at hle
    exact Nat.not_le_of_lt hlt (by simpa using hle)

end ReviewSearch.Text
