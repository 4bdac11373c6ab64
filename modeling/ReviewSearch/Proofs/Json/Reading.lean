/-
ReviewSearch.Proofs.Json.Reading — what is written is read as it was meant.

A text is written between quotes, with some characters escaped. Each of
them is read as one unit that stands for it, whatever follows
(`exists_scanString_escapeChar`), so the unit list of a quoted text means
the text (`exists_scanString_escape`).

`Tokens cs ts` says that a text is cut into tokens, given enough fuel; a
token and then more make more tokens (`tokens_cons`). An object of texts
is read as the list of its members in their order, with equal keys kept
apart: `exists_read?_textObject`.
-/
import Mathlib.Data.List.Basic
import Mathlib.Data.List.Forall2
import ReviewSearch.Json.Record
import ReviewSearch.Json.Writer

namespace ReviewSearch.Json

/-! ## Quoted texts -/

/-- A unit that stands for one character, whatever follows it. -/
def TextUnit.StandsFor (u : TextUnit) (c : Char) : Prop :=
  ∀ us, textOf? (u :: us) = (textOf? us).map (c :: ·)

theorem standsFor_char (c : Char) : (TextUnit.char c).StandsFor c :=
  fun _ => by rw [textOf?]

/-- The code of a control character is not half of another. -/
theorem standsFor_code {c : Char} (h : c.toNat < 0x20) : (TextUnit.code c.toNat).StandsFor c := by
  intro us
  have hhigh : ¬0xD800 ≤ c.toNat := by omega
  have hlow : ¬0xDC00 ≤ c.toNat := by omega
  match us with
  | [] | .char _ :: _ | .code _ :: _ =>
    simp only [textOf?, hhigh, hlow, false_and, if_false, Char.ofNat_toNat]

theorem value?_digit : ∀ n < 16, Text.Hex.value? (Text.Hex.digit n) = some n := by decide

section Scanning

variable {c : Char} {cs rest : List Char} {us : List TextUnit}

theorem scanString_letter {e : Char} (he : escaped? e = some c)
    (h : scanString cs = some (us, rest)) :
    scanString ('\\' :: e :: cs) = some (.char c :: us, rest) := by
  have hu : e ≠ 'u' := by
    rintro rfl
    cases he
  rw [scanString.eq_4 _ _ fun _ _ _ _ _ heq => absurd heq hu, he, h]
  rfl

theorem scanString_code (hc : c.toNat < 0x20) (h : scanString cs = some (us, rest)) :
    scanString ('\\' :: 'u' :: '0' :: '0' :: Text.Hex.digit (c.toNat / 16)
        :: Text.Hex.digit (c.toNat % 16) :: cs) = some (.code c.toNat :: us, rest) := by
  have hcode : hexCode? '0' '0' (Text.Hex.digit (c.toNat / 16)) (Text.Hex.digit (c.toNat % 16))
      = some c.toNat := by
    have hsum : ((0 * 16 + 0) * 16 + c.toNat / 16) * 16 + c.toNat % 16 = c.toNat := by omega
    have hzero : Text.Hex.value? '0' = some 0 := rfl
    simp only [hexCode?, hzero, value?_digit (c.toNat / 16) (by omega),
      value?_digit (c.toNat % 16) (by omega), Option.bind_eq_bind, Option.bind_some, hsum]
    rfl
  rw [scanString, hcode, h]
  rfl

theorem scanString_plain (hquote : c ≠ '"') (hslash : c ≠ '\\') (hc : ¬c.toNat < 0x20)
    (h : scanString cs = some (us, rest)) :
    scanString (c :: cs) = some (.char c :: us, rest) := by
  rw [scanString.eq_5 _ _ hquote (fun _ _ _ _ _ heq => absurd heq hslash)
    (fun _ _ heq => absurd heq hslash), if_neg (not_or.mpr ⟨hc, hslash⟩), h]
  rfl

/-- An escaped character is read as one unit that stands for it. -/
theorem exists_scanString_escapeChar (c : Char) : ∃ u : TextUnit, u.StandsFor c ∧
    ∀ {cs rest us}, scanString cs = some (us, rest) →
      scanString (escapeChar c ++ cs) = some (u :: us, rest) := by
  unfold escapeChar
  split_ifs with hquote hslash hb ht hn hf hr hcontrol
  · subst hquote
    exact ⟨_, standsFor_char _, scanString_letter rfl⟩
  · subst hslash
    exact ⟨_, standsFor_char _, scanString_letter rfl⟩
  · subst hb
    exact ⟨_, standsFor_char _, scanString_letter rfl⟩
  · subst ht
    exact ⟨_, standsFor_char _, scanString_letter rfl⟩
  · subst hn
    exact ⟨_, standsFor_char _, scanString_letter rfl⟩
  · subst hf
    exact ⟨_, standsFor_char _, scanString_letter rfl⟩
  · subst hr
    exact ⟨_, standsFor_char _, scanString_letter rfl⟩
  · exact ⟨_, standsFor_code hcontrol, scanString_code hcontrol⟩
  · exact ⟨_, standsFor_char c, scanString_plain hquote hslash hcontrol⟩

end Scanning

/-- An escaped text is read up to its closing quote, as units that mean
it. -/
theorem exists_scanString_escape (cs : List Char) : ∃ us, textOf? us = some cs ∧
    ∀ rest, scanString (escape cs ++ '"' :: rest) = some (us, rest) := by
  induction cs with
  | nil => exact ⟨[], rfl, fun rest => by rw [escape, List.flatMap_nil, List.nil_append, scanString]⟩
  | cons c cs ih =>
    obtain ⟨us, htext, hscan⟩ := ih
    obtain ⟨u, hu, hfirst⟩ := exists_scanString_escapeChar c
    refine ⟨u :: us, by rw [hu, htext, Option.map_some], fun rest => ?_⟩
    rw [escape, List.flatMap_cons, List.append_assoc]
    exact hfirst (hscan rest)

/-- What a character becomes has no control characters. -/
theorem printable_escapeChar (c : Char) : ∀ d ∈ escapeChar c, 0x20 ≤ d.toNat := by
  have hdigit : ∀ n < 16, 0x20 ≤ (Text.Hex.digit n).toNat := by decide
  have hletter : ∀ e ∈ ['"', '\\', 'b', 't', 'n', 'f', 'r'], ∀ d ∈ ['\\', e], 0x20 ≤ d.toNat := by
    simp
  unfold escapeChar
  split_ifs with hquote hslash hb ht hn hf hr hcontrol
  · exact hletter '"' (by decide)
  · exact hletter '\\' (by decide)
  · exact hletter 'b' (by decide)
  · exact hletter 't' (by decide)
  · exact hletter 'n' (by decide)
  · exact hletter 'f' (by decide)
  · exact hletter 'r' (by decide)
  · have hcode : ∀ d ∈ ['\\', 'u', '0', '0'], 0x20 ≤ d.toNat := by simp
    simp only [List.forall_mem_cons] at hcode ⊢
    exact ⟨hcode.1, hcode.2.1, hcode.2.2.1, hcode.2.2.2.1, hdigit _ (by omega), hdigit _ (by omega),
      nofun⟩
  · rw [List.forall_mem_singleton]
    exact Nat.not_lt.mp hcontrol

theorem not_mem_escape {c : Char} (h : c.toNat < 0x20) (cs : List Char) : c ∉ escape cs := by
  intro hc
  obtain ⟨d, -, hd⟩ := List.mem_flatMap.mp hc
  exact absurd (printable_escapeChar d c hd) (Nat.not_le.mpr h)

/-! ## Tokens -/

/-- A text is cut into tokens, given fuel for each of its characters. -/
def Tokens (cs : List Char) (ts : List Token) : Prop :=
  ∀ fuel, cs.length < fuel → scanTokens fuel cs = some ts

theorem tokens_nil : Tokens [] [] := by
  intro fuel h
  cases fuel with
  | zero => exact absurd h (Nat.not_lt_zero _)
  | succ fuel => rfl

theorem tokens_cons {c : Char} {cs rest : List Char} {t : Token} {ts : List Token}
    (hspace : isSpace c = false) (hscan : scanToken (c :: cs) = some (t, rest))
    (hrest : rest.length ≤ cs.length) (h : Tokens rest ts) : Tokens (c :: cs) (t :: ts) := by
  intro fuel hfuel
  cases fuel with
  | zero => exact absurd hfuel (Nat.not_lt_zero _)
  | succ fuel =>
    rw [List.length_cons] at hfuel
    rw [scanTokens, List.dropWhile_cons_of_neg (by simp [hspace])]
    simp only [hscan, h fuel (by omega), Option.bind_eq_bind, Option.bind_some]
    rfl

/-! ## States of the reader -/

/-- Reading a text takes the machine from one state to another, whatever
text comes behind it. -/
def Reads (cs : List Char) (s s' : State) : Prop :=
  ∀ rest ts, Tokens rest ts → ∃ ts', Tokens (cs ++ rest) ts' ∧ run s ts' = run s' ts

theorem Reads.append {cs ds : List Char} {s s' s'' : State} (h : Reads cs s s')
    (h' : Reads ds s' s'') : Reads (cs ++ ds) s s'' := by
  intro rest ts hrest
  obtain ⟨ts', hts', hrun'⟩ := h' rest ts hrest
  obtain ⟨ts'', hts'', hrun⟩ := h (ds ++ rest) ts' hts'
  exact ⟨ts'', by rwa [List.append_assoc], hrun.trans hrun'⟩

/-- A mark of one character is a token, and a step. -/
theorem reads_mark {c : Char} {t : Token} {s s' : State} (hspace : isSpace c = false)
    (hscan : ∀ cs, scanToken (c :: cs) = some (t, cs)) (hstep : step s t = some s') :
    Reads [c] s s' := by
  intro rest ts hrest
  exact ⟨t :: ts, tokens_cons hspace (hscan rest) (Nat.le_refl _) hrest, by
    rw [run, hstep, Option.bind_some]⟩

/-- A quoted text is one token, which means it, and a step. -/
theorem exists_reads_quote (text : String) : ∃ us, stringOf? us = some text ∧
    ∀ {s s' : State}, step s (.string us) = some s' → Reads (quote text) s s' := by
  obtain ⟨us, htext, hscan⟩ := exists_scanString_escape text.toList
  refine ⟨us, by rw [stringOf?, htext, Option.map_some, String.ofList_toList], ?_⟩
  intro s s' hstep rest ts hrest
  have htoken : scanToken ('"' :: (escape text.toList ++ '"' :: rest))
      = some (.string us, rest) := by
    rw [scanToken, hscan, Option.map_some]
  have hlen : rest.length ≤ (escape text.toList ++ '"' :: rest).length := by
    rw [List.length_append, List.length_cons]
    omega
  have hquote : quote text ++ rest = '"' :: (escape text.toList ++ '"' :: rest) := by
    rw [quote, List.append_assoc]
    rfl
  refine ⟨.string us :: ts, ?_, by rw [run, hstep, Option.bind_some]⟩
  rw [hquote]
  exact tokens_cons rfl htoken hlen hrest

/-- A text that takes the machine from its start to a value is that
value. -/
theorem Reads.read? {cs : List Char} {v : Raw} (h : Reads cs (.value []) (.done v)) :
    Raw.read? cs = some v := by
  obtain ⟨ts, hts, hrun⟩ := h [] [] tokens_nil
  rw [List.append_nil] at hts
  simp only [Raw.read?, tokens?, hts _ (Nat.lt_succ_self _), Option.bind_eq_bind, Option.bind_some,
    hrun, run]

/-! ## Objects of texts -/

/-- A member whose value is a text. -/
def textMember (m : String × String) : List Char :=
  quote m.1 ++ ':' :: quote m.2

/-- An object whose values are texts. -/
def textObject (ms : List (String × String)) : List Char :=
  '\x7b' :: commaJoin (ms.map textMember) ++ ['\x7d']

/-- A member as it is written means a name and a text. -/
def MeansText (m : String × String) (written : List TextUnit × Raw) : Prop :=
  stringOf? written.1 = some m.1 ∧ written.2.text? = some m.2

theorem exists_reads_textMember (m : String × String) : ∃ w, MeansText m w ∧
    ∀ {s : State} {done : List (List TextUnit × Raw)} {stack : List Frame},
      (∀ us, step s (.string us) = some (.colon (.member done us :: stack))) →
      Reads (textMember m) s (.next (.object (w :: done) :: stack)) := by
  obtain ⟨key, hkey, hreadKey⟩ := exists_reads_quote m.1
  obtain ⟨value, hvalue, hreadValue⟩ := exists_reads_quote m.2
  refine ⟨(key, .string value), ⟨hkey, hvalue⟩, fun {s done stack} hs => ?_⟩
  have hcolon : Reads [':'] (.colon (.member done key :: stack))
      (.value (.member done key :: stack)) :=
    reads_mark (t := .colon) rfl (fun _ => rfl) rfl
  exact (hreadKey (hs key)).append (hcolon.append (hreadValue rfl))

/-- Members are read in their order. `s` expects a key, of the first member
or of a further one. -/
theorem exists_reads_textMembers (m : String × String) (ms : List (String × String)) :
    ∃ ws, List.Forall₂ MeansText (m :: ms) ws ∧
      ∀ {s : State} {done : List (List TextUnit × Raw)} {stack : List Frame},
        (∀ us, step s (.string us) = some (.colon (.member done us :: stack))) →
        Reads (commaJoin ((m :: ms).map textMember)) s
          (.next (.object (ws.reverse ++ done) :: stack)) := by
  induction ms generalizing m with
  | nil =>
    obtain ⟨w, hw, hread⟩ := exists_reads_textMember m
    exact ⟨[w], .cons hw .nil, fun hs => hread hs⟩
  | cons m' ms ih =>
    obtain ⟨w, hw, hread⟩ := exists_reads_textMember m
    obtain ⟨ws, hws, hrest⟩ := ih m'
    refine ⟨w :: ws, .cons hw hws, fun {s done stack} hs => ?_⟩
    have hcomma : Reads [','] (.next (.object (w :: done) :: stack)) (.key (w :: done) stack) :=
      reads_mark (t := .comma) rfl (fun _ => rfl) rfl
    have hafter : Reads (commaJoin ((m' :: ms).map textMember)) (.key (w :: done) stack)
        (.next (.object (ws.reverse ++ w :: done) :: stack)) := hrest fun _ => rfl
    have hfurther := (hread hs).append (hcomma.append hafter)
    rw [List.reverse_cons, List.append_assoc]
    exact hfurther

theorem exists_members? {ms : List (String × String)} {ws : List (List TextUnit × Raw)}
    (h : List.Forall₂ MeansText ms ws) : ∃ members, (Raw.object ws).members? = some members
      ∧ members.map (fun m => (m.1, m.2.text?)) = ms.map fun m => (m.1, some m.2) := by
  simp only [Raw.members?]
  induction h with
  | nil => exact ⟨[], rfl, rfl⟩
  | @cons m w ms ws hw _ ih =>
    obtain ⟨members, hmembers, hmeant⟩ := ih
    refine ⟨(m.1, w.2) :: members, ?_, ?_⟩
    · rw [List.mapM_cons, hmembers, hw.1]
      rfl
    · rw [List.map_cons, List.map_cons, hmeant, hw.2]

/-- An object of texts is read as its members, in their order and with equal
keys kept apart. -/
theorem exists_read?_textObject (ms : List (String × String)) : ∃ v members,
    Raw.read? (textObject ms) = some v ∧ v.members? = some members
      ∧ members.map (fun m => (m.1, m.2.text?)) = ms.map fun m => (m.1, some m.2) := by
  have hopen : Reads ['\x7b'] (.value []) (.firstKey []) :=
    reads_mark (t := .beginObject) rfl (fun _ => rfl) rfl
  cases ms with
  | nil =>
    have hclose : Reads ['\x7d'] (.firstKey []) (.done (.object [])) :=
      reads_mark (t := .endObject) rfl (fun _ => rfl) rfl
    exact ⟨_, [], (hopen.append hclose).read?, rfl, rfl⟩
  | cons m ms =>
    obtain ⟨ws, hws, hread⟩ := exists_reads_textMembers m ms
    obtain ⟨members, hmembers, hmeant⟩ := exists_members? hws
    have hinner : Reads (commaJoin ((m :: ms).map textMember)) (.firstKey [])
        (.next [.object (ws.reverse ++ [])]) := hread fun _ => rfl
    have hclose : Reads ['\x7d'] (.next [.object (ws.reverse ++ [])]) (.done (.object ws)) := by
      refine reads_mark (t := .endObject) rfl (fun _ => rfl) ?_
      rw [step, List.append_nil, List.reverse_reverse, complete]
    exact ⟨_, members, (hopen.append (hinner.append hclose)).read?, hmembers, hmeant⟩

end ReviewSearch.Json
