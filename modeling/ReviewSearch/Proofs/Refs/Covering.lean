/-
ReviewSearch.Proofs.Refs.Covering — which names a glob covers.

`Covers` says it without a computation: a star stands for any number of
characters that are no line feeds, every other character for itself.

* `covers_iff` — the computation from the end of the name decides it;
* `stem_isPrefix_of_covers` — every name that a glob covers begins with
  the text in front of the glob's first star;
* `covers_iff_runsBetween` — the stars cut a glob into pieces, and the
  names it covers are these pieces with runs between them.
-/
import ReviewSearch.Refs.Glob

namespace ReviewSearch.Glob

/-- The names that the text of a glob stands for: a star takes nothing
more, or one more character. -/
inductive Covers : (text name : List Char) → Prop
  | nil : Covers [] []
  | leave {ps cs : List Char} (h : Covers ps cs) : Covers ('*' :: ps) cs
  | take {c : Char} {ps cs : List Char} (hc : c ≠ '\n') (h : Covers ('*' :: ps) cs) :
      Covers ('*' :: ps) (c :: cs)
  | char {p : Char} {ps cs : List Char} (hp : p ≠ '*') (h : Covers ps cs) :
      Covers (p :: ps) (p :: cs)

variable {ps cs : List Char}

/-! ## One character of a name -/

theorem covers_nil_iff : Covers [] cs ↔ cs = [] := by
  constructor
  · rintro ⟨⟩
    rfl
  · rintro rfl
    exact .nil

theorem covers_star_nil_iff : Covers ('*' :: ps) [] ↔ Covers ps [] := by
  constructor
  · intro h
    cases h with
    | leave h => exact h
  · exact .leave

theorem covers_star_cons_iff {c : Char} :
    Covers ('*' :: ps) (c :: cs) ↔ Covers ps (c :: cs) ∨ (c ≠ '\n' ∧ Covers ('*' :: ps) cs) := by
  constructor
  · intro h
    cases h with
    | leave h => exact .inl h
    | take hc h => exact .inr ⟨hc, h⟩
    | char hp => exact absurd rfl hp
  · rintro (h | ⟨hc, h⟩)
    · exact .leave h
    · exact .take hc h

theorem not_covers_char_nil {p : Char} (hp : p ≠ '*') : ¬Covers (p :: ps) [] := by
  intro h
  cases h
  exact hp rfl

theorem covers_char_cons_iff {p c : Char} (hp : p ≠ '*') :
    Covers (p :: ps) (c :: cs) ↔ c = p ∧ Covers ps cs := by
  constructor
  · intro h
    cases h with
    | leave | take => exact absurd rfl hp
    | char _ h => exact ⟨rfl, h⟩
  · rintro ⟨rfl, h⟩
    exact .char hp h

/-! ## The computation -/

/-- What is computed for a name continues what is computed for its
tail. -/
theorem cover_cons (ps : List Char) (c : Char) (cs : List Char) :
    ∃ b, cover ps (c :: cs) = b :: cover ps cs := by
  induction ps with
  | nil => exact ⟨false, rfl⟩
  | cons p ps ih =>
    obtain ⟨b, hb⟩ := ih
    unfold cover
    split
    · rw [hb]
      exact ⟨_, rfl⟩
    · rw [hb]
      exact ⟨_, rfl⟩

theorem headD_cover_iff : (cover ps cs).headD false = true ↔ Covers ps cs := by
  induction ps generalizing cs with
  | nil =>
    rw [covers_nil_iff]
    cases cs <;> simp [cover]
  | cons p ps ih =>
    by_cases hp : p = '*'
    · subst hp
      induction cs with
      | nil =>
        rw [covers_star_nil_iff, ← ih, cover, if_pos rfl]
        rfl
      | cons c cs ihcs =>
        obtain ⟨b, hb⟩ := cover_cons ps c cs
        have hhead : b = true ↔ Covers ps (c :: cs) := by
          rw [← ih, hb]
          rfl
        have hstep : cover ('*' :: ps) (c :: cs)
            = (b || c != '\n' && (cover ('*' :: ps) cs).headD false) :: cover ('*' :: ps) cs := by
          rw [cover, if_pos rfl, hb]
          rfl
        rw [covers_star_cons_iff, ← ihcs, ← hhead, hstep]
        simp
    · cases cs with
      | nil =>
        have hnone : cover (p :: ps) [] = [false] := by
          rw [cover, if_neg hp]
          rfl
        rw [hnone]
        exact ⟨fun h => (nomatch h), fun h => absurd h (not_covers_char_nil hp)⟩
      | cons c cs =>
        obtain ⟨b, hb⟩ := cover_cons ps c cs
        rw [covers_char_cons_iff hp, ← ih, cover, if_neg hp, hb, coverChar]
        simp

theorem covers_iff (g : Glob) (name : String) : g.covers name = true ↔ Covers g.text name.toList :=
  headD_cover_iff

/-! ## The stem -/

theorem Covers.takeWhile_isPrefix (h : Covers ps cs) : ps.takeWhile (· != '*') <+: cs := by
  induction h with
  | nil => exact List.prefix_refl _
  | leave | take => exact List.nil_prefix
  | char hp _ ih =>
    rw [List.takeWhile_cons_of_pos (by simpa using hp)]
    exact (List.prefix_cons_inj _).mpr ih

theorem stem_isPrefix_of_covers {g : Glob} {name : String} (h : g.covers name = true) :
    g.stem <+: name.toList :=
  ((covers_iff g name).mp h).takeWhile_isPrefix

/-! ## Pieces and runs -/

/-- A name that consists of pieces, in order, with a run of characters that
are no line feeds between each two. -/
def RunsBetween (first : List Char) (rest : List (List Char)) (name : List Char) : Prop :=
  ∃ runs : List (List Char), runs.length = rest.length ∧ (∀ w ∈ runs, '\n' ∉ w)
    ∧ name = first ++ (List.zipWith (· ++ ·) runs rest).flatten

theorem runsBetween_nil_iff {first : List Char} : RunsBetween first [] cs ↔ cs = first := by
  constructor
  · rintro ⟨runs, -, -, rfl⟩
    rw [List.zipWith_nil_right, List.flatten_nil, List.append_nil]
  · rintro rfl
    exact ⟨[], rfl, nofun, (List.append_nil _).symm⟩

theorem runsBetween_cons_iff {first piece : List Char} {rest : List (List Char)} :
    RunsBetween first (piece :: rest) cs
      ↔ ∃ w tail, '\n' ∉ w ∧ cs = first ++ (w ++ tail) ∧ RunsBetween piece rest tail := by
  constructor
  · rintro ⟨runs, hlength, hruns, rfl⟩
    obtain ⟨w, runs, rfl⟩ := List.exists_cons_of_length_eq_add_one hlength
    obtain ⟨hw, hruns⟩ := List.forall_mem_cons.mp hruns
    refine ⟨w, _, hw, ?_, runs, Nat.succ.inj hlength, hruns, rfl⟩
    rw [List.zipWith_cons_cons, List.flatten_cons, List.append_assoc]
  · rintro ⟨w, _, hw, rfl, runs, hlength, hruns, rfl⟩
    refine ⟨w :: runs, congrArg Nat.succ hlength, List.forall_mem_cons.mpr ⟨hw, hruns⟩, ?_⟩
    rw [List.zipWith_cons_cons, List.flatten_cons, List.append_assoc]

/-- A star takes a run. -/
theorem covers_star_iff :
    Covers ('*' :: ps) cs ↔ ∃ w tail, '\n' ∉ w ∧ cs = w ++ tail ∧ Covers ps tail := by
  induction cs with
  | nil =>
    rw [covers_star_nil_iff]
    constructor
    · exact fun h => ⟨[], [], List.not_mem_nil, rfl, h⟩
    · rintro ⟨w, tail, -, hcs, h⟩
      rwa [(List.append_eq_nil_iff.mp hcs.symm).2] at h
  | cons c cs ih =>
    rw [covers_star_cons_iff, ih]
    constructor
    · rintro (h | ⟨hc, w, tail, hw, rfl, h⟩)
      · exact ⟨[], c :: cs, List.not_mem_nil, rfl, h⟩
      · exact ⟨c :: w, tail, List.not_mem_cons_of_ne_of_not_mem hc.symm hw, rfl, h⟩
    · rintro ⟨w, tail, hw, hcs, h⟩
      cases w with
      | nil => exact .inl (by rwa [hcs])
      | cons d w =>
        obtain ⟨rfl, rfl⟩ := List.cons.inj hcs
        obtain ⟨hd, hw⟩ := List.ne_and_not_mem_of_not_mem_cons hw
        exact .inr ⟨hd.symm, w, tail, hw, rfl, h⟩

/-- Characters that are no stars stand for themselves. -/
theorem covers_append_iff {piece : List Char} (hpiece : '*' ∉ piece) :
    Covers (piece ++ ps) cs ↔ ∃ tail, cs = piece ++ tail ∧ Covers ps tail := by
  induction piece generalizing cs with
  | nil => simp
  | cons p piece ih =>
    obtain ⟨hp, hpiece⟩ := List.ne_and_not_mem_of_not_mem_cons hpiece
    cases cs with
    | nil => exact iff_of_false (not_covers_char_nil hp.symm) fun ⟨_, h, _⟩ => nomatch h
    | cons c cs =>
      rw [List.cons_append, covers_char_cons_iff hp.symm, ih hpiece]
      constructor
      · rintro ⟨rfl, tail, rfl, h⟩
        exact ⟨tail, rfl, h⟩
      · rintro ⟨tail, hcs, h⟩
        obtain ⟨rfl, rfl⟩ := List.cons.inj hcs
        exact ⟨rfl, tail, rfl, h⟩

/-- The pieces between the stars of a glob stand for themselves, and the
stars for runs. -/
theorem covers_iff_runsBetween {first : List Char} {rest : List (List Char)}
    (h : ∀ piece ∈ first :: rest, '*' ∉ piece) :
    Covers (['*'].intercalate (first :: rest)) cs ↔ RunsBetween first rest cs := by
  induction rest generalizing first cs with
  | nil =>
    rw [List.intercalate_singleton, runsBetween_nil_iff, ← List.append_nil first,
      covers_append_iff (h first List.mem_cons_self)]
    simp [covers_nil_iff]
  | cons piece rest ih =>
    obtain ⟨hfirst, hrest⟩ := List.forall_mem_cons.mp h
    rw [List.intercalate_cons_cons, List.append_assoc, List.singleton_append,
      covers_append_iff hfirst, runsBetween_cons_iff]
    simp only [covers_star_iff, ih hrest]
    constructor
    · rintro ⟨_, rfl, w, tail, hw, rfl, h⟩
      exact ⟨w, tail, hw, rfl, h⟩
    · rintro ⟨w, tail, hw, rfl, h⟩
      exact ⟨_, rfl, w, tail, hw, rfl, h⟩

end ReviewSearch.Glob
