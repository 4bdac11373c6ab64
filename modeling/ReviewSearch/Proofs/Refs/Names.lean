/-
ReviewSearch.Proofs.Refs.Names — names of refs by their components.

A name is checked in one scan that remembers the last character. The rules
are about COMPONENTS, the pieces between slashes.

* `scan_iff` — the scan from any character on, in terms of the components
  that are still to come;
* `isValid_iff_components` — the rules that decide which names are valid,
  and how they differ from Git's: the scan looks for `.lock` at the end of
  the name only, Git does so in each component (`FollowsGit`).
-/
import Mathlib.Data.List.Infix
import ReviewSearch.Refs.Name

namespace ReviewSearch.RefName

variable {name cs part : List Char} {parts : List (List Char)}

/-! ## The rules -/

/-- The pieces of a name between its slashes. -/
def components (name : List Char) : List (List Char) :=
  name.splitOn '/'

/-- A component that is not empty and does not begin with a dot. -/
structure BeginsWell (part : List Char) : Prop where
  ne_nil : part ≠ []
  not_dot : ¬['.'] <+: part

/-- A component that ends like the name of a lock file. -/
def EndsLocked (part : List Char) : Prop :=
  ".lock".toList <:+ part

/-- What is asked of a name apart from locks. -/
structure IsShaped (name : List Char) : Prop where
  two_le_length : 2 ≤ (components name).length
  beginsWell : ∀ part ∈ components name, BeginsWell part
  not_dot_last : ¬['.'] <:+ name
  not_two_dots : ¬"..".toList <:+: name
  not_at_brace : ¬"@\x7b".toList <:+: name
  visible : ∀ c ∈ name, ' ' < c ∧ c ≠ '\x7f'
  unreserved : ∀ c ∈ name, c ∉ "~^:?[*\\".toList

/-- Git's rules: no component is named like a lock file. -/
structure FollowsGit (name : List Char) : Prop extends IsShaped name where
  unlocked : ∀ part ∈ components name, ¬EndsLocked part

/-! ## The scan -/

theorem not_beginsWell_nil : ¬BeginsWell [] :=
  fun h => h.ne_nil rfl

theorem beginsWell_cons_iff {c : Char} : BeginsWell (c :: cs) ↔ c ≠ '.' := by
  constructor
  · rintro ⟨-, h⟩ rfl
    exact h (List.prefix_append ['.'] cs)
  · intro h
    refine ⟨List.cons_ne_nil c cs, fun hdot => h ?_⟩
    exact (List.cons_prefix_cons.mp hdot).1.symm

theorem isForbidden_eq_false_iff {c : Char} :
    isForbidden c = false ↔ (' ' < c ∧ c ≠ '\x7f') ∧ c ∉ "~^:?[*\\".toList := by
  simp [isForbidden, and_assoc]

/-- A character may stand where its component still begins well and no two
dots meet. -/
theorem follows_iff {previous c : Char} :
    follows previous c = true ↔ (previous = '/' → c ≠ '/' ∧ c ≠ '.')
      ∧ ¬(previous = '.' ∧ c = '.') := by
  unfold follows
  split_ifs with hdot hslash
  · subst hdot
    simp
  · subst hslash
    simp
  · simp [hdot, hslash]

theorem components_cons_slash (cs : List Char) : components ('/' :: cs) = [] :: components cs := by
  rw [components, List.splitOn_cons_eq_if_modifyHead]
  rfl

theorem components_cons_of_ne {c : Char} (hc : c ≠ '/') (h : components cs = part :: parts) :
    components (c :: cs) = (c :: part) :: parts := by
  rw [components] at h ⊢
  rw [List.splitOn_cons_eq_if_modifyHead, h, if_neg (by simpa using hc)]
  rfl

theorem two_dots_infix_iff {previous c : Char} :
    "..".toList <:+: previous :: c :: cs
      ↔ (previous = '.' ∧ c = '.') ∨ "..".toList <:+: c :: cs := by
  have hfront : ['.', '.'] <+: previous :: c :: cs ↔ previous = '.' ∧ c = '.' := by
    simp only [List.cons_prefix_cons, List.nil_prefix, and_true, eq_comm]
  rw [List.infix_cons_iff]
  exact or_congr_left hfront

theorem not_two_dots_infix_singleton (c : Char) : ¬"..".toList <:+: [c] :=
  fun h => Nat.not_succ_le_self 1 h.length_le

theorem dot_suffix_iff {previous c : Char} :
    ['.'] <:+ previous :: c :: cs ↔ ['.'] <:+ c :: cs := by
  rw [List.suffix_cons_iff, or_iff_right (by simp)]

theorem dot_suffix_singleton_iff {c : Char} : ['.'] <:+ [c] ↔ c = '.' := by
  rw [List.suffix_cons_iff]
  simp [eq_comm]

/-- A scan from behind `previous` on: `part` is what is still to come of the
component that `previous` is in, and `parts` are the components behind
it. -/
theorem scan_iff {previous : Char} {slash : Bool} (h : components cs = part :: parts) :
    scan previous slash cs = true ↔ (∀ c ∈ cs, isForbidden c = false)
      ∧ (previous = '/' → BeginsWell part) ∧ (∀ p ∈ parts, BeginsWell p)
      ∧ ¬['.'] <:+ previous :: cs ∧ ¬"..".toList <:+: previous :: cs
      ∧ (slash = true ∨ parts ≠ []) := by
  induction cs generalizing previous slash part parts with
  | nil =>
    obtain ⟨rfl, rfl⟩ : [] = part ∧ [] = parts := List.cons.inj h
    simp only [scan, Bool.and_eq_true, bne_iff_ne, dot_suffix_singleton_iff,
      not_beginsWell_nil, not_two_dots_infix_singleton, List.not_mem_nil]
    constructor
    · rintro ⟨⟨hslash, hdot⟩, hnot⟩
      exact ⟨nofun, hnot, nofun, hdot, id, .inl hslash⟩
    · rintro ⟨-, hnot, -, hdot, -, hslash | hparts⟩
      · exact ⟨⟨hslash, hdot⟩, hnot⟩
      · exact absurd rfl hparts
  | cons c cs ih =>
    obtain ⟨part', parts', hcs⟩ := List.exists_cons_of_ne_nil (List.splitOn_ne_nil '/' cs)
    rw [scan, Bool.and_eq_true, Bool.and_eq_true, Bool.not_eq_true', ih hcs, follows_iff,
      List.forall_mem_cons, dot_suffix_iff, two_dots_infix_iff]
    by_cases hc : c = '/'
    · -- a slash ends a component, which has to have begun in front of it
      subst hc
      have hcs' : components cs = part' :: parts' := hcs
      rw [components_cons_slash, hcs'] at h
      obtain ⟨rfl, rfl⟩ := List.cons.inj h
      simp only [not_beginsWell_nil, Bool.or_eq_true, beq_self_eq_true, or_true, true_or,
        forall_const, List.forall_mem_cons, ne_eq, reduceCtorEq, not_false_eq_true, not_true_eq_false,
        imp_false, Char.reduceEq, and_false, and_true, false_or]
      tauto
    · rw [components_cons_of_ne hc hcs] at h
      obtain ⟨rfl, rfl⟩ := List.cons.inj h
      simp only [beginsWell_cons_iff, hc, ne_eq, not_false_eq_true, true_and, Bool.or_eq_true,
        beq_iff_eq, or_false, not_or, false_implies]
      tauto

/-! ## The last component -/

/-- A name ends with its last component, which has no slash and so is the
part of the name that decides about ends without slashes. -/
theorem exists_components_eq_append (name : List Char) : ∃ front last,
    components name = front ++ [last] ∧ last <:+ name
      ∧ ∀ tail, '/' ∉ tail → tail <:+ name → tail <:+ last := by
  induction name with
  | nil => exact ⟨[], [], rfl, List.suffix_refl _, fun _ _ h => h⟩
  | cons c cs ih =>
    obtain ⟨front, last, hcs, hlast, hends⟩ := ih
    by_cases hc : c = '/'
    · subst hc
      refine ⟨[] :: front, last, by rw [components_cons_slash, hcs, List.cons_append],
        hlast.trans (List.suffix_cons '/' cs), fun tail htail h => ?_⟩
      rcases List.suffix_cons_iff.mp h with rfl | h
      · exact absurd List.mem_cons_self htail
      · exact hends tail htail h
    · cases front with
      | nil =>
        obtain rfl : last = cs := by
          have hjoin : ['/'].intercalate (components cs) = cs := List.intercalate_splitOn '/'
          rwa [hcs, List.nil_append, List.intercalate_singleton] at hjoin
        exact ⟨[], c :: last, components_cons_of_ne hc hcs, List.suffix_refl _, fun _ _ h => h⟩
      | cons part front =>
        refine ⟨(c :: part) :: front, last, components_cons_of_ne hc hcs,
          hlast.trans (List.suffix_cons c cs), fun tail htail h => ?_⟩
        rcases List.suffix_cons_iff.mp h with rfl | h
        · -- there is a slash in front of the last component
          have hone : components cs = [cs] :=
            List.splitOn_eq_singleton fun h => htail (List.mem_cons_of_mem c h)
          rw [hone] at hcs
          simp at hcs
        · exact hends tail htail h

theorem endsLocked_iff_of_components {front : List (List Char)} {last : List Char}
    (h : components name = front ++ [last]) : EndsLocked name ↔ EndsLocked last := by
  obtain ⟨front', last', h', hlast, hends⟩ := exists_components_eq_append name
  obtain rfl : last = last' := List.singleton_inj.mp (List.append_inj' (h.symm.trans h') rfl).2
  exact ⟨hends _ (by decide), fun hlocked => hlocked.trans hlast⟩

/-! ## Valid names -/

/-- A name is scanned as if a slash stood in front of it. -/
theorem isShaped_iff : IsShaped name ↔ scan '/' false name = true ∧ ¬"@\x7b".toList <:+: name := by
  obtain ⟨part, parts, h⟩ := List.exists_cons_of_ne_nil (List.splitOn_ne_nil '/' name)
  have hdot : ['.'] <:+ '/' :: name ↔ ['.'] <:+ name := by
    rw [List.suffix_cons_iff, or_iff_right (by simp)]
  have hdots : "..".toList <:+: '/' :: name ↔ "..".toList <:+: name := by
    rw [List.infix_cons_iff, or_iff_right (by simp)]
  have hlength : 2 ≤ (part :: parts).length ↔ parts ≠ [] := by
    rw [List.length_cons, Nat.succ_le_succ_iff, Nat.one_le_iff_ne_zero, ne_eq,
      List.length_eq_zero_iff]
  have hallowed : (∀ c ∈ name, isForbidden c = false)
      ↔ (∀ c ∈ name, ' ' < c ∧ c ≠ '\x7f') ∧ ∀ c ∈ name, c ∉ "~^:?[*\\".toList := by
    simp only [isForbidden_eq_false_iff, ← forall_and]
  rw [scan_iff h, hdot, hdots, hallowed]
  constructor
  · intro hname
    have hlen := hname.two_le_length
    have hparts := hname.beginsWell
    rw [components, h] at hlen hparts
    obtain ⟨hpart, hparts⟩ := List.forall_mem_cons.mp hparts
    exact ⟨⟨⟨hname.visible, hname.unreserved⟩, fun _ => hpart, hparts, hname.not_dot_last,
      hname.not_two_dots, .inr (hlength.mp hlen)⟩, hname.not_at_brace⟩
  · rintro ⟨⟨⟨hvisible, hunreserved⟩, hpart, hparts, hlast, htwo, hslash⟩, hbrace⟩
    refine ⟨?_, ?_, hlast, htwo, hbrace, hvisible, hunreserved⟩
    · rw [components, h]
      exact hlength.mpr (hslash.resolve_left (by decide))
    · rw [components, h]
      exact List.forall_mem_cons.mpr ⟨hpart rfl, hparts⟩

theorem isValid_iff : isValid name = true ↔ IsShaped name ∧ ¬EndsLocked name := by
  have hbrace : Text.occursIn ['@', '\x7b'] name = true ↔ "@\x7b".toList <:+: name := by
    rw [Text.occursIn_iff]
    simp only [List.IsInfix, eq_comm]
    rfl
  rw [isShaped_iff, isValid, Bool.and_eq_true, Bool.and_eq_true, Bool.not_eq_true',
    Bool.not_eq_true', ← Bool.not_eq_true, ← Bool.not_eq_true, hbrace, List.isSuffixOf_iff_suffix,
    EndsLocked]
  tauto

/-- A name is valid just if it is shaped like one and does not end like the
name of a lock file. It follows Git's rules just if moreover none of the
components in front of the last does so. -/
theorem isValid_iff_components (name : List Char) :
    (isValid name = true ↔ IsShaped name ∧ ¬EndsLocked name)
      ∧ (FollowsGit name ↔ isValid name = true
        ∧ ∀ part ∈ (components name).dropLast, ¬EndsLocked part) := by
  obtain ⟨front, last, h, -⟩ := exists_components_eq_append name
  have hends := endsLocked_iff_of_components h
  refine ⟨isValid_iff, ?_⟩
  rw [isValid_iff, hends, h, List.dropLast_concat]
  constructor
  · intro hgit
    have hunlocked := hgit.unlocked
    rw [h, List.forall_mem_append] at hunlocked
    exact ⟨⟨hgit.toIsShaped, hunlocked.2 last List.mem_cons_self⟩, hunlocked.1⟩
  · rintro ⟨⟨hshaped, hlast⟩, hfront⟩
    refine ⟨hshaped, ?_⟩
    rw [h, List.forall_mem_append]
    exact ⟨hfront, List.forall_mem_singleton.mpr hlast⟩

/-- A lock file inside a name goes unseen. -/
theorem lock_inside_is_valid :
    isValid "refs/a.lock/b".toList = true ∧ ¬FollowsGit "refs/a.lock/b".toList := by
  refine ⟨by decide, fun h => ?_⟩
  exact h.unlocked "a.lock".toList (by decide) ⟨['a'], rfl⟩

end ReviewSearch.RefName
