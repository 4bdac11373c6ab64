/-
ReviewSearch.Proofs.Refs.StoredGlobs — what a batch of stored globs comes
to.

An entry is read just if its octets are the UTF-8 of a text that one colon
cuts into a project and a glob (`Glob.IsStored`). One colon is enough since
a glob has none, as no name of a ref has. What is read is written back as
the entry, octet for octet. An entry that is not read is blamed for its
first defect, and the fault shows what is at fault (`Glob.Blames`): the
octets, the text, or the part behind the colon alone.

`Glob.ofEntries_reads_globs` is the account of a batch, with the way back.
-/
import ReviewSearch.Proofs.Refs.Stored

namespace ReviewSearch.Glob

variable {entry : List UInt8} {e : String × Glob}

/-! ## Entries -/

/-- The form of a stored glob: the UTF-8 of a text that one colon cuts into
a project, which is not empty, and the text of a glob. -/
structure IsStored (entry : List UInt8) (project : String) (glob : List Char) : Prop where
  cut : ∃ text : String, entry = text.toUTF8.data.toList
    ∧ text.toList.splitOn ':' = [project.toList, glob]
  project_ne : project ≠ ""
  accepted : ∃ g, ofText? glob = some g

/-- What is at fault with an entry that has not the form. -/
inductive Blames : (entry : List UInt8) → (fault : String) → Prop
  /-- Octets that are not the UTF-8 of a text. -/
  | octets {entry : List UInt8} (h : ∀ text : String, entry ≠ text.toUTF8.data.toList) :
      Blames entry (Text.Utf8.decodeLossy entry)
  /-- A text with no colon, with two or more, or with nothing in front of its
  only one. -/
  | text {text : String} (h : ∀ project glob, text.toList.splitOn ':' = [project, glob] →
      project = []) : Blames text.toUTF8.data.toList text
  /-- A part behind the colon that is no glob. -/
  | glob {text : String} {project glob : List Char}
      (hcut : text.toList.splitOn ':' = [project, glob]) (hproject : project ≠ [])
      (hglob : ofText? glob = none) : Blames text.toUTF8.data.toList (String.ofList glob)

theorem isStored_text_iff {project : String} {g : Glob} :
    IsStored entry project g.text ↔ entry = g.entry project ∧ IsPlain project := by
  have hcut (text : String) : text.toList.splitOn ':' = [project.toList, g.text]
      ↔ ':' ∉ project.toList ∧ text = g.textFor project := by
    have hjoin : text.toList = [':'].intercalate [project.toList, g.text]
        ↔ text = g.textFor project := by
      rw [← String.toList_inj]
      simp [List.intercalate, textFor, display]
    rw [← Text.splitAt_eq_splitOn, Text.splitAt_eq_iff (by simp), hjoin]
    simp [g.colon_not_mem_text]
  constructor
  · rintro ⟨⟨text, rfl, htext⟩, hproject, -⟩
    obtain ⟨hcolon, rfl⟩ := (hcut text).mp htext
    exact ⟨(Text.Utf8.encode_eq_toUTF8 _).symm, hproject, hcolon⟩
  · rintro ⟨rfl, hproject, hcolon⟩
    exact ⟨⟨_, Text.Utf8.encode_eq_toUTF8 _, (hcut _).mpr ⟨hcolon, rfl⟩⟩, hproject, g,
      ofText?_eq_some_iff.mpr rfl⟩

theorem ofEntry_eq_ok_iff_isStored :
    ofEntry entry = .ok e ↔ IsStored entry e.1 e.2.text := by
  rw [isStored_text_iff]
  constructor
  · intro h
    cases hdecode : Text.Utf8.decode? entry with
    | none =>
      rw [ofEntry, hdecode] at h
      cases h
    | some text =>
      obtain rfl := Text.Utf8.decode?_eq_some_iff.mp hdecode
      obtain ⟨rfl, hproject⟩ := ofEntry_eq_ok_iff.mp h
      exact ⟨rfl, hproject⟩
  · rintro ⟨rfl, hproject⟩
    exact ofEntry_eq_ok_iff.mpr ⟨rfl, hproject⟩

theorem exists_ofEntry_iff :
    (∃ e, ofEntry entry = .ok e) ↔ ∃ project glob, IsStored entry project glob := by
  constructor
  · rintro ⟨e, h⟩
    exact ⟨_, _, ofEntry_eq_ok_iff_isStored.mp h⟩
  · rintro ⟨project, glob, h⟩
    obtain ⟨g, hg⟩ := h.accepted
    obtain rfl := ofText?_eq_some_iff.mp hg
    exact ⟨(project, g), ofEntry_eq_ok_iff_isStored.mpr h⟩

/-! ### Faults -/

theorem ofEntry_toUTF8 (text : String) :
    ofEntry text.toUTF8.data.toList = ofEntryText text := by
  rw [← Text.Utf8.encode_eq_toUTF8, ofEntry, Text.Utf8.decode?_encode]

theorem blames_of_ofEntryText {text : String} {f : RefFault} (h : ofEntryText text = .error f) :
    ∃ fault, f = .glob fault ∧ Blames text.toUTF8.data.toList fault := by
  unfold ofEntryText at h
  simp only [Text.splitAt_eq_splitOn] at h
  split at h
  · next project glob hcut =>
    split at h
    · next hproject =>
      refine ⟨text, (Except.error.inj h).symm, .text fun project' glob' h' => ?_⟩
      obtain ⟨rfl, -⟩ := List.cons.inj (hcut.symm.trans h')
      exact List.isEmpty_iff.mp hproject
    · next hproject =>
      rw [List.isEmpty_iff] at hproject
      split at h
      · cases h
      · next hglob => exact ⟨_, (Except.error.inj h).symm, .glob hcut hproject hglob⟩
  · next hcut =>
    exact ⟨text, (Except.error.inj h).symm, .text fun project glob h => absurd h (hcut _ _)⟩

theorem ofEntryText_of_not_cut {text : String} (h : ∀ project glob,
    text.toList.splitOn ':' = [project, glob] → project = []) :
    ofEntryText text = .error (.glob text) := by
  simp only [← Text.splitAt_eq_splitOn] at h
  unfold ofEntryText
  split
  · next project glob hcut => rw [h project glob hcut, List.isEmpty_nil, if_pos rfl]
  · rfl

theorem ofEntryText_of_cut {text : String} {project glob : List Char}
    (hcut : text.toList.splitOn ':' = [project, glob]) (hproject : project ≠ [])
    (hglob : ofText? glob = none) : ofEntryText text = .error (.glob (String.ofList glob)) := by
  rw [← Text.splitAt_eq_splitOn] at hcut
  have hfull : project.isEmpty = false := List.isEmpty_eq_false_iff.mpr hproject
  simp only [ofEntryText, hcut, hfull, hglob, Bool.false_eq_true, if_false]

/-- An entry that is not read is blamed, and one that is blamed is not
read. -/
theorem ofEntry_eq_error_iff {f : RefFault} :
    ofEntry entry = .error f ↔ ∃ fault, f = .glob fault ∧ Blames entry fault := by
  constructor
  · intro h
    cases hdecode : Text.Utf8.decode? entry with
    | none =>
      rw [ofEntry, hdecode] at h
      exact ⟨_, (Except.error.inj h).symm, .octets (Text.Utf8.decode?_eq_none_iff.mp hdecode)⟩
    | some text =>
      obtain rfl := Text.Utf8.decode?_eq_some_iff.mp hdecode
      rw [Text.Utf8.encode_eq_toUTF8] at h ⊢
      exact blames_of_ofEntryText (ofEntry_toUTF8 text ▸ h)
  · rintro ⟨fault, rfl, hblames⟩
    cases hblames with
    | octets h => rw [ofEntry, Text.Utf8.decode?_eq_none_iff.mpr h]
    | text h => rw [ofEntry_toUTF8, ofEntryText_of_not_cut h]
    | glob hcut hproject hglob => rw [ofEntry_toUTF8, ofEntryText_of_cut hcut hproject hglob]

/-! ## The whole account -/

/-- An entry is read as the glob of a project, which is written back as the
entry. -/
def ReadsAs (entry : List UInt8) (e : String × Glob) : Prop :=
  IsStored entry e.1 e.2.text ∧ e.2.entry e.1 = entry

theorem readsAs_of_ofEntry (h : ofEntry entry = .ok e) : ReadsAs entry e := by
  have hstored := ofEntry_eq_ok_iff_isStored.mp h
  exact ⟨hstored, (isStored_text_iff.mp hstored).1.symm⟩

/-- Reading and writing stored globs.

A batch is read just if each entry has the form of a glob. Then each entry is
read as the glob of a project that is written back as the entry, and the
globs are grouped by project, in their order. A batch that is not read fails
at its first entry without the form, and the fault shows what is at fault
with it.

What is written of an accepted glob and a plain project is read as these, so
the glob that is read has the same text, stem and names. -/
theorem ofEntries_reads_globs :
    (∀ entries : List (List UInt8),
      ((∃ t, ofEntries entries = .ok t)
        ↔ ∀ entry ∈ entries, ∃ project glob, IsStored entry project glob)
      ∧ (∀ t, ofEntries entries = .ok t →
        ∃ es, List.Forall₂ ReadsAs entries es ∧ t.Groups es)
      ∧ ∀ f, ofEntries entries = .error f → ∃ good bad rest, entries = good ++ bad :: rest
        ∧ (∀ entry ∈ good, ∃ project glob, IsStored entry project glob)
        ∧ (¬∃ project glob, IsStored bad project glob)
        ∧ ∃ fault, f = .glob fault ∧ Blames bad fault)
    ∧ ∀ glob g, ofText? glob = some g → ∀ project, project ≠ "" → ':' ∉ project.toList →
      g.text = glob ∧ ofEntries [g.entry project] = .ok [(project, [g])] := by
  refine ⟨fun entries => ⟨?_, fun t ht => ?_, fun f hf => ?_⟩,
    fun glob g hg project hproject hcolon => ⟨ofText?_eq_some_iff.mp hg, ?_⟩⟩
  · rw [ofEntries, ByProject.exists_batch_iff]
    simp only [exists_ofEntry_iff]
  · obtain ⟨es, hes, rfl⟩ := ByProject.batch_eq_ok_iff.mp ht
    exact ⟨es, hes.imp fun _ _ => readsAs_of_ofEntry, ByProject.groups_ofList es⟩
  · obtain ⟨good, bad, rest, rfl, hgood, hbad⟩ := ByProject.batch_eq_error_iff.mp hf
    refine ⟨good, bad, rest, rfl, fun entry hentry => exists_ofEntry_iff.mp (hgood entry hentry),
      ?_, ofEntry_eq_error_iff.mp hbad⟩
    rw [← exists_ofEntry_iff]
    rintro ⟨e, he⟩
    cases he.symm.trans hbad
  · have hread : ofEntry (g.entry project) = .ok (project, g) :=
      ofEntry_eq_ok_iff.mpr ⟨rfl, hproject, hcolon⟩
    rw [ofEntries, ByProject.batch_singleton, hread, Except.map]

/-- Two projects, one of them with the same glob twice; and a part behind the
colon that is no glob, though another entry comes before it. -/
theorem ofEntries_reads_globs_two_projects :
    (∃ es, List.Forall₂ ReadsAs ["p:refs/a*".toUTF8.data.toList, "q:refs/*/b".toUTF8.data.toList,
        "p:refs/a*".toUTF8.data.toList] es
      ∧ ByProject.Groups [("p", [⟨"refs/a*".toList, by decide⟩, ⟨"refs/a*".toList, by decide⟩]),
        ("q", [⟨"refs/*/b".toList, by decide⟩])] es)
    ∧ (∃ good bad rest, ["p:refs/a*".toUTF8.data.toList, "p:refs/a".toUTF8.data.toList]
        = good ++ bad :: rest ∧ ∃ fault, RefFault.glob "refs/a" = .glob fault ∧ Blames bad fault)
    ∧ ofEntries [(⟨"refs/a*".toList, by decide⟩ : Glob).entry "p"]
        = .ok [("p", [⟨"refs/a*".toList, by decide⟩])] := by
  refine ⟨(ofEntries_reads_globs.1 _).2.1 _ (by decide), ?_, ?_⟩
  · obtain ⟨good, bad, rest, hentries, -, -, hfault⟩ := (ofEntries_reads_globs.1
      ["p:refs/a*".toUTF8.data.toList, "p:refs/a".toUTF8.data.toList]).2.2 (.glob "refs/a")
      (by decide)
    exact ⟨good, bad, rest, hentries, hfault⟩
  · exact (ofEntries_reads_globs.2 "refs/a*".toList _ (ofText?_eq_some_iff.mpr rfl) "p"
      (by decide) (by decide)).2

end ReviewSearch.Glob
