/-
ReviewSearch.Proofs.Refs.Stored — what a batch of stored states comes to.

An entry is read just if its octets have the form of a state
(`RefState.IsStored`), and what is read is written back as the entry with
its digits in lower case. A batch is read all or none and fails at its first
bad entry (`ByProject.batch_eq_error_iff`); a batch that is read is grouped by
project, and each group keeps the order of its entries
(`ByProject.groups_ofList`).

`RefState.ofEntries_reads_states` is the account of all this, with the way back:
what is written of a project and a state is read as these, or not at all.
-/
import ReviewSearch.Proofs.Refs.Entries
import ReviewSearch.Proofs.Refs.Verdict

namespace ReviewSearch

/-! ## Batches -/

/-- Steps along a list succeed if each of them can. -/
theorem exists_mapM_eq_ok_iff {ε α β : Type} {f : α → Except ε β} {xs : List α} :
    (∃ ys, xs.mapM f = .ok ys) ↔ ∀ x ∈ xs, ∃ y, f x = .ok y := by
  simp only [mapM_eq_ok_iff]
  induction xs with
  | nil => exact iff_of_true ⟨[], .nil⟩ nofun
  | cons x xs ih =>
    rw [List.forall_mem_cons, ← ih]
    constructor
    · rintro ⟨ys, h⟩
      obtain ⟨y, ys, hy, hys, rfl⟩ := List.forall₂_cons_left_iff.mp h
      exact ⟨⟨y, hy⟩, ys, hys⟩
    · rintro ⟨⟨y, hy⟩, ys, hys⟩
      exact ⟨y :: ys, .cons hy hys⟩

/-- Steps along a list fail just if one of them fails and all before it
succeed. -/
theorem mapM_eq_error_iff {ε α β : Type} {f : α → Except ε β} {xs : List α} {e : ε} :
    xs.mapM f = .error e ↔ ∃ before x after, xs = before ++ x :: after
      ∧ (∀ y ∈ before, ∃ z, f y = .ok z) ∧ f x = .error e := by
  induction xs with
  | nil => simp [pure, Except.pure]
  | cons x xs ih =>
    rw [List.mapM_cons]
    cases hx : f x with
    | error e' =>
      constructor
      · intro h
        obtain rfl := Except.error.inj h
        exact ⟨[], x, xs, rfl, nofun, hx⟩
      · rintro ⟨before, y, after, hxs, hbefore, hy⟩
        cases before with
        | nil =>
          obtain ⟨rfl, -⟩ := List.cons.inj hxs
          rw [Except.error.inj (hx.symm.trans hy)]
          rfl
        | cons b before =>
          obtain ⟨rfl, -⟩ := List.cons.inj hxs
          obtain ⟨z, hz⟩ := hbefore _ List.mem_cons_self
          cases hx.symm.trans hz
    | ok y =>
      have hrest : (Except.ok y >>= fun y => xs.mapM f >>= fun ys => pure (y :: ys)) = .error e
          ↔ xs.mapM f = .error e := by
        cases hxs : xs.mapM f <;> simp [bind, Except.bind, pure, Except.pure]
      rw [hrest, ih]
      constructor
      · rintro ⟨before, z, after, rfl, hbefore, hz⟩
        exact ⟨x :: before, z, after, rfl, List.forall_mem_cons.mpr ⟨⟨y, hx⟩, hbefore⟩, hz⟩
      · rintro ⟨before, z, after, hxs, hbefore, hz⟩
        cases before with
        | nil =>
          obtain ⟨rfl, -⟩ := List.cons.inj hxs
          cases hx.symm.trans hz
        | cons b before =>
          obtain ⟨-, rfl⟩ := List.cons.inj hxs
          exact ⟨before, z, after, rfl, (List.forall_mem_cons.mp hbefore).2, hz⟩

namespace ByProject

variable {α : Type}

/-- A table groups what is recorded: each project that occurs has what is
recorded for it, in the order of the entries. -/
def Groups (t : ByProject α) (es : List (String × α)) : Prop :=
  t.Ordered ∧ ∀ project xs, (project, xs) ∈ t ↔
    xs ≠ [] ∧ xs = (es.filter (·.1 = project)).map Prod.snd

/-- Projects are entered with something recorded. -/
theorem ne_nil_of_mem_ofList (es : List (String × α)) : ∀ e ∈ ofList es, e.2 ≠ [] := by
  have hfrom (t : ByProject α) (ht : ∀ e ∈ t, e.2 ≠ []) : ∀ e ∈
      es.foldl (fun t e => Table.update e.1 [] (· ++ [e.2]) t) t, e.2 ≠ [] := by
    induction es generalizing t with
    | nil => exact ht
    | cons e es ih =>
      refine ih _ fun e' he' => ?_
      rcases Table.mem_of_mem_put he' with rfl | he'
      · exact List.append_ne_nil_of_right_ne_nil _ (List.cons_ne_nil _ _)
      · exact ht e' he'
  exact hfrom [] nofun

theorem groups_ofList (es : List (String × α)) : (ofList es).Groups es := by
  refine ⟨ordered_ofList es, fun project xs => ?_⟩
  rw [← of_ofList, ← (ordered_ofList es).get?_eq_some_iff, ByProject.of]
  cases hget : Table.get? project (ofList es) with
  | none =>
    rw [Option.getD_none]
    exact iff_of_false nofun fun h => h.1 h.2
  | some ys =>
    have hys : ys ≠ [] :=
      ne_nil_of_mem_ofList es _ ((ordered_ofList es).get?_eq_some_iff.mp hget)
    rw [Option.getD_some, Option.some.injEq]
    constructor
    · rintro rfl
      exact ⟨hys, rfl⟩
    · exact fun h => h.2.symm

/-! ### Reading a batch -/

section Batch

variable {ε β : Type} {read : β → Except ε (String × α)} {entries : List β}

theorem batch_eq_ok_iff {t : ByProject α} : (entries.mapM read).map ofList = .ok t
    ↔ ∃ es, List.Forall₂ (fun entry e => read entry = .ok e) entries es ∧ ofList es = t := by
  simp only [map_eq_ok_iff, mapM_eq_ok_iff]

theorem exists_batch_iff : (∃ t, (entries.mapM read).map ofList = .ok t)
    ↔ ∀ entry ∈ entries, ∃ e, read entry = .ok e := by
  rw [← exists_mapM_eq_ok_iff]
  cases entries.mapM read <;> simp [Except.map]

/-- A batch fails at its first bad entry, and as that entry does. -/
theorem batch_eq_error_iff {f : ε} : (entries.mapM read).map ofList = .error f
    ↔ ∃ good bad rest, entries = good ++ bad :: rest
      ∧ (∀ entry ∈ good, ∃ e, read entry = .ok e) ∧ read bad = .error f := by
  rw [← mapM_eq_error_iff]
  cases entries.mapM read <;> simp [Except.map]

theorem batch_singleton (entry : β) :
    ([entry].mapM read).map ofList = (read entry).map fun e => [(e.1, [e.2])] := by
  rw [List.mapM_cons, List.mapM_nil]
  cases read entry <;> rfl

end Batch

end ByProject

/-! ## Digits -/

namespace Text.Hex

/-- A hexadecimal digit, in either case. -/
def IsDigit (c : Char) : Prop :=
  ('0' ≤ c ∧ c ≤ '9') ∨ ('a' ≤ c ∧ c ≤ 'f') ∨ 'A' ≤ c ∧ c ≤ 'F'

theorem exists_value?_iff {c : Char} : (∃ n, value? c = some n) ↔ IsDigit c := by
  unfold value? IsDigit
  split_ifs with hdecimal hlower hupper
  · exact iff_of_true ⟨_, rfl⟩ (.inl hdecimal)
  · exact iff_of_true ⟨_, rfl⟩ (.inr (.inl hlower))
  · exact iff_of_true ⟨_, rfl⟩ (.inr (.inr hupper))
  · exact iff_of_false (fun ⟨_, h⟩ => nomatch h) fun h => h.elim hdecimal (Or.rec hlower hupper)

/-- Digits are read as octets if there are two for each octet. -/
theorem exists_octets?_iff {cs : List Char} {n : Nat} :
    (∃ bs, octets? cs = some bs ∧ bs.length = n)
      ↔ cs.length = 2 * n ∧ ∀ c ∈ cs, IsDigit c := by
  induction cs using octets?.induct generalizing n with
  | case1 =>
    have hzero : 0 = n ↔ 0 = 2 * n := by omega
    simpa [octets?] using hzero
  | case2 c =>
    refine iff_of_false ?_ fun h => ?_
    · rintro ⟨_, h, -⟩
      cases h
    · have hlen : 1 = 2 * n := h.1
      omega
  | case3 a b cs ih =>
    simp only [octets?, Option.bind_eq_bind, Option.bind_eq_some_iff, Option.pure_def,
      Option.some.injEq, List.forall_mem_cons, ← exists_value?_iff, List.length_cons]
    cases n with
    | zero => simp
    | succ n =>
      have hlen : cs.length + 1 + 1 = 2 * (n + 1) ↔ cs.length = 2 * n := by omega
      rw [hlen]
      constructor
      · rintro ⟨-, ⟨x, hx, y, hy, bs, hbs, rfl⟩, hn⟩
        obtain ⟨hcs, hdigits⟩ := ih.mp ⟨bs, hbs, Nat.succ.inj hn⟩
        exact ⟨hcs, ⟨x, hx⟩, ⟨y, hy⟩, fun c hc => exists_value?_iff.mpr (hdigits c hc)⟩
      · rintro ⟨hcs, ⟨x, hx⟩, ⟨y, hy⟩, hdigits⟩
        obtain ⟨bs, hbs, rfl⟩ := ih.mpr ⟨hcs, fun c hc => exists_value?_iff.mp (hdigits c hc)⟩
        exact ⟨_, ⟨x, hx, y, hy, bs, hbs, rfl⟩, rfl⟩

end Text.Hex

/-- Forty digits are an object id. -/
theorem ObjectId.exists_hexChars_iff {cs : List Char} :
    (∃ id : ObjectId, cs.map Char.toLower = id.hexChars)
      ↔ cs.length = 40 ∧ ∀ c ∈ cs, Text.Hex.IsDigit c := by
  rw [← Text.Hex.exists_octets?_iff (n := 20)]
  simp only [ObjectId.hexChars, Text.Hex.octets?_eq_some_iff]
  constructor
  · rintro ⟨id, h⟩
    exact ⟨id.octets, h, id.length_octets⟩
  · rintro ⟨bs, h, hbs⟩
    exact ⟨⟨bs, hbs⟩, h⟩

/-! ## States -/

namespace RefState

/-- The form of a stored state: the UTF-8 of a text that its colons cut into
three parts, a project and a ref, which are not empty, and forty hexadecimal
digits. -/
structure IsStored (entry : List UInt8) (project name hex : String) : Prop where
  cut : ∃ text : String, entry = text.toUTF8.data.toList
    ∧ text.toList.splitOn ':' = [project.toList, name.toList, hex.toList]
  project_ne : project ≠ ""
  name_ne : name ≠ ""
  length_hex : hex.length = 40
  isDigit_hex : ∀ c ∈ hex.toList, Text.Hex.IsDigit c

theorem isStored_iff {entry : List UInt8} {project name hex : String} :
    IsStored entry project name hex ↔
      entry = Text.Utf8.encode (project ++ ":" ++ name ++ ":" ++ hex) ∧ IsPlain project
        ∧ IsPlain name ∧ ∃ id : ObjectId, hex.toList.map Char.toLower = id.hexChars := by
  have hjoin (text : String) : text.toList = [':'].intercalate
      [project.toList, name.toList, hex.toList] ↔ text = project ++ ":" ++ name ++ ":" ++ hex := by
    rw [← String.toList_inj]
    simp [List.intercalate]
  have hcut (text : String) :
      text.toList.splitOn ':' = [project.toList, name.toList, hex.toList] ↔
        (':' ∉ project.toList ∧ ':' ∉ name.toList ∧ ':' ∉ hex.toList)
          ∧ text = project ++ ":" ++ name ++ ":" ++ hex := by
    rw [← Text.splitAt_eq_splitOn, Text.splitAt_eq_iff (by simp), hjoin]
    simp
  constructor
  · rintro ⟨⟨text, rfl, htext⟩, hproject, hname, hlen, hdigits⟩
    obtain ⟨⟨hp, hn, -⟩, rfl⟩ := (hcut text).mp htext
    exact ⟨(Text.Utf8.encode_eq_toUTF8 _).symm, ⟨hproject, hp⟩, ⟨hname, hn⟩,
      ObjectId.exists_hexChars_iff.mpr ⟨hlen, hdigits⟩⟩
  · rintro ⟨rfl, ⟨hproject, hp⟩, ⟨hname, hn⟩, id, hid⟩
    obtain ⟨hlen, hdigits⟩ := ObjectId.exists_hexChars_iff.mp ⟨id, hid⟩
    refine ⟨⟨_, Text.Utf8.encode_eq_toUTF8 _, (hcut _).mpr ⟨⟨hp, hn, ?_⟩, rfl⟩⟩, hproject, hname,
      hlen, hdigits⟩
    exact ObjectId.colon_not_mem_of_hexChars hid

theorem ofEntry_eq_ok_iff_isStored {entry : List UInt8} {e : String × RefState} :
    ofEntry entry = .ok e ↔ ∃ hex, IsStored entry e.1 e.2.name hex
      ∧ hex.toList.map Char.toLower = e.2.id.hexChars := by
  simp only [isStored_iff]
  constructor
  · intro h
    cases hdecode : Text.Utf8.decode? entry with
    | none =>
      rw [ofEntry, hdecode] at h
      cases h
    | some text =>
      obtain rfl := Text.Utf8.decode?_eq_some_iff.mp hdecode
      obtain ⟨hex, rfl, hproject, hname, hid⟩ := ofEntry_eq_ok_iff.mp h
      exact ⟨hex, ⟨rfl, hproject, hname, _, hid⟩, hid⟩
  · rintro ⟨hex, ⟨rfl, hproject, hname, -⟩, hid⟩
    exact ofEntry_eq_ok_iff.mpr ⟨hex, rfl, hproject, hname, hid⟩

theorem exists_ofEntry_iff {entry : List UInt8} :
    (∃ e, ofEntry entry = .ok e) ↔ ∃ project name hex, IsStored entry project name hex := by
  constructor
  · rintro ⟨e, h⟩
    obtain ⟨hex, hstored, -⟩ := ofEntry_eq_ok_iff_isStored.mp h
    exact ⟨_, _, hex, hstored⟩
  · rintro ⟨project, name, hex, hstored⟩
    obtain ⟨-, -, -, id, hid⟩ := isStored_iff.mp hstored
    exact ⟨(project, ⟨name, id⟩), ofEntry_eq_ok_iff_isStored.mpr ⟨hex, hstored, hid⟩⟩

/-- The fault of an entry is its text. -/
theorem ofEntry_eq_error_iff {entry : List UInt8} {f : RefFault} :
    ofEntry entry = .error f ↔ (¬∃ project name hex, IsStored entry project name hex)
      ∧ f = .state (Text.Utf8.decodeLossy entry) := by
  rw [← exists_ofEntry_iff, ofEntry]
  cases (Text.Utf8.decode? entry).bind ofText? <;> simp [eq_comm]

/-- An entry is read as the state of a project, which is written back as the
entry with its digits in lower case. -/
def ReadsAs (entry : List UInt8) (e : String × RefState) : Prop :=
  ∃ hex, IsStored entry e.1 e.2.name hex
    ∧ entry = (e.1 ++ ":" ++ e.2.name ++ ":" ++ hex).toUTF8.data.toList
    ∧ e.2.entry e.1 = (e.1 ++ ":" ++ e.2.name ++ ":"
        ++ String.ofList (hex.toList.map Char.toLower)).toUTF8.data.toList

theorem readsAs_of_ofEntry {entry : List UInt8} {e : String × RefState}
    (h : ofEntry entry = .ok e) : ReadsAs entry e := by
  obtain ⟨hex, hstored, hid⟩ := ofEntry_eq_ok_iff_isStored.mp h
  refine ⟨hex, hstored, ?_, ?_⟩
  · rw [← Text.Utf8.encode_eq_toUTF8]
    exact (isStored_iff.mp hstored).1
  · rw [← Text.Utf8.encode_eq_toUTF8, hid]
    rfl

theorem toLower_hexChars (id : ObjectId) : id.hexChars.map Char.toLower = id.hexChars := by
  have hdigit : ∀ n < 16, (Text.Hex.digit n).toLower = Text.Hex.digit n := by decide
  rw [ObjectId.hexChars, Text.Hex.ofOctets, List.map_flatMap]
  refine List.flatMap_congr fun b _ => ?_
  have hsize := b.toNat_lt
  rw [List.map_cons, List.map_singleton, hdigit _ (by omega), hdigit _ (by omega)]

/-- What is written of a project and a state is read as these if both names
are plain. -/
theorem ofEntry_entry_of_isPlain {project : String} {s : RefState} (hproject : IsPlain project)
    (hname : IsPlain s.name) : ofEntry (s.entry project) = .ok (project, s) :=
  ofEntry_eq_ok_iff.mpr ⟨s.id.hex, rfl, hproject, hname, by
    rw [ObjectId.hex, String.toList_ofList, toLower_hexChars]⟩

/-- If one of the names is not plain, it is not read as anything. -/
theorem isPlain_of_ofEntry_entry {project : String} {s : RefState} {e : String × RefState}
    (h : ofEntry (s.entry project) = .ok e) : IsPlain project ∧ IsPlain s.name := by
  obtain ⟨hex, htext, hproject, hname, hid⟩ := ofEntry_eq_ok_iff.mp h
  have hhex : ':' ∉ hex.toList := ObjectId.colon_not_mem_of_hexChars hid
  have hhex' : ':' ∉ s.id.hexChars := ObjectId.colon_not_mem_of_hexChars (toLower_hexChars s.id)
  have hchars : [':'].intercalate [project.toList, s.name.toList, s.id.hexChars]
      = [':'].intercalate [e.1.toList, e.2.name.toList, hex.toList] := by
    have h := congrArg String.toList htext
    simpa [text, List.intercalate, ObjectId.hex] using h
  -- There are two colons, so there is none in the names.
  have hcolons : ':' ∉ project.toList ∧ ':' ∉ s.name.toList := by
    have hcount := congrArg (List.count ':') hchars
    simp only [List.intercalate, List.intersperse, List.flatten_cons, List.flatten_nil,
      List.count_append, List.count_nil, List.count_singleton_self,
      List.count_eq_zero.mpr hproject.2, List.count_eq_zero.mpr hname.2,
      List.count_eq_zero.mpr hhex, List.count_eq_zero.mpr hhex'] at hcount
    rw [← List.count_eq_zero, ← List.count_eq_zero]
    omega
  have hparts : [project.toList, s.name.toList, s.id.hexChars]
      = [e.1.toList, e.2.name.toList, hex.toList] := by
    have hleft : ([':'].intercalate [project.toList, s.name.toList, s.id.hexChars]).splitOn ':'
        = [project.toList, s.name.toList, s.id.hexChars] :=
      List.splitOn_intercalate ':' (by simp [hcolons, hhex']) (by simp)
    rw [← hleft, hchars,
      List.splitOn_intercalate ':' (by simp [hproject.2, hname.2, hhex]) (by simp)]
  simp only [List.cons.injEq, String.toList_inj] at hparts
  rw [hparts.1, hparts.2.1]
  exact ⟨hproject, hname⟩

/-- What is written of a project and a state is read as these, or is refused
with its own text. -/
theorem ofEntry_entry (project : String) (s : RefState) :
    (IsPlain project ∧ IsPlain s.name) ∧ ofEntry (s.entry project) = .ok (project, s)
      ∨ ¬(IsPlain project ∧ IsPlain s.name)
        ∧ ofEntry (s.entry project) = .error (.state (s.text project)) := by
  by_cases hplain : IsPlain project ∧ IsPlain s.name
  · exact .inl ⟨hplain, ofEntry_entry_of_isPlain hplain.1 hplain.2⟩
  · refine .inr ⟨hplain, ofEntry_eq_error_iff.mpr ⟨?_, ?_⟩⟩
    · rw [← exists_ofEntry_iff]
      exact fun ⟨e, he⟩ => hplain (isPlain_of_ofEntry_entry he)
    · rw [entry, Text.Utf8.decodeLossy_encode]

/-! ## The whole account -/

/-- Reading and writing stored states.

A batch is read just if each entry has the form of a state. Then each entry
is read as the state of a project that is written back as the entry with its
digits in lower case, and the states are grouped by project, in their order.
A batch that is not read fails at its first entry without the form, and the
fault is the text of that entry.

What is written of a project and the state of a ref is read as just these if
both names are plain, and is refused if one is not. -/
theorem ofEntries_reads_states :
    (∀ entries : List (List UInt8),
      ((∃ t, ofEntries entries = .ok t)
        ↔ ∀ entry ∈ entries, ∃ project name hex, IsStored entry project name hex)
      ∧ (∀ t, ofEntries entries = .ok t →
        ∃ es, List.Forall₂ ReadsAs entries es ∧ t.Groups es)
      ∧ ∀ f, ofEntries entries = .error f → ∃ good bad rest, entries = good ++ bad :: rest
        ∧ (∀ entry ∈ good, ∃ project name hex, IsStored entry project name hex)
        ∧ (¬∃ project name hex, IsStored bad project name hex)
        ∧ f = .state (Text.Utf8.decodeLossy bad)
        ∧ ∀ text : String, bad = text.toUTF8.data.toList → f = .state text)
    ∧ ∀ (project name : String) (id? : Option ObjectId),
      (IsPlain project ∧ IsPlain name)
          ∧ ofEntries [(ofRef name id?).entry project] = .ok [(project, [ofRef name id?])]
        ∨ ¬(IsPlain project ∧ IsPlain name)
          ∧ ofEntries [(ofRef name id?).entry project]
            = .error (.state ((ofRef name id?).text project)) := by
  refine ⟨fun entries => ⟨?_, fun t ht => ?_, fun f hf => ?_⟩, fun project name id? => ?_⟩
  · rw [ofEntries, ByProject.exists_batch_iff]
    simp only [exists_ofEntry_iff]
  · obtain ⟨es, hes, rfl⟩ := ByProject.batch_eq_ok_iff.mp ht
    exact ⟨es, hes.imp fun _ _ => readsAs_of_ofEntry, ByProject.groups_ofList es⟩
  · obtain ⟨good, bad, rest, rfl, hgood, hbad⟩ := ByProject.batch_eq_error_iff.mp hf
    obtain ⟨hnot, rfl⟩ := ofEntry_eq_error_iff.mp hbad
    refine ⟨good, bad, rest, rfl, fun entry hentry => exists_ofEntry_iff.mp (hgood entry hentry),
      hnot, rfl, ?_⟩
    rintro text rfl
    rw [← Text.Utf8.encode_eq_toUTF8, Text.Utf8.decodeLossy_encode]
  · rw [ofEntries, ByProject.batch_singleton]
    rcases ofEntry_entry project (ofRef name id?) with ⟨hplain, h⟩ | ⟨hplain, h⟩
    · exact .inl ⟨hplain, by rw [h, Except.map]⟩
    · exact .inr ⟨hplain, by rw [h, Except.map]⟩

/-- An entry with upper-case digits is read; an entry without an id is named,
though another comes before it. -/
theorem ofEntries_reads_states_upper_case :
    (∃ es, List.Forall₂ ReadsAs
        ["p:r:00000000000000000000000000000000000000AB".toUTF8.data.toList] es
      ∧ ByProject.Groups [("p", [⟨"r", ⟨List.replicate 19 0 ++ [0xAB], rfl⟩⟩])] es)
    ∧ ∃ good bad rest, ["p:r:00000000000000000000000000000000000000AB".toUTF8.data.toList,
        "p:r".toUTF8.data.toList] = good ++ bad :: rest
      ∧ RefFault.state "p:r" = .state (Text.Utf8.decodeLossy bad) := by
  refine ⟨(ofEntries_reads_states.1 _).2.1 _ (by decide), ?_⟩
  obtain ⟨good, bad, rest, hentries, -, -, hf, -⟩ := (ofEntries_reads_states.1
    ["p:r:00000000000000000000000000000000000000AB".toUTF8.data.toList,
      "p:r".toUTF8.data.toList]).2.2 (.state "p:r") (by decide)
  exact ⟨good, bad, rest, hentries, hf⟩

end RefState

end ReviewSearch
