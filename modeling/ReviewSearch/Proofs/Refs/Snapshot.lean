/-
ReviewSearch.Proofs.Refs.Snapshot — refs found by the beginning of their
names.

A snapshot keeps the refs of each project in the order of their names, and
one that is loaded is so, in whatever order the file has them
(`ordered_of_load`). Names that begin alike are neighbours, and none of
them is smaller than their common beginning (`segment_beginsWith`). So the
lookup, which goes to that place and stops at the first other name, finds
what a look at every ref finds: `under_eq_scan`. What the lookup and the
exact one answer is a store of refs in the sense of the checker
(`serves_toLive`).

Names are compared as they are written, octet by octet; it is the same to
compare them by characters (`beginsWith_iff`, `Text.Utf8.encode_lt_iff`).
-/
import ReviewSearch.Load.Refs
import ReviewSearch.Proofs.Order.Segment
import ReviewSearch.Proofs.Refs.Entries
import ReviewSearch.Proofs.Refs.Verdict
import ReviewSearch.Proofs.Text.OctetOrder

namespace ReviewSearch

/-- Whether a table is in order is a matter of its keys. -/
theorem Table.ordered_iff_pairwise_keys {ν : Type} {t : Table String ν} :
    t.Ordered ↔ t.keys.Pairwise (· < ·) :=
  List.pairwise_map.symm

namespace RefSnapshot

variable {s : RefSnapshot} {project stem name : String} {id : ObjectId}

/-- The invariant: the refs of each project are in the order of their
names, and none is there twice. -/
def Ordered (s : RefSnapshot) : Prop :=
  ∀ e ∈ s.projects, e.2.Ordered

theorem Ordered.refs (hs : s.Ordered) (project : String) : (s.refs project).Ordered := by
  unfold RefSnapshot.refs
  cases hget : Table.get? project s.projects with
  | none => exact .nil
  | some refs => exact hs _ (Table.mem_of_get?_eq_some hget)

/-! ## Loading -/

theorem ordered_of_textsOfRaw? {v : Json.Raw} {texts : Table String (Table String String)}
    (h : textsOfRaw? v = some texts) : ∀ e ∈ texts, e.2.Ordered := by
  obtain ⟨ms, -, h⟩ := Option.bind_eq_some_iff.mp h
  obtain ⟨projects, hprojects, h⟩ := Option.bind_eq_some_iff.mp h
  obtain rfl := Option.some.inj h
  intro e he
  obtain ⟨m, -, hm⟩ := exists_mem_of_forall₂ (mapM_eq_some_iff.mp hprojects)
    (Table.mem_of_mem_ofList he)
  obtain ⟨refs, -, hm⟩ := Option.bind_eq_some_iff.mp hm
  obtain ⟨named, -, hm⟩ := Option.bind_eq_some_iff.mp hm
  obtain rfl := Option.some.inj hm
  exact Table.ordered_ofList _

/-- The names of a project are kept when its ids are read. -/
theorem ordered_of_ofTexts {texts : Table String (Table String String)}
    (htexts : ∀ e ∈ texts, e.2.Ordered) (h : ofTexts texts = .ok s) : s.Ordered := by
  obtain ⟨projects, hprojects, h⟩ := bind_eq_ok_iff.mp h
  obtain rfl := Except.ok.inj h
  intro e he
  obtain ⟨⟨project, refs⟩, hrefs, hproject⟩ :=
    exists_mem_of_forall₂ (mapM_eq_ok_iff.mp hprojects) he
  obtain ⟨parsed, hparsed, h⟩ := bind_eq_ok_iff.mp hproject
  obtain rfl := Except.ok.inj h
  have hkeys : refs.map Prod.fst = parsed.map Prod.fst := by
    rw [← List.forall₂_eq_eq_eq, List.forall₂_map_left_iff, List.forall₂_map_right_iff]
    refine (mapM_eq_ok_iff.mp hparsed).imp fun ref ref' href => ?_
    dsimp only at href
    split at href
    · rw [← Except.ok.inj href]
    · cases href
  rw [Table.ordered_iff_pairwise_keys, Table.keys, ← hkeys]
  exact Table.ordered_iff_pairwise_keys.mp (htexts _ hrefs)

/-- A snapshot that is loaded is in order. -/
theorem ordered_of_load {file : Contents} (h : load file = .ok s) : s.Ordered := by
  obtain ⟨texts, hread, htexts⟩ := bind_eq_ok_iff.mp h
  obtain ⟨-, -, v, -, hv⟩ := Contents.read_eq_ok_iff.mp hread
  exact ordered_of_ofTexts (ordered_of_textsOfRaw? hv) htexts

/-! ## The lookup -/

/-- One name begins another just if its octets do. -/
theorem beginsWith_iff : beginsWith stem name = true
    ↔ stem.toUTF8.data.toList <+: name.toUTF8.data.toList := by
  rw [beginsWith, List.isPrefixOf_iff_prefix, ← Text.Utf8.encode_isPrefix_iff,
    Text.Utf8.encode_eq_toUTF8, Text.Utf8.encode_eq_toUTF8]

/-- The refs whose names begin with a text are neighbours, and the first of
them is the first whose name is not smaller than the text. -/
theorem segment_beginsWith (stem : String) :
    Order.Segment (fun a b : String × ObjectId => a.1 < b.1) (fun e => decide (e.1 < stem))
      fun e => beginsWith stem e.1 where
  before_of_rel h hb := decide_eq_true (String.lt_trans h (of_decide_eq_true hb))
  not_before h := decide_eq_false (List.isPrefixOf_iff_prefix.mp h).le
  wanted_of_rel h ha hb := List.isPrefixOf_iff_prefix.mpr
    (Order.isPrefix_of_not_lt_of_lt (of_decide_eq_false ha) h (List.isPrefixOf_iff_prefix.mp hb))

theorem under_eq_filter (hs : s.Ordered) (project stem : String) :
    s.under project stem = (s.refs project).filter fun e => beginsWith stem e.1 :=
  (segment_beginsWith stem).takeWhile_dropWhile (hs.refs project)

theorem mem_under_iff (hs : s.Ordered) : (name, id) ∈ s.under project stem
    ↔ s.object? project name = some id ∧ beginsWith stem name = true := by
  rw [under_eq_filter hs, List.mem_filter, object?, (hs.refs project).get?_eq_some_iff]

/-- A snapshot answers from its refs, whatever is asked, and all of its
projects can be read. -/
theorem serves_toLive (hs : s.Ordered) : s.toLive.Serves fun project => some (s.object? project)
    where
  object h name := by
    cases h
    rfl
  under h stem := by
    cases h
    exact ⟨_, rfl, fun _ _ => mem_under_iff hs⟩
  object_unreadable h := nomatch h
  under_unreadable h := nomatch h

/-- The refs of a project whose names begin with the octets of a text,
found by a look at every ref. -/
def scan (s : RefSnapshot) (project stem : String) : List (String × ObjectId) :=
  (s.refs project).filter fun e =>
    stem.toUTF8.data.toList.isPrefixOf e.1.toUTF8.data.toList

/-- In a snapshot that is in order, as every loaded one is, the lookup finds
what a scan of the project finds: the refs that it has and whose names begin
with the octets of the text, in the strict order of the octets of their
names, so that none is there twice. -/
theorem under_eq_scan (hs : s.Ordered) (project stem : String) :
    s.toLive.under project stem = .ok (s.scan project stem)
      ∧ (∀ name id, (name, id) ∈ s.scan project stem
        ↔ s.toLive.object project name = .ok (some id)
          ∧ stem.toUTF8.data.toList <+: name.toUTF8.data.toList)
      ∧ (s.scan project stem).Pairwise fun a b =>
        a.1.toUTF8.data.toList < b.1.toUTF8.data.toList := by
  have hscan : s.under project stem = s.scan project stem := by
    rw [under_eq_filter hs, scan]
    refine List.filter_congr fun e _ => ?_
    rw [Bool.eq_iff_iff, beginsWith_iff, List.isPrefixOf_iff_prefix]
  refine ⟨congrArg Except.ok hscan, fun name id => ?_, ?_⟩
  · rw [← hscan, mem_under_iff hs, beginsWith_iff]
    exact and_congr_left fun _ => ⟨congrArg Except.ok, Except.ok.inj⟩
  · simp only [← Text.Utf8.encode_eq_toUTF8, Text.Utf8.encode_lt_iff]
    exact (hs.refs project).filter _

/-! ### Names beyond ASCII -/

/-- Refs that are given in no order. The name of one is the beginning of
others, and another one shares its first octet with what follows there. -/
def umlauts : RefSnapshot where
  projects := [("core", Table.ofList (["refs/ä\uffff", "refs/z", "refs/ö", "refs/ä", "refs/äb",
    "refs/ä😀"].map fun name => (name, .zero)))]

/-- A lookup that begins at a ref, and one that begins behind every
ref. -/
theorem under_eq_scan_umlauts : umlauts.Ordered
    ∧ umlauts.toLive.under "core" "refs/ä" = .ok (umlauts.scan "core" "refs/ä")
    ∧ (umlauts.scan "core" "refs/ä").map Prod.fst
      = ["refs/ä", "refs/äb", "refs/ä\uffff", "refs/ä😀"]
    ∧ umlauts.toLive.under "core" "refs/😀" = .ok (umlauts.scan "core" "refs/😀")
    ∧ umlauts.scan "core" "refs/😀" = [] := by
  have hs : umlauts.Ordered := by
    intro e he
    obtain rfl := List.mem_singleton.mp he
    exact Table.ordered_ofList _
  have hnames := (under_eq_scan hs "core" "refs/ä").1
  have hnone := (under_eq_scan hs "core" "refs/😀").1
  refine ⟨hs, hnames, ?_, hnone, ?_⟩
  · rw [← Except.ok.inj hnames]
    decide +kernel
  · rw [← Except.ok.inj hnone]
    decide +kernel

end RefSnapshot

end ReviewSearch
