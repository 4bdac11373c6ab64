/-
ReviewSearch.Proofs.Text.Utf8 — UTF-8 is read back as it was written.

A character is written in one to four octets, by its code point. The first
octet says how many there are and which range the second must lie in
(`start_two`, `start_three`, `start_four`); each of the others adds six
bits (`piecesFrom_owed`). So a character is the first piece of its octets,
whatever follows (`piecesFrom_encodeChar`), and `decode?_encode` is that
for a whole text.

Nothing else is read as a text. The octets read so far of a sequence that
has begun (`Begun`) are the first of a character's, whichever octets pay
for the rest, so octets that have no malformed piece are those of their
characters: `decode?_eq_some_iff`. The octets of a text are the same as
those in which the system keeps it (`encode_eq_toUTF8`).
-/
import Mathlib.Data.List.Basic
import ReviewSearch.Text.Utf8

namespace ReviewSearch.Text.Utf8

/-! ## One character -/

/-- A first octet gives a debt of `more + 1` octets, for a character with
the bits `value` in front, of which `b` is a possible next one. -/
def Owes (first value more b : Nat) : Prop :=
  ∃ low high, start first = .owed ⟨value, more, low, high⟩ ∧ low ≤ b ∧ b ≤ high

theorem start_two {n : Nat} (hlow : 0x80 ≤ n) (hhigh : n < 0x800) :
    Owes (0xC0 + n / 64) (n / 64) 0 (0x80 + n % 64) := by
  refine ⟨0x80, 0xBF, ?_, by omega, by omega⟩
  unfold start
  rw [if_neg (by omega), if_neg (by omega), if_pos (by omega), Nat.add_sub_cancel_left]

/-- Three octets keep out what two can write, and the surrogates. -/
theorem start_three {n : Nat} (hlow : 0x800 ≤ n) (hhigh : n < 0x10000)
    (hvalid : n < 0xD800 ∨ 0xDFFF < n) :
    Owes (0xE0 + n / 4096) (n / 4096) 1 (0x80 + n / 64 % 64) := by
  unfold Owes start
  rw [if_neg (by omega), if_neg (by omega), if_neg (by omega)]
  by_cases hE0 : n / 4096 = 0
  · rw [if_pos (by omega), hE0]
    exact ⟨_, _, rfl, by omega, by omega⟩
  by_cases hED : n / 4096 = 13
  · rw [if_neg (by omega), if_pos (by omega), hED]
    exact ⟨_, _, rfl, by omega, by omega⟩
  · rw [if_neg (by omega), if_neg (by omega), if_pos (by omega), Nat.add_sub_cancel_left]
    exact ⟨_, _, rfl, by omega, by omega⟩

/-- Four octets keep out what three can write, and what is beyond the last
code point. -/
theorem start_four {n : Nat} (hlow : 0x10000 ≤ n) (hhigh : n < 0x110000) :
    Owes (0xF0 + n / 262144) (n / 262144) 2 (0x80 + n / 4096 % 64) := by
  unfold Owes start
  rw [if_neg (by omega), if_neg (by omega), if_neg (by omega), if_neg (by omega),
    if_neg (by omega), if_neg (by omega)]
  by_cases hF0 : n / 262144 = 0
  · rw [if_pos (by omega), hF0]
    exact ⟨_, _, rfl, by omega, by omega⟩
  by_cases hF4 : n / 262144 = 4
  · rw [if_neg (by omega), if_neg (by omega), if_pos (by omega), hF4]
    exact ⟨_, _, rfl, by omega, by omega⟩
  · rw [if_neg (by omega), if_pos (by omega), Nat.add_sub_cancel_left]
    exact ⟨_, _, rfl, by omega, by omega⟩

/-- What is read behind an octet that makes the bits `value`, with `more`
octets still owed. -/
def paid (value : Nat) : Nat → List Nat → List (Option Char)
  | 0, bs => some (Char.ofNat value) :: piecesFrom none bs
  | more + 1, bs => piecesFrom (some ⟨value, more, 0x80, 0xBF⟩) bs

/-- An octet in range pays for six bits. -/
theorem piecesFrom_owed {value more low high bits : Nat} {bs : List Nat}
    (hlow : low ≤ 0x80 + bits) (hhigh : 0x80 + bits ≤ high) :
    piecesFrom (some ⟨value, more, low, high⟩) ((0x80 + bits) :: bs)
      = paid (value * 64 + bits) more bs := by
  rw [piecesFrom]
  simp only [hlow, hhigh, and_self, if_true, Nat.add_sub_cancel_left]
  cases more <;> rfl

theorem piecesFrom_first {first value more bits : Nat} {bs : List Nat}
    (h : Owes first value more (0x80 + bits)) :
    piecesFrom none (first :: (0x80 + bits) :: bs) = paid (value * 64 + bits) more bs := by
  obtain ⟨low, high, hstart, hlow, hhigh⟩ := h
  rw [piecesFrom, hstart]
  exact piecesFrom_owed hlow hhigh

theorem paid_succ {value more bits : Nat} {bs : List Nat} (hbits : bits < 64) :
    paid value (more + 1) ((0x80 + bits) :: bs) = paid (value * 64 + bits) more bs :=
  piecesFrom_owed (by omega) (by omega)

theorem paid_zero (c : Char) {value : Nat} (h : value = c.toNat) (bs : List Nat) :
    paid value 0 bs = some c :: piecesFrom none bs := by
  rw [paid, h, Char.ofNat_toNat]

/-- The octets of a character are read as that character. -/
theorem piecesFrom_encodeChar (c : Char) (bs : List Nat) :
    piecesFrom none (encodeChar c ++ bs) = some c :: piecesFrom none bs := by
  have hvalid : c.toNat < 0xD800 ∨ 0xDFFF < c.toNat ∧ c.toNat < 0x110000 := c.valid
  unfold encodeChar
  simp only
  split
  · next h => simp only [List.cons_append, List.nil_append, piecesFrom, start, h, if_true,
      Char.ofNat_toNat]
  split
  · next h1 h2 =>
    simp only [List.cons_append, List.nil_append]
    rw [piecesFrom_first (start_two (by omega) h2), paid_zero c (by omega)]
  split
  · next h1 h2 h3 =>
    simp only [List.cons_append, List.nil_append]
    rw [piecesFrom_first (start_three (by omega) h3 (by omega)), paid_succ (by omega),
      paid_zero c (by omega)]
  · simp only [List.cons_append, List.nil_append]
    rw [piecesFrom_first (start_four (by omega) (by omega)), paid_succ (by omega),
      paid_succ (by omega), paid_zero c (by omega)]

/-! ## Whole texts -/

theorem lt_of_mem_encodeChar {c : Char} {b : Nat} (h : b ∈ encodeChar c) : b < 256 := by
  have hvalid : c.toNat < 0xD800 ∨ 0xDFFF < c.toNat ∧ c.toNat < 0x110000 := c.valid
  unfold encodeChar at h
  dsimp only at h
  split_ifs at h <;> simp only [List.mem_cons, List.not_mem_nil, or_false] at h <;> omega

theorem map_toNat_encode (s : String) :
    (encode s).map UInt8.toNat = s.toList.flatMap encodeChar := by
  rw [encode, List.map_map]
  refine (List.map_congr_left fun b hb => ?_).trans (List.map_id _)
  obtain ⟨c, -, hb⟩ := List.mem_flatMap.mp hb
  exact UInt8.toNat_ofNat_of_lt' (lt_of_mem_encodeChar hb)

/-- The characters of a text are its first pieces, whatever follows. -/
theorem pieces_encode_append (s : String) (bytes : List UInt8) :
    pieces (encode s ++ bytes) = s.toList.map some ++ pieces bytes := by
  rw [pieces, pieces, List.map_append, map_toNat_encode]
  induction s.toList with
  | nil => rfl
  | cons c cs ih =>
    rw [List.flatMap_cons, List.append_assoc, piecesFrom_encodeChar, ih, List.map_cons,
      List.cons_append]

theorem pieces_encode (s : String) : pieces (encode s) = s.toList.map some := by
  simpa [pieces, piecesFrom] using pieces_encode_append s []

/-- Pieces make a text if none of them is malformed. -/
theorem mapM_id_eq_some_iff {ps : List (Option Char)} {cs : List Char} :
    ps.mapM id = some cs ↔ ps = cs.map some := by
  induction ps generalizing cs with
  | nil => cases cs <;> simp
  | cons p ps ih =>
    cases p with
    | none => cases cs <;> simp
    | some c => cases cs <;> simp [Option.bind_eq_some_iff, ih, and_comm]

/-- A text is read back from its octets. -/
theorem decode?_encode (s : String) : decode? (encode s) = some s := by
  rw [decode?, pieces_encode, mapM_id_eq_some_iff.mpr rfl, Option.map_some, String.ofList_toList]

/-- Octets of a text have no malformed piece to replace. -/
theorem decodeLossy_encode (s : String) : decodeLossy (encode s) = s := by
  rw [decodeLossy, pieces_encode, List.map_map]
  exact (congrArg String.ofList (List.map_id _)).trans String.ofList_toList

/-! ## Nothing else is a text -/

theorem toNat_ofNat {n : Nat} (h : n < 0xD800 ∨ 0xDFFF < n ∧ n < 0x110000) :
    (Char.ofNat n).toNat = n := by
  have hvalid : n.isValidChar := h
  rw [Char.ofNat, dif_pos hvalid]
  rfl

/-- The first octet of a character of one octet. -/
theorem encodeChar_of_start {b : Nat} {c : Char} (h : start b = .char c) : encodeChar c = [b] := by
  unfold start at h
  split at h
  · next hb =>
    cases h
    simp only [encodeChar, toNat_ofNat (n := b) (by omega), hb, if_true]
  · split_ifs at h

/-- The octets `pre` have been read of a character, with the bits `value`,
and `more + 1` octets are owed, the next of them from `low` to `high`:
whichever they are, they make a character with just these octets. -/
def Completes (pre : List Nat) : (more value low high : Nat) → Prop
  | 0, value, low, high => ∀ b, low ≤ b → b ≤ high →
      encodeChar (Char.ofNat (value * 64 + (b - 0x80))) = pre ++ [b]
  | more + 1, value, low, high => ∀ b, low ≤ b → b ≤ high →
      Completes (pre ++ [b]) more (value * 64 + (b - 0x80)) 0x80 0xBF

theorem completes_two {a value : Nat} (ha : a = 0xC0 + value) (hlong : 2 ≤ value)
    (hvalue : value < 32) : Completes [a] 0 value 0x80 0xBF := by
  intro b hb hb'
  rw [encodeChar, toNat_ofNat (by omega), if_neg (by omega), if_pos (by omega)]
  simp only [List.cons_append, List.nil_append, List.cons.injEq, and_true]
  omega

/-- The range keeps out what two octets can write, and the surrogates. -/
theorem completes_three {a value low high : Nat} (ha : a = 0xE0 + value) (hvalue : value < 16)
    (hlow : 0x80 ≤ low) (hhigh : high ≤ 0xBF) (hlong : value = 0 → 0xA0 ≤ low)
    (hpair : value = 13 → high ≤ 0x9F) : Completes [a] 1 value low high := by
  intro b hb hb' c hc hc'
  rw [encodeChar, toNat_ofNat (by omega), if_neg (by omega), if_neg (by omega), if_pos (by omega)]
  simp only [List.cons_append, List.nil_append, List.cons.injEq, and_true]
  omega

/-- The range keeps out what three octets can write, and what is beyond the
last code point. -/
theorem completes_four {a value low high : Nat} (ha : a = 0xF0 + value) (hvalue : value ≤ 4)
    (hlow : 0x80 ≤ low) (hhigh : high ≤ 0xBF) (hlong : value = 0 → 0x90 ≤ low)
    (hlast : value = 4 → high ≤ 0x8F) : Completes [a] 2 value low high := by
  intro b hb hb' c hc hc' d hd hd'
  rw [encodeChar, toNat_ofNat (by omega), if_neg (by omega), if_neg (by omega), if_neg (by omega)]
  simp only [List.cons_append, List.nil_append, List.cons.injEq, and_true]
  omega

/-- What has been read when a debt is open, and nothing when none is. -/
def Begun (pre : List Nat) : Option Owed → Prop
  | none => pre = []
  | some ⟨value, more, low, high⟩ => Completes pre more value low high

theorem begun_of_start {b : Nat} {o : Owed} (h : start b = .owed o) : Begun [b] (some o) := by
  unfold start at h
  split_ifs at h <;> obtain rfl := Start.owed.inj h
  · exact completes_two (by omega) (by omega) (by omega)
  · exact completes_three (by omega) (by omega) (by omega) (by omega) (by omega) (by omega)
  · exact completes_three (by omega) (by omega) (by omega) (by omega) (by omega) (by omega)
  · exact completes_three (by omega) (by omega) (by omega) (by omega) (by omega) (by omega)
  · exact completes_four (by omega) (by omega) (by omega) (by omega) (by omega) (by omega)
  · exact completes_four (by omega) (by omega) (by omega) (by omega) (by omega) (by omega)
  · exact completes_four (by omega) (by omega) (by omega) (by omega) (by omega) (by omega)

section Paying

variable {pre : List Nat} {o : Owed} {b : Nat}

/-- The last octet owed makes a character. -/
theorem Begun.last (h : Begun pre (some o)) (hmore : o.more = 0)
    (hrange : o.low ≤ b ∧ b ≤ o.high) :
    encodeChar (Char.ofNat (o.value * 64 + (b - 0x80))) = pre ++ [b] := by
  obtain ⟨value, _, low, high⟩ := o
  obtain rfl := hmore
  exact h b hrange.1 hrange.2

/-- Any other leaves one octet less to pay. -/
theorem Begun.further {more : Nat} (h : Begun pre (some o)) (hmore : o.more = more + 1)
    (hrange : o.low ≤ b ∧ b ≤ o.high) :
    Begun (pre ++ [b]) (some ⟨o.value * 64 + (b - 0x80), more, 0x80, 0xBF⟩) := by
  obtain ⟨value, _, low, high⟩ := o
  obtain rfl := hmore
  exact h b hrange.1 hrange.2

end Paying

/-- Octets without a malformed piece are the octets of their characters. -/
theorem append_eq_of_piecesFrom {pre : List Nat} {o? : Option Owed} {bs : List Nat}
    {cs : List Char} (hpre : Begun pre o?) (h : piecesFrom o? bs = cs.map some) :
    pre ++ bs = cs.flatMap encodeChar := by
  -- a malformed piece is the first of no list of characters
  have hbad {ps : List (Option Char)} {cs : List Char} (h : none :: ps = cs.map some) : False := by
    cases cs <;> simp at h
  fun_induction piecesFrom o? bs generalizing pre cs with
  | case1 =>
    obtain rfl := List.map_eq_nil_iff.mp h.symm
    rw [show pre = [] from hpre]
    rfl
  | case2 => exact (hbad h).elim
  | case3 b bs c hstart ih =>
    obtain ⟨c', cs, rfl, hc, hrest⟩ := List.map_eq_cons_iff.mp h.symm
    obtain rfl := Option.some.inj hc
    rw [show pre = [] from hpre, List.flatMap_cons, encodeChar_of_start hstart,
      ← ih rfl hrest.symm]
    rfl
  | case4 b bs o hstart ih =>
    rw [show pre = [] from hpre]
    exact ih (begun_of_start hstart) h
  | case5 => exact (hbad h).elim
  | case6 o b bs hrange value hmore =>
    rename_i ih
    obtain ⟨c', cs, rfl, hc, hrest⟩ := List.map_eq_cons_iff.mp h.symm
    rw [List.flatMap_cons, Option.some.inj hc, hpre.last hmore hrange, ← ih rfl hrest.symm,
      List.append_assoc]
    rfl
  | case7 o b bs hrange value more hmore =>
    rename_i ih
    rw [← ih (hpre.further hmore hrange) h, List.append_assoc]
    rfl
  | case8 => exact (hbad h).elim
  | case9 => exact (hbad h).elim
  | case10 => exact (hbad h).elim

/-- Octets are read as a text just if they are its octets. -/
theorem decode?_eq_some_iff {bytes : List UInt8} {s : String} :
    decode? bytes = some s ↔ bytes = encode s := by
  constructor
  · intro h
    obtain ⟨cs, hcs, rfl⟩ := Option.map_eq_some_iff.mp h
    have hbegun : Begun [] none := rfl
    have hoctets : bytes.map UInt8.toNat = cs.flatMap encodeChar :=
      append_eq_of_piecesFrom hbegun (mapM_id_eq_some_iff.mp hcs)
    rw [encode, String.toList_ofList, ← hoctets, List.map_map]
    exact ((List.map_congr_left fun b _ => UInt8.ofNat_toNat).trans (List.map_id _)).symm
  · rintro rfl
    exact decode?_encode s

/-! ## The octets that the system keeps -/

theorem map_encodeChar (c : Char) : (encodeChar c).map UInt8.ofNat = String.utf8EncodeChar c := by
  have hvalid : c.toNat < 0xD800 ∨ 0xDFFF < c.toNat ∧ c.toNat < 0x110000 := c.valid
  have htwo (h : c.toNat < 0x800) : c.toNat / 64 % 0x20 = c.toNat / 64 := by omega
  have hthree (h : c.toNat < 0x10000) : c.toNat / 4096 % 0x10 = c.toNat / 4096 := by omega
  have hfour : c.toNat / 262144 % 8 = c.toNat / 262144 := by omega
  have hval : c.val.toNat = c.toNat := rfl
  unfold encodeChar String.utf8EncodeChar
  simp only [hval, Nat.lt_succ_iff]
  split_ifs with hone htwo' hthree'
  · rfl
  · simp [htwo, Nat.lt_succ_iff, htwo', Nat.add_comm]
  · simp [hthree, Nat.lt_succ_iff, hthree', Nat.add_comm]
  · simp [hfour, Nat.add_comm]

theorem encode_eq_toUTF8 (s : String) : encode s = s.toUTF8.data.toList := by
  have hchars : s.toUTF8 = s.toList.utf8Encode := by
    conv_lhs => rw [← String.ofList_toList (s := s), String.toUTF8_eq_toByteArray]
    exact String.toByteArray_ofList
  rw [hchars, List.utf8Encode, List.toList_data_toByteArray, encode, List.map_flatMap]
  simp only [map_encodeChar]

/-- Octets are not read just if they are those of no text. -/
theorem decode?_eq_none_iff {bytes : List UInt8} :
    decode? bytes = none ↔ ∀ text : String, bytes ≠ text.toUTF8.data.toList := by
  simp only [Option.eq_none_iff_forall_ne_some, ne_eq, decode?_eq_some_iff, encode_eq_toUTF8]

end ReviewSearch.Text.Utf8
