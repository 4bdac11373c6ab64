/-
ReviewSearch.Proofs.Text.OctetOrder — texts and their octets are ordered
alike.

UTF-8 writes a greater character so that the first octet in which it
differs from a smaller one is greater (`encodeChar_append_lt`). So texts
stand in the order of their octets (`encode_lt_iff`), and since a text is
read back from the front of its octets, one text begins another just if
its octets do (`encode_isPrefix_iff`).
-/
import Mathlib.Data.String.Basic
import Mathlib.Order.Monotone.Basic
import ReviewSearch.Proofs.Text.Utf8

namespace ReviewSearch.Text.Utf8

/-! ## Order -/

/-- The octets of a character and of a greater one are in order, whatever
follows them. -/
theorem encodeChar_append_lt {c d : Char} (h : c < d) (bs bs' : List Nat) :
    encodeChar c ++ bs < encodeChar d ++ bs' := by
  have hlt : c.toNat < d.toNat := h
  unfold encodeChar
  dsimp only
  -- characters of as many octets differ in their bits, others in the first octet
  split_ifs <;> simp only [List.cons_append, List.nil_append, List.cons_lt_cons_iff] <;> omega

theorem encodeChar_ne_nil (c : Char) : encodeChar c ≠ [] := by
  unfold encodeChar
  dsimp only
  split_ifs <;> exact List.cons_ne_nil _ _

/-- A text that is smaller than another has smaller octets: either they end
where those of the other go on, or the characters in which the texts differ
first decide. -/
theorem strictMono_flatMap_encodeChar :
    StrictMono fun cs : List Char => cs.flatMap encodeChar := by
  intro cs ds h
  induction h with
  | @nil d ds =>
    obtain ⟨b, bs, hd⟩ := List.exists_cons_of_ne_nil (encodeChar_ne_nil d)
    simp only [List.flatMap_nil, List.flatMap_cons, hd, List.cons_append]
    exact List.nil_lt_cons _ _
  | rel h => exact encodeChar_append_lt h _ _
  | cons _ ih => exact List.append_left_lt ih

/-- Octets are ordered as the numbers that they are. -/
theorem map_toNat_lt_iff {bs bs' : List UInt8} :
    bs.map UInt8.toNat < bs'.map UInt8.toNat ↔ bs < bs' := by
  induction bs generalizing bs' with
  | nil => cases bs' <;> simp
  | cons b bs ih =>
    cases bs' with
    | nil => simp
    | cons b' bs' =>
      rw [List.map_cons, List.map_cons, List.cons_lt_cons_iff, List.cons_lt_cons_iff, ih,
        UInt8.lt_iff_toNat_lt, UInt8.toNat_inj]

/-- Texts stand in the order of their octets. -/
theorem encode_lt_iff {s t : String} : encode s < encode t ↔ s < t := by
  rw [← map_toNat_lt_iff, map_toNat_encode, map_toNat_encode, String.lt_iff_toList_lt]
  exact strictMono_flatMap_encodeChar.lt_iff_lt

/-! ## Beginnings -/

/-- A text begins another just if its octets do. -/
theorem encode_isPrefix_iff {s t : String} : encode s <+: encode t ↔ s.toList <+: t.toList := by
  constructor
  · rintro ⟨bytes, h⟩
    have hpieces : t.toList.map some = s.toList.map some ++ pieces bytes := by
      rw [← pieces_encode, ← h, pieces_encode_append]
    obtain ⟨front, behind, ht, hfront, -⟩ := List.map_eq_append_iff.mp hpieces
    obtain rfl := (List.map_inj_right fun _ _ => Option.some.inj).mp hfront
    exact ⟨behind, ht.symm⟩
  · rintro ⟨cs, h⟩
    refine ⟨encode (String.ofList cs), ?_⟩
    rw [encode, encode, encode, ← List.map_append, ← List.flatMap_append, String.toList_ofList, h]

end ReviewSearch.Text.Utf8
