/-
ReviewSearch.Count — counts that fit a 64-bit word.

Window starts, limits and cardinalities are naturals, capped where they
are added: `Count.add` stops at the greatest 64-bit word instead of
wrapping. Evaluation costs are capped likewise at 32 bits.
-/
namespace ReviewSearch

/-- The greatest count. As a limit it means "without limit". -/
def Count.max : Nat := UInt64.size - 1

/-- Capped addition of counts. -/
def Count.add (a b : Nat) : Nat :=
  min (a + b) Count.max

/-- The greatest evaluation cost. -/
def Cost.max : Nat := UInt32.size - 1

/-- Capped addition of costs. -/
def Cost.add (a b : Nat) : Nat :=
  min (a + b) Cost.max

/-- The range of signed 64-bit timestamps and starts. -/
def inSignedRange (n : Int) : Bool :=
  decide (-Int.pow 2 63 ≤ n) && decide (n < Int.pow 2 63)

/-- The signed range is well below the greatest count. -/
theorem succ_toNat_lt_max {k : Int} (h : inSignedRange k = true) : k.toNat + 1 < Count.max := by
  have hone : 1 < Count.max := by decide
  have hhalf : Int.pow 2 63 + 1 < Count.max := by decide
  obtain ⟨_, hk⟩ := (Bool.and_eq_true ..).mp h
  have hlt := of_decide_eq_true hk
  omega

theorem Count.add_le_max (a b : Nat) : Count.add a b ≤ Count.max :=
  Nat.min_le_right ..

end ReviewSearch
