/-!
Size estimates. They are counted in 64 bits, and the largest value stands for a size that is
unknown or too large to count.
-/

namespace SplitTraversal

/-- The estimate of a sequence whose size is unknown. -/
def unknownSize : Nat := 18446744073709551615

/-- Addition that stops at `unknownSize`. -/
def addSizes (m n : Nat) : Nat := min (m + n) unknownSize

theorem addSizes_le_unknownSize (m n : Nat) : addSizes m n ≤ unknownSize := Nat.min_le_right _ _

theorem addSizes_of_le {m n : Nat} (h : m + n ≤ unknownSize) : addSizes m n = m + n := Nat.min_eq_left h

theorem addSizes_le_addSizes {m n m' n' : Nat} (hm : m ≤ m') (hn : n ≤ n') :
    addSizes m n ≤ addSizes m' n' := by
  simp only [addSizes]
  omega

theorem le_addSizes_left {m : Nat} (n : Nat) (hm : m ≤ unknownSize) : m ≤ addSizes m n := by
  simp only [addSizes]
  omega

theorem le_addSizes_right {n : Nat} (m : Nat) (hn : n ≤ unknownSize) : n ≤ addSizes m n := by
  simp only [addSizes]
  omega

def sizesOverflow (m n : Nat) : Bool := decide (unknownSize < m + n)

theorem sizesOverflow_eq_false {m n : Nat} : sizesOverflow m n = false ↔ m + n ≤ unknownSize := by
  simp [sizesOverflow]

end SplitTraversal
