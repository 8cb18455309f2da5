/-!
Where a range is split. Small ranges are halved; a large range gives away an eighth, so that the
front of a range that is soon cut short lies at a low depth.
-/

namespace SplitTraversal

/-- Ranges with fewer elements than this are halved. -/
def halvingLimit : Nat := 16777216

/-- A range that is not halved gives away one part in this many. -/
def largeRatio : Nat := 8

/-- How many of `size` elements the split-off front receives. -/
def splitPoint (size : Nat) : Nat := size / if size < halvingLimit then 2 else largeRatio

theorem splitPoint_pos {size : Nat} (h : 2 ≤ size) : 0 < splitPoint size := by
  unfold splitPoint halvingLimit largeRatio
  split <;> omega

theorem splitPoint_le_half (size : Nat) : splitPoint size ≤ size / 2 := by
  unfold splitPoint halvingLimit largeRatio
  split <;> omega

end SplitTraversal
