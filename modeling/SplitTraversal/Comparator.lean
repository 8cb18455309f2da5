/-!
The order by which a sorted sequence is sorted: the natural order of its elements, or a given one.
-/

namespace SplitTraversal

inductive Comparator (α : Type u)
  | natural
  | custom (cmp : α → α → Ordering)

def Comparator.compare [Ord α] : Comparator α → α → α → Ordering
  | natural => Ord.compare
  | custom cmp => cmp

end SplitTraversal
