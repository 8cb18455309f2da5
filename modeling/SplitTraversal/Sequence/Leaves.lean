import SplitTraversal.Sequence.Basic

/-!
Recursive splitting. A piece is a leaf when its estimate is within the bound, or when it does not
split; any other piece is replaced by the leaves of its front and then those of its rest.
-/

namespace SplitTraversal.Sequence

variable {α : Type u} [Numeral α]

/-- Grows smaller with every split: what the leaves that split still owe, and the concatenations. -/
def weight : Sequence α → Nat
  | range r => (range r : Sequence α).count
  | built b => (built b).count
  | buffer q => (buffer q).count
  | both a b _ => a.weight + b.weight + 2
  | firstOnly a => a.weight + 1
  | secondOnly b _ => b.weight + 1
  | _ => 0

def leavesWithin (bound : Nat) : Nat → Sequence α → List (Sequence α)
  | 0, s => [s]
  | depth + 1, s =>
      if s.size ≤ bound then [s]
      else
        match s.split with
        | (some front, rest) => leavesWithin bound depth front ++ leavesWithin bound depth rest
        | (none, s) => [s]

def leaves (bound : Nat) (s : Sequence α) : List (Sequence α) := leavesWithin bound s.weight s

end SplitTraversal.Sequence
