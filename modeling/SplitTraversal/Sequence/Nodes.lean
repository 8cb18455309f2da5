import SplitTraversal.Sequence.Basic

/-!
The nodes of a sequence: the sequence itself and, below every concatenation, the parts that it holds. A
path says which part to take on each step down; the spine is the way to the rightmost leaf.
-/

namespace SplitTraversal.Sequence

variable {α : Type u}

inductive Place
  | first
  | second
  deriving DecidableEq, Repr

/-- The part in a place, if the sequence is a concatenation that holds one there. -/
def part? : Place → Sequence α → Option (Sequence α)
  | .first, both a _ _ | .first, firstOnly a => some a
  | .second, both _ b _ | .second, secondOnly b _ => some b
  | _, _ => none

/-- The node at the end of a path, if the path exists. -/
def node? : List Place → Sequence α → Option (Sequence α)
  | [], s => some s
  | place :: path, s => (s.part? place).bind (node? path)

def isBeforeSplit : Sequence α → Bool
  | both _ _ _ => true
  | _ => false

def isOverflowed : Sequence α → Bool
  | both _ _ overflowed | secondOnly _ overflowed => overflowed
  | _ => false

/-- What a node says of itself, its estimate apart. -/
structure Profile (α : Type u) where
  guarantees : Guarantees
  comparator : Except Error (Comparator α)
  beforeSplit : Bool
  overflowed : Bool

def profile (s : Sequence α) : Profile α := ⟨s.guarantees, s.comparator, s.isBeforeSplit, s.isOverflowed⟩

/-- The leaf that is reached by taking the second part wherever there is one, and the first otherwise. -/
def rightmost : Sequence α → Sequence α
  | both _ b _ => b.rightmost
  | firstOnly a => a.rightmost
  | secondOnly b _ => b.rightmost
  | s => s

/-- The nodes on the way to the rightmost leaf, from the top. -/
def spine : Sequence α → List (Sequence α)
  | both a b overflowed => both a b overflowed :: b.spine
  | firstOnly a => firstOnly a :: a.spine
  | secondOnly b overflowed => secondOnly b overflowed :: b.spine
  | s => [s]

end SplitTraversal.Sequence
