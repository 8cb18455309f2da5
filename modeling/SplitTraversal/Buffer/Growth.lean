import SplitTraversal.Buffer.Store

/-!
Stores in use. They stand side by side; a request makes a new one, adds to one of them or copies one, which
is put behind the others and goes its own way. Beside the stores a record says what has been added to each.
-/

namespace SplitTraversal.Store

inductive Request (α : Type u)
  | new
  /-- A new store of the elements. -/
  | gather (xs : List α)
  | push (i : Nat) (x : α)
  | append (i : Nat) (xs : List α)
  | copy (i : Nat)

variable {α : Type u}

def serve (stores : List (Store α)) : Request α → List (Store α)
  | .new => stores ++ [empty]
  | .gather xs => stores ++ [ofList xs]
  | .push i x => stores.modify i (·.push x)
  | .append i xs => stores.modify i (·.append xs)
  | .copy i => stores ++ stores[i]?.toList

/-- The list of everything that has been added to each store. -/
def record (added : List (List α)) : Request α → List (List α)
  | .new => added ++ [[]]
  | .gather xs => added ++ [xs]
  | .push i x => added.modify i (· ++ [x])
  | .append i xs => added.modify i (· ++ xs)
  | .copy i => added ++ added[i]?.toList

/-- The element at position `k` of the chunks. The walk stops without a result where it would pass over more
positions than are left. -/
def locateChecked : List (Array α) → Nat → Option (Option α)
  | [], _ => some none
  | chunk :: more, k =>
      if k < chunk.size then some chunk[k]?
      else if chunk.size ≤ k then locateChecked more (k - chunk.size) else none

end SplitTraversal.Store
