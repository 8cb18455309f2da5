import SplitTraversal.Sequence.Basic

/-!
One element at a time: `next` advances a sequence and hands the element out, `sizeHint` bounds what
is left, `fold` and `foldSlot` drain it into a value, and `exhaust` advances until nothing is left.
-/

namespace SplitTraversal.Sequence

variable {α : Type u} [Numeral α]

def next (s : Sequence α) : Option α × Sequence α :=
  (s.advance (Visitor.always fun _ x => some x) none).map
    (fun
      | .ok (slot, _) => slot
      | .error slot => slot)
    id

def nextTimes : Nat → Sequence α → List (Option α) × Sequence α
  | 0, s => ([], s)
  | n + 1, s =>
      let (x, s) := s.next
      (nextTimes n s).map (x :: ·) id

/-- Bounds on the number of elements that are left: from below, and from above if known. -/
def sizeHint (s : Sequence α) : Nat × Option Nat :=
  match s.exactSize with
  | some n => (n, some n)
  | none => (0, none)

def hints : Nat → Sequence α → List (Nat × Option Nat)
  | 0, s => [s.sizeHint]
  | n + 1, s => s.sizeHint :: hints n s.next.2

/-- Whether each of `n` advances with a recording visitor found an element, what they visited, and
the sequence after them. -/
def advanceTimes : Nat → Array α → Sequence α → (List Bool × Array α) × Sequence α
  | 0, seen, s => (([], seen), s)
  | n + 1, seen, s =>
      match s.advance Visitor.record seen with
      | (.ok (seen, found), s) => (advanceTimes n seen s).map (Prod.map (found :: ·) id) id
      | (.error seen, s) => (([], seen), s)

def fold (f : β → α → β) (acc : β) (s : Sequence α) : β :=
  Visitor.state (s.drain (Visitor.always f) acc).1

inductive Folded (β : Type v)
  | value (acc : β)
  /-- The function raised, so the fold has no result. -/
  | abandoned
  /-- The drain came to its end and the slot was empty. -/
  | vacant
  deriving DecidableEq, Repr

/-- One visit of a fold: takes the value out of the slot and puts back what the function makes of it.
A function that raises leaves the slot empty. -/
def refill (f : Visitor β α) : Visitor (Option β) α
  | none, _ => .ok none
  | some acc, x =>
      match f acc x with
      | .ok acc => .ok (some acc)
      | .error _ => .error none

/-- Drains the sequence into a value that is kept in a slot. -/
def foldSlot (f : Visitor β α) (acc : β) (s : Sequence α) : Folded β :=
  match (s.drain (refill f) (some acc)).1 with
  | .ok (some acc) => .value acc
  | .ok none => .vacant
  | .error _ => .abandoned

def toArray (s : Sequence α) : Array α := s.fold Array.push #[]

def exhaustWithin : Nat → Array α → Sequence α → Array α × Sequence α
  | 0, seen, s => (seen, s)
  | fuel + 1, seen, s =>
      match s.next with
      | (some x, s) => exhaustWithin fuel (seen.push x) s
      | (none, s) => (seen, s)

/-- Advances until an advance finds nothing. One advance more than there are elements is enough. -/
def exhaust (s : Sequence α) : Array α × Sequence α := exhaustWithin (s.count + 1) #[] s

end SplitTraversal.Sequence
