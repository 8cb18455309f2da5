import SplitTraversal.Sequence.Iterate

/-!
Parallel traversal. A schedule decides where a sequence is split; the pieces are traversed one
element at a time by whoever gets them, and their results are joined from left to right.
-/

namespace SplitTraversal

/-- Which pieces are split again and which are traversed. -/
inductive Schedule
  | traverse
  | split (front rest : Schedule)
  deriving DecidableEq, Repr

def Schedule.complete : Nat → Schedule
  | 0 => traverse
  | depth + 1 => split (complete depth) (complete depth)

namespace Sequence

variable {α : Type u} [Numeral α]

def feedWithin (full : β → Bool) (consume : β → α → β) : Nat → β → Sequence α → β × Sequence α
  | 0, acc, s => (acc, s)
  | fuel + 1, acc, s =>
      if full acc then (acc, s)
      else
        match s.next with
        | (some x, s) => feedWithin full consume fuel (consume acc x) s
        | (none, s) => (acc, s)

/-- Hands elements over one at a time until the receiver is full or nothing is left. The receiver is
asked before each element is taken. -/
def feed (full : β → Bool) (consume : β → α → β) (acc : β) (s : Sequence α) : β × Sequence α :=
  feedWithin full consume (s.count + 1) acc s

/-- Splits as the schedule says, turns each piece into a result, and joins the results in order. A
piece that does not split is not split further. -/
def reduce (piece : Sequence α → β) (join : β → β → β) : Schedule → Sequence α → β
  | .traverse, s => piece s
  | .split front rest, s =>
      match s.split with
      | (some p, s) => join (reduce piece join front p) (reduce piece join rest s)
      | (none, s) => piece s

def pieces (plan : Schedule) (s : Sequence α) : List (Sequence α) :=
  s.reduce (fun p => [p]) (· ++ ·) plan

def collect (plan : Schedule) (s : Sequence α) : Array α :=
  s.reduce (fun p => (p.feed (fun _ => false) Array.push #[]).1) (· ++ ·) plan

def combine (image : α → β) (op : β → β → β) (one : β) (plan : Schedule) (s : Sequence α) : β :=
  s.reduce (fun p => (p.feed (fun _ => false) (fun acc x => op acc (image x)) one).1) op plan

/-- The first element of a piece that satisfies `p`, taking no element after it. -/
def findIn (p : α → Bool) (s : Sequence α) : Option α :=
  (s.feed Option.isSome (fun _ x => if p x then some x else none) none).1

/-- An element that satisfies `p`. A piece is not traversed once an earlier one has a match. -/
def find (p : α → Bool) : Schedule → Sequence α → Option α
  | .traverse, s => s.findIn p
  | .split front rest, s =>
      match s.split with
      | (some piece, s) =>
          match find p front piece with
          | some x => some x
          | none => find p rest s
      | (none, s) => s.findIn p

end Sequence

end SplitTraversal
