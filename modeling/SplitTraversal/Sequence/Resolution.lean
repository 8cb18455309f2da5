import SplitTraversal.Concat
import SplitTraversal.Sequence.Reach

/-!
How concatenations are resolved, seen from outside: a call on a sequence may take the first part off
concatenations inside it. `pairs` counts those that have not been resolved, and `changes` how often a run
of calls alters what the sequence states of itself.
-/

namespace SplitTraversal.Sequence

open Concat (Call)

variable {α : Type u}

def pairs : Sequence α → Nat
  | both a b _ => a.pairs + b.pairs + 1
  | firstOnly a => a.pairs
  | secondOnly b _ => b.pairs
  | _ => 0

/-- What a split has to split is a concatenation with both parts. -/
def SplitResolves : Sequence α → Prop
  | both _ _ _ => True
  | firstOnly a => a.SplitResolves
  | secondOnly b _ => b.SplitResolves
  | _ => False

variable [Numeral α]

/-- On its way to the next element an advance comes past a first part that owes nothing. -/
def AdvanceResolves : Sequence α → Prop
  | both a _ _ => a.remaining = [] ∨ a.AdvanceResolves
  | firstOnly a => a.AdvanceResolves
  | secondOnly b _ => b.AdvanceResolves
  | _ => False

def Resolves (s : Sequence α) : Call α → Prop
  | .split => s.SplitResolves
  | .advance _ _ | .next => s.AdvanceResolves
  | .drain _ _ | .query => False

def after (s : Sequence α) : Call α → Sequence α
  | .advance visit acc => (s.advance visit acc).2
  | .next => s.next.2
  | .drain visit acc => (s.drain visit acc).2
  | .split => s.split.2
  | .query => s

def run (s : Sequence α) (calls : List (Call α)) : Sequence α := calls.foldl after s

def changes (s : Sequence α) : List (Call α) → Nat
  | [] => 0
  | call :: calls =>
      (if (s.after call).guarantees = s.guarantees then 0 else 1) + (s.after call).changes calls

end SplitTraversal.Sequence
