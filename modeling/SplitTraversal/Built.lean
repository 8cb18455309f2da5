import SplitTraversal.Buffer.Queue
import SplitTraversal.Inline

/-!
What a builder makes: a sequence held in place when it accepted at most one element, and a queue of
chunks when it accepted more.
-/

namespace SplitTraversal

inductive Built (α : Type u)
  | inline (s : Inline α)
  | buffered (q : ChunkQueue α)
  deriving DecidableEq, Repr

namespace Built

def of (x : α) : Built α := inline (.of x)

def toList : Built α → List α
  | inline s => s.toList
  | buffered q => q.toList

def size : Built α → Nat
  | inline s => s.size
  | buffered q => q.length

def guarantees : Built α → Guarantees
  | inline s => s.guarantees
  | buffered q => q.guarantees

def advance (visit : Visitor σ α) (acc : σ) : Built α → Except σ (σ × Bool) × Built α
  | inline s => (s.advance visit acc).map id inline
  | buffered q => (q.advance visit acc).map id buffered

def drain (visit : Visitor σ α) (acc : σ) : Built α → Except σ σ × Built α
  | inline s => (s.drain visit acc).map id inline
  | buffered q => (q.drain visit acc).map id buffered

def split : Built α → Option (Built α) × Built α
  | inline s => (none, inline s)
  | buffered q => q.split.map (Option.map buffered) buffered

def describe (text : α → String) : Built α → String
  | inline s => Text.tagged "Inline" (s.describe text)
  | buffered q => Text.tagged "Buffered" (q.describe text)

end Built

end SplitTraversal
