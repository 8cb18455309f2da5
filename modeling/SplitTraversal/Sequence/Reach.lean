import Mathlib.Logic.Relation
import SplitTraversal.Buffer.Reach
import SplitTraversal.Range.Reach
import SplitTraversal.Sequence.Iterate

/-!
Which sequences can arise from given leaves: by concatenation, and by any run of operations on a
sequence or on the pieces split off it, whatever the visitors do. Beside them stand the list that
repeated advances visit, and runs over all the pieces of one sequence that record what is visited.
-/

namespace SplitTraversal

namespace Sequence

variable {α : Type u}

def IsLeaf : Sequence α → Prop
  | both _ _ _ | firstOnly _ | secondOnly _ _ => False
  | _ => True

def WellFormed : Sequence α → Prop
  | range r => r.WellFormed
  | built (.buffered q) => q.WellFormed ∧ q.Fits
  | buffer q => q.WellFormed ∧ q.Fits
  | both a b _ => a.WellFormed ∧ b.WellFormed
  | firstOnly a => a.WellFormed
  | secondOnly b _ => b.WellFormed
  | _ => True

def EachSupplied (P : Supplied α → Prop) : Sequence α → Prop
  | supplied s => P s
  | both a b _ => a.EachSupplied P ∧ b.EachSupplied P
  | firstOnly a => a.EachSupplied P
  | secondOnly b _ => b.EachSupplied P
  | _ => True

/-- A leaf that the library makes, or any that a caller supplies. Stored elements are counted in 64
bits. -/
inductive Made : Sequence α → Prop
  | range {r : Range} (h : r.Reachable) : Made (range r)
  | empty : Made empty
  | inline (s : Inline α) : Made (inline s)
  | built {xs : List α} {b : Built α} (hx : xs.length ≤ unknownSize)
      (h : (Builder.empty.acceptAll xs).2.build.1 = .ok b) : Made (built b)
  | builtOf (x : α) : Made (built (.of x))
  | buffer {q : ChunkQueue α} (h : q.Reachable) (hq : q.Fits) : Made (buffer q)
  | supplied (s : Supplied α) : Made (supplied s)

variable [Numeral α]

/-- `t` is `s` after one operation, or the front that a split of `s` hands out. The visitor may raise
at any element. -/
inductive Step (s : Sequence α) : Sequence α → Prop
  | advance {σ : Type u} (visit : Visitor σ α) (acc : σ) : Step s (s.advance visit acc).2
  | next : Step s s.next.2
  | drain {σ : Type u} (visit : Visitor σ α) (acc : σ) : Step s (s.drain visit acc).2
  | rest : Step s s.split.2
  | front {p : Sequence α} (h : s.split.1 = some p) : Step s p

/-- `s` arises from leaves that satisfy `P`. -/
inductive Reachable (P : Sequence α → Prop) : Sequence α → Prop
  | leaf {s : Sequence α} (hs : s.IsLeaf) (hp : P s) : Reachable P s
  | concat {a b : Sequence α} (ha : Reachable P a) (hb : Reachable P b) : Reachable P (a.concat b)
  | step {s t : Sequence α} (h : Reachable P s) (hs : Step s t) : Reachable P t

/-- Advancing again and again visits `xs`, one element at a time, and then finds nothing. -/
inductive Yields : Sequence α → List α → Prop
  | done {s t : Sequence α} (h : s.advance Visitor.record #[] = (.ok (#[], false), t)) : Yields s []
  | visit {s t : Sequence α} {x : α} {xs : List α}
      (h : s.advance Visitor.record #[] = (.ok (#[x], true), t)) (ht : Yields t xs) :
      Yields s (x :: xs)

/-- A piece in play, with what has been visited in front of it since the piece before it. -/
structure Piece (α : Type u) where
  visited : List α
  owed : Sequence α

def Piece.elements (p : Piece α) : List α := p.visited ++ p.owed.remaining

/-- One operation on a piece, and the pieces that it leaves in its place. -/
inductive Piece.Turn (p : Piece α) : List (Piece α) → Prop
  | advance {seen : Array α} {found : Bool} {t : Sequence α}
      (h : p.owed.advance Visitor.record #[] = (.ok (seen, found), t)) :
      Turn p [⟨p.visited ++ seen.toList, t⟩]
  | next {x : Option α} {t : Sequence α} (h : p.owed.next = (x, t)) :
      Turn p [⟨p.visited ++ x.toList, t⟩]
  | drain {seen : Array α} {t : Sequence α}
      (h : p.owed.drain Visitor.record #[] = (.ok seen, t)) :
      Turn p [⟨p.visited ++ seen.toList, t⟩]
  | split {front rest : Sequence α} (h : p.owed.split = (some front, rest)) :
      Turn p [⟨p.visited, front⟩, ⟨[], rest⟩]
  | whole {t : Sequence α} (h : p.owed.split = (none, t)) : Turn p [⟨p.visited, t⟩]

/-- One operation on one of the pieces, which all stay in order. -/
inductive Play : List (Piece α) → List (Piece α) → Prop
  | turn (before after : List (Piece α)) {p : Piece α} {ps : List (Piece α)} (h : p.Turn ps) :
      Play (before ++ p :: after) (before ++ ps ++ after)

/-- Any number of operations on the pieces of a sequence, from the whole of it on. -/
def Played (s : Sequence α) (pieces : List (Piece α)) : Prop :=
  Relation.ReflTransGen Play [⟨[], s⟩] pieces

end Sequence

end SplitTraversal
