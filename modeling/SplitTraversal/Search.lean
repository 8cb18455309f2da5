import Mathlib.Logic.Relation
import SplitTraversal.Parallel

/-!
Searching in parallel. The pieces of a sequence are split, folded and skipped in any order. A receiver
is asked before each element whether it is full; it may say so as soon as a match has been found anywhere,
and it need not notice at once.
-/

namespace SplitTraversal

/-- Hands elements over to a receiver that others fill: asked for the `i`-th time, from zero on, it answers
`answers i`. Beside what it got stands what is left of the sequence. -/
def Sequence.handOver [Numeral α] (answers : Nat → Bool) (s : Sequence α) : List α × Sequence α :=
  s.feed (fun given => answers given.length) (fun given x => given ++ [x]) []

/-- A piece on which a receiver is folded: the whole of it, the answers so far, what the receiver got for
them, and what is left of the piece. -/
structure Fold (α : Type u) where
  piece : Sequence α
  answers : List Bool
  given : List α
  rest : Sequence α

namespace Fold

def start (s : Sequence α) : Fold α := ⟨s, [], [], s⟩

def stop (f : Fold α) : Fold α := { f with answers := f.answers ++ [true] }

def give (f : Fold α) (x : α) (rest : Sequence α) : Fold α :=
  { f with answers := f.answers ++ [false], given := f.given ++ [x], rest := rest }

/-- The receiver was not full, but nothing was left for it. -/
def close (f : Fold α) (rest : Sequence α) : Fold α :=
  { f with answers := f.answers ++ [false], rest := rest }

/-- The match that the receiver holds: the last one among the elements that it got. -/
def item (p : α → Bool) (f : Fold α) : Option α :=
  f.given.foldl (fun item x => if p x then some x else item) none

end Fold

inductive Search (α : Type u)
  | pending (s : Sequence α)
  /-- A piece that was given up as a whole, because its receiver was full. -/
  | skipped (s : Sequence α)
  | folding (f : Fold α)
  | folded (f : Fold α)
  | join (left right : Search α)

namespace Search

variable {α : Type u}

def found (p : α → Bool) : Search α → Bool
  | pending _ | skipped _ => false
  | folding f | folded f => f.given.any p
  | join l r => l.found p || r.found p

/-- The result, once everything has been folded or skipped. The left part comes first. -/
def result (p : α → Bool) : Search α → Option (Option α)
  | pending _ | folding _ => none
  | skipped _ => some none
  | folded f => some (f.item p)
  | join l r =>
      match l.result p, r.result p with
      | some x, some y => some (x.or y)
      | _, _ => none

def folds : Search α → List (Fold α)
  | folded f => [f]
  | join l r => l.folds ++ r.folds
  | _ => []

variable [Numeral α]

/-- One step of one piece. Receivers may be full when a match has been found. -/
inductive Step (found : Bool) : Search α → Search α → Prop
  | skip {s : Sequence α} (h : found = true) : Step found (pending s) (skipped s)
  | split {s front rest : Sequence α} (h : s.split = (some front, rest)) :
      Step found (pending s) (join (pending front) (pending rest))
  | whole {s t : Sequence α} (h : s.split = (none, t)) : Step found (pending s) (folding (.start t))
  | fold {s : Sequence α} : Step found (pending s) (folding (.start s))
  | stop {f : Fold α} (h : found = true) : Step found (folding f) (folded f.stop)
  | give {f : Fold α} {x : α} {t : Sequence α} (h : f.rest.next = (some x, t)) :
      Step found (folding f) (folding (f.give x t))
  | close {f : Fold α} {t : Sequence α} (h : f.rest.next = (none, t)) :
      Step found (folding f) (folded (f.close t))
  | left {l l' r : Search α} (h : Step found l l') : Step found (join l r) (join l' r)
  | right {l r r' : Search α} (h : Step found r r') : Step found (join l r) (join l r')

/-- One step of the whole search: what has been found anywhere is known everywhere. -/
def Next (p : α → Bool) (t u : Search α) : Prop := Step (t.found p) t u

end Search

end SplitTraversal
