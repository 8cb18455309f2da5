import SplitTraversal.Sequence.Iterate

/-!
Concatenations as records with a place for either part. Every operation looks at both places, also at
those of a concatenation with no part at all, which never arises. What a record holds is shown as a
sequence; the calls on a record and on the pieces split off it make up its history.
-/

namespace SplitTraversal

structure Concat (α : Type u) where
  first : Option (Sequence α)
  second : Option (Sequence α)
  /-- The estimates of the parts could not be summed when they were put together. -/
  overflowed : Bool

namespace Concat

variable {α : Type u} {σ : Type v}

def new (a b : Sequence α) : Concat α := ⟨some a, some b, sizesOverflow a.size b.size⟩

def isBeforeSplit (c : Concat α) : Bool := c.first.isSome && c.second.isSome

def size (c : Concat α) : Nat :=
  match c.first, c.second with
  | some a, some b => addSizes a.size b.size
  | some a, none => a.size
  | none, some b => b.size
  | none, none => 0

def guarantees (c : Concat α) : Guarantees :=
  match c.first, c.second with
  | some a, some b => (a.guarantees ∩ b.guarantees) \ Sequence.lostByConcat c.overflowed
  | some a, none => a.guarantees
  | none, some b => b.guarantees
  | none, none => ∅

def comparator (c : Concat α) : Except Error (Comparator α) :=
  match c.first, c.second with
  | some _, some _ => .error .unresolved
  | some a, none => a.comparator
  | none, some b => b.comparator
  | none, none => .error .unsorted

def split (c : Concat α) : Option (Concat α) × Concat α :=
  match c.first, c.second with
  | some a, some _ => (some ⟨some a, none, false⟩, { c with first := none })
  | none, some b =>
      b.split.map (Option.map fun p => ⟨none, some p, false⟩) fun b => { c with second := some b }
  | some a, none =>
      a.split.map (Option.map fun p => ⟨some p, none, false⟩) fun a => { c with first := some a }
  | none, none => (none, c)

/-- Drops a first part that has run dry, if there is a second one to go on with. -/
def abandonFirst (c : Concat α) : Concat α :=
  if c.second.isSome then { c with first := none } else c

/-- The record as a sequence, unless it holds no part. -/
def toSequence : Concat α → Option (Sequence α)
  | ⟨some a, some b, overflowed⟩ => some (.both a b overflowed)
  | ⟨some a, none, _⟩ => some (.firstOnly a)
  | ⟨none, some b, overflowed⟩ => some (.secondOnly b overflowed)
  | ⟨none, none, _⟩ => none

variable [Numeral α]

def advanceSecond (visit : Visitor σ α) (acc : σ) (c : Concat α) : Except σ (σ × Bool) × Concat α :=
  match c.second with
  | some b => (b.advance visit acc).map id fun b => { c with second := some b }
  | none => (.ok (acc, false), c)

def advance (visit : Visitor σ α) (acc : σ) (c : Concat α) : Except σ (σ × Bool) × Concat α :=
  match c.first with
  | none => c.advanceSecond visit acc
  | some a =>
      match a.advance visit acc with
      | (.ok (acc, false), a) => advanceSecond visit acc (abandonFirst { c with first := some a })
      | (result, a) => (result, { c with first := some a })

def drainSecond (visit : Visitor σ α) (acc : σ) (c : Concat α) : Except σ σ × Concat α :=
  match c.second with
  | some b => (b.drain visit acc).map id fun b => { c with second := some b }
  | none => (.ok acc, c)

/-- Visits every element of either part. Both stay in place. -/
def drain (visit : Visitor σ α) (acc : σ) (c : Concat α) : Except σ σ × Concat α :=
  match c.first with
  | none => c.drainSecond visit acc
  | some a =>
      match a.drain visit acc with
      | (.error acc, a) => (.error acc, { c with first := some a })
      | (.ok acc, a) => drainSecond visit acc { c with first := some a }

inductive Call (α : Type u)
  | advance {σ : Type u} (visit : Visitor σ α) (acc : σ)
  | next
  | drain {σ : Type u} (visit : Visitor σ α) (acc : σ)
  | split
  /-- Asks for the estimate, the guarantees or the order. -/
  | query

def after (c : Concat α) : Call α → Concat α
  | .advance visit acc => (c.advance visit acc).2
  | .next => (c.advance (Visitor.always fun _ x => some x) none).2
  | .drain visit acc => (c.drain visit acc).2
  | .split => c.split.2
  | .query => c

def run (c : Concat α) (calls : List (Call α)) : Concat α := calls.foldl after c

/-- `d` is `c` after one call, or the front that a split of `c` hands out. -/
inductive Step (c : Concat α) : Concat α → Prop
  | after (call : Call α) : Step c (c.after call)
  | front {p : Concat α} (h : c.split.1 = some p) : Step c p

/-- The call leaves one part: it splits, or it advances when the first part owes nothing. -/
def Resolves (c : Concat α) : Call α → Prop
  | .split => True
  | .advance _ _ | .next => ∀ a, c.first = some a → a.remaining = []
  | .drain _ _ | .query => False

end Concat

end SplitTraversal
