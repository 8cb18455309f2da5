import SplitTraversal.Builder
import SplitTraversal.Numeral
import SplitTraversal.Range.Basic
import SplitTraversal.Supplied

/-!
Traversable sequences: leaves of six kinds, and concatenations of two sequences. A concatenation
has both parts until it is split or an advance finds the first part dry; from then on it has one.
`remaining` lists what a sequence still owes, and every operation is described by what it does to
that list.
-/

namespace SplitTraversal

inductive Sequence (α : Type u)
  | range (r : Range)
  | empty
  | inline (s : Inline α)
  | built (b : Built α)
  | buffer (q : ChunkQueue α)
  | supplied (s : Supplied α)
  /-- A concatenation with both parts; `overflowed` when their estimates could not be summed. -/
  | both (first second : Sequence α) (overflowed : Bool)
  /-- A concatenation that holds only a first part, as handed out by a split. -/
  | firstOnly (first : Sequence α)
  /-- A concatenation that holds only a second part. -/
  | secondOnly (second : Sequence α) (overflowed : Bool)

namespace Sequence

variable {α : Type u} {σ : Type v}

/-- Upper bound on the number of elements owed, or `unknownSize`. -/
def size : Sequence α → Nat
  | range r => r.size
  | empty => 0
  | inline s => s.size
  | built b => b.size
  | buffer q => q.length
  | supplied s => s.size
  | both a b _ => addSizes a.size b.size
  | firstOnly a => a.size
  | secondOnly b _ => b.size

def lostByConcat (overflowed : Bool) : Guarantees :=
  if overflowed then .ofList [.distinct, .sorted, .sized, .subsized] else .ofList [.distinct, .sorted]

theorem mem_lostByConcat {f : Flag} {o : Bool} : f ∈ lostByConcat o ↔
    (f = .distinct ∨ f = .sorted) ∨ o = true ∧ (f = .sized ∨ f = .subsized) := by
  cases o <;> cases f <;> simp [lostByConcat]

theorem not_mem_lostByConcat_iff {f : Flag} {o : Bool} (hf : f = .sized ∨ f = .subsized) :
    f ∉ lostByConcat o ↔ o = false := by
  rw [mem_lostByConcat]
  obtain rfl | rfl := hf <;> simp

def guarantees : Sequence α → Guarantees
  | range r => r.guarantees
  | empty => .ofList [.sized, .subsized]
  | inline s => s.guarantees
  | built b => b.guarantees
  | buffer q => q.guarantees
  | supplied s => s.guarantees
  | both a b overflowed => (a.guarantees ∩ b.guarantees) \ lostByConcat overflowed
  | firstOnly a => a.guarantees
  | secondOnly b _ => b.guarantees

theorem mem_both {a b : Sequence α} {o : Bool} {f : Flag} : f ∈ (both a b o).guarantees ↔
    f ∈ a.guarantees ∧ f ∈ b.guarantees ∧ f ∉ lostByConcat o := by
  simp [guarantees, and_assoc]

def comparator : Sequence α → Except Error (Comparator α)
  | range _ => .ok .natural
  | supplied s =>
      match s.order with
      | some order => .ok order
      | none => .error .unsorted
  | both _ _ _ => .error .unresolved
  | firstOnly a => a.comparator
  | secondOnly b _ => b.comparator
  | _ => .error .unsorted

def exactSize (s : Sequence α) : Option Nat := if .sized ∈ s.guarantees then some s.size else none

def concat (a b : Sequence α) : Sequence α := both a b (sizesOverflow a.size b.size)

def split : Sequence α → Option (Sequence α) × Sequence α
  | range r => r.split.map (Option.map range) range
  | built b => b.split.map (Option.map built) built
  | buffer q => q.split.map (Option.map buffer) buffer
  | both a b overflowed => (some (firstOnly a), secondOnly b overflowed)
  | firstOnly a => a.split.map (Option.map firstOnly) firstOnly
  | secondOnly b overflowed =>
      b.split.map (Option.map (secondOnly · false)) (secondOnly · overflowed)
  | s => (none, s)

variable [Numeral α]

def remaining : Sequence α → List α
  | range r => r.values.map Numeral.ofInt
  | empty => []
  | inline s => s.toList
  | built b => b.toList
  | buffer q => q.toList
  | supplied s => s.items
  | both a b _ => a.remaining ++ b.remaining
  | firstOnly a => a.remaining
  | secondOnly b _ => b.remaining

@[simp] theorem remaining_concat (a b : Sequence α) :
    (a.concat b).remaining = a.remaining ++ b.remaining := rfl

/-- Visits the next element, if there is one. An advance that finds the first of two parts dry
drops it. -/
def advance (visit : Visitor σ α) (acc : σ) : Sequence α → Except σ (σ × Bool) × Sequence α
  | range r => (r.advance (fun acc i => visit acc (Numeral.ofInt i)) acc).map id range
  | empty => (.ok (acc, false), empty)
  | inline s => (s.advance visit acc).map id inline
  | built b => (b.advance visit acc).map id built
  | buffer q => (q.advance visit acc).map id buffer
  | supplied s => (s.advance visit acc).map id supplied
  | both a b overflowed =>
      match a.advance visit acc with
      | (.ok (_, false), _) => (b.advance visit acc).map id (secondOnly · overflowed)
      | (result, a) => (result, both a b overflowed)
  | firstOnly a => (a.advance visit acc).map id firstOnly
  | secondOnly b overflowed => (b.advance visit acc).map id (secondOnly · overflowed)

/-- Visits every element that is owed. Both parts of a concatenation stay in place. -/
def drain (visit : Visitor σ α) (acc : σ) : Sequence α → Except σ σ × Sequence α
  | range r => (r.drain (fun acc i => visit acc (Numeral.ofInt i)) acc).map id range
  | empty => (.ok acc, empty)
  | inline s => (s.drain visit acc).map id inline
  | built b => (b.drain visit acc).map id built
  | buffer q => (q.drain visit acc).map id buffer
  | supplied s => (s.drain visit acc).map id supplied
  | both a b overflowed =>
      match a.drain visit acc with
      | (.error acc, a) => (.error acc, both a b overflowed)
      | (.ok acc, a) => (b.drain visit acc).map id (both a · overflowed)
  | firstOnly a => (a.drain visit acc).map id firstOnly
  | secondOnly b overflowed => (b.drain visit acc).map id (secondOnly · overflowed)

def count : Sequence α → Nat
  | range r => (r.bound - r.cursor).toNat + r.pending.toNat
  | empty => 0
  | inline s => s.size
  | built (.inline s) => s.size
  | built (.buffered q) => ChunkQueue.total q.chunks
  | buffer q => ChunkQueue.total q.chunks
  | supplied s => s.items.length
  | both a b _ => a.count + b.count
  | firstOnly a => a.count
  | secondOnly b _ => b.count

theorem count_eq (s : Sequence α) : s.count = s.remaining.length := by
  induction s with
  | range r => simp [count, remaining, Range.values]
  | empty => rfl
  | inline s => cases s with | mk e => cases e <;> rfl
  | built b =>
    cases b with
    | inline s => cases s with | mk e => cases e <;> rfl
    | buffered q => exact ChunkQueue.total_eq q.chunks
  | buffer q => exact ChunkQueue.total_eq q.chunks
  | supplied s => rfl
  | both a b o iha ihb => simp [count, remaining, iha, ihb]
  | firstOnly a ih => exact ih
  | secondOnly b o ih => exact ih

end Sequence

end SplitTraversal
