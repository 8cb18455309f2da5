import SplitTraversal.Guarantee
import SplitTraversal.Size
import SplitTraversal.Text.Record
import SplitTraversal.Visit

/-!
Queues of chunks. Elements leave at the front; a queue of several chunks splits before its last
chunk, and a queue of one chunk splits in the middle of it.
-/

namespace SplitTraversal

/-- The chunks still owed, with the number of their elements kept beside them. -/
structure ChunkQueue (α : Type u) where
  chunks : List (List α)
  length : Nat
  deriving DecidableEq, Repr

namespace ChunkQueue

def toList (q : ChunkQueue α) : List α := q.chunks.flatten

structure WellFormed (q : ChunkQueue α) : Prop where
  chunk_ne_nil : ∀ c ∈ q.chunks, c ≠ []
  length_eq : q.length = q.toList.length

def Fits (q : ChunkQueue α) : Prop := q.length ≤ unknownSize

def total (chunks : List (List α)) : Nat := chunks.foldr (fun c n => c.length + n) 0

theorem total_eq (chunks : List (List α)) : total chunks = chunks.flatten.length := by
  induction chunks with
  | nil => rfl
  | cons c cs ih =>
    rw [List.flatten_cons, List.length_append, ← ih]
    rfl

def ofChunks (chunks : List (List α)) : ChunkQueue α := ⟨chunks, total chunks⟩

@[simp] theorem chunks_ofChunks (chunks : List (List α)) : (ofChunks chunks).chunks = chunks := rfl

@[simp] theorem length_ofChunks (chunks : List (List α)) :
    (ofChunks chunks).length = chunks.flatten.length :=
  total_eq chunks

def guarantees (_ : ChunkQueue α) : Guarantees := .ofList [.sized, .subsized, .ordered]

/-- Removes the front element, and the front chunk once it is empty, then visits the element. -/
def advance (visit : Visitor σ α) (acc : σ) (q : ChunkQueue α) :
    Except σ (σ × Bool) × ChunkQueue α :=
  match q.chunks with
  | (x :: chunk) :: more =>
      (visit.visited acc x, ⟨if chunk.isEmpty then more else chunk :: more, q.length - 1⟩)
  | _ => (.ok (acc, false), q)

/-- Visits every element. The queue is empty before the first visit. -/
def drain (visit : Visitor σ α) (acc : σ) (q : ChunkQueue α) : Except σ σ × ChunkQueue α :=
  (q.toList.foldlM visit acc, ⟨[], 0⟩)

/-- Splits off all chunks but the last, or the front half of the only chunk. A queue of fewer than
two elements does not split. -/
def split (q : ChunkQueue α) : Option (ChunkQueue α) × ChunkQueue α :=
  if q.length ≤ 1 then (none, q)
  else
    match q.chunks with
    | [] => (none, q)
    | [chunk] =>
        let (front, rest) := chunk.splitAt (chunk.length / 2)
        (some (ofChunks [front]), ⟨[rest], q.length - front.length⟩)
    | first :: second :: more =>
        let front := ofChunks (first :: second :: more).dropLast
        (some front,
          ⟨[(second :: more).getLast (List.cons_ne_nil _ _)], q.length - front.length⟩)

def describe (text : α → String) (q : ChunkQueue α) : String :=
  Text.record "BufferSequence"
    [("chunks", Text.list (q.chunks.map fun c => Text.list (c.map text))),
      ("len", toString q.length)]

end ChunkQueue

end SplitTraversal
