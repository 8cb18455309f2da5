import Mathlib.Data.Nat.PSub
import SplitTraversal.Buffer.Queue

/-!
Chunk queues with checked arithmetic. The operations take the same steps as those of `ChunkQueue`, but where
the length would fall below zero, or a chunk that a split asks for is missing, they stop without a result.
-/

namespace SplitTraversal.ChunkQueue.Checked

variable {α : Type u} {σ : Type v}

def advance (visit : Visitor σ α) (acc : σ) (q : ChunkQueue α) :
    Option (Except σ (σ × Bool) × ChunkQueue α) :=
  match q.chunks with
  | (x :: chunk) :: more =>
      (q.length.psub 1).map fun n =>
        (visit.visited acc x, ⟨if chunk.isEmpty then more else chunk :: more, n⟩)
  | _ => some (.ok (acc, false), q)

def split (q : ChunkQueue α) : Option (Option (ChunkQueue α) × ChunkQueue α) :=
  if q.length ≤ 1 then some (none, q)
  else if 1 < q.chunks.length then do
    let last ← q.chunks.getLast?
    let front := ofChunks q.chunks.dropLast
    (q.length.psub front.length).map fun n => (some front, ⟨[last], n⟩)
  else do
    let chunk ← q.chunks.head?
    let (front, rest) := chunk.splitAt (chunk.length / 2)
    (q.length.psub front.length).map fun n => (some (ofChunks [front]), ⟨[rest], n⟩)

end SplitTraversal.ChunkQueue.Checked
