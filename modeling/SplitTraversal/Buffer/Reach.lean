import SplitTraversal.Buffer.Store

/-!
Which queues of chunks can arise: those of a store, and what becomes of them and of their pieces,
whatever the visitors do.
-/

namespace SplitTraversal.ChunkQueue

/-- `t` is `q` after one operation, or the front that a split of `q` hands out. The visitor may raise
at any element. -/
inductive Step (q : ChunkQueue α) : ChunkQueue α → Prop
  | advance {σ : Type} (visit : Visitor σ α) (acc : σ) : Step q (q.advance visit acc).2
  | drain {σ : Type} (visit : Visitor σ α) (acc : σ) : Step q (q.drain visit acc).2
  | rest : Step q q.split.2
  | front {p : ChunkQueue α} (h : q.split.1 = some p) : Step q p

inductive Reachable : ChunkQueue α → Prop
  | ofStore (xs : List α) : Reachable (Store.ofList xs).toQueue
  | step {q t : ChunkQueue α} (h : Reachable q) (hs : Step q t) : Reachable t

end SplitTraversal.ChunkQueue
