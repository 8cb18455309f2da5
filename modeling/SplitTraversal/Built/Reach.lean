import SplitTraversal.Buffer.Growth
import SplitTraversal.Buffer.Reach
import SplitTraversal.Builder.Draft

/-!
Which queues of chunks are in use. They come from stores that have been grown and copied in any way, or from
builders; and they are traversed and split as they are, or as built sequences.
-/

namespace SplitTraversal

/-- `t` is `b` after one operation, or the front that a split of `b` hands out. The visitor may raise
at any element. -/
inductive Built.Step (b : Built α) : Built α → Prop
  | advance {σ : Type} (visit : Visitor σ α) (acc : σ) : Step b (b.advance visit acc).2
  | drain {σ : Type} (visit : Visitor σ α) (acc : σ) : Step b (b.drain visit acc).2
  | rest : Step b b.split.2
  | front {p : Built α} (h : b.split.1 = some p) : Step b p

namespace ChunkQueue

/-- The queue comes from a store or from a builder, and any run of operations has been done to it, each of them
on the queue itself or on the built sequence around it. -/
inductive InUse : ChunkQueue α → Prop
  | ofStore (requests : List (Store.Request α)) {s : Store α} (hs : s ∈ requests.foldl Store.serve []) :
      InUse s.toQueue
  | ofBuilder (requests : List (Builder.Request α)) {q : ChunkQueue α}
      (hq : some (.ok (some (.buffered q))) ∈ (Builder.serveAll Builder.perform [.empty] requests).1) :
      InUse q
  | step {q t : ChunkQueue α} (h : InUse q) (hs : Step q t) : InUse t
  | builtStep {q t : ChunkQueue α} (h : InUse q) (hs : Built.Step (.buffered q) (.buffered t)) : InUse t

end ChunkQueue

end SplitTraversal
