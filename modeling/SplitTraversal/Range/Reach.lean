import SplitTraversal.Checkpoint

/-!
Which ranges can arise: those made from bounds of their type or restored from a checkpoint, and what
becomes of them and of their pieces, whatever the visitors do.
-/

namespace SplitTraversal.Range

/-- `t` is `r` after one operation, or the front that a split of `r` hands out. The visitor may raise
at any element. -/
inductive Step (r : Range) : Range → Prop
  | advance {σ : Type} (visit : Visitor σ Int) (acc : σ) : Step r (r.advance visit acc).2
  | drain {σ : Type} (visit : Visitor σ Int) (acc : σ) : Step r (r.drain visit acc).2
  | rest : Step r r.split.2
  | front {p : Range} (h : r.split.1 = some p) : Step r p

inductive Reachable : Range → Prop
  | ofBounds {w : Width} {lower upper : Int} {withUpper : Bool} {r : Range}
      (hl : w.Fits lower) (hu : w.Fits upper) (h : ofBounds w lower upper withUpper = .ok r) :
      Reachable r
  | halfOpen {w : Width} {lower upper : Int} {r : Range}
      (hl : w.Fits lower) (hu : w.Fits upper) (h : halfOpen w lower upper = .ok r) : Reachable r
  | closed {w : Width} {lower upper : Int} {r : Range}
      (hl : w.Fits lower) (hu : w.Fits upper) (h : closed w lower upper = .ok r) : Reachable r
  | decode {w : Width} {v : Json} {r : Range} (h : decode w v = .ok r) : Reachable r
  | step {r t : Range} (h : Reachable r) (hs : Step r t) : Reachable t

end SplitTraversal.Range
