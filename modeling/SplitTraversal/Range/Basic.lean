import SplitTraversal.Error
import SplitTraversal.Guarantee
import SplitTraversal.Range.SplitPoint
import SplitTraversal.Range.Width
import SplitTraversal.Size
import SplitTraversal.Visit

/-!
Ranges of integers that are traversed from below. A range owes the integers from its cursor up to
its bound, and also the bound itself while the endpoint of a closed range is pending.
-/

namespace SplitTraversal

structure Range where
  width : Width
  cursor : Int
  bound : Int
  pending : Bool
  deriving DecidableEq, Repr

namespace Range

def values (r : Range) : List Int :=
  (List.range ((r.bound - r.cursor).toNat + r.pending.toNat)).map fun k : Nat => r.cursor + k

structure WellFormed (r : Range) : Prop where
  cursor_fits : r.width.Fits r.cursor
  bound_fits : r.width.Fits r.bound
  cursor_le_bound : r.cursor ≤ r.bound
  count_le : ∀ m, r.width.maxCount = some m → r.values.length ≤ m

/-- The range from `lower` up to `upper`, with `upper` itself when `closed`. -/
def ofBounds (w : Width) (lower upper : Int) (closed : Bool) : Except Error Range :=
  if upper < lower then .error (.inverted lower upper)
  else
    match w.maxCount with
    | none => .ok ⟨w, lower, upper, closed⟩
    | some m =>
        if m < (upper - lower).toNat + closed.toNat then .error (.oversized lower upper)
        else .ok ⟨w, lower, upper, closed⟩

def ofBoundsOrPanic (w : Width) (lower upper : Int) (closed : Bool) : Except Failure Range :=
  (ofBounds w lower upper closed).mapError fun e => .panic e.message

def exhausted (w : Width) (i : Int) : Range := ⟨w, i, i, false⟩

/-- The integers from `lower` to below `upper`; none when the bounds are inverted. -/
def halfOpen (w : Width) (lower upper : Int) : Except Failure Range :=
  if upper ≤ lower then .ok (exhausted w lower) else ofBoundsOrPanic w lower upper false

def closed (w : Width) (lower upper : Int) : Except Failure Range :=
  if upper < lower then .ok (exhausted w lower) else ofBoundsOrPanic w lower upper true

def isExhausted (r : Range) : Bool := decide (r.cursor = r.bound) && !r.pending

def size (r : Range) : Nat := addSizes (r.bound - r.cursor).natAbs r.pending.toNat

def guarantees (_ : Range) : Guarantees :=
  .ofList [.ordered, .sized, .subsized, .immutable, .nonnull, .distinct, .sorted]

/-- Moves past the next integer, then visits it. -/
def advance (visit : Visitor σ Int) (acc : σ) (r : Range) : Except σ (σ × Bool) × Range :=
  if r.cursor < r.bound then
    (visit.visited acc r.cursor, { r with cursor := r.width.wrap (r.cursor + 1) })
  else if r.pending then (visit.visited acc r.cursor, { r with pending := false })
  else (.ok (acc, false), r)

/-- Visits `n` integers from `i` on, and says which one comes next. -/
def ascend (w : Width) (visit : Visitor σ Int) : Nat → σ → Int → Except σ (σ × Int)
  | 0, acc, i => .ok (acc, i)
  | n + 1, acc, i =>
      match visit acc i with
      | .ok acc => ascend w visit n acc (w.wrap (i + 1))
      | .error acc => .error acc

/-- Visits every integer that is owed. The range is exhausted before the first visit. -/
def drain (visit : Visitor σ Int) (acc : σ) (r : Range) : Except σ σ × Range :=
  let rest := { r with cursor := r.bound, pending := false }
  match ascend r.width visit (r.bound - r.cursor).toNat acc r.cursor with
  | .error acc => (.error acc, rest)
  | .ok (acc, i) => (if r.pending then visit acc i else .ok acc, rest)

/-- Splits off the front as a half-open range. A range of fewer than two integers does not split. -/
def split (r : Range) : Option Range × Range :=
  if r.size ≤ 1 then (none, r)
  else
    let mid := r.width.wrap (r.cursor + r.width.wrap (splitPoint r.size))
    (some { r with bound := mid, pending := false }, { r with cursor := mid })

def describe (r : Range) : String :=
  Text.record r.width.name
    [("from", toString r.cursor), ("up_to", toString r.bound), ("last_pending", Text.bool r.pending)]

end Range

end SplitTraversal
