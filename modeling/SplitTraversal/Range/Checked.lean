import SplitTraversal.Range.Basic

/-!
Ranges with checked arithmetic. The operations take the same steps as those of `Range`, but where a sum or
a conversion leaves its type they stop without a result instead of wrapping or saturating.
-/

namespace SplitTraversal

def Width.checked (w : Width) (i : Int) : Option Int := if w.Fits i then some i else none

theorem Width.checked_of_fits {w : Width} {i : Int} (h : w.Fits i) : w.checked i = some i := if_pos h

namespace Range.Checked

variable {σ : Type v}

def size (r : Range) : Option Nat :=
  let n := (r.bound - r.cursor).natAbs + r.pending.toNat
  if n ≤ unknownSize then some n else none

def advance (visit : Visitor σ Int) (acc : σ) (r : Range) : Option (Except σ (σ × Bool) × Range) :=
  if r.cursor < r.bound then
    (r.width.checked (r.cursor + 1)).map fun next =>
      (visit.visited acc r.cursor, { r with cursor := next })
  else if r.pending then some (visit.visited acc r.cursor, { r with pending := false })
  else some (.ok (acc, false), r)

def ascend (w : Width) (visit : Visitor σ Int) (bound : Int) (acc : σ) (i : Int) :
    Option (Except σ (σ × Int)) :=
  if i < bound then
    match visit acc i with
    | .ok acc => if w.Fits (i + 1) then ascend w visit bound acc (i + 1) else none
    | .error acc => some (.error acc)
  else some (.ok (acc, i))
termination_by (bound - i).toNat

def drain (visit : Visitor σ Int) (acc : σ) (r : Range) : Option (Except σ σ × Range) :=
  let rest := { r with cursor := r.bound, pending := false }
  (ascend r.width visit r.bound acc r.cursor).map fun
    | .error acc => (.error acc, rest)
    | .ok (acc, i) => (if r.pending then visit acc i else .ok acc, rest)

def split (r : Range) : Option (Option Range × Range) := do
  let n ← size r
  if n ≤ 1 then return (none, r)
  else
    let p ← r.width.checked (splitPoint n)
    let mid ← r.width.checked (r.cursor + p)
    return (some { r with bound := mid, pending := false }, { r with cursor := mid })

end Range.Checked

end SplitTraversal
