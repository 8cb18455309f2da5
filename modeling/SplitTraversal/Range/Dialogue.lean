import SplitTraversal.Session.Command

/-!
Ranges in use. A range is made from two bounds or restored from a checkpoint. From then on it and the
pieces split off it stand side by side, in order, and are asked by their numbers: to traverse, to split, or
to tell something about themselves.
-/

namespace SplitTraversal.Range

inductive Origin
  | bounds (form : RangeForm) (lower upper : Int)
  | checkpoint (v : Json)

def Origin.make (w : Width) : Origin → Except Failure Range
  | bounds form lower upper => form.make w lower upper
  | checkpoint v => (decode w v).mapError .unreadable

/-- The bounds are values of 32 bits; those of a checkpoint, where one is written. -/
def Origin.Narrow : Origin → Prop
  | bounds _ lower upper => Width.word32.Fits lower ∧ Width.word32.Fits upper
  | checkpoint v => ∀ lower upper pending,
      v.fields? fieldNames = some [.int lower, .int upper, .bool pending] →
        Width.word32.Fits lower ∧ Width.word32.Fits upper

def widen (r : Range) : Range := { r with width := .word64 }

inductive Request
  | advance {σ : Type v} (visit : Visitor σ Int) (acc : σ)
  | drain {σ : Type v} (visit : Visitor σ Int) (acc : σ)
  | split
  | size
  | exactSize
  | guarantees
  | comparator
  | encode

inductive Answer
  /-- The visitor's state, and whether an integer was found if the visitor has returned. -/
  | advanced {σ : Type v} (result : Except σ (σ × Bool))
  | drained {σ : Type v} (result : Except σ σ)
  | split (found : Bool)
  | size (n : Nat)
  | exactSize (n : Option Nat)
  | guarantees (g : Guarantees)
  | comparator (order : Except Error (Comparator Int))
  | encoded (text : String)

/-- The answer, and the pieces that stand in place of the range afterwards. -/
def respond (r : Range) : Request → Answer × List Range
  | .advance visit acc => (r.advance visit acc).map .advanced ([·])
  | .drain visit acc => (r.drain visit acc).map .drained ([·])
  | .split => (.split r.split.1.isSome, r.split.1.toList ++ [r.split.2])
  | .size => (.size r.size, [r])
  | .exactSize => (.exactSize (Sequence.range r : Sequence Int).exactSize, [r])
  | .guarantees => (.guarantees r.guarantees, [r])
  | .comparator => (.comparator (Sequence.range r : Sequence Int).comparator, [r])
  | .encode => (.encoded r.encode.render, [r])

def ask (rs : List Range) (i : Nat) (request : Request) : Option Answer × List Range :=
  match rs[i]? with
  | none => (none, rs)
  | some r => (r.respond request).map some (rs.take i ++ · ++ rs.drop (i + 1))

def askAll : List Range → List (Nat × Request) → List (Option Answer) × List Range
  | rs, [] => ([], rs)
  | rs, (i, request) :: more =>
      let (answer, rs) := ask rs i request
      (askAll rs more).map (answer :: ·) id

end SplitTraversal.Range
