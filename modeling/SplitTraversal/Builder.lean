import SplitTraversal.Buffer.Store
import SplitTraversal.Built
import SplitTraversal.Error

/-!
Builders accept elements one at a time and are then built, once, into a sequence. A builder that has
been built accepts and builds nothing more and stays as it is.
-/

namespace SplitTraversal

inductive Builder (α : Type u)
  | empty
  | one (x : α)
  | many (s : Store α)
  /-- Built after accepting `count` elements. -/
  | built (count : Nat)
  deriving DecidableEq, Repr

namespace Builder

/-- How many elements were accepted, also after the builder has been built. -/
def count : Builder α → Nat
  | empty => 0
  | one _ => 1
  | many s => s.length
  | built n => n

def isBuilt : Builder α → Bool
  | built _ => true
  | _ => false

def accept (b : Builder α) (x : α) : Except Error Unit × Builder α :=
  match b with
  | empty => (.ok (), one x)
  | one first => (.ok (), many ((Store.empty.push first).push x))
  | many s => (.ok (), many (s.push x))
  | built n => (.error .alreadyBuilt, built n)

def acceptAll (b : Builder α) : List α → Except Error Unit × Builder α
  | [] => (.ok (), b)
  | x :: xs =>
      match b.accept x with
      | (.ok (), b) => b.acceptAll xs
      | (.error e, b) => (.error e, b)

theorem acceptAll_many (s : Store α) (xs : List α) :
    (many s).acceptAll xs = (.ok (), many (s.append xs)) := by
  induction xs generalizing s with
  | nil => rfl
  | cons x xs ih => exact ih (s.push x)

/-- As `acceptAll`, but a refusal is a panic. -/
def extend (b : Builder α) (xs : List α) : Except Failure Unit × Builder α :=
  (b.acceptAll xs).map (Except.mapError fun e => .panic e.message) id

def build (b : Builder α) : Except Error (Built α) × Builder α :=
  match b with
  | empty => (.ok (.inline .empty), built 0)
  | one x => (.ok (.inline (.of x)), built 1)
  | many s => (.ok (.buffered s.toQueue), built s.length)
  | built n => (.error .alreadyBuilt, built n)

theorem build_acceptAll (xs : List α) : (empty.acceptAll xs).2.build.1 = .ok (match xs with
    | [] => .inline .empty
    | [x] => .inline (.of x)
    | xs => .buffered (Store.ofList xs).toQueue) := by
  match xs with
  | [] => rfl
  | [x] => rfl
  | x :: y :: xs =>
    simp only [acceptAll, accept, acceptAll_many]
    rfl

def describe (text : α → String) (b : Builder α) : String :=
  Text.record "SequenceBuilder"
    [("state", match b with
      | empty => "Empty"
      | one x => Text.tagged "One" (text x)
      | many s => Text.tagged "Many" (s.describe text)
      | built n => Text.record "Built" [("count", toString n)])]

end Builder

end SplitTraversal
