import SplitTraversal.Text.Record

/-!
What can go wrong, by cause. Every error is found before any state changes.
-/

namespace SplitTraversal

inductive Error
  /-- A builder was used after it was built. -/
  | alreadyBuilt
  /-- The order of a concatenation was asked for while it still spans two sequences. -/
  | unresolved
  /-- The order of an unsorted sequence was asked for. -/
  | unsorted
  /-- The lower bound of a range lies above the upper bound. -/
  | inverted (lower upper : Int)
  /-- A 64-bit range would hold more elements than its type can count. -/
  | oversized (lower upper : Int)
  deriving DecidableEq, Repr

inductive ErrorKind
  | illegalState
  | invalidArgument
  deriving DecidableEq, Repr

namespace Error

def kind : Error → ErrorKind
  | alreadyBuilt | unresolved | unsorted => .illegalState
  | inverted .. | oversized .. => .invalidArgument

def message : Error → String
  | alreadyBuilt => "sequence builder has already been built"
  | unresolved => "concatenation has not been reduced to a single sequence"
  | unsorted => "sequence is not sorted"
  | inverted lower upper => "invalid range: " ++ toString lower ++ " > " ++ toString upper
  | oversized lower upper =>
      "range " ++ toString lower ++ ".." ++ toString upper ++ " holds more than i64::MAX elements"

def name : Error → String
  | alreadyBuilt => "AlreadyBuilt"
  | unresolved => "ConcatUnresolved"
  | unsorted => "NotSorted"
  | inverted .. => "InvalidRange"
  | oversized .. => "RangeTooLarge"

def bounds : Error → Option (Int × Int)
  | inverted lower upper | oversized lower upper => some (lower, upper)
  | _ => none

def describe (e : Error) : String :=
  match e.bounds with
  | none => e.name
  | some (lower, upper) =>
      Text.record e.name [("from", toString lower), ("up_to", toString upper)]

end Error

/-- How a request fails: with an error, by a panic with a message, or because a checkpoint cannot be
read, either in its form or for the reason that the value it holds is refused. -/
inductive Failure
  | error (e : Error)
  | panic (message : String)
  | unreadable (reason : Option Error)
  deriving DecidableEq, Repr

theorem mapError_eq_ok_iff {ε : Type u} {δ : Type v} {β : Type w} {x : Except ε β} {f : ε → δ} {y : β} :
    x.mapError f = .ok y ↔ x = .ok y := by
  cases x with
  | error e =>
    show (Except.error (f e) : Except δ β) = .ok y ↔ _
    simp
  | ok a =>
    show (Except.ok a : Except δ β) = .ok y ↔ _
    simp

theorem mapError_eq_error_iff {ε : Type u} {δ : Type v} {β : Type w} {x : Except ε β} {f : ε → δ} {y : δ} :
    x.mapError f = .error y ↔ ∃ e, x = .error e ∧ y = f e := by
  cases x with
  | error e =>
    show (Except.error (f e) : Except δ β) = .error y ↔ _
    simp [eq_comm]
  | ok a =>
    show (Except.ok a : Except δ β) = .error y ↔ _
    simp

end SplitTraversal
