import SplitTraversal.Checkpoint
import SplitTraversal.Close
import SplitTraversal.Digest
import SplitTraversal.Sequence.Basic

/-!
What a session is asked to do and what it answers. Sequences, builders and buffers are named by the
number of their register.
-/

namespace SplitTraversal

inductive Values (α : Type)
  | given (xs : List α)
  | counted (start : Int) (n : Nat)

def Values.toList [Numeral α] : Values α → List α
  | given xs => xs
  | counted start n => (List.range n).map fun k : Nat => Numeral.ofInt (start + k)

inductive RangeForm
  | checked (withUpper : Bool)
  | orPanic (withUpper : Bool)
  | halfOpen
  | closed
  deriving DecidableEq, Repr

def RangeForm.make (w : Width) (lower upper : Int) : RangeForm → Except Failure Range
  | checked withUpper => (Range.ofBounds w lower upper withUpper).mapError .error
  | orPanic withUpper => Range.ofBoundsOrPanic w lower upper withUpper
  | halfOpen => Range.halfOpen w lower upper
  | closed => Range.closed w lower upper

inductive SuppliedOrder
  | none
  | natural
  | reversed
  deriving DecidableEq, Repr

def SuppliedOrder.comparator [Ord α] : SuppliedOrder → Option (Comparator α)
  | none => Option.none
  | natural => some .natural
  | reversed => some (.custom fun x y => compare y x)

inductive Purpose (α : Type)
  | collect
  | digest
  | count
  | sum
  | min
  | find (x : α)
  /-- Takes the sequence back without traversing it. -/
  | inner

inductive Command (α : Type)
  | makeRange (form : RangeForm) (lower upper : Int)
  | restoreRange (checkpoint : Json)
  | makeEmpty
  | makeInline (x : Option α)
  | makeBuilt (x : α)
  | supply (items : Values α) (guarantees : Guarantees) (surplus : Nat) (order : SuppliedOrder)
  | concat (a b : Nat)
  | copy (s : Nat)
  | split (s : Nat)
  | newBuilder
  | accept (b : Nat) (x : α)
  | acceptAll (b : Nat) (xs : Values α)
  | extend (b : Nat) (xs : Values α)
  | build (b : Nat)
  | copyBuilder (b : Nat)
  | describeBuilder (b : Nat)
  | newBuffer (xs : Values α)
  | push (b : Nat) (x : α)
  | append (b : Nat) (xs : Values α)
  | get (b : Nat) (positions : List Nat)
  | listBuffer (b : Nat)
  | describeBuffer (b : Nat)
  | copyBuffer (b : Nat)
  | traverseBuffer (b : Nat)
  | query (s : Nat)
  | has (s : Nat) (guarantees : Guarantees)
  | describe (s : Nat)
  | encode (s : Nat)
  | advance (s : Nat) (n : Nat)
  | drain (s : Nat)
  | drainDigest (s : Nat)
  /-- Drains with a visitor that records `k` elements and raises on the next one. -/
  | drainRaising (s : Nat) (k : Nat)
  /-- Advances with a visitor that raises. -/
  | advanceRaising (s : Nat)
  | compare (s : Nat) (x y : α)
  | iterate (s : Nat) (n : Nat)
  | same (a b : Nat)
  | fold (s : Nat)
  | leaves (s : Nat) (bound : Nat) (listed : Bool)
  | parallel (s : Nat) (purpose : Purpose α)

/-- A leaf of a recursive splitting: its estimate, its guarantees and, if asked for, its elements. -/
structure Leaf (α : Type) where
  size : Nat
  guarantees : Guarantees
  items : Option (List α)

inductive Answer (α : Type)
  /-- The register is empty. -/
  | vacant
  | failed (f : Failure)
  /-- Nothing but the state afterwards. -/
  | done
  | accepted
  | acceptedAll (count : Nat)
  /-- The register of a new sequence, or none where a split was refused. -/
  | sequence (register : Option Nat)
  | builder (register : Nat)
  | buffer (register : Nat)
  | truth (b : Bool)
  | text (s : String)
  | number (n : Int)
  | element (x : Option α)
  | elements (xs : List (Option α))
  | items (xs : List α)
  | digest (d : Digest α)
  | advanced (found : List Bool) (items : List α)
  | drained (items : List α) (aborted : Bool)
  | aborted (b : Bool)
  | natural
  | ordering (o : Ordering)
  | iterated (items : List (Option α)) (hints : List (Nat × Option Nat))
  | leaves (ls : List (Leaf α))

/-- An answer, with what the command used as it stands afterwards. -/
structure Reply (α : Type) where
  answer : Answer α
  sequence : Option (Sequence α) := none
  rest : Option (Sequence α) := none
  builder : Option (Builder α) := none
  buffer : Option (Store α) := none

end SplitTraversal
