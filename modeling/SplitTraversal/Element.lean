import SplitTraversal.Json
import SplitTraversal.Numeral

/-!
Elements that a session handles: how they compare, what they weigh in a digest and how they are
written. Besides integers these are text and binary floating-point numbers, kept as their bits.
-/

namespace SplitTraversal

class Element (α : Type) extends Numeral α, BEq α, Ord α where
  /-- What the element adds to a digest. -/
  digestKey : α → Int
  text : α → String

instance : Element Int where
  toBEq := inferInstance
  toOrd := inferInstance
  digestKey := id
  text := toString

/-- Integers are read as their decimal text; text is ordered by code points and weighs its UTF-8
length. -/
instance : Element String where
  ofInt := toString
  toBEq := inferInstance
  toOrd := inferInstance
  digestKey s := s.utf8ByteSize
  text := Json.quote

structure Binary64 where
  bits : UInt64
  deriving DecidableEq, Repr

namespace Binary64

/-- Where the number lies among all numbers, unless it is not a number: the encoded magnitude with
its sign. Both zeros lie at zero. -/
def rank (x : Binary64) : Option Int :=
  let magnitude : Nat := x.bits.toNat % 0x8000000000000000
  if 0x7ff0000000000000 < magnitude then none
  else some (if x.bits.toNat < 0x8000000000000000 then magnitude else -magnitude)

def equal (x y : Binary64) : Bool :=
  match x.rank, y.rank with
  | some a, some b => a == b
  | _, _ => false

/-- The order of numbers. What is not a number lies neither before nor after anything. -/
def order (x y : Binary64) : Ordering :=
  match x.rank, y.rank with
  | some a, some b => Ord.compare a b
  | _, _ => .eq

def hex (x : Binary64) : String :=
  let digits := Nat.toDigits 16 x.bits.toNat
  String.ofList (List.replicate (16 - digits.length) '0' ++ digits)

def hexValue (c : Char) : Option Nat :=
  if '0' ≤ c ∧ c ≤ '9' then some (c.toNat - '0'.toNat)
  else if 'a' ≤ c ∧ c ≤ 'f' then some (c.toNat - 'a'.toNat + 10)
  else none

def ofHex? (s : String) : Option Binary64 := do
  let digits ← s.toList.mapM hexValue
  if digits.length = 16 then
    return ⟨UInt64.ofNat (digits.foldl (fun n d => 16 * n + d) 0)⟩
  else none

end Binary64

/-- Integers are rounded to the nearest number. -/
instance : Element Binary64 where
  ofInt i := ⟨(Float.ofInt i).toBits⟩
  beq := Binary64.equal
  compare := Binary64.order
  digestKey x := x.bits.toNat
  text := Binary64.hex

end SplitTraversal
